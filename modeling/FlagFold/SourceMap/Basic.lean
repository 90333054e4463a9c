/-
  FlagFold.SourceMap.Basic

  Source maps of revision 3, as documents and as checked mappings, and the map of
  a text that comes from one source.
-/

import FlagFold.SourceMap.Mappings

namespace FlagFold

/-- A source map. Its parts other than the mappings are carried along as they are. -/
structure SourceMap where
  file : Json
  sources : List Json
  names : List Json
  mappings : Text
  sourceRoot : Option Json := none
  sourcesContent : Option (List Json) := none

namespace SourceMap

/-- The revision of the format. -/
def revision : Nat := 3

/-- The map as a document. -/
def toJson (m : SourceMap) : Json :=
  .obj <|
    [(text "version", .int revision), (text "file", m.file), (text "sources", .arr m.sources),
     (text "names", .arr m.names), (text "mappings", .str m.mappings)] ++
    (m.sourceRoot.map fun root => (text "sourceRoot", root)).toList ++
    (m.sourcesContent.map fun contents => (text "sourcesContent", .arr contents)).toList

/-- The first of some texts that is there and not empty. -/
private def firstNamed : List (Option Text) → Text
  | [] => []
  | some t :: rest => if t.isEmpty then firstNamed rest else t
  | none :: rest => firstNamed rest

/-- The map of a text made from the one source `source`. -/
def ofMappings (m : Mappings) (file source : Option Text) : SourceMap where
  file := .str (firstNamed [file])
  sources := [.str (firstNamed [source, file])]
  names := []
  mappings := m.encode

/-- The mappings of a document that is a source map. -/
def check (role : MapRole) (document : Json) : Except MapFault Mappings :=
  match document with
  | .obj members => do
    match Table.find? members (text "version") with
    | some version =>
      if !version.isNumber revision then throw (.unsupportedVersion role version)
    | none => pure ()
    match Table.find? members (text "mappings") with
    | some (.str mappings) =>
      match Table.find? members (text "sources") with
      | none | some (.arr _) => Mappings.decode mappings
      | some _ => throw (.invalidSources role)
    | _ => throw (.noMappings role)
  | other => .error (.notAMapping role other)

end SourceMap
end FlagFold
