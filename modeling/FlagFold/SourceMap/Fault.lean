/-
  FlagFold.SourceMap.Fault

  What can be wrong with a source map, and the wording of it.
-/

import FlagFold.Json.Printer

namespace FlagFold

/-- Which of two chained maps is meant: the one that came with the text, or the one made when
the text was printed. -/
inductive MapRole where
  | input
  | generated
  deriving DecidableEq

/-- The word for a role. -/
def MapRole.label : MapRole → Text
  | input => text "Input"
  | generated => text "Generated"

/-- What is wrong with a source map. -/
inductive MapFault where
  | unterminatedNumber
  | invalidDigit (c : CodePoint)
  | fieldCount (segment : Text) (count : Nat)
  | notAMapping (role : MapRole) (value : Json)
  | unsupportedVersion (role : MapRole) (version : Json)
  | noMappings (role : MapRole)
  | invalidSources (role : MapRole)
  | unreadable (path : Text) (reason : Text)
  | notAnObject (path : Text)

/-- The wording of a fault. -/
def MapFault.message : MapFault → Text
  | unterminatedNumber => text "Unterminated VLQ value in mappings"
  | invalidDigit c => text "Invalid base64 character " ++ Text.quoted [c] ++ text " in mappings"
  | fieldCount segment count =>
    text "Segment " ++ segment.quoted ++ text " has " ++ Text.ofNat count ++ text " fields"
  | notAMapping role value =>
    role.label ++ text " source map must be a mapping, got " ++ value.kindName
  | unsupportedVersion role version =>
    role.label ++ text " source map has unsupported version " ++ version.shown
  | noMappings role => role.label ++ text " source map has no mappings"
  | invalidSources role => role.label ++ text " source map has invalid sources"
  | unreadable path reason => text "Cannot read source map " ++ path ++ text ": " ++ reason
  | notAnObject path => text "Source map " ++ path ++ text " is not a JSON object"

end FlagFold
