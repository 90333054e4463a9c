/-
  FlagFold.Report

  What is reported: the dynamic features of a module, and the outcome of a run
  over several files, as lines or as JSON.
-/

import FlagFold.Json.Printer

namespace FlagFold

/-! ## Dynamic features -/

/-- The line about dynamic features, where there are any. -/
def dynamicLine? (flags : List Text) : Option Text :=
  if flags.isEmpty then none else some (text "Dynamic features: " ++ Text.join (text ", ") flags)

/-- What is written about dynamic features: the line between two empty ones. -/
def dynamicReport (flags : List Text) : Text :=
  match dynamicLine? flags with
  | none => []
  | some line => text "\n" ++ line ++ text "\n\n"

/-! ## Runs over several files -/

/-- The outcome of the work on one file. -/
structure FileReport where
  path : Text
  output : Option Text := none
  changed : Bool := false
  dynamic : List Text := []
  error : Option Text := none

namespace FileReport

/-- Is a text there and not empty? -/
private def isNamed (t : Option Text) : Bool := (t.map (!·.isEmpty)).getD false

/-- Did the work on the file fail? -/
def failed (r : FileReport) : Bool := isNamed r.error

/-- The report as JSON; what is empty is left out. -/
def toJson (r : FileReport) : Json :=
  .obj <|
    [(text "path", .str r.path), (text "changed", .bool r.changed)] ++
    (if isNamed r.output then [(text "output", .str (r.output.getD []))] else []) ++
    (if r.dynamic.isEmpty then []
     else [(text "dynamic_features", .arr (r.dynamic.map .str))]) ++
    (if r.failed then [(text "error", .str (r.error.getD []))] else [])

end FileReport

/-- How a run is summed up. -/
inductive SummaryStyle where
  | short
  | json
  deriving DecidableEq

/-- The style of a name. -/
def SummaryStyle.ofName? (t : Text) : Option SummaryStyle :=
  if t = text "short" then some .short else if t = text "json" then some .json else none

namespace Summary

/-- The number of files on which the work failed. -/
def failures (reports : List FileReport) : Nat := (reports.filter (·.failed)).length

/-- A text in a terminal style, where styles are used. -/
private def styled (colors : Bool) (code : String) (t : Text) : Text :=
  if colors then text "\x1b[" ++ text code ++ text "m" ++ t ++ text "\x1b[0m" else t

/-- The line about one file. -/
def line (colors : Bool) (r : FileReport) : Text :=
  let tagged (code tag : String) (rest : Text) : Text :=
    text "[" ++ styled colors code (text tag) ++ text "][" ++ r.path ++ text "]" ++ rest
  if r.failed then tagged "31" "FAILED" (text " " ++ r.error.getD [])
  else
    let rest :=
      if r.dynamic.isEmpty then []
      else text " - dynamic: " ++ Text.join (text ", ") r.dynamic
    if r.changed then tagged "32" "CHANGED" rest else tagged "2" "UNCHANGED" rest

/-- A line for each file and one for all. -/
def short (colors : Bool) (reports : List FileReport) : Text :=
  let changed := (reports.filter (·.changed)).length
  (reports.flatMap fun r => line colors r ++ text "\n") ++ text "\n" ++
    styled colors "1" (Text.ofNat reports.length ++ text " file(s)") ++ text ": " ++
    Text.ofNat changed ++ text " changed, " ++ Text.ofNat (failures reports) ++ text " failed\n"

/-- The run as JSON. -/
def json (reports : List FileReport) : Text :=
  let whole : Json := .obj
    [(text "files", .arr (reports.map FileReport.toJson)),
     (text "total", .int reports.length), (text "failed", .int (failures reports))]
  whole.pretty ++ text "\n"

/-- The summary of a run. -/
def write (style : SummaryStyle) (colors : Bool) (reports : List FileReport) : Text :=
  match style with
  | .short => short colors reports
  | .json => json reports

end Summary
end FlagFold
