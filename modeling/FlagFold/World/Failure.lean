/-
  FlagFold.World.Failure

  Everything for which work on a module can fail, with its wording.
-/

import FlagFold.Concrete.Faults
import FlagFold.Fold.Binding
import FlagFold.Json.Reader
import FlagFold.Print.Edit
import FlagFold.SourceMap.Compose
import FlagFold.Tree.StringLiteral
import FlagFold.World.Files

namespace FlagFold

/-- Why work on a module fails. -/
inductive Failure where
  | unparsable (fault : SyntaxFault)
  | unknownLanguage (name : Text)
  | noCodePoint (fault : StringLiteral.NoCodePoint)
  | shape (fault : ShapeFault)
  | print (error : PrintError)
  | sourceMap (fault : MapFault)
  | file (fault : FileFault)
  | notUtf8 (fault : Utf8.Fault)
  | loneSurrogate
  | json (document : Text) (fault : Json.Fault)
  | featuresNotAnObject (path : Text)
  | nulInPath
  /-- A JSON value is of another kind than the one that is needed. -/
  | wrongKind
  /-- A member is asked of a JSON value that is no object. -/
  | noMembers
  /-- There is not stack enough for what nests in a module or in a JSON value. -/
  | stackExhausted

namespace Failure

/-- The wording of a failure; some have none of their own. -/
def message : Failure → Text
  | unparsable fault => fault.message
  | unknownLanguage name => text "Unknown language: " ++ name
  | noCodePoint _ => text "chr() arg not in range(0x110000)"
  | print error => (error.message?).getD []
  | sourceMap fault => fault.message
  | file fault => fault.message
  | notUtf8 fault => fault.message
  | json document fault => fault.message document
  | featuresNotAnObject path =>
    text "Feature map '" ++ path ++ text "' must be a JSON object"
  | nulInPath => text "embedded null byte"
  | stackExhausted => text "maximum recursion depth exceeded"
  | shape _ | loneSurrogate | wrongKind | noMembers => []

/-- Does the failure end the work on one file only? -/
def concernsOneFile : Failure → Bool
  | unparsable _ | sourceMap _ | file _ | notUtf8 _ => true
  | _ => false

/-- Does the failure mean that no features can be had? -/
def concernsFeatures : Failure → Bool
  | json _ .tooDeep => false
  | file _ | notUtf8 _ | json _ _ | featuresNotAnObject _ | nulInPath | loneSurrogate => true
  | _ => false

/-- A failure to chain two maps. -/
def ofCompose : ComposeError → Failure
  | .fault fault => sourceMap fault
  | .notAList _ => wrongKind

end Failure
end FlagFold
