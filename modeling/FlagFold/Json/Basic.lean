/-
  FlagFold.Json.Basic

  JSON values as documents hold them: the members of an object in order, whole
  numbers apart from floating-point ones.
-/

import FlagFold.Decimal.Binary64
import FlagFold.Table
import FlagFold.Text.Basic

namespace FlagFold

/-- A JSON value. -/
inductive Json where
  | null
  | bool (value : Bool)
  | int (value : Int)
  | real (value : Binary64)
  | str (value : Text)
  | arr (items : List Json)
  | obj (members : List (Text × Json))

instance : Inhabited Json := ⟨.null⟩

namespace Json

/-- Is the value anything but `false`, a zero, `null` or empty? -/
def isTruthy : Json → Bool
  | null => false
  | bool b => b
  | int i => i ≠ 0
  | real x => !x.isZero
  | str t => !t.isEmpty
  | arr items => !items.isEmpty
  | obj members => !members.isEmpty

/-- The member of a name. -/
def member? (name : Text) : Json → Option Json
  | obj members => Table.find? members name
  | _ => none

/-- The word for the kind of a value. -/
def kindName : Json → Text
  | null => text "NoneType"
  | bool _ => text "bool"
  | int _ => text "int"
  | real _ => text "float"
  | str _ => text "str"
  | arr _ => text "list"
  | obj _ => text "dict"

/-- Is the value the whole number `n`, also when it is written as a floating-point number?
A number that is a truth value counts as zero or one. -/
def isNumber (n : Nat) : Json → Bool
  | bool b => b.toNat = n
  | int i => i = n
  | real x => x = Binary64.ofDecimal false n 0
  | _ => false

end Json
end FlagFold
