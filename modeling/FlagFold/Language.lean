/-
  FlagFold.Language

  The languages of modules, and which one a path stands for.
-/

import FlagFold.Text.Basic

namespace FlagFold

/-- A language of modules. -/
inductive Language where
  | javascript
  | typescript
  | tsx
  deriving DecidableEq

namespace Language

/-- The name of a language. -/
def name : Language → Text
  | javascript => text "javascript"
  | typescript => text "typescript"
  | tsx => text "tsx"

/-- The language of a name. -/
def ofName? (t : Text) : Option Language :=
  [javascript, typescript, tsx].find? (·.name = t)

/-- The endings of paths that stand for another language than JavaScript. -/
def endings : List (String × Language) :=
  [(".ts", typescript), (".mts", typescript), (".cts", typescript), (".tsx", tsx)]

/-- The language for which a path stands, upper case counting as lower case. -/
def ofPath (path : Text) : Language :=
  let path := path.toLower
  match endings.find? fun (ending, _) => (text ending).isSuffixOf path with
  | some (_, language) => language
  | none => javascript

end Language
end FlagFold
