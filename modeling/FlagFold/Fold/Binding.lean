/-
  FlagFold.Fold.Binding

  Which local names refer to the feature-query module.  Only statements of the
  program itself are looked at:

    * `var has = require('some/path/has');`
    * `import has from 'some/path/has';` and `import { default as has } …`
    * `import * as has from 'some/path/has';`, which binds a namespace: only its
      members can be called
    * `import { exists, add } from 'some/path/has';`

  The first name of each kind counts; later ones never replace it.
-/

import FlagFold.Tree.Basic

namespace FlagFold

/-- The names bound to the feature-query module. -/
structure Binding where
  /-- The module itself. -/
  name : Option Text := none
  /-- Can the module itself be called? -/
  directCall : Bool := true
  /-- Its function `exists`. -/
  existsName : Option Text := none
  /-- Its function `add`. -/
  addName : Option Text := none
  deriving DecidableEq

/-- A node that a pass has to look into is not of a kind that has what it looks for. -/
inductive ShapeFault where
  | noSuchPart
  | notText
  deriving DecidableEq

namespace Binding

/-- Is a name there and not empty? -/
private def isNamed (name : Option Text) : Bool := (name.map (!·.isEmpty)).getD false

/-- Is any name bound? -/
def isBound (b : Binding) : Bool :=
  isNamed b.name || isNamed b.existsName || isNamed b.addName

/-- Binds the module, unless it is bound; says whether it did. -/
def bind (b : Binding) (name : Text) (directCall : Bool) : Bool × Binding :=
  if b.name.isSome then (false, b) else (true, { b with name := some name, directCall })

/-- Binds the function `exists`, unless it is bound; says whether it did. -/
def bindExists (b : Binding) (name : Text) : Bool × Binding :=
  if b.existsName.isSome then (false, b) else (true, { b with existsName := some name })

/-- Binds the function `add`, unless it is bound; says whether it did. -/
def bindAdd (b : Binding) (name : Text) : Bool × Binding :=
  if b.addName.isSome then (false, b) else (true, { b with addName := some name })

/-- The names inside the feature-query module itself. -/
def bindOwnNames (b : Binding) : Binding :=
  ((b.bind (text "has") true).2.bindAdd (text "add")).2

end Binding

/-! ## Module names -/

/-- Does a text end like the pattern's end: at its end, or before a line feed that ends it? -/
def endsLike (suffix t : Text) : Bool :=
  suffix.isSuffixOf t || (suffix ++ text "\n").isSuffixOf t

/-- Does a module name mean the feature-query module? -/
def isQueryModule (name : Text) : Bool := endsLike (text "/has") name

/-- The directories and the name of the feature-query module's own file. -/
private def ownFileSteps : List Text := [text "@dojo", text "framework", text "core"]

/-- The endings of the feature-query module's own file. -/
private def ownFileEndings : List Text := [text "js", text "mjs", text "ts"]

/-- The ends of the paths of the feature-query module's own file: steps are parted by either
slash. -/
def ownFileEnds : List Text :=
  let slashes := [text "/", text "\\"]
  let directories := ownFileSteps.foldl (fun heads step =>
    heads.flatMap fun head => slashes.map fun slash => head ++ step ++ slash) [[]]
  directories.flatMap fun directory =>
    ownFileEndings.map fun ending => directory ++ text "has." ++ ending

/-- Is a path that of the feature-query module's own file? -/
def isOwnFile (path : Text) : Bool := ownFileEnds.any fun suffix => endsLike suffix path

/-! ## Statements that bind -/

namespace Node

/-- The value of a literal node. -/
inductive LiteralValue where
  | words (t : Text)
  | truth (b : Bool)
  deriving DecidableEq

/-- The value of a node that has to be a literal. -/
def literalValue (n : Node) : Except ShapeFault LiteralValue :=
  match n.shape with
  | .string value _ => .ok (.words value)
  | .boolean value => .ok (.truth value)
  | _ => .error .noSuchPart

/-- The name of a node that has to be an identifier. -/
def name (n : Node) : Except ShapeFault Text :=
  match n.shape with
  | .identifier name => .ok name
  | _ => .error .noSuchPart

/-- The module that `require('…')` loads. -/
def requiredModule? (n : Option Node) : Option Text :=
  match n.map shape with
  | some (.call (some callee) [argument] _) =>
    match callee.shape, argument.shape with
    | .identifier name, .string value _ => if name = text "require" then some value else none
    | _, _ => none
  | _ => none

/-- The module that the statement `require('…');` loads. -/
def bareRequire? (n : Node) : Option Text :=
  match n.shape with
  | .expressionStatement expression => requiredModule? expression
  | _ => none

end Node

/-- An action on the bound names that may meet a node of the wrong kind; what it had bound
before stays bound. -/
abbrev Binder := ExceptT ShapeFault (StateM Binding)

namespace Binder

/-- Runs one of the operations that bind a name. -/
private def bound (op : Binding → Bool × Binding) : Binder Bool := modifyGet op

/-- `var a = require('some/path/has')`: the first declarator that fits decides. -/
def declarators : List Node → Binder Bool
  | [] => pure false
  | d :: rest =>
    match d.shape with
    | .variableDeclarator target init =>
      match target.map Node.shape with
      | some (.identifier name) =>
        if ((Node.requiredModule? init).map isQueryModule).getD false then
          bound (·.bind name true)
        else declarators rest
      | _ => declarators rest
    | _ => throw .noSuchPart

/-- One name of an import from the feature-query module. -/
def specifier (s : Node) : Binder Bool :=
  match s.shape with
  | .importDefault none | .importNamespace none | .importSpecifier _ none => pure false
  | .importDefault (some binding) => do
    let name ← binding.name
    bound (·.bind name true)
  | .importNamespace (some binding) => do
    let name ← binding.name
    bound (·.bind name false)
  | .importSpecifier imported (some binding) =>
    if imported = text "default" then do
      let name ← binding.name
      bound (·.bind name true)
    else if imported = text "exists" then do
      let name ← binding.name
      discard <| bound (·.bindExists name)
      return false
    else if imported = text "add" then do
      let name ← binding.name
      discard <| bound (·.bindAdd name)
      return false
    else pure false
  | _ => throw .noSuchPart

/-- All names of an import from the feature-query module; says whether one bound the module. -/
def specifiers : List Node → Binder Bool
  | [] => pure false
  | s :: rest => do
    -- The names after one that has bound the module are looked at too.
    let here ← specifier s
    let there ← specifiers rest
    return here || there

/-- `import … from 'some/path/has'`. -/
def importFrom (names : List Node) (source : Option Node) : Binder Bool :=
  match source with
  | none => pure false
  | some s => do
    match ← s.literalValue with
    | .truth _ => throw .notText
    | .words module => if isQueryModule module then specifiers names else pure false

/-- Looks at one statement of the program; says whether it bound the module. -/
def statement (n : Node) : Binder Bool := do
  let b ← get
  match n.shape with
  -- An import may bind functions even where the module is bound already.
  | .importDeclaration names source => importFrom names source
  | .variableDeclaration _ ds => if b.name.isSome then pure false else declarators ds
  | _ => pure false

/-- Looks at all statements of a list. -/
def statements : List Node → Binder Unit
  | [] => pure ()
  | n :: rest => do
    discard <| statement n
    statements rest

end Binder

/-- The names that the statements of a program bind, after those already bound. -/
def Node.scanBindings (program : Node) (b : Binding) : Except ShapeFault Unit × Binding :=
  match program.shape with
  | .program body _ => (Binder.statements body).run.run b
  | _ => (.ok (), b)

/-- What is noted when the statement on `line` has bound the module. -/
def Binding.note (b : Binding) (line : Nat) : Text :=
  text "Feature-query module bound to '" ++ b.name.getD [] ++ text "' (line " ++
    Text.ofNat line ++ text ")"

end FlagFold
