/-
  FlagFold.Tree.Walk

  The one traversal of trees.  A visitor enters a node before the nodes below it
  and leaves it after them; on entering it may put another node in its place,
  which ends the visit there, and on leaving it may change the node once more.
-/

import FlagFold.Tree.Basic

namespace FlagFold

/-- Where a node hangs: the kind of its parent, the part, and its index if the part is a list,
with the number of nodes that follow it there. -/
structure Place where
  parent : Kind
  field : Field
  index : Option Nat
  following : Nat := 0
  deriving DecidableEq

/-- What becomes of a node on entering it: another node in its place, into which the visit does
not go, or the node with its `info` changed and the visit going on below it. -/
inductive Entry where
  | skip (replacement : Node)
  | descend (info : Info)

/-- The actions of a traversal, on a state of type `σ`. The root has no place. -/
structure Visitor (σ : Type) where
  enter : Option Place → Node → σ → Entry × σ
  leave : Option Place → Node → σ → Node × σ := fun _ node s => (node, s)

section

variable {σ : Type}

mutual

/-- Visits a node and what is below it. -/
def Node.traverse (v : Visitor σ) (place : Option Place) : Node → σ → Node × σ
  | .mk info shape, s =>
    match v.enter place (.mk info shape) s with
    | (.skip replacement, s) => (replacement, s)
    | (.descend info, s) =>
      let (shape, s) := traverseShape v shape s
      v.leave place (.mk info shape) s

/-- Visits the nodes of a form, part by part. -/
def traverseShape (v : Visitor σ) : Shape Node → σ → Shape Node × σ
  | .program body source, s =>
    let (body, s) := traverseList v .program .body 0 body s
    (.program body source, s)
  | .expressionStatement expression, s =>
    let (expression, s) := traverseOption v .expressionStatement .expression expression s
    (.expressionStatement expression, s)
  | .variableDeclaration keyword declarations, s =>
    let (declarations, s) :=
      traverseList v .variableDeclaration .declarations 0 declarations s
    (.variableDeclaration keyword declarations, s)
  | .variableDeclarator target init, s =>
    let (target, s) := traverseOption v .variableDeclarator .target target s
    let (init, s) := traverseOption v .variableDeclarator .init init s
    (.variableDeclarator target init, s)
  | .importDeclaration specifiers source, s =>
    let (specifiers, s) := traverseList v .importDeclaration .specifiers 0 specifiers s
    let (source, s) := traverseOption v .importDeclaration .source source s
    (.importDeclaration specifiers source, s)
  | .importDefault binding, s =>
    let (binding, s) := traverseOption v .importDefault .binding binding s
    (.importDefault binding, s)
  | .importNamespace binding, s =>
    let (binding, s) := traverseOption v .importNamespace .binding binding s
    (.importNamespace binding, s)
  | .importSpecifier imported binding, s =>
    let (binding, s) := traverseOption v .importSpecifier .binding binding s
    (.importSpecifier imported binding, s)
  | .call callee arguments optional, s =>
    let (callee, s) := traverseOption v .call .callee callee s
    let (arguments, s) := traverseList v .call .arguments 0 arguments s
    (.call callee arguments optional, s)
  | .member object property optional, s =>
    let (object, s) := traverseOption v .member .object object s
    let (property, s) := traverseOption v .member .property property s
    (.member object property optional, s)
  | .template chunks expressions, s =>
    let (expressions, s) := traverseList v .template .expressions 0 expressions s
    (.template chunks expressions, s)
  | .generic kind children, s =>
    let (children, s) := traverseList v (.generic kind) .children 0 children s
    (.generic kind children, s)
  | .identifier name, s => (.identifier name, s)
  | .string value raw, s => (.string value raw, s)
  | .boolean value, s => (.boolean value, s)
  | .removed, s => (.removed, s)

/-- Visits the node of a part that holds at most one. -/
def traverseOption (v : Visitor σ) (parent : Kind) (field : Field) :
    Option Node → σ → Option Node × σ
  | none, s => (none, s)
  | some node, s =>
    let (node, s) := node.traverse v (some ⟨parent, field, none, 0⟩) s
    (some node, s)

/-- Visits the nodes of a list, the first being at `index`. -/
def traverseList (v : Visitor σ) (parent : Kind) (field : Field) (index : Nat) :
    List Node → σ → List Node × σ
  | [], s => ([], s)
  | node :: rest, s =>
    let (node, s) := node.traverse v (some ⟨parent, field, some index, rest.length⟩) s
    let (rest, s) := traverseList v parent field (index + 1) rest s
    (node :: rest, s)

end

end

end FlagFold
