/-
  FlagFold.Fold.Query

  Feature queries and their static evaluation.  With `has` bound to the
  feature-query module:

      has('foo')            becomes true or false if 'foo' is known
      has.default('foo')    likewise
      has.exists('foo')     becomes true if 'foo' is known
      has.add('foo', fn)    becomes has.add('foo', true) or has.add('foo', false)
                            unless 'foo' is to be left alone

  Queries for unknown flags stay as they are and are reported as dynamic; calls
  whose argument is no plain string are no queries.
-/

import FlagFold.Fold.Pragma

namespace FlagFold

/-- What a call asks of the feature-query module. -/
inductive Query where
  | value
  | presence
  | registration
  deriving DecidableEq

/-- The name of a query. -/
def Query.name : Query → String
  | value => "has"
  | presence => "exists"
  | registration => "add"

namespace Node

/-- Is the node the identifier `name`? -/
def isNamed (n : Node) (name : Option Text) : Bool :=
  match n.shape with
  | .identifier own => some own = name
  | _ => false

/-- Is the node the member `property` of the identifier `object`? -/
def isMember (n : Node) (object : Option Text) (property : String) : Bool :=
  match n.shape with
  | .member (some o) (some p) _ => o.isNamed object && p.isNamed (some (text property))
  | _ => false

end Node

/-- What a call with the given callee and number of arguments asks. -/
def Binding.query? (b : Binding) (callee : Node) (count : Nat) : Option Query :=
  if count = 1 then
    -- A namespace cannot be called itself, but its member `default` can.
    if (b.directCall && callee.isNamed b.name) || callee.isMember b.name "default" then
      some .value
    else if callee.isNamed b.existsName || callee.isMember b.name "exists" then some .presence
    else none
  else if count = 2 || count = 3 then
    if callee.isNamed b.addName || callee.isMember b.name "add" then some .registration else none
  else none

/-- What a node asks that has to be a call. -/
def Node.query (n : Node) (b : Binding) : Except ShapeFault (Option Query) :=
  match n.shape with
  | .call callee arguments _ => .ok (callee.bind (b.query? · arguments.length))
  | _ => .error .noSuchPart

/-- What the pass knows: the flags, and those whose registrations are to be left alone. -/
structure FoldContext where
  features : FeatureMap
  staticOnly : List Text
  binding : Binding

/-- The state of the pass: how many queries were folded, and the unknown flags in the order in
which they were first met. -/
structure Folding where
  count : Nat := 0
  dynamic : List Text := []

namespace Folding

/-- Reports a flag as dynamic, once. -/
def addDynamic (dynamic : List Text) (flag : Text) : List Text :=
  if dynamic.contains flag then dynamic else dynamic ++ [flag]

end Folding

namespace FoldContext

/-- The registration with the value of its flag as second argument. -/
def foldRegistration? (ctx : FoldContext) (info : Info) (callee : Option Node)
    (arguments : List Node) (optional : Bool) : Option Node :=
  match arguments with
  | first :: second :: _ => do
    let flag ← first.literal?
    let value ← ctx.features.find? flag
    guard (!ctx.staticOnly.contains flag)
    return .mk { info with comments := [], synthetic := true }
      (.call callee [first, Node.makeBoolean value second] optional)
  | _ => none

/-- Enters a call that asks `query`. -/
def enterQuery (ctx : FoldContext) (query : Query) (node : Node) (callee : Option Node)
    (arguments : List Node) (optional : Bool) (s : Folding) : Entry × Folding :=
  match query with
  | .registration =>
    match ctx.foldRegistration? node.info callee arguments optional with
    | some folded => (.skip folded, { s with count := s.count + 1 })
    | none => (.descend node.info, s)
  | _ =>
    match arguments.head?.bind Node.literal? with
    -- A flag that is computed is neither folded nor reported.
    | none => (.skip node, s)
    | some flag =>
      match ctx.features.find? flag with
      | some value =>
        (.skip (Node.makeBoolean (query = .presence || value) node),
          { s with count := s.count + 1 })
      | none => (.skip node, { s with dynamic := Folding.addDynamic s.dynamic flag })

/-- The traversal. Nothing inside a query for a value or for presence is looked at. -/
def visitor (ctx : FoldContext) : Visitor Folding where
  enter place node s :=
    match place, node.shape with
    -- A call at the root has no place in which another node could be put.
    | some _, .call callee arguments optional =>
      match callee.bind (ctx.binding.query? · arguments.length) with
      | some query => ctx.enterQuery query node callee arguments optional s
      | none => (.descend node.info, s)
    | _, _ => (.descend node.info, s)

end FoldContext

/-- Folds the feature queries of a program whose flags are known. Flags already reported as
dynamic are not reported again. -/
def Node.foldQueries (program : Node) (ctx : FoldContext) (dynamic : List Text) :
    Node × Folding :=
  program.traverse ctx.visitor none { dynamic }

end FlagFold
