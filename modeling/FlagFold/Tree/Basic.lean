/-
  FlagFold.Tree.Basic

  The syntax tree on which flags are folded.  Only the shapes that the passes look
  at have forms of their own; every other construct is generic and keeps its kind
  and its parts, so that calls nested anywhere are reached.  Offsets count code
  points of the source, lines and columns count from one.
-/

import FlagFold.Text.Basic

namespace FlagFold

/-- A comment attached to a node. A leading one is printed before the node, any other after it,
in a container at its end. -/
structure Comment where
  content : Text
  leading : Bool := true
  deriving DecidableEq

/-- What every node has: its place in the source, its comments, and whether it was made by a
pass, so that it is printed from its parts and not copied. -/
structure Info where
  start : Nat := 0
  stop : Nat := 0
  line : Nat := 0
  column : Nat := 0
  comments : List Comment := []
  synthetic : Bool := false
  deriving DecidableEq

/-- The form of a node over nodes of type `α`. -/
inductive Shape (α : Type) where
  | program (body : List α) (source : Text)
  | expressionStatement (expression : Option α)
  | variableDeclaration (keyword : Text) (declarations : List α)
  | variableDeclarator (target init : Option α)
  | importDeclaration (specifiers : List α) (source : Option α)
  | importDefault (binding : Option α)
  | importNamespace (binding : Option α)
  | importSpecifier (imported : Text) (binding : Option α)
  | call (callee : Option α) (arguments : List α) (optional : Bool)
  | member (object property : Option α) (optional : Bool)
  | identifier (name : Text)
  | string (value raw : Text)
  | template (chunks : List Text) (expressions : List α)
  | boolean (value : Bool)
  | generic (kind : String) (children : List α)
  | removed

/-- A node of the tree. -/
inductive Node where
  | mk (info : Info) (shape : Shape Node)

instance : Inhabited Node := ⟨.mk {} .removed⟩

/-- The kind of a node. -/
inductive Kind where
  | program
  | expressionStatement
  | variableDeclaration
  | variableDeclarator
  | importDeclaration
  | importDefault
  | importNamespace
  | importSpecifier
  | call
  | member
  | identifier
  | string
  | template
  | boolean
  | removed
  | generic (name : String)
  deriving DecidableEq

namespace Kind

/-- The name of a kind. -/
def name : Kind → String
  | program => "Program"
  | expressionStatement => "ExpressionStatement"
  | variableDeclaration => "VariableDeclaration"
  | variableDeclarator => "VariableDeclarator"
  | importDeclaration => "ImportDeclaration"
  | importDefault => "ImportDefaultSpecifier"
  | importNamespace => "ImportNamespaceSpecifier"
  | importSpecifier => "ImportSpecifier"
  | call => "CallExpression"
  | member => "MemberExpression"
  | identifier => "Identifier"
  | string => "StringLiteral"
  | template => "TemplateLiteral"
  | boolean => "BooleanLiteral"
  | removed => "Removed"
  | generic name => name

/-- Switch clauses: lists of statements without braces of their own. -/
def isSwitchClause : Kind → Bool
  | generic name => name = "switch_case" || name = "switch_default"
  | _ => false

/-- The nodes whose children are a list of statements. -/
def isStatementList : Kind → Bool
  | program => true
  | generic name => name = "statement_block" || isSwitchClause (generic name)
  | _ => false

/-- The kinds of lists in braces, before whose closing brace comments may be put. -/
def isBracedList : Kind → Bool
  | generic name => name = "statement_block" || name = "class_body"
  | _ => false

end Kind

/-- The parts that hold nodes. -/
inductive Field where
  | body
  | expression
  | declarations
  | target
  | init
  | specifiers
  | source
  | binding
  | callee
  | arguments
  | object
  | property
  | expressions
  | children
  deriving DecidableEq

/-- The name of a part. -/
def Field.name : Field → String
  | body => "body"
  | expression => "expression"
  | declarations => "declarations"
  | target => "id"
  | init => "init"
  | specifiers => "specifiers"
  | source => "source"
  | binding => "local"
  | callee => "callee"
  | arguments => "arguments"
  | object => "object"
  | property => "property"
  | expressions => "expressions"
  | children => "children"

namespace Shape

variable {α : Type}

/-- The kind of the node that has this form. -/
def kind : Shape α → Kind
  | program .. => .program
  | expressionStatement .. => .expressionStatement
  | variableDeclaration .. => .variableDeclaration
  | variableDeclarator .. => .variableDeclarator
  | importDeclaration .. => .importDeclaration
  | importDefault .. => .importDefault
  | importNamespace .. => .importNamespace
  | importSpecifier .. => .importSpecifier
  | call .. => .call
  | member .. => .member
  | identifier .. => .identifier
  | string .. => .string
  | template .. => .template
  | boolean .. => .boolean
  | generic kind _ => .generic kind
  | removed => .removed

/-- The nodes held by a form, in the order of its parts. -/
def nodes : Shape α → List α
  | program body _ => body
  | expressionStatement e => e.toList
  | variableDeclaration _ ds => ds
  | variableDeclarator t i => t.toList ++ i.toList
  | importDeclaration ss s => ss ++ s.toList
  | importDefault b => b.toList
  | importNamespace b => b.toList
  | importSpecifier _ b => b.toList
  | call c as _ => c.toList ++ as
  | member o p _ => o.toList ++ p.toList
  | template _ es => es
  | generic _ cs => cs
  | identifier .. | string .. | boolean .. | removed => []

end Shape

namespace Node

/-- What every node has. -/
def info : Node → Info
  | mk i _ => i

/-- The form of a node. -/
def shape : Node → Shape Node
  | mk _ s => s

@[simp] theorem info_mk (i : Info) (s : Shape Node) : (mk i s).info = i := rfl
@[simp] theorem shape_mk (i : Info) (s : Shape Node) : (mk i s).shape = s := rfl
@[simp] theorem mk_info_shape (n : Node) : mk n.info n.shape = n := by cases n; rfl

/-- The kind of a node. -/
def kind (n : Node) : Kind := n.shape.kind

/-- The comments of a node. -/
def comments (n : Node) : List Comment := n.info.comments

/-- The nodes held by a node, in order. -/
def children (n : Node) : List Node := n.shape.nodes

/-- The node with other comments. -/
def withComments (n : Node) (comments : List Comment) : Node :=
  mk { n.info with comments } n.shape

/-- The source that a program keeps; empty for any other node. -/
def source (n : Node) : Text :=
  match n.shape with
  | .program _ source => source
  | _ => []

/-- The static value of a string literal, or of a template without substitutions. -/
def literal? (n : Node) : Option Text :=
  match n.shape with
  | .string value _ => some value
  | .template [chunk] [] => some chunk
  | _ => none

/-- A truth value made to stand in the place of a node. -/
def makeBoolean (value : Bool) (replaced : Node) : Node :=
  mk { replaced.info with comments := [], synthetic := true } (.boolean value)

/-- A placeholder in the place of a node. -/
def makeRemoved (replaced : Node) : Node :=
  mk { replaced.info with comments := [], synthetic := true } .removed

end Node
end FlagFold
