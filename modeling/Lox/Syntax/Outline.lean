import Lox.Syntax.Basic
import Lox.Number.Text
import Lox.Text.Quoted

/-!
# Trees as text

The outline of a tree has one pair of parentheses per node: its kind, the line that it keeps, and
its parts.  Numbers are written by their bit pattern, so that an outline tells any two of them
apart.  A `Mark` says what is added to a reference, for instance its distance.  `references` lists
the references of a tree in the order in which its outline shows them.
-/

namespace Lox

/-- What an outline adds to a reference. -/
abbrev Mark := NodeId → String

namespace Name

/-- A name with its line. -/
def outline (name : Name) : String :=
  name.text ++ "@" ++ toString name.line

end Name

/-- A node of an outline: its parts, a blank between two of them, in parentheses. -/
def outlineNode (parts : List String) : String :=
  "(" ++ " ".intercalate parts ++ ")"

namespace Literal

/-- The outline of a constant. -/
def outline : Literal → String
  | nil => "nil"
  | bool true => "true"
  | bool false => "false"
  | number value => outlineNode ["num", Number.bitsText value]
  | string value => outlineNode ["str", String.ofList (Quoted.json value.toList)]

end Literal

/-- The sign of a unary operator in an outline. -/
def UnaryOp.sign : UnaryOp → String
  | negate => "neg"
  | not => "not"

/-- The sign of a binary operator. -/
def BinaryOp.sign : BinaryOp → String
  | add => "+"
  | subtract => "-"
  | multiply => "*"
  | divide => "/"
  | greater => ">"
  | greaterEqual => ">="
  | less => "<"
  | lessEqual => "<="
  | equal => "=="
  | notEqual => "!="

/-- The sign of a logical operator. -/
def LogicalOp.sign : LogicalOp → String
  | and => "and"
  | or => "or"

/-- The outline of a variable that is read. -/
def Reference.outline (mark : Mark) (reference : Reference) : String :=
  outlineNode ["id", reference.name.outline ++ mark reference.id]

namespace Expr

mutual

/-- The outline of an expression. -/
def outline (mark : Mark) : Expr → String
  | literal value => value.outline
  | group inner => outlineNode ["group", inner.outline mark]
  | unary op line operand => outlineNode [op.sign ++ "@" ++ toString line, operand.outline mark]
  | binary left op line right =>
    outlineNode [op.sign ++ "@" ++ toString line, left.outline mark, right.outline mark]
  | logical left op right => outlineNode [op.sign, left.outline mark, right.outline mark]
  | var reference => reference.outline mark
  | assign target value =>
    outlineNode ["assign", target.name.outline ++ mark target.id, value.outline mark]
  | call callee line args =>
    outlineNode (("call@" ++ toString line) :: callee.outline mark :: outlines mark args)
  | get object name => outlineNode ["get", name.outline, object.outline mark]
  | set object name value =>
    outlineNode ["set", name.outline, object.outline mark, value.outline mark]
  | this keyword => outlineNode ["this", keyword.name.outline ++ mark keyword.id]
  | super keyword method =>
    outlineNode ["super", keyword.name.outline, method.outline ++ mark keyword.id]

/-- The outlines of several expressions. -/
def outlines (mark : Mark) : List Expr → List String
  | [] => []
  | first :: others => first.outline mark :: outlines mark others

end

/-- The outline of an expression that may be absent. -/
def outline? (mark : Mark) : Option Expr → String
  | some value => value.outline mark
  | none => "-"

mutual

/-- The references of an expression, in the order of its outline. -/
def references : Expr → List NodeId
  | literal _ => []
  | group inner => inner.references
  | unary _ _ operand => operand.references
  | binary left _ _ right => left.references ++ right.references
  | logical left _ right => left.references ++ right.references
  | var reference => [reference.id]
  | assign target value => target.id :: value.references
  | call callee _ args => callee.references ++ allReferences args
  | get object _ => object.references
  | set object _ value => object.references ++ value.references
  | this keyword => [keyword.id]
  | super keyword _ => [keyword.id]

/-- The references of several expressions. -/
def allReferences : List Expr → List NodeId
  | [] => []
  | first :: others => first.references ++ allReferences others

end

/-- The references of an expression that may be absent. -/
def references? : Option Expr → List NodeId
  | some value => value.references
  | none => []

end Expr

mutual

/-- The outline of a statement. -/
def Stmt.outline (mark : Mark) : Stmt → String
  | .expr value => outlineNode ["expr", value.outline mark]
  | .print value => outlineNode ["print", value.outline mark]
  | .var name initializer => outlineNode ["var", name.outline, Expr.outline? mark initializer]
  | .block body => outlineNode ("block" :: Stmt.outlines mark body)
  | .ifElse condition thenBranch none =>
    outlineNode ["if", condition.outline mark, thenBranch.outline mark, "-"]
  | .ifElse condition thenBranch (some elseBranch) =>
    outlineNode ["if", condition.outline mark, thenBranch.outline mark, elseBranch.outline mark]
  | .whileDo condition body => outlineNode ["while", condition.outline mark, body.outline mark]
  | .function declaration => declaration.outline mark
  | .ret keyword value => outlineNode ["return", keyword.outline, Expr.outline? mark value]
  | .classDecl name superclass methods =>
    outlineNode ("class" :: name.outline ::
      (match superclass with
        | some reference => reference.outline mark
        | none => "-") :: FunctionDecl.outlines mark methods)

/-- The outline of a function. -/
def FunctionDecl.outline (mark : Mark) : FunctionDecl → String
  | ⟨name, params, body⟩ =>
    outlineNode ("fun" :: name.outline :: outlineNode (params.map Name.outline) ::
      Stmt.outlines mark body)

/-- The outlines of several functions. -/
def FunctionDecl.outlines (mark : Mark) : List FunctionDecl → List String
  | [] => []
  | first :: others => first.outline mark :: FunctionDecl.outlines mark others

/-- The outlines of several statements. -/
def Stmt.outlines (mark : Mark) : List Stmt → List String
  | [] => []
  | first :: others => first.outline mark :: Stmt.outlines mark others

end

mutual

/-- The references of a statement, in the order of its outline. -/
def Stmt.references : Stmt → List NodeId
  | .expr value => value.references
  | .print value => value.references
  | .var _ initializer => Expr.references? initializer
  | .block body => Stmt.allReferences body
  | .ifElse condition thenBranch none => condition.references ++ thenBranch.references
  | .ifElse condition thenBranch (some elseBranch) =>
    condition.references ++ thenBranch.references ++ elseBranch.references
  | .whileDo condition body => condition.references ++ body.references
  | .function declaration => declaration.references
  | .ret _ value => Expr.references? value
  | .classDecl _ superclass methods =>
    (superclass.map Reference.id).toList ++ FunctionDecl.allReferences methods

/-- The references of a function. -/
def FunctionDecl.references : FunctionDecl → List NodeId
  | ⟨_, _, body⟩ => Stmt.allReferences body

/-- The references of several functions. -/
def FunctionDecl.allReferences : List FunctionDecl → List NodeId
  | [] => []
  | first :: others => first.references ++ FunctionDecl.allReferences others

/-- The references of several statements. -/
def Stmt.allReferences : List Stmt → List NodeId
  | [] => []
  | first :: others => first.references ++ Stmt.allReferences others

end

end Lox
