import Lox.Syntax.Outline
import Lox.Token.Reader
import Lox.Scope.Basic

/-!
# Moved trees

Text that is put behind other text keeps its shape: its tokens stand on later lines, and its
references take later identities.  A `Shift` says how much later, and `moved` is the tree with all of
its lines and identities moved so.  Moving by nothing changes nothing (`Stmt.moved_zero`).
-/

namespace Lox

/-- How much later identities and lines are. -/
structure Shift where
  ids : Nat
  lines : Nat

namespace Shift

/-- Not later at all. -/
def zero : Shift := ⟨0, 0⟩

/-- On later lines, with the same identities. -/
def down (lines : Nat) : Shift := ⟨0, lines⟩

/-- On later lines for what is new; what is not new stays. -/
def downIf (new : Bool) (lines : Nat) : Shift := .down (cond new lines 0)

end Shift

def Name.moved (shift : Shift) (name : Name) : Name :=
  ⟨name.text, name.line + shift.lines⟩

def Reference.moved (shift : Shift) (reference : Reference) : Reference :=
  ⟨shift.ids + reference.id, reference.name.moved shift⟩

def Token.moved (shift : Shift) (token : Token) : Token :=
  { token with line := token.line + shift.lines }

def Finding.moved (shift : Shift) : Finding → Finding
  | bound id distance => bound (shift.ids + id) distance
  | violation name rule => violation (name.moved shift) rule

namespace Expr

mutual

/-- An expression on later lines, with later identities. -/
def moved (shift : Shift) : Expr → Expr
  | literal value => literal value
  | group inner => group (inner.moved shift)
  | unary op line operand => unary op (line + shift.lines) (operand.moved shift)
  | binary left op line right =>
    binary (left.moved shift) op (line + shift.lines) (right.moved shift)
  | logical left op right => logical (left.moved shift) op (right.moved shift)
  | var reference => var (reference.moved shift)
  | assign target value => assign (target.moved shift) (value.moved shift)
  | call callee line args => call (callee.moved shift) (line + shift.lines) (allMoved shift args)
  | get object name => get (object.moved shift) (name.moved shift)
  | set object name value => set (object.moved shift) (name.moved shift) (value.moved shift)
  | this keyword => this (keyword.moved shift)
  | super keyword method => super (keyword.moved shift) (method.moved shift)

/-- Several expressions on later lines. -/
def allMoved (shift : Shift) : List Expr → List Expr
  | [] => []
  | first :: others => first.moved shift :: allMoved shift others

end

end Expr

mutual

/-- A statement on later lines, with later identities. -/
def Stmt.moved (shift : Shift) : Stmt → Stmt
  | .expr value => .expr (value.moved shift)
  | .print value => .print (value.moved shift)
  | .var name initializer => .var (name.moved shift) (initializer.map (Expr.moved shift))
  | .block body => .block (Stmt.allMoved shift body)
  | .ifElse condition thenBranch none =>
    .ifElse (condition.moved shift) (thenBranch.moved shift) none
  | .ifElse condition thenBranch (some elseBranch) =>
    .ifElse (condition.moved shift) (thenBranch.moved shift) (some (elseBranch.moved shift))
  | .whileDo condition body => .whileDo (condition.moved shift) (body.moved shift)
  | .function declaration => .function (declaration.moved shift)
  | .ret keyword value => .ret (keyword.moved shift) (value.map (Expr.moved shift))
  | .classDecl name superclass methods =>
    .classDecl (name.moved shift) (superclass.map (Reference.moved shift))
      (FunctionDecl.allMoved shift methods)

/-- A function on later lines. -/
def FunctionDecl.moved (shift : Shift) : FunctionDecl → FunctionDecl
  | ⟨name, params, body⟩ =>
    ⟨name.moved shift, params.map (Name.moved shift), Stmt.allMoved shift body⟩

/-- Several functions on later lines. -/
def FunctionDecl.allMoved (shift : Shift) : List FunctionDecl → List FunctionDecl
  | [] => []
  | first :: others => first.moved shift :: FunctionDecl.allMoved shift others

/-- Several statements on later lines. -/
def Stmt.allMoved (shift : Shift) : List Stmt → List Stmt
  | [] => []
  | first :: others => first.moved shift :: Stmt.allMoved shift others

end

/-! ## What moving keeps -/

section Keeps

variable (shift : Shift)

@[simp] theorem Name.moved_text (name : Name) : (name.moved shift).text = name.text := rfl

@[simp] theorem Reference.moved_name (reference : Reference) :
    (reference.moved shift).name = reference.name.moved shift := rfl

@[simp] theorem Token.moved_kind (token : Token) : (token.moved shift).kind = token.kind := rfl

theorem FunctionDecl.moved_name (f : FunctionDecl) :
    (f.moved shift).name = f.name.moved shift := by
  cases f
  rfl

theorem FunctionDecl.moved_params (f : FunctionDecl) :
    (f.moved shift).params = f.params.map (Name.moved shift) := by
  cases f
  rfl

theorem FunctionDecl.moved_body (f : FunctionDecl) :
    (f.moved shift).body = Stmt.allMoved shift f.body := by
  cases f
  rfl

theorem FunctionDecl.moved_isInitializer (f : FunctionDecl) :
    (f.moved shift).isInitializer = f.isInitializer := by
  cases f
  rfl

theorem Expr.allMoved_length (es : List Expr) : (Expr.allMoved shift es).length = es.length := by
  induction es with
  | nil => rfl
  | cons first others ih => exact congrArg (· + 1) ih

theorem Reference.moved_down_id (lines : Nat) (reference : Reference) :
    (reference.moved (.down lines)).id = reference.id :=
  Nat.zero_add _

end Keeps

/-! ## Moving by nothing -/

theorem Name.moved_zero (name : Name) : name.moved .zero = name := rfl

theorem Reference.moved_zero (reference : Reference) : reference.moved .zero = reference := by
  unfold moved
  rw [Name.moved_zero, show Shift.zero.ids + reference.id = reference.id from Nat.zero_add _]

mutual

theorem Expr.moved_zero : ∀ e : Expr, e.moved .zero = e
  | .literal _ => rfl
  | .group inner => by rw [Expr.moved, Expr.moved_zero inner]
  | .unary _ _ operand => by rw [Expr.moved, Expr.moved_zero operand]; rfl
  | .binary left _ _ right => by rw [Expr.moved, Expr.moved_zero left, Expr.moved_zero right]; rfl
  | .logical left _ right => by rw [Expr.moved, Expr.moved_zero left, Expr.moved_zero right]
  | .var r => by rw [Expr.moved, r.moved_zero]
  | .assign r value => by rw [Expr.moved, r.moved_zero, Expr.moved_zero value]
  | .call callee _ args => by rw [Expr.moved, Expr.moved_zero callee, Expr.allMoved_zero args]; rfl
  | .get object _ => by rw [Expr.moved, Expr.moved_zero object]; rfl
  | .set object _ value => by rw [Expr.moved, Expr.moved_zero object, Expr.moved_zero value]; rfl
  | .this keyword => by rw [Expr.moved, keyword.moved_zero]
  | .super keyword _ => by rw [Expr.moved, keyword.moved_zero]; rfl

theorem Expr.allMoved_zero : ∀ es : List Expr, Expr.allMoved .zero es = es
  | [] => rfl
  | e :: es => by rw [Expr.allMoved, Expr.moved_zero e, Expr.allMoved_zero es]

end

theorem Expr.map_moved_zero (e : Option Expr) : e.map (Expr.moved .zero) = e := by
  cases e with
  | none => rfl
  | some e => rw [Option.map_some, e.moved_zero]

theorem Reference.map_moved_zero (r : Option Reference) : r.map (Reference.moved .zero) = r := by
  cases r with
  | none => rfl
  | some r => rw [Option.map_some, r.moved_zero]

mutual

theorem Stmt.moved_zero : ∀ s : Stmt, s.moved .zero = s
  | .expr value => by rw [Stmt.moved, value.moved_zero]
  | .print value => by rw [Stmt.moved, value.moved_zero]
  | .var _ initializer => by rw [Stmt.moved, Expr.map_moved_zero initializer]; rfl
  | .block body => by rw [Stmt.moved, Stmt.allMoved_zero body]
  | .ifElse c t none => by rw [Stmt.moved, c.moved_zero, Stmt.moved_zero t]
  | .ifElse c t (some e) => by
    rw [Stmt.moved, c.moved_zero, Stmt.moved_zero t, Stmt.moved_zero e]
  | .whileDo c body => by rw [Stmt.moved, c.moved_zero, Stmt.moved_zero body]
  | .function f => by rw [Stmt.moved, FunctionDecl.moved_zero f]
  | .ret _ value => by rw [Stmt.moved, Expr.map_moved_zero value]; rfl
  | .classDecl _ superclass methods => by
    rw [Stmt.moved, Reference.map_moved_zero superclass, FunctionDecl.allMoved_zero methods]
    rfl

theorem FunctionDecl.moved_zero : ∀ f : FunctionDecl, f.moved .zero = f
  | ⟨_, params, body⟩ => by
    rw [FunctionDecl.moved, Stmt.allMoved_zero body, show Name.moved .zero = id from rfl,
      List.map_id]
    rfl

theorem FunctionDecl.allMoved_zero : ∀ fs : List FunctionDecl, FunctionDecl.allMoved .zero fs = fs
  | [] => rfl
  | f :: fs => by
    rw [FunctionDecl.allMoved, FunctionDecl.moved_zero f, FunctionDecl.allMoved_zero fs]

theorem Stmt.allMoved_zero : ∀ ss : List Stmt, Stmt.allMoved .zero ss = ss
  | [] => rfl
  | s :: ss => by rw [Stmt.allMoved, Stmt.moved_zero s, Stmt.allMoved_zero ss]

end

end Lox
