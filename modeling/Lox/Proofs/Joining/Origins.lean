import Lox.Syntax.Outline
import Lox.Proofs.Scoping.Walk

/-!
# Where nodes come from

A tree mentions identities of references, lines that a fault can be reported with, and functions that
it declares.  An `Origin` says which of them a text has; a tree is `From` an origin if the origin has
all that the tree mentions, and then so is each of its parts.
-/

namespace Lox

/-! ## What a tree mentions -/

mutual

/-- The lines with which a fault in an expression can be reported. -/
def Expr.lines : Expr → List Nat
  | .literal _ => []
  | .group inner => inner.lines
  | .unary _ line operand => line :: operand.lines
  | .binary left _ line right => line :: (left.lines ++ right.lines)
  | .logical left _ right => left.lines ++ right.lines
  | .var reference => [reference.name.line]
  | .assign target value => target.name.line :: value.lines
  | .call callee line args => line :: (callee.lines ++ Expr.allLines args)
  | .get object name => name.line :: object.lines
  | .set object name value => name.line :: (object.lines ++ value.lines)
  | .this keyword => [keyword.name.line]
  | .super keyword method => [keyword.name.line, method.line]

/-- The lines with which a fault in several expressions can be reported. -/
def Expr.allLines : List Expr → List Nat
  | [] => []
  | first :: others => first.lines ++ Expr.allLines others

end

/-- The lines with which a fault in an expression can be reported that may be absent. -/
def Expr.lines? : Option Expr → List Nat
  | some value => value.lines
  | none => []

mutual

/-- The lines with which a fault in a statement can be reported. -/
def Stmt.lines : Stmt → List Nat
  | .expr value => value.lines
  | .print value => value.lines
  | .var _ initializer => Expr.lines? initializer
  | .block body => Stmt.allLines body
  | .ifElse condition thenBranch none => condition.lines ++ thenBranch.lines
  | .ifElse condition thenBranch (some elseBranch) =>
    condition.lines ++ thenBranch.lines ++ elseBranch.lines
  | .whileDo condition body => condition.lines ++ body.lines
  | .function declaration => declaration.lines
  | .ret _ value => Expr.lines? value
  | .classDecl name superclass methods =>
    name.line :: ((superclass.map fun r => r.name.line).toList ++ FunctionDecl.allLines methods)

/-- The lines with which a fault in a function can be reported. -/
def FunctionDecl.lines : FunctionDecl → List Nat
  | ⟨_, _, body⟩ => Stmt.allLines body

/-- The lines with which a fault in several functions can be reported. -/
def FunctionDecl.allLines : List FunctionDecl → List Nat
  | [] => []
  | first :: others => first.lines ++ FunctionDecl.allLines others

/-- The lines with which a fault in several statements can be reported. -/
def Stmt.allLines : List Stmt → List Nat
  | [] => []
  | first :: others => first.lines ++ Stmt.allLines others

end

mutual

/-- The functions and methods that a statement declares, at any depth. -/
def Stmt.functions : Stmt → List FunctionDecl
  | .block body => Stmt.allFunctions body
  | .ifElse _ thenBranch none => thenBranch.functions
  | .ifElse _ thenBranch (some elseBranch) => thenBranch.functions ++ elseBranch.functions
  | .whileDo _ body => body.functions
  | .function declaration => declaration.functions
  | .classDecl _ _ methods => FunctionDecl.allFunctions methods
  | .expr _ | .print _ | .var _ _ | .ret _ _ => []

/-- A function and those that are declared in it. -/
def FunctionDecl.functions : FunctionDecl → List FunctionDecl
  | ⟨name, params, body⟩ => ⟨name, params, body⟩ :: Stmt.allFunctions body

/-- Several functions and those that are declared in them. -/
def FunctionDecl.allFunctions : List FunctionDecl → List FunctionDecl
  | [] => []
  | first :: others => first.functions ++ FunctionDecl.allFunctions others

/-- The functions and methods that several statements declare. -/
def Stmt.allFunctions : List Stmt → List FunctionDecl
  | [] => []
  | first :: others => first.functions ++ Stmt.allFunctions others

end

/-! ## Origins -/

/-- What trees of one text may mention. -/
structure Origin where
  id : NodeId → Prop
  line : Nat → Prop
  function : FunctionDecl → Prop

def Reference.From (o : Origin) (r : Reference) : Prop :=
  o.id r.id ∧ o.line r.name.line

mutual

/-- Whether an origin has all that an expression mentions. -/
def Expr.From (o : Origin) : Expr → Prop
  | .literal _ => True
  | .group inner => inner.From o
  | .unary _ line operand => o.line line ∧ operand.From o
  | .binary left _ line right => o.line line ∧ left.From o ∧ right.From o
  | .logical left _ right => left.From o ∧ right.From o
  | .var r => r.From o
  | .assign target value => target.From o ∧ value.From o
  | .call callee line args => o.line line ∧ callee.From o ∧ Expr.AllFrom o args
  | .get object name => o.line name.line ∧ object.From o
  | .set object name value => o.line name.line ∧ object.From o ∧ value.From o
  | .this keyword => keyword.From o
  | .super keyword method => keyword.From o ∧ o.line method.line

/-- Whether an origin has all that several expressions mention. -/
def Expr.AllFrom (o : Origin) : List Expr → Prop
  | [] => True
  | first :: others => first.From o ∧ Expr.AllFrom o others

end

def Expr.From? (o : Origin) : Option Expr → Prop
  | some value => value.From o
  | none => True

def Reference.From? (o : Origin) : Option Reference → Prop
  | some r => r.From o
  | none => True

mutual

/-- Whether an origin has all that a statement mentions. -/
def Stmt.From (o : Origin) : Stmt → Prop
  | .expr value => value.From o
  | .print value => value.From o
  | .var _ initializer => Expr.From? o initializer
  | .block body => Stmt.AllFrom o body
  | .ifElse condition thenBranch none => condition.From o ∧ thenBranch.From o
  | .ifElse condition thenBranch (some elseBranch) =>
    condition.From o ∧ thenBranch.From o ∧ elseBranch.From o
  | .whileDo condition body => condition.From o ∧ body.From o
  | .function declaration => declaration.From o
  | .ret _ value => Expr.From? o value
  | .classDecl name superclass methods =>
    o.line name.line ∧ Reference.From? o superclass ∧ FunctionDecl.AllFrom o methods

/-- Whether an origin has a function and all that it mentions. -/
def FunctionDecl.From (o : Origin) : FunctionDecl → Prop
  | ⟨name, params, body⟩ => o.function ⟨name, params, body⟩ ∧ Stmt.AllFrom o body

/-- Whether an origin has several functions and all that they mention. -/
def FunctionDecl.AllFrom (o : Origin) : List FunctionDecl → Prop
  | [] => True
  | first :: others => first.From o ∧ FunctionDecl.AllFrom o others

/-- Whether an origin has all that several statements mention. -/
def Stmt.AllFrom (o : Origin) : List Stmt → Prop
  | [] => True
  | first :: others => first.From o ∧ Stmt.AllFrom o others

end

theorem FunctionDecl.From.function {o : Origin} : ∀ {f : FunctionDecl}, f.From o → o.function f
  | ⟨_, _, _⟩, h => h.1

theorem FunctionDecl.From.body {o : Origin} : ∀ {f : FunctionDecl}, f.From o →
    Stmt.AllFrom o f.body
  | ⟨_, _, _⟩, h => h.2

/-! ## Trees are from where all that they mention is -/

section Mentioned

variable (o : Origin)

mutual

theorem Expr.from_iff : ∀ e : Expr, e.From o ↔
    (∀ id ∈ e.references, o.id id) ∧ ∀ line ∈ e.lines, o.line line
  | .literal _ => by simp [Expr.From, Expr.references, Expr.lines]
  | .group inner => Expr.from_iff inner
  | .unary _ _ operand | .get operand _ => by
    simp only [Expr.From, Expr.from_iff operand, Expr.references, Expr.lines, List.forall_mem_cons,
      and_left_comm]
  | .binary left _ _ right | .set left _ right => by
    simp only [Expr.From, Expr.from_iff left, Expr.from_iff right, Expr.references, Expr.lines,
      List.forall_mem_cons, List.forall_mem_append, and_assoc, and_left_comm]
  | .logical left _ right => by
    simp only [Expr.From, Expr.from_iff left, Expr.from_iff right, Expr.references, Expr.lines,
      List.forall_mem_append, and_assoc, and_left_comm]
  | .var r | .this r => by simp [Expr.From, Reference.From, Expr.references, Expr.lines]
  | .assign r value => by
    simp only [Expr.From, Reference.From, Expr.from_iff value, Expr.references, Expr.lines,
      List.forall_mem_cons, and_assoc, and_left_comm]
  | .call callee _ args => by
    simp only [Expr.From, Expr.from_iff callee, Expr.allFrom_iff args, Expr.references, Expr.lines,
      List.forall_mem_cons, List.forall_mem_append, and_assoc, and_left_comm]
  | .super r _ => by simp [Expr.From, Reference.From, Expr.references, Expr.lines, and_assoc]

theorem Expr.allFrom_iff : ∀ es : List Expr, Expr.AllFrom o es ↔
    (∀ id ∈ Expr.allReferences es, o.id id) ∧ ∀ line ∈ Expr.allLines es, o.line line
  | [] => by simp [Expr.AllFrom, Expr.allReferences, Expr.allLines]
  | e :: es => by
    simp only [Expr.AllFrom, Expr.from_iff e, Expr.allFrom_iff es, Expr.allReferences,
      Expr.allLines, List.forall_mem_append, and_assoc, and_left_comm]

end

theorem Expr.from?_iff (e : Option Expr) : Expr.From? o e ↔
    (∀ id ∈ Expr.references? e, o.id id) ∧ ∀ line ∈ Expr.lines? e, o.line line := by
  cases e with
  | none => simp [Expr.From?, Expr.references?, Expr.lines?]
  | some e => exact e.from_iff o

theorem Reference.from?_iff (r : Option Reference) : Reference.From? o r ↔
    (∀ id ∈ (r.map Reference.id).toList, o.id id) ∧
      ∀ line ∈ (r.map fun r => r.name.line).toList, o.line line := by
  cases r <;> simp [Reference.From?, Reference.From]

mutual

/-- **A statement is from an origin** exactly if the origin has all that it mentions. -/
theorem Stmt.from_iff : ∀ s : Stmt, s.From o ↔ (∀ id ∈ s.references, o.id id) ∧
    (∀ line ∈ s.lines, o.line line) ∧ ∀ f ∈ s.functions, o.function f
  | .expr value | .print value => by
    simp [Stmt.From, value.from_iff, Stmt.references, Stmt.lines, Stmt.functions]
  | .var _ value | .ret _ value => by
    simp [Stmt.From, Expr.from?_iff, Stmt.references, Stmt.lines, Stmt.functions]
  | .block body => Stmt.allFrom_iff body
  | .ifElse condition thenBranch none | .whileDo condition thenBranch => by
    simp only [Stmt.From, condition.from_iff, Stmt.from_iff thenBranch, Stmt.references, Stmt.lines,
      Stmt.functions, List.forall_mem_append, and_assoc, and_left_comm]
  | .ifElse condition thenBranch (some elseBranch) => by
    simp only [Stmt.From, condition.from_iff, Stmt.from_iff thenBranch, Stmt.from_iff elseBranch,
      Stmt.references, Stmt.lines, Stmt.functions, List.forall_mem_append, and_assoc,
      and_left_comm]
  | .function declaration => FunctionDecl.from_iff declaration
  | .classDecl _ superclass methods => by
    simp only [Stmt.From, Reference.from?_iff, FunctionDecl.allFrom_iff methods, Stmt.references,
      Stmt.lines, Stmt.functions, List.forall_mem_cons, List.forall_mem_append, and_assoc,
      and_left_comm]

theorem FunctionDecl.from_iff : ∀ f : FunctionDecl, f.From o ↔ (∀ id ∈ f.references, o.id id) ∧
    (∀ line ∈ f.lines, o.line line) ∧ ∀ g ∈ f.functions, o.function g
  | ⟨_, _, body⟩ => by
    simp only [FunctionDecl.From, Stmt.allFrom_iff body, FunctionDecl.references,
      FunctionDecl.lines, FunctionDecl.functions, List.forall_mem_cons, and_left_comm]

theorem FunctionDecl.allFrom_iff : ∀ fs : List FunctionDecl, FunctionDecl.AllFrom o fs ↔
    (∀ id ∈ FunctionDecl.allReferences fs, o.id id) ∧
    (∀ line ∈ FunctionDecl.allLines fs, o.line line) ∧
    ∀ f ∈ FunctionDecl.allFunctions fs, o.function f
  | [] => by simp [FunctionDecl.AllFrom, FunctionDecl.allReferences, FunctionDecl.allLines,
      FunctionDecl.allFunctions]
  | f :: fs => by
    simp only [FunctionDecl.AllFrom, FunctionDecl.from_iff f, FunctionDecl.allFrom_iff fs,
      FunctionDecl.allReferences, FunctionDecl.allLines, FunctionDecl.allFunctions,
      List.forall_mem_append, and_assoc, and_left_comm]

theorem Stmt.allFrom_iff : ∀ ss : List Stmt, Stmt.AllFrom o ss ↔
    (∀ id ∈ Stmt.allReferences ss, o.id id) ∧ (∀ line ∈ Stmt.allLines ss, o.line line) ∧
    ∀ f ∈ Stmt.allFunctions ss, o.function f
  | [] => by simp [Stmt.AllFrom, Stmt.allReferences, Stmt.allLines, Stmt.allFunctions]
  | s :: ss => by
    simp only [Stmt.AllFrom, Stmt.from_iff s, Stmt.allFrom_iff ss, Stmt.allReferences,
      Stmt.allLines, Stmt.allFunctions, List.forall_mem_append, and_assoc, and_left_comm]

end

end Mentioned

/-! ## Identities are given out in order -/

/-- The origin that has everything with identities below a bound. -/
def Origin.below (bound : NodeId) : Origin :=
  ⟨(· < bound), fun _ => True, fun _ => True⟩

section Below

variable {bound : NodeId}

theorem Reference.Within.below {r : Reference} {n n' : NodeId} (h : r.Within n n')
    (hle : n' ≤ bound) : r.From (.below bound) :=
  ⟨Nat.lt_of_lt_of_le h.2.2 hle, trivial⟩

mutual

theorem Expr.Within.below : ∀ {e : Expr} {n n' : NodeId}, e.Within n n' → n' ≤ bound →
    e.From (.below bound)
  | .literal _, _, _, _, _ => trivial
  | .group inner, _, _, h, hle => Expr.Within.below (e := inner) h hle
  | .unary _ _ operand, _, _, h, hle | .get operand _, _, _, h, hle =>
    ⟨trivial, Expr.Within.below (e := operand) h hle⟩
  | .binary _ _ _ _, _, _, ⟨_, hl, hr⟩, hle | .set _ _ _, _, _, ⟨_, hl, hr⟩, hle =>
    ⟨trivial, hl.below (Nat.le_trans hr.le hle), hr.below hle⟩
  | .logical _ _ _, _, _, ⟨_, hl, hr⟩, hle => ⟨hl.below (Nat.le_trans hr.le hle), hr.below hle⟩
  | .var _, _, _, h, hle => Reference.Within.below h hle
  | .this _, _, _, ⟨_, _, h⟩, hle => ⟨Nat.lt_of_lt_of_le h hle, trivial⟩
  | .super _ _, _, _, ⟨_, h⟩, hle => ⟨⟨Nat.lt_of_lt_of_le h hle, trivial⟩, trivial⟩
  | .assign _ _, _, _, ⟨_, hv, ht⟩, hle =>
    ⟨ht.below hle, hv.below (Nat.le_trans (Nat.le_trans ht.2.1 (Nat.le_of_lt ht.2.2)) hle)⟩
  | .call _ _ _, _, _, ⟨_, hc, ha⟩, hle =>
    ⟨trivial, hc.below (Nat.le_trans ha.le hle), ha.below hle⟩

theorem Expr.AllWithin.below : ∀ {es : List Expr} {n n' : NodeId}, Expr.AllWithin es n n' →
    n' ≤ bound → Expr.AllFrom (.below bound) es
  | [], _, _, _, _ => trivial
  | _ :: _, _, _, ⟨_, h, hs⟩, hle => ⟨h.below (Nat.le_trans hs.le hle), hs.below hle⟩

end

theorem Expr.Within?.below : ∀ {e : Option Expr} {n n' : NodeId}, Expr.Within? e n n' →
    n' ≤ bound → Expr.From? (.below bound) e
  | none, _, _, _, _ => trivial
  | some e, _, _, h, hle => Expr.Within.below (e := e) h hle

theorem Reference.Within?.below : ∀ {r : Option Reference} {n n' : NodeId},
    Reference.Within? r n n' → n' ≤ bound → Reference.From? (.below bound) r
  | none, _, _, _, _ => trivial
  | some _, _, _, h, hle => Reference.Within.below h hle

mutual

theorem Stmt.Within.below : ∀ {s : Stmt} {n n' : NodeId}, s.Within n n' → n' ≤ bound →
    s.From (.below bound)
  | .expr value, _, _, h, hle | .print value, _, _, h, hle => Expr.Within.below (e := value) h hle
  | .var _ _, _, _, ⟨_, h⟩, hle => Expr.Within?.below h hle
  | .block _, _, _, (h : Stmt.AllWithin _ _ _), hle => h.below hle
  | .ifElse _ _ none, _, _, ⟨_, _, hc, ht⟩, hle | .whileDo _ _, _, _, ⟨_, _, hc, ht⟩, hle =>
    ⟨hc.below (Nat.le_trans ht.le hle), ht.below hle⟩
  | .ifElse _ _ (some _), _, _, ⟨_, _, _, _, hc, ht, he⟩, hle =>
    ⟨hc.below (Nat.le_trans ht.le (Nat.le_trans he.le hle)), ht.below (Nat.le_trans he.le hle),
      he.below hle⟩
  | .function _, _, _, ⟨_, h⟩, hle => h.below hle
  | .ret _ _, _, _, h, hle => Expr.Within?.below h hle
  | .classDecl _ _ _, _, _, ⟨_, _, hs, hm⟩, hle =>
    ⟨trivial, Reference.Within?.below hs (Nat.le_trans hm.le hle), hm.below hle⟩

theorem FunctionDecl.Within.below : ∀ {f : FunctionDecl} {n n' : NodeId}, f.Within n n' →
    n' ≤ bound → f.From (.below bound)
  | ⟨_, _, _⟩, _, _, ⟨_, h⟩, hle => ⟨trivial, h.below hle⟩

theorem FunctionDecl.AllWithin.below : ∀ {fs : List FunctionDecl} {n n' : NodeId},
    FunctionDecl.AllWithin fs n n' → n' ≤ bound → FunctionDecl.AllFrom (.below bound) fs
  | [], _, _, _, _ => trivial
  | _ :: _, _, _, ⟨_, h, hs⟩, hle => ⟨h.below (Nat.le_trans hs.le hle), hs.below hle⟩

/-- **A tree takes its identities below** the bound behind it. -/
theorem Stmt.AllWithin.below : ∀ {ss : List Stmt} {n n' : NodeId}, Stmt.AllWithin ss n n' →
    n' ≤ bound → Stmt.AllFrom (.below bound) ss
  | [], _, _, _, _ => trivial
  | _ :: _, _, _, ⟨_, .inl ⟨h, hs⟩⟩, hle => ⟨h.below (Nat.le_trans hs.le hle), hs.below hle⟩
  | _ :: _, _, _, ⟨_, .inr ⟨h, hs⟩⟩, hle => ⟨h.below hle, hs.below (Nat.le_trans h.le hle)⟩

end

end Below

end Lox
