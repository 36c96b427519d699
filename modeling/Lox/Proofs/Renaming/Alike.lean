import Lox.Proofs.Tokens
import Lox.Scope.Findings

/-!
# Programs that are alike but for local names

Two trees are alike if they differ in the names of local variables and of parameters only: what has
one name on the one side may have another on the other side (`Renaming`).  What a name means depends
on the names that were declared around its place, so trees are compared inside a `Pairing`: for each
scope, what every name that was declared in it so far is called on either side.  A name of the one
side and one of the other mean the same (`Pairing.Same`) if they are a pair of the innermost scope
that has either of them.  If no scope has, both mean an outermost variable and must be equal.

Functions and classes have the same names on both sides, references the same identities and lines.
So alike programs have the same findings (`Stmt.walk_alike`) and run alike.
-/

namespace Lox

/-- A name that local variables have, and one that they may have instead. -/
structure Renaming where
  old : String
  new : String

/-- Whether what has the one name may be called by the other one: it keeps its name, or has the new
name in the place of the old one.  Both are names that a program can give. -/
structure Renaming.Calls (ρ : Renaming) (x x' : String) : Prop where
  plain : Plain x
  plain' : Plain x'
  kept_or_new : x' = x ∨ x = ρ.old ∧ x' = ρ.new

/-- Whether the first name may be called by the second one, on the same line. -/
structure Name.Twins (ρ : Renaming) (name name' : Name) : Prop where
  calls : ρ.Calls name.text name'.text
  line : name'.line = name.line

/-- For each scope around a place, the innermost first, the names declared in it so far: what each
is called on the one side and on the other. -/
abbrev Pairing := List (List (String × String))

namespace Pairing

/-- One more scope, without names. -/
def enter (pairing : Pairing) : Pairing :=
  [] :: pairing

/-- The scopes around the methods of a class. -/
def enterClass (pairing : Pairing) : Option Reference → Pairing
  | some _ => [(thisName, thisName)] :: [(superName, superName)] :: pairing
  | none => [(thisName, thisName)] :: pairing

/-- A pair of names declared in the innermost scope. -/
def declare (pairing : Pairing) (x x' : String) : Pairing :=
  match pairing with
  | [] => []
  | scope :: outer => (scope ++ [(x, x')]) :: outer

/-- Whether names can be declared as a pair: both of them are new to the innermost scope.  The name
of an outermost variable is the same on both sides. -/
def Admits (pairing : Pairing) (x x' : String) : Prop :=
  match pairing with
  | [] => x' = x
  | scope :: _ => x ∉ scope.map Prod.fst ∧ x' ∉ scope.map Prod.snd

/-- The local variable at the place of its initializer. -/
def own (pairing : Pairing) (x x' : String) : Option (String × String) :=
  match pairing with
  | [] => none
  | _ :: _ => some (x, x')

/-- **Whether two names mean the same.** -/
def Same : Pairing → String → String → Prop
  | [], x, x' => x' = x
  | scope :: outer, x, x' => (x, x') ∈ scope ∨
      x ∉ scope.map Prod.fst ∧ x' ∉ scope.map Prod.snd ∧ Same outer x x'

/-- Whether several names are declared one after the other, in pairs. -/
inductive Declares (ρ : Renaming) : Pairing → List Name → List Name → Pairing → Prop
  | nil {pairing : Pairing} : Declares ρ pairing [] [] pairing
  | cons {pairing behind : Pairing} {name name' : Name} {names names' : List Name}
      (hname : name.Twins ρ name') (hadmits : pairing.Admits name.text name'.text)
      (h : Declares ρ (pairing.declare name.text name'.text) names names' behind) :
      Declares ρ pairing (name :: names) (name' :: names') behind

end Pairing

/-! ## Expressions -/

/-- Whether two references are the same but for their names. -/
structure Reference.Twins (ρ : Renaming) (r r' : Reference) : Prop where
  id : r'.id = r.id
  name : r.name.Twins ρ r'.name

section
variable (ρ : Renaming) (pairing : Pairing) (own : Option (String × String))

/-- Whether two references read the same variable.  No other variable than the one that is being
initialized has its name. -/
structure Reference.Alike (r r' : Reference) : Prop where
  twins : r.Twins ρ r'
  other : ∀ pair ∈ own, r'.name.text = pair.2 → r.name.text = pair.1
  same : pairing.Same r.name.text r'.name.text

/-- Whether two references write to the same variable, which may be the one that is being
initialized. -/
structure Reference.AlikeTarget (r r' : Reference) : Prop where
  twins : r.Twins ρ r'
  own_iff : ∀ pair ∈ own, r'.name.text = pair.2 ↔ r.name.text = pair.1
  same : (∀ pair ∈ own, r.name.text ≠ pair.1) → pairing.Same r.name.text r'.name.text

mutual

/-- **Whether two expressions are alike** at a place in the initializer of `own`, if there is one.
-/
inductive Expr.Alike : Expr → Expr → Prop
  | literal {value : Literal} : Expr.Alike (.literal value) (.literal value)
  | group {inner inner' : Expr} (h : Expr.Alike inner inner') :
      Expr.Alike (.group inner) (.group inner')
  | unary {op : UnaryOp} {line : Nat} {operand operand' : Expr} (h : Expr.Alike operand operand') :
      Expr.Alike (.unary op line operand) (.unary op line operand')
  | binary {op : BinaryOp} {line : Nat} {left left' right right' : Expr}
      (hleft : Expr.Alike left left') (hright : Expr.Alike right right') :
      Expr.Alike (.binary left op line right) (.binary left' op line right')
  | logical {op : LogicalOp} {left left' right right' : Expr}
      (hleft : Expr.Alike left left') (hright : Expr.Alike right right') :
      Expr.Alike (.logical left op right) (.logical left' op right')
  | var {r r' : Reference} (h : r.Alike ρ pairing own r') : Expr.Alike (.var r) (.var r')
  | assign {target target' : Reference} {value value' : Expr}
      (htarget : target.AlikeTarget ρ pairing own target') (hvalue : Expr.Alike value value') :
      Expr.Alike (.assign target value) (.assign target' value')
  | call {line : Nat} {callee callee' : Expr} {args args' : List Expr}
      (hcallee : Expr.Alike callee callee') (hargs : Expr.AllAlike args args') :
      Expr.Alike (.call callee line args) (.call callee' line args')
  | get {name : Name} {object object' : Expr} (h : Expr.Alike object object') :
      Expr.Alike (.get object name) (.get object' name)
  | set {name : Name} {object object' value value' : Expr} (hobject : Expr.Alike object object')
      (hvalue : Expr.Alike value value') :
      Expr.Alike (.set object name value) (.set object' name value')
  | this {keyword : Reference} (hname : keyword.name.text = thisName) :
      Expr.Alike (.this keyword) (.this keyword)
  | super {keyword : Reference} {method : Name} :
      Expr.Alike (.super keyword method) (.super keyword method)

/-- Whether several expressions are alike. -/
inductive Expr.AllAlike : List Expr → List Expr → Prop
  | nil : Expr.AllAlike [] []
  | cons {e e' : Expr} {es es' : List Expr} (h : Expr.Alike e e') (hothers : Expr.AllAlike es es') :
      Expr.AllAlike (e :: es) (e' :: es')

end

/-- Whether two expressions are alike that may both be absent. -/
inductive Expr.Alike? : Option Expr → Option Expr → Prop
  | none : Expr.Alike? none none
  | some {e e' : Expr} (h : e.Alike ρ pairing own e') : Expr.Alike? (some e) (some e')

/-- Whether two superclass clauses are alike that may both be absent. -/
inductive Reference.Alike? : Option Reference → Option Reference → Prop
  | none : Reference.Alike? none none
  | some {r r' : Reference} (h : r.Alike ρ pairing .none r') : Reference.Alike? (some r) (some r')

end

/-! ## Statements -/

section
variable (ρ : Renaming)

mutual

/-- **Whether two statements are alike** behind these declarations, and the declarations behind
them. -/
inductive Stmt.Alike : Pairing → Stmt → Stmt → Pairing → Prop
  | expr {pairing : Pairing} {value value' : Expr} (h : value.Alike ρ pairing none value') :
      Stmt.Alike pairing (.expr value) (.expr value') pairing
  | print {pairing : Pairing} {value value' : Expr} (h : value.Alike ρ pairing none value') :
      Stmt.Alike pairing (.print value) (.print value') pairing
  | var {pairing : Pairing} {name name' : Name} {initializer initializer' : Option Expr}
      (hname : name.Twins ρ name') (hadmits : pairing.Admits name.text name'.text)
      (h : Expr.Alike? ρ pairing (pairing.own name.text name'.text) initializer initializer') :
      Stmt.Alike pairing (.var name initializer) (.var name' initializer')
        (pairing.declare name.text name'.text)
  | block {pairing behind : Pairing} {body body' : List Stmt}
      (h : Stmt.AllAlike pairing.enter body body' behind) :
      Stmt.Alike pairing (.block body) (.block body') pairing
  | ifThen {pairing : Pairing} {condition condition' : Expr} {thenBranch thenBranch' : Stmt}
      (hcondition : condition.Alike ρ pairing none condition')
      (h : Stmt.Alike pairing thenBranch thenBranch' pairing) :
      Stmt.Alike pairing (.ifElse condition thenBranch none) (.ifElse condition' thenBranch' none)
        pairing
  | ifElse {pairing : Pairing} {condition condition' : Expr}
      {thenBranch thenBranch' elseBranch elseBranch' : Stmt}
      (hcondition : condition.Alike ρ pairing none condition')
      (hthen : Stmt.Alike pairing thenBranch thenBranch' pairing)
      (helse : Stmt.Alike pairing elseBranch elseBranch' pairing) :
      Stmt.Alike pairing (.ifElse condition thenBranch (some elseBranch))
        (.ifElse condition' thenBranch' (some elseBranch')) pairing
  | whileDo {pairing : Pairing} {condition condition' : Expr} {body body' : Stmt}
      (hcondition : condition.Alike ρ pairing none condition')
      (h : Stmt.Alike pairing body body' pairing) :
      Stmt.Alike pairing (.whileDo condition body) (.whileDo condition' body') pairing
  | function {pairing : Pairing} {f f' : FunctionDecl} (hplain : Plain f.name.text)
      (hadmits : pairing.Admits f.name.text f.name.text)
      (h : FunctionDecl.Alike (pairing.declare f.name.text f.name.text) f f') :
      Stmt.Alike pairing (.function f) (.function f') (pairing.declare f.name.text f.name.text)
  | ret {pairing : Pairing} {keyword : Name} {value value' : Option Expr}
      (h : Expr.Alike? ρ pairing none value value') :
      Stmt.Alike pairing (.ret keyword value) (.ret keyword value') pairing
  | classDecl {pairing : Pairing} {name : Name} {superclass superclass' : Option Reference}
      {methods methods' : List FunctionDecl} (hplain : Plain name.text)
      (hadmits : pairing.Admits name.text name.text)
      (hsuperclass :
        Reference.Alike? ρ (pairing.declare name.text name.text) superclass superclass')
      (h : FunctionDecl.AllAlike
        (Pairing.enterClass (pairing.declare name.text name.text) superclass) methods methods') :
      Stmt.Alike pairing (.classDecl name superclass methods)
        (.classDecl name superclass' methods') (pairing.declare name.text name.text)

/-- Whether two functions are alike behind these declarations. -/
inductive FunctionDecl.Alike : Pairing → FunctionDecl → FunctionDecl → Prop
  | mk {pairing inside behind : Pairing} {name : Name} {params params' : List Name}
      {body body' : List Stmt} (hparams : pairing.enter.Declares ρ params params' inside)
      (h : Stmt.AllAlike inside body body' behind) :
      FunctionDecl.Alike pairing ⟨name, params, body⟩ ⟨name, params', body'⟩

/-- Whether several functions are alike. -/
inductive FunctionDecl.AllAlike : Pairing → List FunctionDecl → List FunctionDecl → Prop
  | nil {pairing : Pairing} : FunctionDecl.AllAlike pairing [] []
  | cons {pairing : Pairing} {f f' : FunctionDecl} {fs fs' : List FunctionDecl}
      (h : FunctionDecl.Alike pairing f f') (hothers : FunctionDecl.AllAlike pairing fs fs') :
      FunctionDecl.AllAlike pairing (f :: fs) (f' :: fs')

/-- Whether several statements are alike, one after the other, and the declarations behind them. -/
inductive Stmt.AllAlike : Pairing → List Stmt → List Stmt → Pairing → Prop
  | nil {pairing : Pairing} : Stmt.AllAlike pairing [] [] pairing
  | cons {pairing between behind : Pairing} {s s' : Stmt} {ss ss' : List Stmt}
      (h : Stmt.Alike pairing s s' between) (hothers : Stmt.AllAlike between ss ss' behind) :
      Stmt.AllAlike pairing (s :: ss) (s' :: ss') behind

end

/-- **Whether two programs are alike but for local names.** -/
def Program.Alike (program program' : Program) : Prop :=
  Stmt.AllAlike ρ [] program program' []

end

section
variable {ρ : Renaming}

theorem Stmt.Alike.behind_nil {s s' : Stmt} {behind : Pairing} (h : s.Alike ρ [] s' behind) :
    behind = [] := by
  cases h <;> rfl

theorem Stmt.AllAlike.behind_nil : ∀ {ss ss' : List Stmt} {behind : Pairing},
    Stmt.AllAlike ρ [] ss ss' behind → behind = []
  | _, _, _, .nil => rfl
  | _, _, _, .cons h hothers => by
    cases h.behind_nil
    exact hothers.behind_nil

/-- A variable is assigned to in its own initializer on both sides or on neither. -/
theorem Reference.AlikeTarget.own_eq_iff {pairing : Pairing} {own : Option (String × String)}
    {r r' : Reference} (h : r.AlikeTarget ρ pairing own r') :
    own.map Prod.snd = some r'.name.text ↔ own.map Prod.fst = some r.name.text := by
  cases own with
  | none => simp
  | some pair =>
    simp only [Option.map_some, Option.some.injEq]
    exact ⟨fun he => ((h.own_iff pair rfl).mp he.symm).symm,
      fun he => ((h.own_iff pair rfl).mpr he.symm).symm⟩

theorem FunctionDecl.Alike.name_eq {pairing : Pairing} {f f' : FunctionDecl}
    (h : f.Alike ρ pairing f') : f'.name = f.name := by
  cases h
  rfl

theorem FunctionDecl.Alike.isInitializer_eq {pairing : Pairing} {f f' : FunctionDecl}
    (h : f.Alike ρ pairing f') : f'.isInitializer = f.isInitializer := by
  rw [FunctionDecl.isInitializer, FunctionDecl.isInitializer, h.name_eq]

theorem Pairing.Declares.length_eq {pairing behind : Pairing} {names names' : List Name}
    (h : pairing.Declares ρ names names' behind) : names'.length = names.length := by
  induction h with
  | nil => rfl
  | cons _ _ _ ih => rw [List.length_cons, List.length_cons, ih]

theorem FunctionDecl.Alike.length_eq {pairing : Pairing} {f f' : FunctionDecl}
    (h : f.Alike ρ pairing f') : f'.params.length = f.params.length := by
  cases h with
  | mk hparams _ => exact hparams.length_eq

end

/-! ## Pairs of names -/

theorem Plain.ne {x name : String} (hx : Plain x) (hname : ¬Plain name) : x ≠ name :=
  fun he => hname (he ▸ hx)

namespace Pairing

variable {pairing : Pairing} {x x' t t' : String}

theorem isEmpty_declare : (pairing.declare x x').isEmpty = pairing.isEmpty := by
  cases pairing <;> rfl

theorem declare_ne_nil (h : pairing ≠ []) : pairing.declare x x' ≠ [] := by
  cases pairing with
  | nil => exact absurd rfl h
  | cons scope outer => exact nofun

/-- Behind a declaration, names mean what they meant before, or they are what was declared. -/
theorem same_declare (h : pairing.Admits x x') (hsame : (pairing.declare x x').Same t t') :
    (pairing ≠ [] ∧ t = x ∧ t' = x') ∨ ((pairing ≠ [] → t ≠ x ∧ t' ≠ x') ∧ pairing.Same t t') := by
  cases pairing with
  | nil => exact .inr ⟨fun hne => absurd rfl hne, hsame⟩
  | cons scope outer =>
    have hsame : (t, t') ∈ scope ++ [(x, x')] ∨ t ∉ (scope ++ [(x, x')]).map Prod.fst ∧
        t' ∉ (scope ++ [(x, x')]).map Prod.snd ∧ Same outer t t' := hsame
    simp only [List.mem_append, List.mem_singleton, List.map_append, List.map_cons, List.map_nil,
      not_or] at hsame
    rcases hsame with (hmem | hpair) | ⟨⟨ht, hx⟩, ⟨ht', hx'⟩, houter⟩
    · refine .inr ⟨fun _ => ⟨?_, ?_⟩, .inl hmem⟩
      · rintro rfl
        exact h.1 (List.mem_map_of_mem (f := Prod.fst) hmem)
      · rintro rfl
        exact h.2 (List.mem_map_of_mem (f := Prod.snd) hmem)
    · cases hpair
      exact .inl ⟨nofun, rfl, rfl⟩
    · exact .inr ⟨fun _ => ⟨hx, hx'⟩, .inr ⟨ht, ht', houter⟩⟩

theorem same_declare_self (h : pairing.Admits x x') : (pairing.declare x x').Same x x' := by
  cases pairing with
  | nil => exact h
  | cons scope outer => exact .inl (List.mem_append_right _ List.mem_cons_self)

theorem same_enter : pairing.enter.Same t t' ↔ pairing.Same t t' := by
  show (t, t') ∈ [] ∨ t ∉ [] ∧ t' ∉ [] ∧ pairing.Same t t' ↔ _
  simp

theorem same_reserved {name : String} {outer : Pairing} (hname : ¬Plain name) (ht : Plain t)
    (h : Same ([(name, name)] :: outer) t t') : Same outer t t' := by
  rcases h with hmem | ⟨-, -, h⟩
  · cases List.mem_singleton.mp hmem
    exact absurd ht hname
  · exact h

/-- The scopes of a class change no meaning of a name that a program can give. -/
theorem same_of_enterClass {superclass : Option Reference} (ht : Plain t)
    (h : (pairing.enterClass superclass).Same t t') : pairing.Same t t' := by
  have hthis : ¬Plain thisName := fun h => h.1 rfl
  have hsuper : ¬Plain superName := fun h => h.2 rfl
  cases superclass with
  | none => exact same_reserved hthis ht h
  | some _ => exact same_reserved hsuper ht (same_reserved hthis ht h)

end Pairing

end Lox
