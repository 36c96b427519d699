import Lox.Proofs.Occurrences.Findings

/-!
# The rules that can be checked without running

What it means that an occurrence violates a rule (`Occurrence.Violates`), in terms of its place: of
the names declared before it in the innermost scope, and of the innermost function and the innermost
class around it.  A program is rejected exactly if one of its occurrences violates a rule, and then
each violation is reported once, in the order of the occurrences (`Program.resolve_exact`).
-/

namespace Lox

/-- **Whether an occurrence violates a rule.** -/
inductive Occurrence.Violates : Occurrence → ScopeRule → Prop
  /-- A local variable is read in its own initializer. -/
  | readInOwnInitializer {reference : Reference} {place : Place} {name : Name}
      (hlocal : place ≠ []) (hown : name.text = reference.name.text) :
      Violates ⟨.read reference, place, some name⟩ .readInOwnInitializer
  /-- A name is declared in a local scope in which it was declared before. -/
  | declaredTwice {name : Name} {level : Level} {outer : Place} {own : Option Name}
      (hearlier : name.text ∈ level.names) :
      Violates ⟨.declared name, level :: outer, own⟩ .declaredTwice
  /-- A `return` stands outside every function. -/
  | returnOutsideFunction {keyword : Name} {hasValue : Bool} {place : Place} {own : Option Name}
      (houtside : place.function? = none) :
      Violates ⟨.returned keyword hasValue, place, own⟩ .returnOutsideFunction
  /-- A `return` with a value stands in a method whose name is that of initializers. -/
  | returnValueFromInitializer {keyword name : Name} {superclass : Option Reference}
      {place : Place} {own : Option Name}
      (hinside : place.function? = some (.method name superclass))
      (hname : name.text = initializerName) :
      Violates ⟨.returned keyword true, place, own⟩ .returnValueFromInitializer
  /-- There is a `this` outside every class. -/
  | thisOutsideClass {keyword : Reference} {place : Place} {own : Option Name}
      (houtside : place.class? = none) :
      Violates ⟨.this keyword, place, own⟩ .thisOutsideClass
  /-- There is a `super` outside every class. -/
  | superOutsideClass {keyword : Reference} {place : Place} {own : Option Name}
      (houtside : place.class? = none) :
      Violates ⟨.super keyword, place, own⟩ .superOutsideClass
  /-- There is a `super` in a class without a superclass. -/
  | superWithoutSuperclass {keyword : Reference} {place : Place} {own : Option Name}
      (hinside : place.class? = some none) :
      Violates ⟨.super keyword, place, own⟩ .superWithoutSuperclass
  /-- A class names itself as its superclass. -/
  | inheritsFromItself {cls superclass : Name} {place : Place} {own : Option Name}
      (hsame : superclass.text = cls.text) :
      Violates ⟨.inherits cls superclass, place, own⟩ .inheritsFromItself

/-- How the violation of a rule is reported: with the line and the text of the occurrence. -/
def Occurrence.diagnostic (o : Occurrence) (rule : ScopeRule) : Diagnostic :=
  .resolve o.name.line o.name.text rule.message

/-- Whether these are the reports of occurrences: one for each that violates a rule, in their
order. -/
inductive Reported : List Occurrence → List Diagnostic → Prop
  | nil : Reported [] []
  | silent {o : Occurrence} {os : List Occurrence} {reports : List Diagnostic}
      (h : ∀ rule, ¬ o.Violates rule) (hothers : Reported os reports) : Reported (o :: os) reports
  | violation {o : Occurrence} {rule : ScopeRule} {os : List Occurrence}
      {reports : List Diagnostic} (h : o.Violates rule) (hothers : Reported os reports) :
      Reported (o :: os) (o.diagnostic rule :: reports)

/-! ## Reports are determined -/

/-- The rules exclude each other. -/
theorem Occurrence.Violates.unique {o : Occurrence} {rule rule' : ScopeRule}
    (h : o.Violates rule) (h' : o.Violates rule') : rule = rule' := by
  cases h with
  | readInOwnInitializer | declaredTwice | thisOutsideClass | inheritsFromItself => cases h'; rfl
  | returnOutsideFunction houtside =>
    cases h' with
    | returnOutsideFunction => rfl
    | returnValueFromInitializer hinside => rw [houtside] at hinside; cases hinside
  | returnValueFromInitializer hinside =>
    cases h' with
    | returnOutsideFunction houtside => rw [houtside] at hinside; cases hinside
    | returnValueFromInitializer => rfl
  | superOutsideClass houtside =>
    cases h' with
    | superOutsideClass => rfl
    | superWithoutSuperclass hinside => rw [houtside] at hinside; cases hinside
  | superWithoutSuperclass hinside =>
    cases h' with
    | superOutsideClass houtside => rw [houtside] at hinside; cases hinside
    | superWithoutSuperclass => rfl

namespace Reported

variable {os : List Occurrence} {reports reports' : List Diagnostic}

theorem unique (h : Reported os reports) (h' : Reported os reports') : reports = reports' := by
  induction h generalizing reports' with
  | nil => cases h'; rfl
  | silent hsilent hothers ih =>
    cases h' with
    | silent _ hothers' => exact ih hothers'
    | violation hviolates _ => exact absurd hviolates (hsilent _)
  | violation hviolates hothers ih =>
    cases h' with
    | silent hsilent _ => exact absurd hviolates (hsilent _)
    | violation hviolates' hothers' => rw [hviolates.unique hviolates', ih hothers']

theorem eq_nil_iff (h : Reported os reports) :
    reports = [] ↔ ∀ o ∈ os, ∀ rule, ¬ o.Violates rule := by
  induction h with
  | nil => simp
  | silent hsilent _ ih =>
    rw [ih, List.forall_mem_cons]
    exact ⟨fun hothers => ⟨hsilent, hothers⟩, And.right⟩
  | violation hviolates _ _ =>
    exact ⟨nofun, fun hnone => absurd hviolates (hnone _ List.mem_cons_self _)⟩

end Reported

/-! ## What the walk reports -/

theorem Level.get?_scope (level : Level) (name : String) :
    level.scope.get? name = if name ∈ level.names then some true else none := by
  have hput : ∀ (names : List String) (scope : Table Bool),
      (names.foldl (fun scope name => scope.put name true) scope).get? name =
        if name ∈ names then some true else scope.get? name := by
    intro names
    induction names with
    | nil => intro scope; rfl
    | cons first others ih =>
      intro scope
      rw [List.foldl_cons, ih]
      by_cases hothers : name ∈ others
      · rw [if_pos hothers, if_pos (List.mem_cons_of_mem _ hothers)]
      · by_cases hfirst : name = first
        · subst hfirst
          rw [if_neg hothers, if_pos List.mem_cons_self, Table.get?_put_self]
        · rw [if_neg hothers, if_neg (by simp [hfirst, hothers]), Table.get?_put_of_ne _ _ hfirst]
  exact hput level.names .empty

theorem Level.contains_scope (level : Level) (name : String) :
    level.scope.contains name = true ↔ name ∈ level.names := by
  unfold Table.contains
  rw [level.get?_scope]
  split <;> simp [*]

namespace Place

variable {place : Place} {name : String}

theorem pending_scopes : place.scopes.pending name = false := by
  cases place with
  | nil => rfl
  | cons level outer =>
    show (level.scope.get? name == some false) = false
    rw [level.get?_scope]
    split <;> rfl

theorem pending_scopesWith {own : Name} :
    (place.scopesWith (some own)).pending name = true ↔ place ≠ [] ∧ own.text = name := by
  cases place with
  | nil => simp [scopesWith, scopes, Scopes.declare, Scopes.pending]
  | cons level outer =>
    show ((level.scope.put own.text false).get? name == some false) = true ↔ _
    by_cases hname : name = own.text
    · subst hname
      simp
    · rw [Table.get?_put_of_ne _ _ hname, level.get?_scope]
      have hname : own.text ≠ name := fun h => hname h.symm
      split <;> simp [hname]

end Place

namespace Occurrence

/-- What the walk reports at an occurrence. -/
def reports (o : Occurrence) : List Diagnostic :=
  o.findings.filterMap Finding.diagnostic?

/-- Whether reports are those of an occurrence alone. -/
def ReportedAs (o : Occurrence) (reports : List Diagnostic) : Prop :=
  (∃ rule, o.Violates rule ∧ reports = [o.diagnostic rule]) ∨
    (∀ rule, ¬ o.Violates rule) ∧ reports = []

theorem reports_bind (scopes : Scopes) (id : NodeId) (name : String) :
    (scopes.bind id name).filterMap Finding.diagnostic? = [] := by
  unfold Scopes.bind
  cases scopes.distance? name <;> rfl

theorem reportedAs_ite {o : Occurrence} {rule : ScopeRule} {P : Prop} [Decidable P]
    (h : ∀ rule', o.Violates rule' ↔ rule' = rule ∧ P) :
    o.ReportedAs ((if P then [.violation o.name rule] else []).filterMap Finding.diagnostic?) := by
  by_cases hP : P
  · rw [if_pos hP]
    exact .inl ⟨rule, (h rule).mpr ⟨rfl, hP⟩, rfl⟩
  · rw [if_neg hP]
    exact .inr ⟨fun rule' hviolates => hP ((h rule').mp hviolates).2, rfl⟩

section
variable {place : Place} {own : Option Name} {keyword : Reference}

theorem reportedAs_read {reference : Reference} :
    ReportedAs ⟨.read reference, place, own⟩ (reports ⟨.read reference, place, own⟩) := by
  have hreports : reports ⟨.read reference, place, own⟩ =
      (if (place.scopesWith own).pending reference.name.text = true then
        [.violation reference.name .readInOwnInitializer] else []).filterMap
          Finding.diagnostic? := by
    unfold reports findings Scopes.read
    rw [List.filterMap_append, reports_bind, List.append_nil]
    rfl
  rw [hreports]
  refine reportedAs_ite fun rule => ?_
  constructor
  · intro h
    cases h with
    | readInOwnInitializer hlocal hown =>
      exact ⟨rfl, Place.pending_scopesWith.mpr ⟨hlocal, hown⟩⟩
  · rintro ⟨rfl, hpending⟩
    cases own with
    | none => rw [Place.scopesWith, Place.pending_scopes] at hpending; cases hpending
    | some name =>
      obtain ⟨hlocal, hown⟩ := Place.pending_scopesWith.mp hpending
      exact .readInOwnInitializer hlocal hown

theorem reportedAs_this :
    ReportedAs ⟨.this keyword, place, own⟩ (reports ⟨.this keyword, place, own⟩) := by
  unfold reports findings Place.inClass
  cases hclass : place.class? with
  | none =>
    exact .inl ⟨.thisOutsideClass, .thisOutsideClass hclass, rfl⟩
  | some superclass =>
    refine .inr ⟨fun rule h => ?_, ?_⟩
    · cases h with | thisOutsideClass houtside => rw [hclass] at houtside; cases houtside
    · cases superclass <;> exact reports_bind ..

theorem reportedAs_super :
    ReportedAs ⟨.super keyword, place, own⟩ (reports ⟨.super keyword, place, own⟩) := by
  unfold reports findings Scopes.superFindings
  rw [List.filterMap_append, reports_bind, List.append_nil]
  unfold Place.inClass
  cases hclass : place.class? with
  | none =>
    exact .inl ⟨.superOutsideClass, .superOutsideClass hclass, rfl⟩
  | some superclass =>
    cases superclass with
    | none => exact .inl ⟨.superWithoutSuperclass, .superWithoutSuperclass hclass, rfl⟩
    | some reference =>
      refine .inr ⟨fun rule h => ?_, rfl⟩
      cases h with
      | superOutsideClass houtside => rw [hclass] at houtside; cases houtside
      | superWithoutSuperclass hinside => rw [hclass] at hinside; cases hinside

theorem reportedAs_returned {keyword : Name} {hasValue : Bool} :
    ReportedAs ⟨.returned keyword hasValue, place, own⟩
      (reports ⟨.returned keyword hasValue, place, own⟩) := by
  unfold reports findings Place.inFunction
  cases hfunction : place.function? with
  | none =>
    refine .inl ⟨.returnOutsideFunction, .returnOutsideFunction hfunction, ?_⟩
    cases hasValue <;> rfl
  | some enclosure =>
    cases enclosure with
    | block | function =>
      refine .inr ⟨fun rule h => ?_, by cases hasValue <;> rfl⟩
      cases h with
      | returnOutsideFunction houtside => rw [hfunction] at houtside; cases houtside
      | returnValueFromInitializer hinside => rw [hfunction] at hinside; cases hinside
    | method name superclass =>
      by_cases hinit : hasValue = true ∧ name.text = initializerName
      · obtain ⟨rfl, hname⟩ := hinit
        refine .inl ⟨.returnValueFromInitializer, .returnValueFromInitializer hfunction hname, ?_⟩
        simp only [hname]
        rfl
      · refine .inr ⟨fun rule h => ?_, ?_⟩
        · cases h with
          | returnOutsideFunction houtside => rw [hfunction] at houtside; cases houtside
          | returnValueFromInitializer hinside hname =>
            rw [hfunction] at hinside
            cases hinside
            exact hinit ⟨rfl, hname⟩
        · cases hasValue with
          | false => simp only; split <;> rfl
          | true =>
            have hname : ¬ name.text = initializerName := fun h => hinit ⟨rfl, h⟩
            simp only [beq_iff_eq, hname, if_false]
            rfl

end

/-- **The walk reports the violation at an occurrence** if there is one. -/
theorem reportedAs_reports : ∀ o : Occurrence, o.ReportedAs o.reports
  | ⟨.declared name, [], own⟩ => .inr ⟨nofun, rfl⟩
  | ⟨.declared name, level :: outer, own⟩ => by
    refine reportedAs_ite (P := level.scope.contains name.text = true) fun rule => ?_
    rw [level.contains_scope]
    constructor
    · intro h; cases h with | declaredTwice hearlier => exact ⟨rfl, hearlier⟩
    · rintro ⟨rfl, hearlier⟩; exact .declaredTwice hearlier
  | ⟨.inherits cls superclass, place, own⟩ => by
    refine reportedAs_ite (P := superclass.text = cls.text) fun rule => ?_
    constructor
    · intro h; cases h with | inheritsFromItself hsame => exact ⟨rfl, hsame⟩
    · rintro ⟨rfl, hsame⟩; exact .inheritsFromItself hsame
  | ⟨.assigned _, _, _⟩ => .inr ⟨nofun, reports_bind ..⟩
  | ⟨.read _, _, _⟩ => reportedAs_read
  | ⟨.this _, _, _⟩ => reportedAs_this
  | ⟨.super _, _, _⟩ => reportedAs_super
  | ⟨.returned _ _, _, _⟩ => reportedAs_returned

end Occurrence

theorem reported_reports : ∀ os : List Occurrence, Reported os (os.flatMap Occurrence.reports)
  | [] => .nil
  | o :: os => by
    rw [List.flatMap_cons]
    obtain ⟨rule, hviolates, hreports⟩ | ⟨hsilent, hreports⟩ := o.reportedAs_reports
    · rw [hreports]
      exact .violation hviolates (reported_reports os)
    · rw [hreports]
      exact .silent hsilent (reported_reports os)

theorem Program.reported_violations (program : Program) :
    Reported program.occurrences program.violations := by
  unfold Program.violations
  rw [program.findings_eq, List.filterMap_flatMap]
  exact reported_reports program.occurrences

theorem Program.resolve_eq_error {program : Program} {faults : List Diagnostic} :
    program.resolve = .error faults ↔ faults ≠ [] ∧ program.violations = faults := by
  unfold Program.resolve
  cases hviolations : program.violations with
  | nil => simp
  | cons first others =>
    simp only [List.isEmpty_cons, Bool.false_eq_true, if_false, Except.error.injEq]
    exact ⟨by rintro rfl; exact ⟨nofun, rfl⟩, And.right⟩

/-- **The resolver reports exactly the violations.**  No occurrence violates two rules.  A program is
rejected exactly if one of its occurrences violates a rule, and then with these reports: one for each
occurrence that violates a rule, with its line and its text, in the order of the occurrences. -/
theorem Program.resolve_exact (program : Program) :
    (∀ (o : Occurrence) (rule rule' : ScopeRule),
      o.Violates rule → o.Violates rule' → rule = rule') ∧
    ((∃ faults, program.resolve = .error faults) ↔
      ∃ o ∈ program.occurrences, ∃ rule, o.Violates rule) ∧
    ∀ faults, program.resolve = .error faults ↔
      faults ≠ [] ∧ Reported program.occurrences faults := by
  have hreported := program.reported_violations
  refine ⟨fun _ _ _ h h' => h.unique h', ?_, fun faults => ?_⟩
  · have hsome : (∃ faults, program.resolve = .error faults) ↔ program.violations ≠ [] := by
      constructor
      · rintro ⟨faults, h⟩
        obtain ⟨hne, rfl⟩ := Program.resolve_eq_error.mp h
        exact hne
      · exact fun hne => ⟨_, Program.resolve_eq_error.mpr ⟨hne, rfl⟩⟩
    rw [hsome, ne_eq, hreported.eq_nil_iff]
    simp
  · rw [Program.resolve_eq_error]
    constructor
    · rintro ⟨hne, rfl⟩
      exact ⟨hne, hreported⟩
    · rintro ⟨hne, hfaults⟩
      exact ⟨hne, hreported.unique hfaults⟩

end Lox
