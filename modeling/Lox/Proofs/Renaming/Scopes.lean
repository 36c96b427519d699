import Lox.Proofs.Occurrences.Basic
import Lox.Proofs.Renaming.Renamed
import Lox.Proofs.Scoping.Ribs

/-!
# Local scopes of a program

What is declared in a local scope of an accepted program.  Every local declaration is in a scope
that a path leads to (`Program.exists_scope`), no scope declares a name twice, so functions and
classes have other names than the variables and parameters of their scope
(`Stmt.AllResolved.object_ne`), and all names are such that a program can give
(`Stmt.AllResolved.plain_scopeAmong`).
-/

namespace Lox

/-! ## Functions and classes of a scope -/

/-- The name of the function or class that a statement declares. -/
def Stmt.object? : Stmt → Option Name
  | .function declaration => some declaration.name
  | .classDecl name _ _ => some name
  | _ => none

section
variable {distances : Distances} {bound : NodeId} {rib : Rib} {outer : Ribs}

theorem Stmt.declared?_of_object? {s : Stmt} {name : Name} (h : s.object? = some name) :
    s.declared? = some name := by
  cases s <;> simp_all [Stmt.object?, Stmt.declared?]

theorem Stmt.object?_eq_none {s : Stmt} (h : s.declared? = none) : s.object? = none := by
  cases s <;> simp_all [Stmt.object?, Stmt.declared?]

theorem Stmt.declared?_of_variableName? {s : Stmt} {name : Name} (h : s.variableName? = some name) :
    s.declared? = some name := by
  cases s <;> simp_all [Stmt.variableName?, Stmt.declared?]

theorem Stmt.Resolved.fresh {s : Stmt} {ribs : Ribs} {name : Name}
    (h : s.Resolved distances bound ribs) (hs : s.declared? = some name) :
    ribs.Fresh name.text := by
  cases s with
  | var _ _ | function _ | classDecl _ _ _ =>
    cases hs
    exact h.2.1
  | _ => cases hs

/-- The names that statements declare are not bound by the scope before them, -/
theorem Stmt.AllResolved.fresh : ∀ {ss : List Stmt} {rib : Rib} {outer : Ribs},
    Stmt.AllResolved distances bound (rib :: outer) ss →
      ∀ s ∈ ss, ∀ name, s.declared? = some name → rib name.text = false
  | first :: others, rib, outer, ⟨h, hothers⟩, s, hs, name, hname => by
    rcases List.mem_cons.mp hs with rfl | hs
    · exact h.fresh hname rib rfl
    · unfold Stmt.behind at hothers
      cases hfirst : first.declared? with
      | none =>
        rw [hfirst] at hothers
        exact hothers.fresh s hs name hname
      | some earlier =>
        rw [hfirst] at hothers
        have hadd : rib.add earlier.text name.text = false := hothers.fresh s hs name hname
        simp only [Rib.add, Bool.or_eq_false_iff] at hadd
        exact hadd.2

/-- and no two of them declare one name. -/
theorem Stmt.AllResolved.unique : ∀ {ss : List Stmt} {rib : Rib} {outer : Ribs},
    Stmt.AllResolved distances bound (rib :: outer) ss →
      ∀ s ∈ ss, ∀ t ∈ ss, ∀ name name', s.declared? = some name → t.declared? = some name' →
        name.text = name'.text → s = t
  | first :: others, rib, outer, ⟨_, hothers⟩, s, hs, t, ht, name, name', hname, hname', htext => by
    -- behind a statement, what it declares is not declared again
    have hlater : ∀ {earlier later : Name} {u : Stmt}, first.declared? = some earlier → u ∈ others →
        u.declared? = some later → later.text ≠ earlier.text := by
      intro earlier later u hfirst hu hlater he
      unfold Stmt.behind at hothers
      rw [hfirst] at hothers
      have hadd : rib.add earlier.text later.text = false := hothers.fresh u hu later hlater
      simp [Rib.add, he] at hadd
    rcases List.mem_cons.mp hs with rfl | hs' <;> rcases List.mem_cons.mp ht with rfl | ht'
    · rfl
    · exact absurd htext.symm (hlater hname ht' hname')
    · exact absurd htext (hlater hname' hs' hname)
    · unfold Stmt.behind at hothers
      cases hfirst : first.declared? with
      | none =>
        rw [hfirst] at hothers
        exact hothers.unique s hs' t ht' name name' hname hname' htext
      | some earlier =>
        rw [hfirst] at hothers
        exact hothers.unique s hs' t ht' name name' hname hname' htext

/-- **No function or class has the name of a variable or a parameter** of its scope. -/
theorem Stmt.AllResolved.object_ne {params : List Name} {body : List Stmt} {x : String}
    (h : Stmt.AllResolved distances bound (Ribs.extendAll (.none :: outer) params) body)
    (hx : ∃ name ∈ LocalScope.variables ⟨params, body⟩, name.text = x) :
    ∀ s ∈ body, ∀ name ∈ s.object?, name.text ≠ x := by
  obtain ⟨rib, hrib, hbinds⟩ := Ribs.extendAll_cons params .none outer
  rw [hrib] at h
  rintro s hs name hname rfl
  have hdeclared := Stmt.declared?_of_object? hname
  obtain ⟨declared, hvariable, htext⟩ := hx
  rcases List.mem_append.mp hvariable with hparam | hbody
  · have hbound := (hbinds declared.text).mpr (.inr ⟨declared, hparam, rfl⟩)
    rw [htext, h.fresh s hs name hdeclared] at hbound
    cases hbound
  · obtain ⟨t, ht, hvariable⟩ := List.mem_filterMap.mp hbody
    have hdeclared' := Stmt.declared?_of_variableName? hvariable
    cases h.unique s hs t ht name declared hdeclared hdeclared' htext.symm
    cases s with
    | var _ _ => cases hname
    | _ => cases hvariable

end

/-! ## The variables of a scope -/

section
variable {distances : Distances} {bound : NodeId} {path : List Nat} {scope : LocalScope}

theorem Stmt.AllResolved.plain {ss : List Stmt} {ribs : Ribs}
    (h : Stmt.AllResolved distances bound ribs ss) :
    ∀ name ∈ ss.filterMap Stmt.variableName?, Plain name.text := by
  induction ss generalizing ribs with
  | nil => exact nofun
  | cons s ss ih =>
    intro name hname
    rcases List.mem_filterMap.mp hname with ⟨t, ht, hvariable⟩
    rcases List.mem_cons.mp ht with rfl | ht
    · cases t with
      | var _ _ =>
        cases hvariable
        exact h.1.1
      | _ => cases hvariable
    · exact ih h.2 name (List.mem_filterMap.mpr ⟨t, ht, hvariable⟩)

mutual

/-- The variables and the parameters of a scope have names that a program can give. -/
theorem Stmt.Resolved.plain_scopeAt : ∀ {s : Stmt} {path : List Nat} {ribs : Ribs},
    s.Resolved distances bound ribs → s.scopeAt path = some scope →
      ∀ name ∈ scope.variables, Plain name.text
  | .block body, path, ribs, h, hscope => by
    by_cases hpath : path = []
    · rw [Stmt.scopeAt, if_pos hpath] at hscope
      cases hscope
      exact Stmt.AllResolved.plain h
    · rw [Stmt.scopeAt, if_neg hpath] at hscope
      exact Stmt.AllResolved.plain_scopeAmong h hscope
  | .ifElse _ _ none, 0 :: _, _, ⟨_, _, h⟩, hscope => h.plain_scopeAt hscope
  | .ifElse _ _ (some _), 0 :: _, _, ⟨_, _, h, _, _⟩, hscope => h.plain_scopeAt hscope
  | .ifElse _ _ (some _), 1 :: _, _, ⟨_, _, _, _, h⟩, hscope => h.plain_scopeAt hscope
  | .whileDo _ _, _, _, ⟨_, _, h⟩, hscope => h.plain_scopeAt hscope
  | .function _, _, _, ⟨_, _, h⟩, hscope => h.plain_scopeAt hscope
  | .classDecl _ _ _, _, _, ⟨_, _, _, h⟩, hscope =>
    FunctionDecl.AllResolved.plain_scopeAmong h hscope

theorem FunctionDecl.Resolved.plain_scopeAt : ∀ {f : FunctionDecl} {path : List Nat} {ribs : Ribs},
    f.Resolved distances bound ribs → f.scopeAt path = some scope →
      ∀ name ∈ scope.variables, Plain name.text
  | ⟨_, params, body⟩, path, ribs, ⟨hplain, _, h⟩, hscope => by
    by_cases hpath : path = []
    · rw [FunctionDecl.scopeAt, if_pos hpath] at hscope
      cases hscope
      exact List.forall_mem_append.mpr ⟨hplain, h.plain⟩
    · rw [FunctionDecl.scopeAt, if_neg hpath] at hscope
      exact Stmt.AllResolved.plain_scopeAmong h hscope

theorem FunctionDecl.AllResolved.plain_scopeAmong : ∀ {fs : List FunctionDecl} {path : List Nat}
    {ribs : Ribs}, FunctionDecl.AllResolved distances bound ribs fs →
      FunctionDecl.scopeAmong path fs = some scope → ∀ name ∈ scope.variables, Plain name.text
  | _ :: _, 0 :: _, _, ⟨h, _⟩, hscope => h.plain_scopeAt hscope
  | _ :: _, (_ + 1) :: _, _, ⟨_, h⟩, hscope => FunctionDecl.AllResolved.plain_scopeAmong h hscope

theorem Stmt.AllResolved.plain_scopeAmong : ∀ {ss : List Stmt} {path : List Nat} {ribs : Ribs},
    Stmt.AllResolved distances bound ribs ss → Stmt.scopeAmong path ss = some scope →
      ∀ name ∈ scope.variables, Plain name.text
  | _ :: _, 0 :: _, _, ⟨h, _⟩, hscope => h.plain_scopeAt hscope
  | _ :: _, (_ + 1) :: _, _, ⟨_, h⟩, hscope => Stmt.AllResolved.plain_scopeAmong h hscope

end

end

/-! ## Paths to all of them -/

/-- The names that are declared in a scope. -/
def LocalScope.declared (scope : LocalScope) : List Name :=
  scope.params ++ scope.body.filterMap Stmt.declared?

section
variable {place : Place} {own : Option Name} {o : Occurrence} {name : Name}

mutual

theorem Expr.not_declared : ∀ {e : Expr}, o ∈ e.occurrences place own → o.mention ≠ .declared name
  | .group inner, ho => Expr.not_declared (e := inner) ho
  | .unary _ _ operand, ho => Expr.not_declared (e := operand) ho
  | .get object _, ho => Expr.not_declared (e := object) ho
  | .binary _ _ _ _, ho | .logical _ _ _, ho | .set _ _ _, ho =>
    (List.mem_append.mp ho).elim Expr.not_declared Expr.not_declared
  | .var _, ho | .this _, ho | .super _ _, ho => by
    cases List.mem_singleton.mp ho
    exact nofun
  | .assign _ _, ho => by
    rcases List.mem_append.mp ho with ho | ho
    · exact Expr.not_declared ho
    · cases List.mem_singleton.mp ho
      exact nofun
  | .call _ _ _, ho => (List.mem_append.mp ho).elim Expr.not_declared Expr.not_declaredAll

theorem Expr.not_declaredAll : ∀ {es : List Expr}, o ∈ Expr.allOccurrences place own es →
    o.mention ≠ .declared name
  | _ :: _, ho => (List.mem_append.mp ho).elim Expr.not_declared Expr.not_declaredAll

end

theorem Expr.not_declared? : ∀ {e : Option Expr}, o ∈ Expr.occurrences? place own e →
    o.mention ≠ .declared name
  | some e, ho => Expr.not_declared (e := e) ho

theorem Place.mem_of_parameters (hname : o.mention = .declared name) :
    ∀ {params : List Name} {place : Place}, o ∈ place.parameters params → name ∈ params
  | param :: params, place, ho => by
    rcases List.mem_cons.mp ho with rfl | ho
    · cases hname
      exact List.mem_cons_self
    · exact List.mem_cons_of_mem _ (Place.mem_of_parameters hname ho)

theorem Place.not_declared_superclass {cls : Name} : ∀ {r : Option Reference},
    o ∈ place.superclass cls r → o.mention ≠ .declared name
  | some _, ho => by
    simp only [Place.superclass, List.mem_cons, List.not_mem_nil, or_false] at ho
    rcases ho with rfl | rfl <;> exact nofun

end

section
variable {distances : Distances} {bound : NodeId} {o : Occurrence} {name : Name}

mutual

/-- **What a statement declares is declared there or in a scope** that a path leads to. -/
theorem Stmt.Resolved.declared_or_scope (hname : o.mention = .declared name) : ∀ {s : Stmt}
    {place : Place} {ribs : Ribs}, s.Resolved distances bound ribs → o ∈ s.occurrences place →
      s.declared? = some name ∧ o.place = place ∨
        ∃ path scope, s.scopeAt path = some scope ∧ name ∈ scope.declared
  | .expr _, _, _, _, ho | .print _, _, _, _, ho => absurd hname (Expr.not_declared ho)
  | .var _ _, _, _, _, ho => by
    rcases List.mem_cons.mp ho with rfl | ho
    · cases hname
      exact .inl ⟨rfl, rfl⟩
    · exact absurd hname (Expr.not_declared? ho)
  | .block body, _, _, h, ho => by
    rcases Stmt.AllResolved.declared_or_scope hname h ho with
      ⟨hdeclared, -⟩ | ⟨path, scope, hscope, hmem⟩
    · exact .inr ⟨[], ⟨[], body⟩, rfl, List.mem_append_right _ hdeclared⟩
    · cases path with
      | nil => cases body <;> cases hscope
      | cons n path => exact .inr ⟨n :: path, scope, hscope, hmem⟩
  | .ifElse _ thenBranch none, _, _, ⟨_, hnone, h⟩, ho => by
    rcases List.mem_append.mp ho with ho | ho
    · exact absurd hname (Expr.not_declared ho)
    · rcases h.declared_or_scope hname ho with ⟨hdeclared, -⟩ | ⟨path, hfound⟩
      · cases hnone.symm.trans hdeclared
      · exact .inr ⟨0 :: path, hfound⟩
  | .ifElse _ thenBranch (some elseBranch), _, _, ⟨_, hnone, h, hnone', h'⟩, ho => by
    rcases List.mem_append.mp ho with ho | ho
    · rcases List.mem_append.mp ho with ho | ho
      · exact absurd hname (Expr.not_declared ho)
      · rcases h.declared_or_scope hname ho with ⟨hdeclared, -⟩ | ⟨path, hfound⟩
        · cases hnone.symm.trans hdeclared
        · exact .inr ⟨0 :: path, hfound⟩
    · rcases h'.declared_or_scope hname ho with ⟨hdeclared, -⟩ | ⟨path, hfound⟩
      · cases hnone'.symm.trans hdeclared
      · exact .inr ⟨1 :: path, hfound⟩
  | .whileDo _ _, _, _, ⟨_, hnone, h⟩, ho => by
    rcases List.mem_append.mp ho with ho | ho
    · exact absurd hname (Expr.not_declared ho)
    · rcases h.declared_or_scope hname ho with ⟨hdeclared, -⟩ | hfound
      · cases hnone.symm.trans hdeclared
      · exact .inr hfound
  | .function _, _, _, ⟨_, _, h⟩, ho => by
    rcases List.mem_cons.mp ho with rfl | ho
    · cases hname
      exact .inl ⟨rfl, rfl⟩
    · exact .inr (FunctionDecl.Resolved.exists_scope hname h ho)
  | .ret _ _, _, _, _, ho => by
    rcases List.mem_cons.mp ho with rfl | ho
    · cases hname
    · exact absurd hname (Expr.not_declared? ho)
  | .classDecl _ _ _, _, _, ⟨_, _, _, h⟩, ho => by
    rcases List.mem_cons.mp ho with rfl | ho
    · cases hname
      exact .inl ⟨rfl, rfl⟩
    · rcases List.mem_append.mp ho with ho | ho
      · exact absurd hname (Place.not_declared_superclass ho)
      · exact .inr (FunctionDecl.AllResolved.exists_scope hname h ho)

theorem FunctionDecl.Resolved.exists_scope (hname : o.mention = .declared name) :
    ∀ {f : FunctionDecl} {enclosure : Enclosure} {place : Place} {ribs : Ribs},
      f.Resolved distances bound ribs → o ∈ f.occurrences enclosure place →
        ∃ path scope, f.scopeAt path = some scope ∧ name ∈ scope.declared
  | ⟨_, params, body⟩, _, _, _, ⟨_, _, h⟩, ho => by
    rcases List.mem_append.mp ho with ho | ho
    · exact ⟨[], ⟨params, body⟩, rfl, List.mem_append_left _ (Place.mem_of_parameters hname ho)⟩
    · rcases Stmt.AllResolved.declared_or_scope hname h ho with
        ⟨hdeclared, -⟩ | ⟨path, scope, hscope, hmem⟩
      · exact ⟨[], ⟨params, body⟩, rfl, List.mem_append_right _ hdeclared⟩
      · cases path with
        | nil => cases body <;> cases hscope
        | cons n path => exact ⟨n :: path, scope, hscope, hmem⟩

theorem FunctionDecl.AllResolved.exists_scope (hname : o.mention = .declared name) :
    ∀ {fs : List FunctionDecl} {superclass : Option Reference} {place : Place} {ribs : Ribs},
      FunctionDecl.AllResolved distances bound ribs fs →
        o ∈ FunctionDecl.allOccurrences superclass place fs →
          ∃ path scope, FunctionDecl.scopeAmong path fs = some scope ∧ name ∈ scope.declared
  | _ :: fs, _, _, _, ⟨h, hothers⟩, ho => by
    rcases List.mem_append.mp ho with ho | ho
    · obtain ⟨path, hfound⟩ := h.exists_scope hname ho
      exact ⟨0 :: path, hfound⟩
    · obtain ⟨path, scope, hscope, hmem⟩ := FunctionDecl.AllResolved.exists_scope hname hothers ho
      cases path with
      | nil => cases fs <;> cases hscope
      | cons n path => exact ⟨(n + 1) :: path, scope, hscope, hmem⟩

/-- What several statements declare is declared by one of them or in a scope. -/
theorem Stmt.AllResolved.declared_or_scope (hname : o.mention = .declared name) :
    ∀ {ss : List Stmt} {place : Place} {ribs : Ribs}, Stmt.AllResolved distances bound ribs ss →
      o ∈ Stmt.allOccurrences place ss →
        name ∈ ss.filterMap Stmt.declared? ∧ (place = [] → o.place = []) ∨
          ∃ path scope, Stmt.scopeAmong path ss = some scope ∧ name ∈ scope.declared
  | s :: ss, place, _, ⟨h, hothers⟩, ho => by
    rcases List.mem_append.mp ho with ho | ho
    · rcases h.declared_or_scope hname ho with ⟨hdeclared, hplace⟩ | ⟨path, hfound⟩
      · exact .inl ⟨List.mem_filterMap.mpr ⟨s, List.mem_cons_self, hdeclared⟩, hplace.trans⟩
      · exact .inr ⟨0 :: path, hfound⟩
    · rcases Stmt.AllResolved.declared_or_scope hname hothers ho with
        ⟨hdeclared, hplace⟩ | ⟨path, scope, hscope, hmem⟩
      · obtain ⟨t, ht, hdeclared⟩ := List.mem_filterMap.mp hdeclared
        refine .inl ⟨List.mem_filterMap.mpr ⟨t, List.mem_cons_of_mem _ ht, hdeclared⟩, ?_⟩
        rintro rfl
        exact hplace rfl
      · cases path with
        | nil => cases ss <;> cases hscope
        | cons n path => exact .inr ⟨(n + 1) :: path, scope, hscope, hmem⟩

end

/-- **Every local declaration of a program is in a scope** that a path leads to. -/
theorem Program.exists_scope {program : Program} (h : Stmt.AllResolved distances bound [] program)
    (ho : o ∈ program.occurrences) (hname : o.mention = .declared name) (hlocal : o.place ≠ []) :
    ∃ path scope, Stmt.scopeAmong path program = some scope ∧ name ∈ scope.declared := by
  rcases h.declared_or_scope hname ho with ⟨-, hplace⟩ | hfound
  · exact absurd (hplace rfl) hlocal
  · exact hfound

end

end Lox
