import Lox.Proofs.Scoping.Resolved

/-!
# The walk over a program records what it should

If the walk over a tree finds no violation, then a table that agrees with what it finds resolves the
tree (`Stmt.resolved_of_walk`).  What is found for the parts of a form is found one after the other
under identities of ranges that do not overlap, so a table that agrees with all of it agrees with
each part (`Records.split`).
-/

namespace Lox

/-! ## Records -/

/-- The distance that is found for an identity. -/
def found (findings : List Finding) (id : NodeId) : Option Nat :=
  (findings.filterMap Finding.distance?).lookup id

/-- Whether distances are found only for identities between two bounds. -/
def KeysWithin (findings : List Finding) (n n' : Nat) : Prop :=
  ∀ id d : Nat, .bound id d ∈ findings → n ≤ id ∧ id < n'

/-- Whether a table agrees with findings on the identities between two bounds, and no finding is a
violation. -/
structure Records (distances : Distances) (n n' : Nat) (findings : List Finding) : Prop where
  sound : ∀ name rule, .violation name rule ∉ findings
  agrees : ∀ id : Nat, n ≤ id → id < n' → distances.get? id = found findings id

theorem found_append (a b : List Finding) (id : NodeId) :
    found (a ++ b) id = (found a id).or (found b id) := by
  simp only [found, List.filterMap_append, List.lookup_append]

theorem found_eq_none {findings : List Finding} {n n' id : Nat} (h : KeysWithin findings n n')
    (hid : id < n ∨ n' ≤ id) : found findings id = none := by
  unfold found
  rw [List.lookup_eq_none_iff]
  rintro ⟨key, d⟩ hmem
  obtain ⟨finding, hfinding, hd⟩ := List.mem_filterMap.mp hmem
  cases finding with
  | bound key' d' =>
    cases hd
    have hkey := h key d hfinding
    refine bne_iff_ne.mpr fun (he : (id : Nat) = key) => ?_
    omega
  | violation => cases hd

theorem KeysWithin.append {a b : List Finding} {n n' : Nat} (ha : KeysWithin a n n')
    (hb : KeysWithin b n n') : KeysWithin (a ++ b) n n' :=
  fun id d h => (List.mem_append.mp h).elim (ha id d) (hb id d)

theorem KeysWithin.mono {a : List Finding} {n n' m m' : Nat} (h : KeysWithin a n n')
    (hm : m ≤ n) (hm' : n' ≤ m') : KeysWithin a m m' :=
  fun id d hmem => ⟨Nat.le_trans hm (h id d hmem).1, Nat.lt_of_lt_of_le (h id d hmem).2 hm'⟩

theorem keysWithin_nil {n n' : Nat} : KeysWithin [] n n' := nofun

theorem keysWithin_violation {name : Name} {rule : ScopeRule} {n n' : Nat} :
    KeysWithin [.violation name rule] n n' := by
  intro id d h
  cases List.mem_singleton.mp h

/-- **A record of two lists is one of each**, if their identities lie in ranges apart. -/
theorem Records.split {distances : Distances} {a b : List Finding} {n n' p p' q q' : Nat}
    (h : Records distances n n' (a ++ b)) (ha : KeysWithin a p p') (hb : KeysWithin b q q')
    (hp : n ≤ p ∧ p' ≤ n') (hq : n ≤ q ∧ q' ≤ n') (hapart : p' ≤ q ∨ q' ≤ p) :
    Records distances p p' a ∧ Records distances q q' b := by
  refine ⟨⟨fun name rule hv => h.sound name rule (List.mem_append_left _ hv), ?_⟩,
    ⟨fun name rule hv => h.sound name rule (List.mem_append_right _ hv), ?_⟩⟩
  · intro id hid hid'
    rw [h.agrees id (by omega) (by omega), found_append, found_eq_none hb (by omega), Option.or_none]
  · intro id hid hid'
    rw [h.agrees id (by omega) (by omega), found_append, found_eq_none ha (by omega), Option.none_or]

/-- The usual case: the second list comes from behind the first. -/
theorem Records.append {distances : Distances} {a b : List Finding} {n m n' : Nat}
    (h : Records distances n n' (a ++ b)) (ha : KeysWithin a n m) (hb : KeysWithin b m n')
    (hn : n ≤ m) (hn' : m ≤ n') : Records distances n m a ∧ Records distances m n' b :=
  h.split ha hb ⟨Nat.le_refl _, hn'⟩ ⟨hn, Nat.le_refl _⟩ (.inl (Nat.le_refl _))

theorem Records.behind {distances : Distances} {a b : List Finding} {n n' : Nat}
    (h : Records distances n n' (a ++ b)) (ha : KeysWithin a 0 0) : Records distances n n' b where
  sound name rule hv := h.sound name rule (List.mem_append_right _ hv)
  agrees id hid hid' := by
    rw [h.agrees id hid hid', found_append, found_eq_none ha (.inr (Nat.zero_le _)), Option.none_or]

/-! ## Identities of findings -/

theorem Scopes.keysWithin_bind (scopes : Scopes) (id : Nat) (name : String) :
    KeysWithin (scopes.bind id name) id (id + 1) := by
  unfold Scopes.bind
  split
  · intro key d h
    cases List.mem_singleton.mp h
    exact ⟨Nat.le_refl _, Nat.lt_succ_self _⟩
  · exact keysWithin_nil

theorem Scopes.keysWithin_read (scopes : Scopes) (r : Reference) :
    KeysWithin (scopes.read r) r.id (r.id + 1) := by
  refine .append ?_ (keysWithin_bind scopes r.id r.name.text)
  split
  · exact keysWithin_violation
  · exact keysWithin_nil

variable {context : ClassContext} {scopes : Scopes}

mutual

theorem Expr.keysWithin_findings : ∀ {e : Expr} {n n' : Nat}, e.Within n n' →
    KeysWithin (e.findings context scopes) n n'
  | .literal _, _, _, _ => keysWithin_nil
  | .group inner, _, _, h => Expr.keysWithin_findings (e := inner) h
  | .unary _ _ operand, _, _, h => Expr.keysWithin_findings (e := operand) h
  | .get object _, _, _, h => Expr.keysWithin_findings (e := object) h
  | .binary _ _ _ _, _, _, ⟨_, hl, hr⟩ | .logical _ _ _, _, _, ⟨_, hl, hr⟩
  | .set _ _ _, _, _, ⟨_, hl, hr⟩ =>
    ((Expr.keysWithin_findings hl).mono (Nat.le_refl _) hr.le).append
      ((Expr.keysWithin_findings hr).mono hl.le (Nat.le_refl _))
  | .var r, _, _, ⟨_, h, h'⟩ => (scopes.keysWithin_read r).mono h h'
  | .assign target _, _, _, ⟨_, hv, _, h, h'⟩ =>
    ((Expr.keysWithin_findings hv).mono (Nat.le_refl _) (Nat.le_trans h (Nat.le_of_lt h'))).append
      ((scopes.keysWithin_bind target.id target.name.text).mono (Nat.le_trans hv.le h) h')
  | .call _ _ _, _, _, ⟨_, hc, ha⟩ =>
    ((Expr.keysWithin_findings hc).mono (Nat.le_refl _) ha.le).append
      ((Expr.keysWithin_allFindings ha).mono hc.le (Nat.le_refl _))
  | .this keyword, _, _, ⟨_, h, h'⟩ => by
    unfold Expr.findings
    split
    · exact keysWithin_violation
    · exact (scopes.keysWithin_bind keyword.id thisName).mono h h'
  | .super keyword _, _, _, ⟨h, h'⟩ => by
    refine .append ?_ ((scopes.keysWithin_bind keyword.id superName).mono h h')
    split
    · exact keysWithin_violation
    · exact keysWithin_violation
    · exact keysWithin_nil

theorem Expr.keysWithin_allFindings : ∀ {es : List Expr} {n n' : Nat}, Expr.AllWithin es n n' →
    KeysWithin (Expr.allFindings context scopes es) n n'
  | [], _, _, _ => keysWithin_nil
  | _ :: _, _, _, ⟨_, h, hs⟩ =>
    ((Expr.keysWithin_findings h).mono (Nat.le_refl _) hs.le).append
      ((Expr.keysWithin_allFindings hs).mono h.le (Nat.le_refl _))

end

theorem Expr.keysWithin_findings? : ∀ {e : Option Expr} {n n' : Nat}, Expr.Within? e n n' →
    KeysWithin (Expr.findings? context scopes e) n n'
  | none, _, _, _ => keysWithin_nil
  | some e, _, _, h => Expr.keysWithin_findings (e := e) h

theorem Scopes.keysWithin_declare (scopes : Scopes) (name : Name) :
    KeysWithin (scopes.declare name).2 0 0 := by
  unfold Scopes.declare
  split
  · exact keysWithin_nil
  · show KeysWithin (if _ then _ else _) 0 0
    split
    · exact keysWithin_violation
    · exact keysWithin_nil

theorem Scopes.keysWithin_declareAll : ∀ (names : List Name) (scopes : Scopes),
    KeysWithin (scopes.declareAll names).2 0 0
  | [], _ => keysWithin_nil
  | name :: names, scopes =>
    (scopes.keysWithin_declare name).append (keysWithin_declareAll names _)

theorem FunctionContext.keysWithin_returnFindings (context : FunctionContext) (keyword : Name)
    (hasValue : Bool) : KeysWithin (context.returnFindings keyword hasValue) 0 0 := by
  refine .append ?_ ?_
  · split
    · exact keysWithin_violation
    · exact keysWithin_nil
  · split
    · exact keysWithin_violation
    · exact keysWithin_nil

theorem Scopes.keysWithin_superclassFindings {name : Name} : ∀ {r : Option Reference} {n n' : Nat},
    Reference.Within? r n n' → KeysWithin (scopes.superclassFindings name r) n n'
  | none, _, _, _ => keysWithin_nil
  | some r, n, n', ⟨_, h, h'⟩ => by
    refine .append ?_ ((scopes.keysWithin_read r).mono h h')
    split
    · exact keysWithin_violation
    · exact keysWithin_nil

/-- What is found without an identity is found between any two bounds. -/
theorem KeysWithin.of_zero {a : List Finding} (h : KeysWithin a 0 0) (n n' : Nat) :
    KeysWithin a n n' :=
  fun id d hmem => absurd (h id d hmem).2 (Nat.not_lt_zero _)

theorem Expr.Within?.le : ∀ {e : Option Expr} {n n' : Nat}, Expr.Within? e n n' → n ≤ n'
  | none, _, _, h => h
  | some e, _, _, h => Expr.Within.le (e := e) h

theorem Reference.Within?.le : ∀ {r : Option Reference} {n n' : Nat}, Reference.Within? r n n' → n ≤ n'
  | none, _, _, h => h
  | some _, _, _, ⟨_, h, h'⟩ => Nat.le_trans h (Nat.le_of_lt h')

mutual

theorem Stmt.Within.le : ∀ {s : Stmt} {n n' : Nat}, s.Within n n' → n ≤ n'
  | .expr value, _, _, h | .print value, _, _, h => Expr.Within.le (e := value) h
  | .var _ _, _, _, ⟨_, h⟩ => h.le
  | .block _, _, _, (h : Stmt.AllWithin _ _ _) => h.le
  | .ifElse _ _ none, _, _, ⟨_, _, hc, ht⟩ => Nat.le_trans hc.le ht.le
  | .ifElse _ _ (some _), _, _, ⟨_, _, _, _, hc, ht, he⟩ =>
    Nat.le_trans hc.le (Nat.le_trans ht.le he.le)
  | .whileDo _ _, _, _, ⟨_, _, hc, hb⟩ => Nat.le_trans hc.le hb.le
  | .function _, _, _, ⟨_, h⟩ => h.le
  | .ret _ _, _, _, h => Expr.Within?.le h
  | .classDecl _ _ _, _, _, ⟨_, _, hs, hm⟩ => Nat.le_trans hs.le hm.le

theorem FunctionDecl.Within.le : ∀ {f : FunctionDecl} {n n' : Nat}, f.Within n n' → n ≤ n'
  | ⟨_, _, _⟩, _, _, ⟨_, h⟩ => h.le

theorem FunctionDecl.AllWithin.le : ∀ {fs : List FunctionDecl} {n n' : Nat},
    FunctionDecl.AllWithin fs n n' → n ≤ n'
  | [], _, _, h => h
  | _ :: _, _, _, ⟨_, h, hs⟩ => Nat.le_trans h.le hs.le

theorem Stmt.AllWithin.le : ∀ {ss : List Stmt} {n n' : Nat}, Stmt.AllWithin ss n n' → n ≤ n'
  | [], _, _, h => h
  | _ :: _, _, _, ⟨_, .inl ⟨h, hs⟩⟩ => Nat.le_trans h.le hs.le
  | _ :: _, _, _, ⟨_, .inr ⟨h, hs⟩⟩ => Nat.le_trans hs.le h.le

end

theorem Expr.Within?.mono : ∀ {e : Option Expr} {n n' m m' : Nat}, Expr.Within? e n n' → m ≤ n →
    n' ≤ m' → Expr.Within? e m m'
  | none, _, _, _, _, h, hm, hm' => Nat.le_trans hm (Nat.le_trans h hm')
  | some e, _, _, _, _, h, hm, hm' => Expr.Within.mono (e := e) h hm hm'

theorem Reference.Within?.mono : ∀ {r : Option Reference} {n n' m m' : Nat},
    Reference.Within? r n n' → m ≤ n → n' ≤ m' → Reference.Within? r m m'
  | none, _, _, _, _, h, hm, hm' => Nat.le_trans hm (Nat.le_trans h hm')
  | some r, _, _, _, _, h, hm, hm' => Reference.Within.mono (r := r) h hm hm'

mutual

theorem Stmt.Within.mono : ∀ {s : Stmt} {n n' m m' : Nat}, s.Within n n' → m ≤ n → n' ≤ m' →
    s.Within m m'
  | .expr value, _, _, _, _, h, hm, hm' | .print value, _, _, _, _, h, hm, hm' =>
    Expr.Within.mono (e := value) h hm hm'
  | .var _ _, _, _, _, _, ⟨hp, h⟩, hm, hm' => ⟨hp, h.mono hm hm'⟩
  | .block body, _, _, _, _, h, hm, hm' =>
    have hbody : Stmt.AllWithin body _ _ := h
    hbody.mono hm hm'
  | .ifElse _ _ none, _, _, _, _, ⟨hd, k, hc, ht⟩, hm, hm'
  | .whileDo _ _, _, _, _, _, ⟨hd, k, hc, ht⟩, hm, hm' =>
    ⟨hd, k, hc.mono hm (Nat.le_refl k), ht.mono (Nat.le_refl k) hm'⟩
  | .ifElse _ _ (some _), _, _, _, _, ⟨hd, hd', k, k', hc, ht, he⟩, hm, hm' =>
    ⟨hd, hd', k, k', hc.mono hm (Nat.le_refl k), ht, he.mono (Nat.le_refl k') hm'⟩
  | .function _, _, _, _, _, ⟨hp, h⟩, hm, hm' => ⟨hp, h.mono hm hm'⟩
  | .ret _ value, _, _, _, _, h, hm, hm' => Expr.Within?.mono (e := value) h hm hm'
  | .classDecl _ _ _, _, _, _, _, ⟨hp, k, hs, hms⟩, hm, hm' =>
    ⟨hp, k, hs.mono hm (Nat.le_refl k), hms.mono (Nat.le_refl k) hm'⟩

theorem FunctionDecl.Within.mono : ∀ {f : FunctionDecl} {n n' m m' : Nat}, f.Within n n' →
    m ≤ n → n' ≤ m' → f.Within m m'
  | ⟨_, _, _⟩, _, _, _, _, ⟨hp, h⟩, hm, hm' => ⟨hp, h.mono hm hm'⟩

theorem FunctionDecl.AllWithin.mono : ∀ {fs : List FunctionDecl} {n n' m m' : Nat},
    FunctionDecl.AllWithin fs n n' → m ≤ n → n' ≤ m' → FunctionDecl.AllWithin fs m m'
  | [], _, _, _, _, h, hm, hm' => Nat.le_trans hm (Nat.le_trans h hm')
  | _ :: _, _, _, _, _, ⟨k, h, hs⟩, hm, hm' =>
    ⟨k, h.mono hm (Nat.le_refl k), hs.mono (Nat.le_refl k) hm'⟩

theorem Stmt.AllWithin.mono : ∀ {ss : List Stmt} {n n' m m' : Nat}, Stmt.AllWithin ss n n' →
    m ≤ n → n' ≤ m' → Stmt.AllWithin ss m m'
  | [], _, _, _, _, h, hm, hm' => Nat.le_trans hm (Nat.le_trans h hm')
  | _ :: _, _, _, _, _, ⟨k, .inl ⟨h, hs⟩⟩, hm, hm' =>
    ⟨k, .inl ⟨h.mono hm (Nat.le_refl k), hs.mono (Nat.le_refl k) hm'⟩⟩
  | _ :: _, _, _, _, _, ⟨k, .inr ⟨h, hs⟩⟩, hm, hm' =>
    ⟨k, .inr ⟨h.mono (Nat.le_refl k) hm', hs.mono hm (Nat.le_refl k)⟩⟩

end

mutual

theorem Stmt.keysWithin_walk : ∀ {s : Stmt} {around : Surroundings} {scopes : Scopes} {n n' : Nat},
    s.Within n n' → KeysWithin (s.walk around scopes).2 n n'
  | .expr value, _, _, _, _, h | .print value, _, _, _, _, h => Expr.keysWithin_findings (e := value) h
  | .var name _, _, scopes, n, n', ⟨_, h⟩ =>
    ((scopes.keysWithin_declare name).of_zero n n').append (Expr.keysWithin_findings? h)
  | .block _, _, _, _, _, (h : Stmt.AllWithin _ _ _) => Stmt.keysWithin_walkAll h
  | .ifElse _ _ none, _, _, _, _, ⟨_, _, hc, ht⟩ | .whileDo _ _, _, _, _, _, ⟨_, _, hc, ht⟩ =>
    ((Expr.keysWithin_findings hc).mono (Nat.le_refl _) ht.le).append
      ((Stmt.keysWithin_walk ht).mono hc.le (Nat.le_refl _))
  | .ifElse _ _ (some _), _, _, _, _, ⟨_, _, _, _, hc, ht, he⟩ =>
    (((Expr.keysWithin_findings hc).mono (Nat.le_refl _) (Nat.le_trans ht.le he.le)).append
      ((Stmt.keysWithin_walk ht).mono hc.le he.le)).append
      ((Stmt.keysWithin_walk he).mono (Nat.le_trans hc.le ht.le) (Nat.le_refl _))
  | .function declaration, _, scopes, n, n', ⟨_, h⟩ =>
    ((scopes.keysWithin_declare declaration.name).of_zero n n').append
      (FunctionDecl.keysWithin_findings h)
  | .ret keyword value, around, _, n, n', h =>
    ((around.inFunction.keysWithin_returnFindings keyword value.isSome).of_zero n n').append
      (Expr.keysWithin_findings? h)
  | .classDecl name _ _, _, scopes, n, n', ⟨_, _, hs, hm⟩ =>
    (((scopes.keysWithin_declare name).of_zero n n').append
      ((Scopes.keysWithin_superclassFindings hs).mono (Nat.le_refl _) hm.le)).append
      ((FunctionDecl.keysWithin_allFindings hm).mono hs.le (Nat.le_refl _))

theorem FunctionDecl.keysWithin_findings : ∀ {f : FunctionDecl} {around : Surroundings}
    {scopes : Scopes} {n n' : Nat}, f.Within n n' → KeysWithin (f.findings around scopes) n n'
  | ⟨_, params, _⟩, _, scopes, n, n', ⟨_, h⟩ =>
    ((Scopes.keysWithin_declareAll params scopes.enter).of_zero n n').append
      (Stmt.keysWithin_walkAll h)

theorem FunctionDecl.keysWithin_allFindings : ∀ {fs : List FunctionDecl} {context : ClassContext}
    {scopes : Scopes} {n n' : Nat}, FunctionDecl.AllWithin fs n n' →
    KeysWithin (FunctionDecl.allFindings context scopes fs) n n'
  | [], _, _, _, _, _ => keysWithin_nil
  | _ :: _, _, _, _, _, ⟨_, h, hs⟩ =>
    ((FunctionDecl.keysWithin_findings h).mono (Nat.le_refl _) hs.le).append
      ((FunctionDecl.keysWithin_allFindings hs).mono h.le (Nat.le_refl _))

theorem Stmt.keysWithin_walkAll : ∀ {ss : List Stmt} {around : Surroundings} {scopes : Scopes}
    {n n' : Nat}, Stmt.AllWithin ss n n' → KeysWithin (Stmt.walkAll around scopes ss).2 n n'
  | [], _, _, _, _, _ => keysWithin_nil
  | _ :: _, _, _, _, _, ⟨_, .inl ⟨h, hs⟩⟩ =>
    ((Stmt.keysWithin_walk h).mono (Nat.le_refl _) hs.le).append
      ((Stmt.keysWithin_walkAll hs).mono h.le (Nat.le_refl _))
  | _ :: _, _, _, _, _, ⟨_, .inr ⟨h, hs⟩⟩ =>
    ((Stmt.keysWithin_walk h).mono hs.le (Nat.le_refl _)).append
      ((Stmt.keysWithin_walkAll hs).mono (Nat.le_refl _) h.le)

end

end Lox
