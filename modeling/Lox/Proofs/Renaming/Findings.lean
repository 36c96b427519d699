import Lox.Proofs.Frames
import Lox.Proofs.Renaming.Alike
import Lox.Proofs.Scoping.Check

/-!
# Alike programs have the same findings

The walk over a tree keeps tables of the names declared so far.  For alike trees these are the names
of a pairing, as the one side and the other call them (`Pairing.scopes`), so names that mean the
same are found equally far out (`Pairing.Same.distance?`).  If the one walk finds no violation, then
the other one finds the same in the same order (`Stmt.walk_alike`): alike programs are accepted
alike, with one table of distances (`Program.Alike.resolve_eq`).
-/

namespace Lox

/-- Whether no finding is a violation. -/
def Silent (findings : List Finding) : Prop :=
  ∀ name rule, .violation name rule ∉ findings

theorem Silent.append {a b : List Finding} (h : Silent (a ++ b)) : Silent a ∧ Silent b :=
  ⟨fun name rule hmem => h name rule (List.mem_append_left _ hmem),
    fun name rule hmem => h name rule (List.mem_append_right _ hmem)⟩

theorem Silent.of_ite {P : Prop} [Decidable P] {name : Name} {rule : ScopeRule}
    (h : Silent (if P then [.violation name rule] else [])) : ¬P := by
  intro hP
  rw [if_pos hP] at h
  exact h name rule List.mem_cons_self

/-! ## Scopes of a pairing -/

namespace Pairing

/-- The scopes of the walk on one side, where the name of a pair is its `side`. -/
def scopes (side : String × String → String) (pairing : Pairing) : Scopes :=
  pairing.map fun scope => ⟨scope.map fun pair => (side pair, true)⟩

/-- Whether names that a program cannot give are only paired with themselves. -/
def Sound (pairing : Pairing) : Prop :=
  ∀ scope ∈ pairing, ∀ pair ∈ scope, (Plain pair.1 ∧ Plain pair.2) ∨ pair.1 = pair.2

variable {ρ : Renaming} {side : String × String → String} {pairing : Pairing} {x x' t t' : String}

theorem get?_map (scope : List (String × String)) (t : String) :
    (⟨scope.map fun pair => (side pair, true)⟩ : Table Bool).get? t =
      if t ∈ scope.map side then some true else none := by
  induction scope with
  | nil => rfl
  | cons pair scope ih =>
    show ((side pair, true) :: scope.map fun pair => (side pair, true)).lookup t = _
    rw [Table.lookup_cons]
    by_cases ht : t = side pair
    · rw [if_pos ht, if_pos (by rw [List.map_cons, ht]; exact List.mem_cons_self)]
    · rw [if_neg ht, show List.lookup t _ = _ from ih]
      simp only [List.map_cons, List.mem_cons, ht, false_or]

theorem contains_map (scope : List (String × String)) (t : String) :
    (⟨scope.map fun pair => (side pair, true)⟩ : Table Bool).contains t =
      decide (t ∈ scope.map side) := by
  rw [Table.contains, get?_map]
  by_cases ht : t ∈ scope.map side <;> simp [ht]

theorem distance?_cons (scope : List (String × String)) (outer : Pairing) (t : String) :
    (scopes side (scope :: outer)).distance? t =
      if t ∈ scope.map side then some 0 else ((scopes side outer).distance? t).map (· + 1) := by
  rw [scopes, List.map_cons, Scopes.distance?_cons, contains_map]
  simp only [decide_eq_true_eq]
  rfl

/-- **Names that mean the same are found equally far out.** -/
theorem Same.distance? : ∀ {pairing : Pairing}, pairing.Same t t' →
    (pairing.scopes Prod.snd).distance? t' = (pairing.scopes Prod.fst).distance? t
  | [], _ => rfl
  | scope :: outer, .inl hmem => by
    rw [distance?_cons, distance?_cons, if_pos (List.mem_map_of_mem (f := Prod.snd) hmem),
      if_pos (List.mem_map_of_mem (f := Prod.fst) hmem)]
  | scope :: outer, .inr ⟨ht, ht', houter⟩ => by
    rw [distance?_cons, distance?_cons, if_neg ht, if_neg ht', houter.distance?]

theorem pending_scopes (t : String) : (pairing.scopes side).pending t = false := by
  cases pairing with
  | nil => rfl
  | cons scope outer =>
    show (Table.get? _ t == some false) = false
    rw [get?_map]
    split <;> rfl

/-! ### Sound pairings -/

theorem Sound.enter (h : pairing.Sound) : pairing.enter.Sound :=
  List.forall_mem_cons.mpr ⟨nofun, h⟩

theorem Sound.declare (h : pairing.Sound) (hx : Plain x) (hx' : Plain x') :
    (pairing.declare x x').Sound := by
  cases pairing with
  | nil => exact h
  | cons scope outer =>
    obtain ⟨hscope, houter⟩ := List.forall_mem_cons.mp h
    refine List.forall_mem_cons.mpr ⟨fun pair hpair => ?_, houter⟩
    rcases List.mem_append.mp hpair with hpair | hpair
    · exact hscope pair hpair
    · cases List.mem_singleton.mp hpair
      exact .inl ⟨hx, hx'⟩

theorem Sound.enterClass (h : pairing.Sound) (superclass : Option Reference) :
    (pairing.enterClass superclass).Sound := by
  have hreserved : ∀ name : String, ∀ pair ∈ [(name, name)],
      (Plain pair.1 ∧ Plain pair.2) ∨ pair.1 = pair.2 := by
    intro name pair hpair
    cases List.mem_singleton.mp hpair
    exact .inr rfl
  cases superclass with
  | none => exact List.forall_mem_cons.mpr ⟨hreserved thisName, h⟩
  | some _ =>
    exact List.forall_mem_cons.mpr ⟨hreserved thisName,
      List.forall_mem_cons.mpr ⟨hreserved superName, h⟩⟩

theorem Sound.pair_eq {scope : List (String × String)} {pair : String × String} {name : String}
    (h : pairing.Sound) (hscope : scope ∈ pairing) (hpair : pair ∈ scope) (hname : ¬Plain name)
    (he : pair.1 = name ∨ pair.2 = name) : pair = (name, name) := by
  rcases h scope hscope pair hpair with ⟨hplain, hplain'⟩ | hsame
  · rcases he with rfl | rfl
    · exact absurd hplain hname
    · exact absurd hplain' hname
  · rw [← hsame, or_self] at he
    exact Prod.ext he (hsame.symm.trans he)

theorem Sound.same {name : String} (hname : ¬Plain name) : ∀ {pairing : Pairing}, pairing.Sound →
    pairing.Same name name
  | [], _ => rfl
  | scope :: outer, h => by
    by_cases hmem : (name, name) ∈ scope
    · exact .inl hmem
    · have hother : ∀ pair ∈ scope, pair.1 ≠ name ∧ pair.2 ≠ name := fun pair hpair =>
        have heq := h.pair_eq List.mem_cons_self hpair hname
        ⟨fun he => hmem (heq (.inl he) ▸ hpair), fun he => hmem (heq (.inr he) ▸ hpair)⟩
      refine .inr ⟨fun hfst => ?_, fun hsnd => ?_, Sound.same hname (List.forall_mem_cons.mp h).2⟩
      · obtain ⟨pair, hpair, he⟩ := List.mem_map.mp hfst
        exact (hother pair hpair).1 he
      · obtain ⟨pair, hpair, he⟩ := List.mem_map.mp hsnd
        exact (hother pair hpair).2 he

/-! ### Declarations -/

/-- Whether a name is new to the innermost scope, as one side calls it. -/
def New (side : String × String → String) (pairing : Pairing) (name : String) : Prop :=
  ∀ scope ∈ pairing.head?, name ∉ scope.map side

theorem Admits.new (h : pairing.Admits x x') :
    New Prod.fst pairing x ∧ New Prod.snd pairing x' := by
  cases pairing with
  | nil => exact ⟨nofun, nofun⟩
  | cons scope outer =>
    constructor
    · rintro _ ⟨⟩
      exact h.1
    · rintro _ ⟨⟩
      exact h.2

theorem declare_findings {name : Name} (h : New side pairing name.text) :
    ((pairing.scopes side).declare name).2 = [] := by
  cases pairing with
  | nil => rfl
  | cons scope outer =>
    show (if Table.contains _ name.text = true then _ else _) = _
    rw [contains_map, if_neg]
    simpa using h scope rfl

theorem declare_ready {name : Name} (h : New side pairing name.text)
    (hside : side (x, x') = name.text) :
    ((pairing.scopes side).declare name).1.ready name = (pairing.declare x x').scopes side := by
  cases pairing with
  | nil => rfl
  | cons scope outer =>
    have hnew : name.text ∉ (scope.map fun pair => (side pair, true)).map Prod.fst := by
      rw [List.map_map]
      exact h scope rfl
    show Table.put (Table.put _ name.text false) name.text true :: _ = _
    rw [Table.put_put, Table.put, Table.putEntry_of_notMem hnew]
    simp [scopes, Pairing.declare, hside]

/-- **A pair of names is declared without a violation** on both sides. -/
theorem Admits.declareReady {name name' : Name} (h : pairing.Admits name.text name'.text) :
    (pairing.scopes Prod.fst).declareReady name =
        ((pairing.declare name.text name'.text).scopes Prod.fst, []) ∧
      (pairing.scopes Prod.snd).declareReady name' =
        ((pairing.declare name.text name'.text).scopes Prod.snd, []) :=
  ⟨Prod.ext (declare_ready h.new.1 rfl) (declare_findings h.new.1),
    Prod.ext (declare_ready h.new.2 rfl) (declare_findings h.new.2)⟩

/-- and so are several pairs. -/
theorem Declares.scopes {behind : Pairing} {names names' : List Name}
    (h : pairing.Declares ρ names names' behind) :
    (pairing.scopes Prod.fst).declareAll names = (behind.scopes Prod.fst, []) ∧
      (pairing.scopes Prod.snd).declareAll names' = (behind.scopes Prod.snd, []) := by
  induction h with
  | nil => exact ⟨rfl, rfl⟩
  | cons _ hadmits _ ih =>
    obtain ⟨hleft, hright⟩ := hadmits.declareReady
    constructor
    · rw [Scopes.declareAll, hleft]
      simp only [ih.1, List.append_nil]
    · rw [Scopes.declareAll, hright]
      simp only [ih.2, List.append_nil]

theorem Declares.sound {behind : Pairing} {names names' : List Name}
    (h : pairing.Declares ρ names names' behind) (hs : pairing.Sound) : behind.Sound := by
  induction h with
  | nil => exact hs
  | cons hname _ _ ih => exact ih (hs.declare hname.calls.plain hname.calls.plain')

theorem scopes_enter (pairing : Pairing) :
    pairing.enter.scopes side = (pairing.scopes side).enter := rfl

theorem scopes_enterClass (pairing : Pairing) (superclass : Option Reference) :
    (pairing.enterClass superclass).scopes Prod.fst =
        (pairing.scopes Prod.fst).enterClass superclass ∧
      (pairing.enterClass superclass).scopes Prod.snd =
        (pairing.scopes Prod.snd).enterClass superclass := by
  cases superclass <;> exact ⟨rfl, rfl⟩

end Pairing

/-! ## Expressions -/

/-- Whether the scopes of two walks are those of a place of alike trees in the initializer of `own`,
if there is one: only this variable is not ready. -/
structure Pairing.Around (pairing : Pairing) (own : Option (String × String))
    (scopes scopes' : Scopes) : Prop where
  same : ∀ t t', (∀ pair ∈ own, t ≠ pair.1 ∧ t' ≠ pair.2) → pairing.Same t t' →
    scopes'.distance? t' = scopes.distance? t
  initialized : ∀ pair ∈ own, scopes'.distance? pair.2 = scopes.distance? pair.1
  pending : ∀ pair ∈ own, scopes.pending pair.1 = true
  ready : ∀ t', (∀ pair ∈ own, t' ≠ pair.2) → scopes'.pending t' = false
  reserved : ∀ name, ¬Plain name → scopes'.distance? name = scopes.distance? name

section
variable {ρ : Renaming} {pairing : Pairing} {own : Option (String × String)}
  {scopes scopes' : Scopes}
  {context : ClassContext}

theorem Pairing.Sound.around (h : pairing.Sound) :
    pairing.Around none (pairing.scopes Prod.fst) (pairing.scopes Prod.snd) where
  same _ _ _ hsame := hsame.distance?
  initialized := nofun
  pending := nofun
  ready t' _ := pairing.pending_scopes t'
  reserved _ hname := (h.same hname).distance?

theorem Scopes.distance?_declare {scopes : Scopes} {name : Name} {t : String} (h : t ≠ name.text) :
    (scopes.declare name).1.distance? t = scopes.distance? t := by
  cases scopes with
  | nil => rfl
  | cons scope outer =>
    simp only [Scopes.declare, Scopes.distance?, List.findIdx?_cons, Table.contains,
      Table.get?_put_of_ne scope false h]

theorem Scopes.distance?_declare_self {scope : Table Bool} {outer : Scopes} {name : Name} :
    (Scopes.declare (scope :: outer) name).1.distance? name.text = some 0 := by
  simp [Scopes.declare, Scopes.distance?, List.findIdx?_cons, Table.contains]

theorem Scopes.pending_declare {scopes : Scopes} {name : Name} {t : String} (h : t ≠ name.text) :
    (scopes.declare name).1.pending t = scopes.pending t := by
  cases scopes with
  | nil => rfl
  | cons scope outer =>
    simp only [Scopes.declare, Scopes.pending, Table.get?_put_of_ne scope false h]

/-- Where a variable is initialized it is declared, and not ready. -/
theorem Pairing.Sound.around_declare {name name' : Name} (h : pairing.Sound)
    (hplain : Plain name.text) (hplain' : Plain name'.text) :
    pairing.Around (pairing.own name.text name'.text)
      ((pairing.scopes Prod.fst).declare name).1 ((pairing.scopes Prod.snd).declare name').1 := by
  cases pairing with
  | nil => exact h.around
  | cons scope outer =>
    refine ⟨fun t t' hown hsame => ?_, ?_, ?_, fun t' hown => ?_, fun k hk => ?_⟩
    · obtain ⟨ht, ht'⟩ := hown _ rfl
      rw [Scopes.distance?_declare ht, Scopes.distance?_declare ht', hsame.distance?]
    · rintro _ ⟨⟩
      exact Scopes.distance?_declare_self.trans Scopes.distance?_declare_self.symm
    · rintro _ ⟨⟩
      simp [Pairing.scopes, Scopes.declare, Scopes.pending]
    · rw [Scopes.pending_declare (hown _ rfl), Pairing.pending_scopes]
    · have hne : k ≠ name.text := fun he => hk (he ▸ hplain)
      have hne' : k ≠ name'.text := fun he => hk (he ▸ hplain')
      rw [Scopes.distance?_declare hne, Scopes.distance?_declare hne', (h.same hk).distance?]

theorem Scopes.bind_congr {t t' : String} (h : scopes'.distance? t' = scopes.distance? t)
    (id : NodeId) : scopes'.bind id t' = scopes.bind id t := by
  rw [Scopes.bind, Scopes.bind, h]

theorem Pairing.Around.read {r r' : Reference} (ha : pairing.Around own scopes scopes')
    (h : r.Alike ρ pairing own r') (hs : Silent (scopes.read r)) :
    scopes'.read r' = scopes.read r := by
  have hready : ¬scopes.pending r.name.text = true := hs.append.1.of_ite
  have hother : ∀ pair ∈ own, r.name.text ≠ pair.1 := by
    intro pair hpair he
    rw [he] at hready
    exact hready (ha.pending pair hpair)
  have hother' : ∀ pair ∈ own, r'.name.text ≠ pair.2 := fun pair hpair he =>
    hother pair hpair (h.other pair hpair he)
  have hbind := Scopes.bind_congr
    (ha.same _ _ (fun pair hpair => ⟨hother pair hpair, hother' pair hpair⟩) h.same) r.id
  rw [Scopes.read, Scopes.read, if_neg hready, ha.ready _ hother', h.twins.id, hbind]
  rfl

theorem Pairing.Around.target {r r' : Reference} (ha : pairing.Around own scopes scopes')
    (h : r.AlikeTarget ρ pairing own r') :
    scopes'.bind r'.id r'.name.text = scopes.bind r.id r.name.text := by
  rw [h.twins.id]
  refine Scopes.bind_congr ?_ r.id
  by_cases hown : ∃ pair ∈ own, r.name.text = pair.1
  · obtain ⟨pair, hpair, he⟩ := hown
    rw [he, (h.own_iff pair hpair).mpr he]
    exact ha.initialized pair hpair
  · have hother : ∀ pair ∈ own, r.name.text ≠ pair.1 := fun pair hpair he =>
      hown ⟨pair, hpair, he⟩
    refine ha.same _ _ (fun pair hpair => ⟨hother pair hpair, fun he => ?_⟩) (h.same hother)
    exact hother pair hpair ((h.own_iff pair hpair).mp he)

theorem Pairing.Around.reserved_bind {name : String} (ha : pairing.Around own scopes scopes')
    (hname : ¬Plain name) (id : NodeId) : scopes'.bind id name = scopes.bind id name :=
  Scopes.bind_congr (ha.reserved name hname) id

mutual

/-- **Alike expressions have the same findings** if there is no violation among them. -/
theorem Expr.findings_alike (ha : pairing.Around own scopes scopes') : ∀ {e e' : Expr},
    e.Alike ρ pairing own e' → Silent (e.findings context scopes) →
      e'.findings context scopes' = e.findings context scopes
  | _, _, .literal, _ => rfl
  | _, _, .group h, hs => by
    rw [Expr.findings, Expr.findings]
    exact Expr.findings_alike ha h hs
  | _, _, .unary h, hs => by
    rw [Expr.findings, Expr.findings]
    exact Expr.findings_alike ha h hs
  | _, _, .get h, hs => by
    rw [Expr.findings, Expr.findings]
    exact Expr.findings_alike ha h hs
  | _, _, .binary hleft hright, hs => by
    rw [Expr.findings, Expr.findings, Expr.findings_alike ha hleft hs.append.1,
      Expr.findings_alike ha hright hs.append.2]
  | _, _, .logical hleft hright, hs => by
    rw [Expr.findings, Expr.findings, Expr.findings_alike ha hleft hs.append.1,
      Expr.findings_alike ha hright hs.append.2]
  | _, _, .set hobject hvalue, hs => by
    rw [Expr.findings, Expr.findings, Expr.findings_alike ha hobject hs.append.1,
      Expr.findings_alike ha hvalue hs.append.2]
  | _, _, .var h, hs => ha.read h hs
  | _, _, .assign htarget hvalue, hs => by
    rw [Expr.findings, Expr.findings, Expr.findings_alike ha hvalue hs.append.1, ha.target htarget]
  | _, _, .call hcallee hargs, hs => by
    rw [Expr.findings, Expr.findings, Expr.findings_alike ha hcallee hs.append.1,
      Expr.allFindings_alike ha hargs hs.append.2]
  | _, _, .this _, _ => by
    rw [Expr.findings, Expr.findings, ha.reserved_bind fun h => h.1 rfl]
  | _, _, .super, _ => by
    simp only [Expr.findings, Scopes.superFindings, ha.reserved_bind fun h => h.2 rfl]

theorem Expr.allFindings_alike (ha : pairing.Around own scopes scopes') : ∀ {es es' : List Expr},
    Expr.AllAlike ρ pairing own es es' → Silent (Expr.allFindings context scopes es) →
      Expr.allFindings context scopes' es' = Expr.allFindings context scopes es
  | _, _, .nil, _ => rfl
  | _, _, .cons h hothers, hs => by
    rw [Expr.allFindings, Expr.allFindings, Expr.findings_alike ha h hs.append.1,
      Expr.allFindings_alike ha hothers hs.append.2]

end

theorem Expr.findings?_alike (ha : pairing.Around own scopes scopes') {e e' : Option Expr}
    (h : Expr.Alike? ρ pairing own e e') (hs : Silent (Expr.findings? context scopes e)) :
    Expr.findings? context scopes' e' = Expr.findings? context scopes e := by
  cases h with
  | none => rfl
  | some h => exact Expr.findings_alike ha h hs

theorem Expr.Alike?.isSome_eq {e e' : Option Expr} (h : Expr.Alike? ρ pairing own e e') :
    e'.isSome = e.isSome := by
  cases h <;> rfl

end

/-! ## Statements -/

section
variable {ρ : Renaming} {pairing behind : Pairing}

theorem Stmt.Alike.sound {s s' : Stmt} (h : s.Alike ρ pairing s' behind) (hp : pairing.Sound) :
    behind.Sound := by
  cases h with
  | var hname _ _ => exact hp.declare hname.calls.plain hname.calls.plain'
  | function hplain _ _ | classDecl hplain _ _ _ => exact hp.declare hplain hplain
  | _ => exact hp

/-- What is found at alike superclass clauses.  A superclass has the name of its class on both sides
or on neither. -/
theorem Pairing.Sound.superclassFindings {name : Name} {superclass superclass' : Option Reference}
    (hp : pairing.Sound)
    (h : Reference.Alike? ρ (pairing.declare name.text name.text) superclass superclass')
    (hadmits : pairing.Admits name.text name.text)
    (hs : Silent (((pairing.declare name.text name.text).scopes Prod.fst).superclassFindings name
      superclass)) (hplain : Plain name.text) :
    ((pairing.declare name.text name.text).scopes Prod.snd).superclassFindings name superclass' =
      ((pairing.declare name.text name.text).scopes Prod.fst).superclassFindings name
        superclass := by
  cases h with
  | none => rfl
  | @some r r' h =>
    have hread := (hp.declare hplain hplain).around.read h hs.append.2
    have hne : r.name.text ≠ name.text := hs.append.1.of_ite
    have hne' : r'.name.text ≠ name.text := by
      intro he
      rcases Pairing.same_declare hadmits h.same with ⟨-, he', -⟩ | ⟨hother, hsame⟩
      · exact hne he'
      · cases pairing with
        | nil => exact hne (hsame.symm.trans he)
        | cons scope outer => exact (hother nofun).2 he
    rw [Scopes.superclassFindings, Scopes.superclassFindings, if_neg hne, if_neg hne', hread]

theorem FunctionContext.ofMethod_alike {f f' : FunctionDecl} (h : f.Alike ρ pairing f') :
    FunctionContext.ofMethod f' = FunctionContext.ofMethod f := by
  rw [FunctionContext.ofMethod, FunctionContext.ofMethod, h.isInitializer_eq]

theorem ClassContext.ofSuperclass_alike {superclass superclass' : Option Reference}
    (h : Reference.Alike? ρ pairing superclass superclass') :
    ClassContext.ofSuperclass superclass' = ClassContext.ofSuperclass superclass := by
  cases h <;> rfl

theorem Scopes.enterClass_alike {superclass superclass' : Option Reference}
    (h : Reference.Alike? ρ pairing superclass superclass') (scopes : Scopes) :
    scopes.enterClass superclass' = scopes.enterClass superclass := by
  cases h <;> rfl

mutual

/-- **The walks over alike statements** find the same if there is no violation, and have the scopes
of one pairing behind them. -/
theorem Stmt.walk_alike : ∀ {s s' : Stmt} {around : Surroundings} {pairing behind : Pairing},
    pairing.Sound → s.Alike ρ pairing s' behind →
      Silent (s.walk around (pairing.scopes Prod.fst)).2 →
      (s.walk around (pairing.scopes Prod.fst)).1 = behind.scopes Prod.fst ∧
        s'.walk around (pairing.scopes Prod.snd) =
          (behind.scopes Prod.snd, (s.walk around (pairing.scopes Prod.fst)).2)
  | _, _, around, _, _, hp, .expr h, hs =>
    ⟨rfl, congrArg (Prod.mk _) (Expr.findings_alike hp.around h hs)⟩
  | _, _, around, _, _, hp, .print h, hs =>
    ⟨rfl, congrArg (Prod.mk _) (Expr.findings_alike hp.around h hs)⟩
  | _, _, around, _, _, hp, .var hname hadmits h, hs => by
    have hinitializer :=
      Expr.findings?_alike (hp.around_declare hname.calls.plain hname.calls.plain') h hs.append.2
    obtain ⟨hnew, hnew'⟩ := hadmits.new
    refine ⟨Pairing.declare_ready hnew rfl, Prod.ext (Pairing.declare_ready hnew' rfl) ?_⟩
    rw [Stmt.walk, Stmt.walk]
    simp only [Pairing.declare_findings hnew, Pairing.declare_findings hnew', hinitializer]
  | _, _, around, pairing, _, hp, .block h, hs => by
    obtain ⟨-, hbody⟩ := Stmt.walkAll_alike hp.enter h hs
    refine ⟨rfl, ?_⟩
    rw [Stmt.walk, ← Pairing.scopes_enter, hbody]
    rfl
  | _, _, around, _, _, hp, .ifThen hcondition h, hs => by
    obtain ⟨hleft, hright⟩ := Stmt.walk_alike hp h hs.append.2
    refine ⟨hleft, ?_⟩
    rw [Stmt.walk, Stmt.walk, hright, Expr.findings_alike hp.around hcondition hs.append.1]
  | _, _, around, _, _, hp, .ifElse hcondition hthen helse, hs => by
    have hs : Silent (_ ++ _ ++ _) := hs
    obtain ⟨hleft, hright⟩ := Stmt.walk_alike hp hthen hs.append.1.append.2
    rw [hleft] at hs
    obtain ⟨hleft', hright'⟩ := Stmt.walk_alike hp helse hs.append.2
    refine ⟨?_, ?_⟩
    · rw [Stmt.walk]
      simp only [hleft, hleft']
    · rw [Stmt.walk, Stmt.walk]
      simp only [hleft, hright, hright',
        Expr.findings_alike hp.around hcondition hs.append.1.append.1]
  | _, _, around, _, _, hp, .whileDo hcondition h, hs => by
    obtain ⟨hleft, hright⟩ := Stmt.walk_alike hp h hs.append.2
    refine ⟨hleft, ?_⟩
    rw [Stmt.walk, Stmt.walk, hright, Expr.findings_alike hp.around hcondition hs.append.1]
  | _, _, around, _, _, hp, .function hplain hadmits h, hs => by
    obtain ⟨hleft, hright⟩ := hadmits.declareReady
    rw [Stmt.walk, hleft] at hs
    have hfunction := FunctionDecl.findings_alike (hp.declare hplain hplain) h hs.append.2
    rw [Stmt.walk, Stmt.walk, h.name_eq, hleft, hright]
    simp only [hfunction, and_self]
  | _, _, around, _, _, hp, .ret h, hs => by
    refine ⟨rfl, ?_⟩
    rw [Stmt.walk, Stmt.walk, h.isSome_eq, Expr.findings?_alike hp.around h hs.append.2]
  | _, _, around, _, _, hp, .classDecl hplain hadmits hsuperclass h, hs => by
    obtain ⟨hleft, hright⟩ := hadmits.declareReady
    rw [Stmt.walk, hleft] at hs
    have hsup := hp.superclassFindings hsuperclass hadmits hs.append.1.append.2 hplain
    have hmethods := FunctionDecl.allFindings_alike ((hp.declare hplain hplain).enterClass _) h
      (by rw [(Pairing.scopes_enterClass _ _).1]; exact hs.append.2)
    rw [(Pairing.scopes_enterClass _ _).1, (Pairing.scopes_enterClass _ _).2] at hmethods
    rw [Stmt.walk, Stmt.walk, hleft, hright]
    simp only [hsup, hmethods, ClassContext.ofSuperclass_alike hsuperclass,
      Scopes.enterClass_alike hsuperclass, and_self]

theorem FunctionDecl.findings_alike : ∀ {f f' : FunctionDecl} {around : Surroundings}
    {pairing : Pairing}, pairing.Sound → f.Alike ρ pairing f' →
      Silent (f.findings around (pairing.scopes Prod.fst)) →
        f'.findings around (pairing.scopes Prod.snd) = f.findings around (pairing.scopes Prod.fst)
  | _, _, around, _, hp, .mk hparams h, hs => by
    obtain ⟨hleft, hright⟩ := hparams.scopes
    rw [Pairing.scopes_enter] at hleft hright
    rw [FunctionDecl.findings, hleft] at hs
    obtain ⟨-, hbody⟩ := Stmt.walkAll_alike (hparams.sound hp.enter) h hs.append.2
    rw [FunctionDecl.findings, FunctionDecl.findings, hleft, hright]
    simp only [hbody]

theorem FunctionDecl.allFindings_alike : ∀ {fs fs' : List FunctionDecl} {context : ClassContext}
    {pairing : Pairing}, pairing.Sound → FunctionDecl.AllAlike ρ pairing fs fs' →
      Silent (FunctionDecl.allFindings context (pairing.scopes Prod.fst) fs) →
        FunctionDecl.allFindings context (pairing.scopes Prod.snd) fs' =
          FunctionDecl.allFindings context (pairing.scopes Prod.fst) fs
  | _, _, _, _, _, .nil, _ => rfl
  | _, _, _, _, hp, .cons h hothers, hs => by
    rw [FunctionDecl.allFindings, FunctionDecl.allFindings, FunctionContext.ofMethod_alike h,
      FunctionDecl.findings_alike hp h hs.append.1,
      FunctionDecl.allFindings_alike hp hothers hs.append.2]

theorem Stmt.walkAll_alike : ∀ {ss ss' : List Stmt} {around : Surroundings}
    {pairing behind : Pairing}, pairing.Sound → Stmt.AllAlike ρ pairing ss ss' behind →
      Silent (Stmt.walkAll around (pairing.scopes Prod.fst) ss).2 →
        (Stmt.walkAll around (pairing.scopes Prod.fst) ss).1 = behind.scopes Prod.fst ∧
          Stmt.walkAll around (pairing.scopes Prod.snd) ss' =
            (behind.scopes Prod.snd, (Stmt.walkAll around (pairing.scopes Prod.fst) ss).2)
  | _, _, _, _, _, _, .nil, _ => ⟨rfl, rfl⟩
  | _, _, around, _, _, hp, .cons h hothers, hs => by
    have hs : Silent (_ ++ _) := hs
    obtain ⟨hleft, hright⟩ := Stmt.walk_alike hp h hs.append.1
    rw [hleft] at hs
    obtain ⟨hleft', hright'⟩ := Stmt.walkAll_alike (h.sound hp) hothers hs.append.2
    rw [Stmt.walkAll, Stmt.walkAll]
    simp only [hleft, hright, hleft', hright', and_self]

end

end

/-! ## Programs -/

theorem Program.resolve_eq_ok {program : Program} {distances : Distances} :
    program.resolve = .ok distances ↔ program.violations = [] ∧ distances = program.distances := by
  unfold Program.resolve
  cases program.violations with
  | nil =>
    constructor
    · rintro ⟨⟩
      exact ⟨rfl, rfl⟩
    · rintro ⟨-, rfl⟩
      rfl
  | cons first others =>
    constructor
    · rintro ⟨⟩
    · rintro ⟨⟨⟩, -⟩

theorem Program.silent_findings {program : Program} {distances : Distances}
    (h : program.resolve = .ok distances) : Silent program.findings := by
  intro name rule hmem
  have hviolation : Diagnostic.resolve name.line name.text rule.message ∈ program.violations :=
    List.mem_filterMap.mpr ⟨_, hmem, rfl⟩
  rw [(Program.resolve_eq_ok.mp h).1] at hviolation
  cases hviolation

/-- **Alike programs are accepted alike**, with the same table of distances. -/
theorem Program.Alike.resolve_eq {ρ : Renaming} {program program' : Program} {distances : Distances}
    (h : program.Alike ρ program') (hresolve : program.resolve = .ok distances) :
    program'.resolve = .ok distances := by
  have hwalk : Stmt.walkAll .none [] program' = ([], program.findings) :=
    (Stmt.walkAll_alike (nofun : Pairing.Sound []) h (Program.silent_findings hresolve)).2
  have hfindings : program'.findings = program.findings := by
    rw [Program.findings, hwalk]
  have hviolations : program'.violations = program.violations :=
    congrArg (List.filterMap Finding.diagnostic?) hfindings
  have hdistances : program'.distances = program.distances :=
    congrArg (List.filterMap Finding.distance?) hfindings
  rw [Program.resolve, hviolations, hdistances]
  exact hresolve

end Lox
