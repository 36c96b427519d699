import Lox.Session
import Lox.Proofs.Grammar.Program
import Lox.Proofs.Scoping.Ribs
import Lox.Proofs.Scoping.Walk

/-!
# Programs without violations are resolved

The walk keeps tables of names with a flag, and ribs are what these tables say of the names that are
ready (`Scopes.ribs`).  Behind each statement all names are ready (`Scopes.Settled`); only while an
initializer is walked is there one that is not, and it is the own name of that place
(`Scopes.Around`).  The result for a whole text is `resolved_of_check`.
-/

namespace Lox

/-! ## Scopes and ribs -/

/-- Whether all names of all scopes are ready. -/
def Scopes.Settled (scopes : Scopes) : Prop :=
  ∀ scope ∈ scopes, ∀ name, scope.get? name ≠ some false

/-- Whether scopes are those of a place with these ribs and this own name. -/
structure Scopes.Around (scopes : Scopes) (ribs : Ribs) (own : Option String) : Prop where
  distance : ∀ name, own ≠ some name → scopes.distance? name = ribs.distance? name
  pending : ∀ name, own = some name → scopes.pending name = true ∧ scopes.distance? name = some 0

theorem Table.contains_eq_ready {scope : Table Bool} {name : String}
    (h : scope.get? name ≠ some false) : scope.contains name = (scope.get? name == some true) := by
  unfold Table.contains
  cases hget : scope.get? name with
  | none => rfl
  | some flag =>
    cases flag with
    | true => rfl
    | false => exact absurd hget h

theorem Scopes.distance?_cons (scope : Table Bool) (scopes : Scopes) (name : String) :
    Scopes.distance? (scope :: scopes) name =
      if scope.contains name then some 0 else (scopes.distance? name).map (· + 1) := by
  simp only [Scopes.distance?, List.findIdx?_cons]

theorem Scopes.Settled.distance? : ∀ {scopes : Scopes}, scopes.Settled → ∀ name,
    scopes.distance? name = scopes.ribs.distance? name
  | [], _, _ => rfl
  | scope :: scopes, h, name => by
    have hscope := Table.contains_eq_ready (h scope List.mem_cons_self name)
    have hscopes : Scopes.Settled scopes := fun s hs => h s (List.mem_cons_of_mem _ hs)
    rw [Scopes.distance?_cons, hscope, Scopes.Settled.distance? hscopes]
    exact (Ribs.distance?_cons (fun name => scope.get? name == some true) (Scopes.ribs scopes)
      name).symm

theorem Scopes.Settled.around {scopes : Scopes} (h : scopes.Settled) :
    scopes.Around scopes.ribs none :=
  ⟨fun name _ => h.distance? name, nofun⟩

/-- A name that is declared and not ready is the own name of the place. -/
theorem Scopes.Settled.around_declare {scopes : Scopes} {name : Name} (h : scopes.Settled)
    (hfresh : scopes.ribs.Fresh name.text) :
    (scopes.declare name).1.Around scopes.ribs (scopes.ribs.own name.text) := by
  cases scopes with
  | nil => exact ⟨fun _ _ => rfl, nofun⟩
  | cons scope outer =>
    have houter : Scopes.Settled outer := fun s hs => h s (List.mem_cons_of_mem _ hs)
    have hready : (scope.get? name.text == some true) = false := hfresh _ rfl
    refine ⟨fun x hx => ?_, fun x hx => ?_⟩
    · have hne : x ≠ name.text := fun he => hx (by rw [he]; rfl)
      have hput : (scope.put name.text false).contains x = scope.contains x := by
        rw [Table.contains, Table.get?_put_of_ne scope false hne]
        rfl
      rw [← h.distance? x]
      simp only [Scopes.declare, Scopes.distance?_cons, hput]
    · cases hx
      constructor
      · simp [Scopes.declare, Scopes.pending]
      · simp [Scopes.declare, Scopes.distance?_cons, Table.contains]

/-! ## Classes -/

/-- Whether ribs have the shape that the innermost class gives them. -/
def ClassContext.Fits : ClassContext → Ribs → Prop
  | .none, _ => True
  | .plain, ribs => ∃ d, ribs.distance? thisName = some d
  | .subclass, ribs => ∃ d, ribs.distance? thisName = some d ∧ ribs.distance? superName = some (d + 1)

theorem ClassContext.Fits.this {context : ClassContext} {ribs : Ribs} (h : context.Fits ribs)
    (hne : context ≠ .none) : ∃ d, ribs.distance? thisName = some d := by
  cases context with
  | none => exact absurd rfl hne
  | plain => exact h
  | subclass => exact ⟨h.choose, h.choose_spec.1⟩

/-- A scope that binds neither `this` nor `super` puts both one step further out. -/
theorem ClassContext.Fits.cons {context : ClassContext} {ribs : Ribs} {rib : Rib}
    (h : context.Fits ribs) (hthis : rib thisName = false) (hsuper : rib superName = false) :
    context.Fits (rib :: ribs) := by
  cases context with
  | none => trivial
  | plain =>
    obtain ⟨d, hd⟩ := h
    exact ⟨d + 1, by rw [Ribs.distance?_cons, hthis, hd]; rfl⟩
  | subclass =>
    obtain ⟨d, hd, hd'⟩ := h
    exact ⟨d + 1, by rw [Ribs.distance?_cons, hthis, hd]; rfl,
      by rw [Ribs.distance?_cons, hsuper, hd']; rfl⟩

theorem Ribs.distance?_extend {name x : String} (hne : x ≠ name) :
    ∀ ribs : Ribs, (ribs.extend name).distance? x = ribs.distance? x
  | [] => rfl
  | rib :: ribs => by
    have hadd : rib.add name x = rib x := by simp [Rib.add, hne]
    rw [Ribs.extend, Ribs.distance?_cons, Ribs.distance?_cons, hadd]

theorem ClassContext.Fits.extend {context : ClassContext} {ribs : Ribs} {name : String}
    (h : context.Fits ribs) (hplain : Plain name) : context.Fits (ribs.extend name) := by
  have hthis := Ribs.distance?_extend hplain.1.symm ribs
  have hsuper := Ribs.distance?_extend hplain.2.symm ribs
  cases context with
  | none => trivial
  | plain => simpa only [ClassContext.Fits, hthis] using h
  | subclass => simpa only [ClassContext.Fits, hthis, hsuper] using h

theorem ClassContext.fits_enterClass (ribs : Ribs) (superclass : Option Reference) :
    (ClassContext.ofSuperclass superclass).Fits (ribs.enterClass superclass) := by
  cases superclass with
  | none => exact ⟨0, rfl⟩
  | some r => exact ⟨0, rfl, rfl⟩

/-! ## Expressions -/

section
variable {distances : Distances} {context : ClassContext} {scopes : Scopes} {ribs : Ribs}
  {own : Option String}

theorem found_bind (scopes : Scopes) (id : NodeId) (name : String) :
    found (scopes.bind id name) id = scopes.distance? name := by
  unfold Scopes.bind
  cases scopes.distance? name with
  | none => rfl
  | some d => simp [found, Finding.distance?]

theorem Records.bind {n n' : Nat} {id : Nat} {name : String}
    (h : Records distances n n' (scopes.bind id name)) (hid : n ≤ id) (hid' : id < n') :
    distances.get? id = scopes.distance? name := by
  rw [h.agrees id hid hid', found_bind]

/-- Where a variable is read it is not the own name of the place. -/
theorem Records.read {n n' bound : Nat} {r : Reference} (h : Records distances n n' (scopes.read r))
    (hscopes : scopes.Around ribs own) (hr : r.Within n n') (hbound : n' ≤ bound) :
    r.Resolved distances bound ribs := by
  obtain ⟨hplain, hid, hid'⟩ := hr
  refine ⟨hplain, Nat.lt_of_lt_of_le hid' hbound, ?_⟩
  unfold Scopes.read at h
  have hpending : scopes.pending r.name.text = false := by
    cases hp : scopes.pending r.name.text with
    | false => rfl
    | true => exact absurd (by simp [hp]) (h.sound r.name .readInOwnInitializer)
  have hown : own ≠ some r.name.text := by
    intro he
    rw [(hscopes.pending _ he).1] at hpending
    cases hpending
  rw [hpending] at h
  rw [Records.bind h hid hid', hscopes.distance _ hown]

theorem Records.target {n n' bound : Nat} {r : Reference}
    (h : Records distances n n' (scopes.bind r.id r.name.text)) (hscopes : scopes.Around ribs own)
    (hr : r.Within n n') (hbound : n' ≤ bound) : r.ResolvedTarget distances bound ribs own := by
  obtain ⟨hplain, hid, hid'⟩ := hr
  refine ⟨hplain, Nat.lt_of_lt_of_le hid' hbound, ?_⟩
  rw [Records.bind h hid hid']
  split
  · next hown => exact (hscopes.pending _ hown).2
  · next hown => exact hscopes.distance _ hown

/-- `super` may only stand where the innermost class has a superclass. -/
theorem Records.super {n n' bound : Nat} {keyword : Reference} {method : Name}
    (h : Records distances n n' (scopes.superFindings context keyword))
    (hscopes : scopes.Around ribs own) (hcontext : context.Fits ribs)
    (hown : own ≠ some superName) (hid : n ≤ keyword.id) (hid' : keyword.id < n')
    (hbound : n' ≤ bound) :
    (Expr.super keyword method).Resolved distances bound ribs own := by
  unfold Scopes.superFindings at h
  cases context with
  | none => exact absurd (by simp) (h.sound keyword.name .superOutsideClass)
  | plain => exact absurd (by simp) (h.sound keyword.name .superWithoutSuperclass)
  | subclass =>
    obtain ⟨d, hd, hd'⟩ := hcontext
    refine ⟨Nat.lt_of_lt_of_le hid' hbound, d, hd, hd', ?_⟩
    rw [Records.bind h hid hid', hscopes.distance _ hown, hd']

mutual

/-- **An expression without violations is resolved** by a table that agrees with its findings. -/
theorem Expr.resolved_of_findings {bound : Nat} (hscopes : scopes.Around ribs own)
    (hcontext : context.Fits ribs) (hown : ∀ name, own = some name → Plain name) :
    ∀ {e : Expr} {n n' : Nat}, e.Within n n' → n' ≤ bound →
      Records distances n n' (e.findings context scopes) → e.Resolved distances bound ribs own
  | .literal _, _, _, _, _, _ => trivial
  | .group inner, _, _, h, hb, hrec =>
    Expr.resolved_of_findings hscopes hcontext hown (e := inner) h hb hrec
  | .unary _ _ operand, _, _, h, hb, hrec =>
    Expr.resolved_of_findings hscopes hcontext hown (e := operand) h hb hrec
  | .get object _, _, _, h, hb, hrec =>
    Expr.resolved_of_findings hscopes hcontext hown (e := object) h hb hrec
  | .binary _ _ _ _, _, _, ⟨_, hl, hr⟩, hb, hrec | .logical _ _ _, _, _, ⟨_, hl, hr⟩, hb, hrec
  | .set _ _ _, _, _, ⟨_, hl, hr⟩, hb, hrec => by
    obtain ⟨hleft, hright⟩ := hrec.append (Expr.keysWithin_findings hl) (Expr.keysWithin_findings hr)
      hl.le hr.le
    exact ⟨Expr.resolved_of_findings hscopes hcontext hown hl (Nat.le_trans hr.le hb) hleft,
      Expr.resolved_of_findings hscopes hcontext hown hr hb hright⟩
  | .var _, _, _, h, hb, hrec => Records.read hrec hscopes h hb
  | .assign target _, _, _, ⟨m, hv, ht⟩, hb, hrec => by
    have hkeys := (scopes.keysWithin_bind target.id target.name.text).mono ht.2.1 ht.2.2
    have hle : m ≤ _ := Nat.le_trans ht.2.1 (Nat.le_of_lt ht.2.2)
    obtain ⟨hvalue, htarget⟩ := hrec.append (Expr.keysWithin_findings hv) hkeys hv.le hle
    exact ⟨Expr.resolved_of_findings hscopes hcontext hown hv (Nat.le_trans hle hb) hvalue,
      Records.target htarget hscopes ht hb⟩
  | .call _ _ _, _, _, ⟨_, hc, ha⟩, hb, hrec => by
    obtain ⟨hcallee, hargs⟩ := hrec.append (Expr.keysWithin_findings hc)
      (Expr.keysWithin_allFindings ha) hc.le ha.le
    exact ⟨Expr.resolved_of_findings hscopes hcontext hown hc (Nat.le_trans ha.le hb) hcallee,
      Expr.allResolved_of_findings hscopes hcontext hown ha hb hargs⟩
  | .this keyword, n, n', ⟨hname, hid, hid'⟩, hb, hrec => by
    unfold Expr.findings at hrec
    split at hrec
    · exact absurd (by simp) (hrec.sound keyword.name .thisOutsideClass)
    · next hne =>
      obtain ⟨d, hd⟩ := hcontext.this hne
      refine ⟨hname, Nat.lt_of_lt_of_le hid' hb, d, hd, ?_⟩
      rw [Records.bind hrec hid hid', hscopes.distance _ fun he => (hown _ he).1 rfl, hd]
  | .super _ _, _, _, ⟨hid, hid'⟩, hb, hrec =>
    Records.super hrec hscopes hcontext (fun he => (hown _ he).2 rfl) hid hid' hb

theorem Expr.allResolved_of_findings {bound : Nat} (hscopes : scopes.Around ribs own)
    (hcontext : context.Fits ribs) (hown : ∀ name, own = some name → Plain name) :
    ∀ {es : List Expr} {n n' : Nat}, Expr.AllWithin es n n' → n' ≤ bound →
      Records distances n n' (Expr.allFindings context scopes es) →
      Expr.AllResolved distances bound ribs own es
  | [], _, _, _, _, _ => trivial
  | _ :: _, _, _, ⟨_, h, hs⟩, hb, hrec => by
    obtain ⟨hfirst, hothers⟩ := hrec.append (Expr.keysWithin_findings h)
      (Expr.keysWithin_allFindings hs) h.le hs.le
    exact ⟨Expr.resolved_of_findings hscopes hcontext hown h (Nat.le_trans hs.le hb) hfirst,
      Expr.allResolved_of_findings hscopes hcontext hown hs hb hothers⟩

end

theorem Expr.resolved?_of_findings {bound : Nat} (hscopes : scopes.Around ribs own)
    (hcontext : context.Fits ribs) (hown : ∀ name, own = some name → Plain name) :
    ∀ {e : Option Expr} {n n' : Nat}, Expr.Within? e n n' → n' ≤ bound →
      Records distances n n' (Expr.findings? context scopes e) →
      Expr.Resolved? distances bound ribs own e
  | none, _, _, _, _, _ => trivial
  | some e, _, _, h, hb, hrec => Expr.resolved_of_findings hscopes hcontext hown (e := e) h hb hrec

end

/-! ## Declarations -/

theorem Scopes.Settled.ready {scopes : Scopes} (h : scopes.Settled) (name : Name) :
    ((scopes.declare name).1.ready name).Settled ∧
      ((scopes.declare name).1.ready name).ribs = scopes.ribs.extend name.text := by
  refine ⟨?_, scopes.ribs_declareReady name⟩
  cases scopes with
  | nil => exact nofun
  | cons scope outer =>
    intro s hs x
    rcases List.mem_cons.mp hs with rfl | hs
    · by_cases hx : x = name.text
      · rw [hx, Table.get?_put_self]
        simp
      · rw [Table.get?_put_of_ne _ true hx, Table.get?_put_of_ne _ false hx]
        exact h scope List.mem_cons_self x
    · exact h s (List.mem_cons_of_mem _ hs) x

theorem Scopes.Settled.fresh {scopes : Scopes} {name : Name} (h : scopes.Settled)
    (hsound : ∀ x rule, .violation x rule ∉ (scopes.declare name).2) :
    scopes.ribs.Fresh name.text := by
  cases scopes with
  | nil => exact nofun
  | cons scope outer =>
    rintro _ ⟨⟩
    have hcontains := Table.contains_eq_ready (h scope List.mem_cons_self name.text)
    refine hcontains.symm.trans ?_
    cases hc : scope.contains name.text with
    | false => rfl
    | true => exact absurd (by simp [Scopes.declare, hc]) (hsound name .declaredTwice)

theorem Ribs.Fresh.of_extend {rib : Rib} {outer : Ribs} {x name : String}
    (h : (Ribs.extend (rib :: outer) name).Fresh x) : x ≠ name ∧ rib x = false := by
  have hadd : rib.add name x = false := h _ rfl
  simpa [Rib.add] using hadd

theorem Scopes.Settled.declareAll : ∀ (names : List Name) {scopes : Scopes}, scopes.Settled →
    scopes ≠ [] → (∀ x rule, .violation x rule ∉ (scopes.declareAll names).2) →
    (scopes.declareAll names).1.Settled ∧ (names.map Name.text).Nodup ∧
      ∀ name ∈ names, scopes.ribs.Fresh name.text
  | [], _, h, _, _ => ⟨h, List.nodup_nil, nofun⟩
  | name :: names, [], _, hne, _ => absurd rfl hne
  | name :: names, scope :: outer, h, _, hsound => by
    obtain ⟨hready, hribs⟩ := h.ready name
    have hfresh := h.fresh fun x rule hv => hsound x rule (List.mem_append_left _ hv)
    obtain ⟨hsettled, hnodup, hothers⟩ := Scopes.Settled.declareAll names hready nofun
      fun x rule hv => hsound x rule (List.mem_append_right _ hv)
    rw [hribs] at hothers
    refine ⟨hsettled, ?_, ?_⟩
    · rw [List.map_cons, List.nodup_cons]
      refine ⟨fun hmem => ?_, hnodup⟩
      obtain ⟨other, hother, htext⟩ := List.mem_map.mp hmem
      exact (Ribs.Fresh.of_extend (hothers other hother)).1 htext
    · intro other hother
      rcases List.mem_cons.mp hother with rfl | hother
      · exact hfresh
      · rintro _ ⟨⟩
        exact (Ribs.Fresh.of_extend (hothers other hother)).2

/-- The ribs inside a function bind its parameters in the innermost scope only. -/
theorem Ribs.fits_extendAll {context : ClassContext} : ∀ (names : List Name) {ribs : Ribs},
    context.Fits ribs → (∀ name ∈ names, Plain name.text) → context.Fits (ribs.extendAll names)
  | [], _, h, _ => h
  | name :: names, _, h, hplain =>
    fits_extendAll names (h.extend (hplain name List.mem_cons_self)) fun other hother =>
      hplain other (List.mem_cons_of_mem _ hother)

/-! ## Statements -/

/-- The scopes behind a statement, which are those before it but for the name that it declares. -/
theorem Stmt.walk_fst : ∀ {s : Stmt} (around : Surroundings) (scopes : Scopes) {n n' : Nat},
    s.Within n n' → (s.walk around scopes).1 =
      match s.declared? with
      | some name => (scopes.declare name).1.ready name
      | none => scopes
  | .expr _, _, _, _, _, _ | .print _, _, _, _, _, _ | .block _, _, _, _, _, _
  | .ret _ _, _, _, _, _, _ | .var _ _, _, _, _, _, _ | .function _, _, _, _, _, _
  | .classDecl _ _ _, _, _, _, _, _ => rfl
  | .ifElse _ _ none, around, scopes, _, _, ⟨hd, _, _, ht⟩
  | .whileDo _ _, around, scopes, _, _, ⟨hd, _, _, ht⟩ =>
    (Stmt.walk_fst around scopes ht).trans (by rw [hd]; rfl)
  | .ifElse _ thenBranch (some elseBranch), around, scopes, _, _, ⟨hd, hd', _, _, _, ht, he⟩ => by
    have hthen := Stmt.walk_fst around scopes ht
    have helse := Stmt.walk_fst around scopes he
    rw [hd] at hthen
    rw [hd'] at helse
    show (elseBranch.walk around (thenBranch.walk around scopes).1).1 = scopes
    rw [hthen, helse]

theorem Stmt.settled_walk {s : Stmt} (around : Surroundings) {scopes : Scopes} {n n' : Nat}
    (h : s.Within n n') (hscopes : scopes.Settled) :
    (s.walk around scopes).1.Settled ∧ (s.walk around scopes).1.ribs = s.behind scopes.ribs := by
  rw [Stmt.walk_fst around scopes h, Stmt.behind]
  cases s.declared? with
  | none => exact ⟨hscopes, rfl⟩
  | some name => exact hscopes.ready name

theorem Stmt.plain_of_declared? : ∀ {s : Stmt} {n n' : Nat} {name : Name}, s.Within n n' →
    s.declared? = some name → Plain name.text
  | .var _ _, _, _, _, ⟨hplain, _⟩, rfl | .function _, _, _, _, ⟨hplain, _⟩, rfl
  | .classDecl _ _ _, _, _, _, ⟨hplain, _⟩, rfl => hplain

theorem ClassContext.Fits.behind {context : ClassContext} {ribs : Ribs} {s : Stmt} {n n' : Nat}
    (h : context.Fits ribs) (hs : s.Within n n') : context.Fits (s.behind ribs) := by
  unfold Stmt.behind
  cases hd : s.declared? with
  | none => exact h
  | some name => exact h.extend (Stmt.plain_of_declared? hs hd)

theorem Scopes.Settled.enter {scopes : Scopes} (h : scopes.Settled) : scopes.enter.Settled := by
  intro scope hscope
  rcases List.mem_cons.mp hscope with rfl | hscope
  · exact nofun
  · exact h scope hscope

theorem Table.settled_single (name x : String) :
    (Table.single name true).get? x ≠ some false := by
  unfold Table.single Table.get?
  rw [Table.lookup_cons]
  split
  · simp
  · exact nofun

theorem Scopes.Settled.enterClass {scopes : Scopes} (h : scopes.Settled) (r : Option Reference) :
    (scopes.enterClass r).Settled ∧ (scopes.enterClass r).ribs = scopes.ribs.enterClass r := by
  refine ⟨?_, scopes.ribs_enterClass r⟩
  cases r with
  | none =>
    intro scope hscope
    rcases List.mem_cons.mp hscope with rfl | hscope
    · exact Table.settled_single thisName
    · exact h scope hscope
  | some r =>
    intro scope hscope
    rcases List.mem_cons.mp hscope with rfl | hscope
    · exact Table.settled_single thisName
    · rcases List.mem_cons.mp hscope with rfl | hscope
      · exact Table.settled_single superName
      · exact h scope hscope

section
variable {distances : Distances} {bound : Nat}

theorem Records.superclass {scopes : Scopes} {name : Name} (hscopes : scopes.Settled) :
    ∀ {r : Option Reference} {n n' : Nat}, Reference.Within? r n n' → n' ≤ bound →
      Records distances n n' (scopes.superclassFindings name r) →
      Reference.Resolved? distances bound scopes.ribs r
  | none, _, _, _, _, _ => trivial
  | some r, _, _, h, hb, hrec => by
    refine Records.read (hrec.behind ?_) hscopes.around h hb
    split
    · exact keysWithin_violation
    · exact keysWithin_nil

mutual

/-- **A statement without violations is resolved** by a table that agrees with its findings. -/
theorem Stmt.resolved_of_walk : ∀ {s : Stmt} {around : Surroundings} {scopes : Scopes} {n n' : Nat},
    scopes.Settled → around.inClass.Fits scopes.ribs → s.Within n n' → n' ≤ bound →
    Records distances n n' (s.walk around scopes).2 → s.Resolved distances bound scopes.ribs
  | .expr _, _, _, _, _, hs, hc, h, hb, hrec | .print _, _, _, _, _, hs, hc, h, hb, hrec =>
    Expr.resolved_of_findings hs.around hc nofun h hb hrec
  | .var name _, _, scopes, _, _, hs, hc, ⟨hplain, h⟩, hb, hrec => by
    have hfresh := hs.fresh fun x rule hv => hrec.sound x rule (List.mem_append_left _ hv)
    have hown : ∀ x, scopes.ribs.own name.text = some x → Plain x := by
      intro x hx
      unfold Ribs.own at hx
      split at hx
      · cases hx
      · cases hx
        exact hplain
    exact ⟨hplain, hfresh, Expr.resolved?_of_findings (hs.around_declare hfresh) hc hown h hb
      (hrec.behind (scopes.keysWithin_declare name))⟩
  | .block body, around, _, _, _, hs, hc, h, hb, hrec => by
    have h : Stmt.AllWithin body _ _ := h
    exact Stmt.allResolved_of_walk hs.enter (hc.cons rfl rfl) h hb hrec
  | .ifElse _ _ none, _, _, _, _, hs, hc, ⟨hd, _, hcond, ht⟩, hb, hrec => by
    obtain ⟨hfirst, hsecond⟩ := hrec.append (Expr.keysWithin_findings hcond)
      (Stmt.keysWithin_walk ht) hcond.le ht.le
    exact ⟨Expr.resolved_of_findings hs.around hc nofun hcond (Nat.le_trans ht.le hb) hfirst, hd,
      Stmt.resolved_of_walk hs hc ht hb hsecond⟩
  | .whileDo _ _, _, _, _, _, hs, hc, ⟨hd, _, hcond, ht⟩, hb, hrec => by
    obtain ⟨hfirst, hsecond⟩ := hrec.append (Expr.keysWithin_findings hcond)
      (Stmt.keysWithin_walk ht) hcond.le ht.le
    exact ⟨Expr.resolved_of_findings hs.around hc nofun hcond (Nat.le_trans ht.le hb) hfirst, hd,
      Stmt.resolved_of_walk hs hc ht hb hsecond⟩
  | .ifElse _ thenBranch (some elseBranch), around, scopes, _, _, hs, hc,
      ⟨hd, hd', _, _, hcond, ht, he⟩, hb, hrec => by
    have hbetween : (thenBranch.walk around scopes).1 = scopes := by
      rw [Stmt.walk_fst around scopes ht, hd]
    have hrec : Records distances _ _ (_ ++ (thenBranch.walk around scopes).2 ++
      (elseBranch.walk around (thenBranch.walk around scopes).1).2) := hrec
    rw [hbetween, List.append_assoc] at hrec
    have hthen : KeysWithin (thenBranch.walk around scopes).2 _ _ := Stmt.keysWithin_walk ht
    have helse : KeysWithin (elseBranch.walk around scopes).2 _ _ := Stmt.keysWithin_walk he
    obtain ⟨hfirst, hothers⟩ := hrec.append (Expr.keysWithin_findings hcond)
      ((hthen.mono (Nat.le_refl _) he.le).append (helse.mono ht.le (Nat.le_refl _))) hcond.le
      (Nat.le_trans ht.le he.le)
    obtain ⟨hsecond, hthird⟩ := hothers.append hthen helse ht.le he.le
    have hb' := Nat.le_trans he.le hb
    exact ⟨Expr.resolved_of_findings hs.around hc nofun hcond (Nat.le_trans ht.le hb') hfirst, hd,
      Stmt.resolved_of_walk hs hc ht hb' hsecond, hd', Stmt.resolved_of_walk hs hc he hb hthird⟩
  | .function declaration, _, scopes, _, _, hs, hc, ⟨hplain, h⟩, hb, hrec => by
    have hfresh := hs.fresh fun x rule hv => hrec.sound x rule (List.mem_append_left _ hv)
    obtain ⟨hready, hribs⟩ := hs.ready declaration.name
    refine ⟨hplain, hfresh, ?_⟩
    rw [← hribs]
    exact FunctionDecl.resolved_of_findings hready (by rw [hribs]; exact hc.extend hplain) h hb
      (hrec.behind (scopes.keysWithin_declare declaration.name))
  | .ret keyword value, around, _, _, _, hs, hc, h, hb, hrec =>
    Expr.resolved?_of_findings hs.around hc nofun h hb
      (hrec.behind (around.inFunction.keysWithin_returnFindings keyword value.isSome))
  | .classDecl name superclass _, around, scopes, _, _, hs, hc, ⟨hplain, _, hsup, hm⟩, hb, hrec => by
    have hrec : Records distances _ _ ((scopes.declare name).2 ++
      ((scopes.declare name).1.ready name).superclassFindings name superclass ++
      FunctionDecl.allFindings (.ofSuperclass superclass)
        (((scopes.declare name).1.ready name).enterClass superclass) _) := hrec
    rw [List.append_assoc] at hrec
    have hfresh := hs.fresh fun x rule hv => hrec.sound x rule (List.mem_append_left _ hv)
    obtain ⟨hready, hribs⟩ := hs.ready name
    obtain ⟨hclass, hclassRibs⟩ := hready.enterClass superclass
    obtain ⟨hfirst, hsecond⟩ := (hrec.behind (scopes.keysWithin_declare name)).append
      (Scopes.keysWithin_superclassFindings hsup) (FunctionDecl.keysWithin_allFindings hm) hsup.le hm.le
    refine ⟨hplain, hfresh, ?_, ?_⟩
    · rw [← hribs]
      exact Records.superclass hready hsup (Nat.le_trans hm.le hb) hfirst
    · rw [← hribs, ← hclassRibs]
      refine FunctionDecl.allResolved_of_findings hclass ?_ hm hb hsecond
      rw [hclassRibs]
      exact ClassContext.fits_enterClass _ superclass

theorem FunctionDecl.resolved_of_findings : ∀ {f : FunctionDecl} {around : Surroundings}
    {scopes : Scopes} {n n' : Nat}, scopes.Settled → around.inClass.Fits scopes.ribs →
    f.Within n n' → n' ≤ bound → Records distances n n' (f.findings around scopes) →
    f.Resolved distances bound scopes.ribs
  | ⟨_, params, _⟩, _, scopes, _, _, hs, hc, ⟨hplain, h⟩, hb, hrec => by
    have hribs := Scopes.ribs_declareAll params scopes.enter
    obtain ⟨hsettled, hnodup, -⟩ := hs.enter.declareAll params nofun
      fun x rule hv => hrec.sound x rule (List.mem_append_left _ hv)
    refine ⟨hplain, hnodup, ?_⟩
    have henter : scopes.enter.ribs = .none :: scopes.ribs := rfl
    rw [henter] at hribs
    rw [← hribs]
    refine Stmt.allResolved_of_walk hsettled ?_ h hb
      (hrec.behind (Scopes.keysWithin_declareAll params scopes.enter))
    rw [hribs]
    exact Ribs.fits_extendAll params (hc.cons rfl rfl) hplain

theorem FunctionDecl.allResolved_of_findings : ∀ {fs : List FunctionDecl} {context : ClassContext}
    {scopes : Scopes} {n n' : Nat}, scopes.Settled → context.Fits scopes.ribs →
    FunctionDecl.AllWithin fs n n' → n' ≤ bound →
    Records distances n n' (FunctionDecl.allFindings context scopes fs) →
    FunctionDecl.AllResolved distances bound scopes.ribs fs
  | [], _, _, _, _, _, _, _, _, _ => trivial
  | method :: _, context, _, _, _, hs, hc, ⟨_, h, hms⟩, hb, hrec => by
    obtain ⟨hfirst, hothers⟩ := hrec.append (FunctionDecl.keysWithin_findings h)
      (FunctionDecl.keysWithin_allFindings hms) h.le hms.le
    refine ⟨FunctionDecl.resolved_of_findings hs ?_ h (Nat.le_trans hms.le hb) hfirst,
      FunctionDecl.allResolved_of_findings hs hc hms hb hothers⟩
    exact hc

theorem Stmt.allResolved_of_walk : ∀ {ss : List Stmt} {around : Surroundings} {scopes : Scopes}
    {n n' : Nat}, scopes.Settled → around.inClass.Fits scopes.ribs → Stmt.AllWithin ss n n' →
    n' ≤ bound → Records distances n n' (Stmt.walkAll around scopes ss).2 →
    Stmt.AllResolved distances bound scopes.ribs ss
  | [], _, _, _, _, _, _, _, _, _ => trivial
  | first :: others, around, scopes, n, n', hs, hc, ⟨m, h⟩, hb, hrec => by
    have hrec : Records distances n n' ((first.walk around scopes).2 ++
      (Stmt.walkAll around (first.walk around scopes).1 others).2) := hrec
    rcases h with ⟨h, hothers⟩ | ⟨h, hothers⟩
    · obtain ⟨hsettled, hribs⟩ := Stmt.settled_walk around h hs
      obtain ⟨hfirst, hsecond⟩ := hrec.append (Stmt.keysWithin_walk h)
        (Stmt.keysWithin_walkAll hothers) h.le hothers.le
      refine ⟨Stmt.resolved_of_walk hs hc h (Nat.le_trans hothers.le hb) hfirst, ?_⟩
      rw [← hribs]
      exact Stmt.allResolved_of_walk hsettled (by rw [hribs]; exact hc.behind h) hothers hb hsecond
    · obtain ⟨hsettled, hribs⟩ := Stmt.settled_walk around h hs
      obtain ⟨hfirst, hsecond⟩ := hrec.split (Stmt.keysWithin_walk h)
        (Stmt.keysWithin_walkAll hothers) ⟨hothers.le, Nat.le_refl _⟩ ⟨Nat.le_refl _, h.le⟩
        (.inr (Nat.le_refl _))
      refine ⟨Stmt.resolved_of_walk hs hc h hb hfirst, ?_⟩
      rw [← hribs]
      exact Stmt.allResolved_of_walk hsettled (by rw [hribs]; exact hc.behind h) hothers
        (Nat.le_trans h.le hb) hsecond

end

end

/-! ## Texts -/

theorem Session.check_eq_ok {text : List Char} {n n' : NodeId} {program : Program}
    {distances : Distances} (h : Session.check text n = (.ok (program, distances), n')) :
    Program.ofTokens (Token.tokens text) n = (.ok program, n') ∧ Token.faults text = [] ∧
      program.violations = [] ∧ distances = program.distances := by
  unfold Session.check Session.programOf at h
  cases hread : Program.ofTokens (Token.tokens text) n with
  | mk result m =>
    rw [hread] at h
    cases result with
    | error faults => cases h
    | ok read =>
      cases hlexical : Token.faults text with
      | cons fault faults => simp [hlexical] at h
      | nil =>
        simp only [hlexical, List.isEmpty_nil, if_true, Program.resolve] at h
        cases hviolations : read.violations with
        | cons violation violations => simp [hviolations, Except.map] at h
        | nil =>
          simp only [hviolations, List.isEmpty_nil, if_true, Except.map, Prod.mk.injEq,
            Except.ok.injEq] at h
          obtain ⟨⟨rfl, rfl⟩, rfl⟩ := h
          exact ⟨rfl, rfl, hviolations, rfl⟩

theorem within_of_check {text : List Char} {n n' : NodeId} {program : Program}
    {distances : Distances} (h : Session.check text n = (.ok (program, distances), n')) :
    Stmt.AllWithin program n n' := by
  have hderives := Grammar.derives_of_ofTokens (Session.check_eq_ok h).1
  have hspelled : ∀ t ∈ Grammar.sourceTokens (Token.tokens text), t.WellSpelled := fun t ht =>
    Token.wellSpelled_tokens ((List.takeWhile_sublist _).subset ht)
  exact hderives.within hspelled

theorem Distances.get?_merge (older newer : Distances) (id : NodeId) :
    (older.merge newer).get? id = (newer.get? id).or (older.get? id) := by
  simp only [Distances.merge, Distances.get?, List.lookup_append]

/-- **Accepted programs are resolved** by the distances of the session with their own added, which
say nothing new of older identities. -/
theorem resolved_of_check {text : List Char} {n n' : Nat} {program : Program}
    {distances older : Distances} (h : Session.check text n = (.ok (program, distances), n'))
    (holder : ∀ id : Nat, n ≤ id → older.get? id = none) :
    Stmt.AllResolved (older.merge distances) n' [] program ∧
      older.Extends n (older.merge distances) n' ∧
      ∀ id : Nat, n' ≤ id → (older.merge distances).get? id = none := by
  have hwithin := within_of_check h
  have hkeys : KeysWithin program.findings n n' := Stmt.keysWithin_walkAll hwithin
  obtain ⟨-, -, hviolations, rfl⟩ := Session.check_eq_ok h
  have hget : ∀ id, Distances.get? program.distances id = found program.findings id := fun _ => rfl
  refine ⟨?_, ⟨hwithin.le, fun (id : Nat) hid => ?_⟩, fun id hid => ?_⟩
  · have hrec : Records (older.merge program.distances) n n' program.findings := by
      refine ⟨fun name rule hv => ?_, fun id hid hid' => ?_⟩
      · have hmem : Diagnostic.resolve name.line name.text rule.message ∈ program.violations :=
          List.mem_filterMap.mpr ⟨_, hv, rfl⟩
        rw [hviolations] at hmem
        cases hmem
      · rw [Distances.get?_merge, holder id hid, Option.or_none, hget]
    have hempty : Scopes.ribs [] = [] := rfl
    rw [← hempty]
    have hcontext : Surroundings.none.inClass.Fits (Scopes.ribs []) := trivial
    exact Stmt.allResolved_of_walk (fun _ => nofun) hcontext hwithin (Nat.le_refl _) hrec
  · rw [Distances.get?_merge, hget, found_eq_none hkeys (.inl hid), Option.none_or]
  · rw [Distances.get?_merge, hget, found_eq_none hkeys (.inr hid), Option.none_or,
      holder id (Nat.le_trans hwithin.le hid)]

/-- No identity is given out again, whether or not a text is accepted. -/
theorem Session.le_nextId_check (text : List Char) (n : NodeId) : n ≤ (Session.check text n).2 := by
  have hle := Grammar.le_nextId_ofTokens (Token.tokens text) n
  unfold Session.check Session.programOf
  cases hread : Program.ofTokens (Token.tokens text) n with
  | mk result m =>
    rw [hread] at hle
    cases result with
    | error faults => exact hle
    | ok read => cases Token.faults text <;> exact hle

end Lox
