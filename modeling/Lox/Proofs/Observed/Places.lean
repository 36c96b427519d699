import Lox.Proofs.Observed.Steps

/-!
# From position to position

How the frames follow the walk from a position to the next one: a declaration binds in the current
frame what the walk makes ready in the innermost scope (`At.declared`), and for each scope that is
opened there is a new frame (`At.opened`).
-/

namespace Lox

namespace Machine

theorem mem_of_bindParams {params : List Name} {args : List Value} {x : String} {v : Value}
    (h : (bindParams params args).get? x = some v) : v ∈ args := by
  have hzip : ∀ (entries : List (Name × Value)) (table : Table Value),
      (entries.foldl (fun table entry => table.put entry.1.text entry.2) table).get? x = some v →
      v ∈ entries.map Prod.snd ∨ table.get? x = some v := by
    intro entries
    induction entries with
    | nil => exact fun table h => .inr h
    | cons entry entries ih =>
      intro table h
      rcases ih _ h with hv | hv
      · exact .inl (List.mem_cons_of_mem _ hv)
      · by_cases hx : x = entry.1.text
        · subst hx
          rw [Table.get?_put_self] at hv
          cases hv
          exact .inl List.mem_cons_self
        · rw [Table.get?_put_of_ne _ _ hx] at hv
          exact .inr hv
  rcases hzip _ _ h with hv | hv
  · obtain ⟨entry, hentry, rfl⟩ := List.mem_map.mp hv
    exact (List.of_mem_zip hentry).2
  · cases hv

theorem isSome_bindParams {params : List Name} {args : List Value}
    (hlen : args.length = params.length) {param : Name} (hparam : param ∈ params) :
    ((bindParams params args).get? param.text).isSome := by
  have hzip : ∀ (entries : List (Name × Value)) (table : Table Value),
      (param ∈ entries.map Prod.fst ∨ (table.get? param.text).isSome) →
      ((entries.foldl (fun table entry => table.put entry.1.text entry.2) table).get?
        param.text).isSome := by
    intro entries
    induction entries with
    | nil => exact fun table h => h.resolve_left nofun
    | cons entry entries ih =>
      refine fun table h => ih _ ?_
      by_cases hx : param.text = entry.1.text
      · rw [hx]
        exact .inr (by rw [Table.get?_put_self]; rfl)
      · rw [Table.get?_put_of_ne _ _ hx]
        rcases h with h | h
        · exact .inl ((List.mem_cons.mp h).resolve_left fun he => hx (congrArg Name.text he))
        · exact .inr h
  refine hzip _ _ (.inl ?_)
  rw [List.map_fst_zip (Nat.le_of_eq hlen.symm)]
  exact hparam

end Machine

namespace Observed

variable {frames : Frames} {globals frame : FrameId} {ribs ribs' : Ribs}
  {receiver : Option InstanceId} {parent : Option ClassId} {s : State} {position : Position}

/-! ## Declarations -/

/-- A name that is bound in the current frame may be ready in the innermost scope. -/
theorem Chain.define {x : String} {v : Value} (h : Chain frames globals frame ribs)
    (hx : Plain x) : Chain (frames.define frame x v) globals frame (ribs.extend x) := by
  have hgrow : frames.Grow (frames.define frame x v) := .define frames frame v hx
  cases h with
  | outermost => exact .outermost
  | inner henclosing hbinds houter =>
    refine .inner (hgrow.enclosing _ _ henclosing) (fun y hy => ?_) (houter.mono hgrow)
    by_cases hsame : y = x
    · subst hsame
      have hlt : frame.index < frames.all.size := by
        unfold Frames.enclosing? at henclosing
        cases hframe : frames.frame? frame with
        | none => rw [hframe] at henclosing; cases henclosing
        | some found => exact Frames.lt_of_frame? hframe
      rw [Frames.binding?_define_self hlt]
      rfl
    · have hy : _ = true := hy
      rw [Rib.add, beq_eq_false_iff_ne.mpr hsame, Bool.false_or] at hy
      exact hgrow.names _ y (hbinds y hy)

theorem Holds.congr (h : Holds frames frame ribs receiver parent)
    (hthis : ribs'.distance? thisName = ribs.distance? thisName)
    (hsuper : ribs'.distance? superName = ribs.distance? superName) :
    Holds frames frame ribs' receiver parent where
  receiver d hd := h.receiver d (hthis ▸ hd)
  parent d hd hd' := h.parent d (hthis ▸ hd) (hsuper ▸ hd')

/-- **Behind a declaration** the name is bound in the current frame. -/
theorem At.declared {name : Name} {v : Value} (h : At s.machine position)
    (hname : Plain name.text) :
    At (s.define s.machine.environment name.text v).machine (position.declared name) := by
  have hgrow : s.machine.heap.frames.Grow _ := .define _ s.machine.environment v hname
  have hribs : (position.declared name).scopes.ribs = position.scopes.ribs.extend name.text :=
    position.scopes.ribs_declareReady name
  have hthis := Ribs.distance?_extend hname.1.symm position.scopes.ribs
  have hsuper := Ribs.distance?_extend hname.2.symm position.scopes.ribs
  refine ⟨hgrow.outermost _ h.outermost, ?_, ?_, ?_⟩
  · rw [hribs]
    exact h.chain.define hname
  · rw [hribs]
    exact (h.holds.mono hgrow).congr hthis hsuper
  · rw [hribs, hsuper]
    exact h.head

theorem At.declaring {m : Machine} {name : Name} (h : At m position)
    (hfresh : position.scopes.ribs.Fresh name.text) : At m (position.declaring name) := by
  have hribs : (position.declaring name).scopes.ribs = position.scopes.ribs :=
    Scopes.ribs_declare hfresh
  refine ⟨h.outermost, ?_, ?_, ?_⟩
  · rw [hribs]
    exact h.chain
  · rw [hribs]
    exact h.holds
  · rw [hribs]
    exact h.head

/-- Behind a resolved statement that declares nothing the position is the same. -/
theorem Position.behind_eq {distances : Distances} {bound : NodeId} {stmt : Stmt} {ribs : Ribs}
    (h : stmt.Resolved distances bound ribs) (hdeclared : stmt.declared? = none) :
    position.behind stmt = position := by
  have hwalk := h.walk_fst position.around position.scopes
  rw [hdeclared] at hwalk
  rw [Position.behind, hwalk]

/-! ## New scopes -/

/-- **In a scope that is opened** there is a new frame, which binds what is ready there. -/
theorem At.opened {rib : Rib} {bindings : Table Value}
    (houtermost : s.machine.heap.frames.Outermost s.machine.globals)
    (hchain : Chain s.machine.heap.frames s.machine.globals frame ribs)
    (hholds : Holds s.machine.heap.frames frame ribs position.receiver position.parent)
    (hribs : position.scopes.ribs = rib :: ribs)
    (hbinds : ∀ x, rib x = true → Plain x ∧ (bindings.get? x).isSome) :
    At ((s.addFrame frame bindings).moveTo s.nextFrame).machine position := by
  have hgrow : s.machine.heap.frames.Grow (s.addFrame frame bindings).machine.heap.frames :=
    .push _ _
  have henclosing : (s.addFrame frame bindings).machine.heap.frames.enclosing? s.nextFrame =
      some frame := State.enclosing?_addFrame
  have hreserved : ∀ x, ¬Plain x → rib x = false := fun x hx =>
    Bool.eq_false_iff.mpr fun h => hx (hbinds x h).1
  have hthis : rib thisName = false := hreserved _ fun hplain => hplain.1 rfl
  have hsuper : rib superName = false := hreserved _ fun hplain => hplain.2 rfl
  refine ⟨hgrow.outermost _ houtermost, ?_, ?_, ?_⟩
  · rw [hribs]
    refine .inner henclosing (fun x hx => ?_) (hchain.mono hgrow)
    rw [State.moveTo, State.binding?_addFrame]
    exact (hbinds x hx).2
  · rw [hribs]
    exact (hholds.mono hgrow).cons hthis hsuper henclosing
  · rw [hribs, Ribs.distance?_cons, hsuper, if_neg Bool.false_ne_true]
    cases Ribs.distance? ribs superName <;> simp

theorem At.inside (h : At s.machine position) :
    At ((s.addFrame s.machine.environment .empty).moveTo s.nextFrame).machine position.inside := by
  have hribs : position.inside.scopes.ribs = .none :: position.scopes.ribs := rfl
  exact .opened h.outermost h.chain h.holds hribs nofun

theorem At.inBody {f : FunctionDecl} {args : List Value}
    (houtermost : s.machine.heap.frames.Outermost s.machine.globals)
    (hchain : Chain s.machine.heap.frames s.machine.globals frame position.scopes.ribs)
    (hholds : Holds s.machine.heap.frames frame position.scopes.ribs position.receiver
      position.parent)
    (hplain : ∀ param ∈ f.params, Plain param.text) (hlen : args.length = f.params.length) :
    At ((s.addFrame frame (Machine.bindParams f.params args)).moveTo s.nextFrame).machine
      (position.inBody f) := by
  obtain ⟨rib, hribs, hrib⟩ := Ribs.extendAll_cons f.params .none position.scopes.ribs
  have hbody : (position.inBody f).scopes.ribs = rib :: position.scopes.ribs :=
    (Scopes.ribs_declareAll f.params position.scopes.enter).trans hribs
  refine .opened houtermost hchain hholds hbody fun x hx => ?_
  obtain hnone | ⟨param, hparam, rfl⟩ := (hrib x).mp hx
  · cases hnone
  · exact ⟨hplain param hparam, Machine.isSome_bindParams hlen hparam⟩

/-! ## Receivers -/

theorem get?_single {x name : String} {u v : Value} (h : (Table.single name v).get? x = some u) :
    x = name ∧ u = v := by
  have h : [(name, v)].lookup x = some u := h
  rw [Table.lookup_cons] at h
  split at h
  · next hx => exact ⟨hx, (Option.some.inj h).symm⟩
  · cases h

section
variable {r : InstanceId}

/-- A frame that binds `this` is that of the scope around methods. -/
theorem Chain.addReceiver (h : Chain s.machine.heap.frames globals frame ribs) :
    Chain (s.addFrame frame (.single thisName (.inst r))).machine.heap.frames globals s.nextFrame
      (.single thisName :: ribs) := by
  refine .inner State.enclosing?_addFrame (fun x hx => ?_) (h.mono (.push _ _))
  have hx : x = thisName := eq_of_beq hx
  rw [State.binding?_addFrame, hx]
  rfl

/-- There `this` is the receiver, and `super` is what the frame of the methods binds. -/
theorem Holds.addReceiver
    (hparent : ribs.distance? superName = some 0 → ∃ p, parent = some p ∧
      s.machine.heap.frames.binding? frame superName = some (.cls p)) :
    Holds (s.addFrame frame (.single thisName (.inst r))).machine.heap.frames s.nextFrame
      (.single thisName :: ribs) (some r) parent where
  receiver d hd := by
    have hthis : Ribs.distance? (.single thisName :: ribs) thisName = some 0 := rfl
    rw [hthis] at hd
    cases hd
    exact ⟨r, s.nextFrame, rfl, rfl, State.binding?_addFrame⟩
  parent d hd hd' := by
    have hthis : Ribs.distance? (.single thisName :: ribs) thisName = some 0 := rfl
    rw [hthis] at hd
    cases hd
    rw [Ribs.distance?_cons, if_neg (by decide)] at hd'
    obtain ⟨d, hinner, hd⟩ := Option.map_eq_some_iff.mp hd'
    cases Nat.succ.inj hd
    obtain ⟨p, hp, hsuper⟩ := hparent hinner
    have hgrow : s.machine.heap.frames.Grow
      (s.addFrame frame (.single thisName (.inst r))).machine.heap.frames := .push _ _
    refine ⟨p, frame, hp, ?_, hgrow.reserved _ _ _ (fun hplain => hplain.2 rfl) hsuper⟩
    rw [Frames.out_succ, State.enclosing?_addFrame]
    rfl

end

end Observed

end Lox
