import Lox.Proofs.Growth.Programs
import Lox.Proofs.Joining.Origins
import Lox.Proofs.Observed.Sessions

/-!
# Heaps of sessions only grow

The history of a session holds the machines that its texts met on their way (`Session.history`): the
one before each text, then the one at each visit of an expression, of a statement and of a superclass
clause, and the one behind all texts.  Every machine of a history is `Linked`: the ways out of frames
and the lines of classes come to an end, at the outermost frame and at a class that inherits from none.
And every later machine continues every earlier one (`Session.Ready.formed_history`), so the heap only
grows (`Session.heap_only_grows`).  What is visited there is written in one of the programs
(`Session.Ready.formed_visits`).
-/

namespace Lox

namespace Machine

/-- **Whether the links of a machine come to an end.**  A frame is enclosed by an older one, and the
way out of it, all along its links, leads to the outermost frame; a class inherits from an older one,
and its line is all of the way along what is inherited from.  A frame that binds `this` or `super`
binds nothing else. -/
structure Linked (m : Machine) : Prop where
  enclosed : ∀ id outer, m.heap.frames.enclosing? id = some outer → outer.index < id.index
  outward : ∀ id : FrameId, id.index < m.heap.frames.all.size →
    Heap.Way m.heap.frames.enclosing? id (m.heap.frames.path id) ∧
      (m.heap.frames.path id).getLast? = some m.globals
  inherits : ∀ id parent, m.heap.superclass? id = some parent → parent.index < id.index
  lineage : ∀ id, Heap.Way m.heap.superclass? id (m.heap.lineage id)
  alone : ∀ id x y, (m.heap.frames.binding? id x).isSome → x = thisName ∨ x = superName →
    (m.heap.frames.binding? id y).isSome → y = x

variable {known : FunctionDecl → Prop} {m m₁ : Machine}

/-- **Formed machines are linked.** -/
theorem Formed.linked (h : m.Formed known) : m.Linked where
  enclosed id outer houter := by
    have hid : id.index < m.heap.frames.all.size := by
      unfold Frames.enclosing? at houter
      cases hframe : m.heap.frames.frame? id with
      | none => rw [hframe] at houter; cases houter
      | some frame => exact Frames.lt_of_frame? hframe
    rcases h.heap.enclosing? hid with ⟨-, hnone⟩ | ⟨outer', houter', hlt⟩
    · rw [hnone] at houter
      cases houter
    · cases houter'.symm.trans houter
      exact hlt
  outward := h.heap.way_path
  inherits _ _ := h.heap.superclass_lt
  lineage := h.heap.way_lineage
  alone id x y hx hreserved hy := by
    have hp : ¬Plain x := fun hp => hreserved.elim hp.1 hp.2
    unfold Frames.binding? at hx hy
    cases hframe : m.heap.frames.frame? id with
    | none => rw [hframe] at hx; cases hx
    | some frame =>
      rw [hframe] at hx hy
      exact h.heap.alone id frame x hframe hx hp y hy

end Machine

namespace Observed

open Machine (Passes)

variable {bound bound' : NodeId} {s : State} {program : Program} {distances : Distances}

/-! ## Programs -/

theorem State.Formed.later (hs : s.Formed bound) (hle : bound ≤ bound') : s.Formed bound' :=
  Machine.Formed.mono hs fun _ hf => FunctionDecl.Within.mono hf (Nat.le_refl _) hle

/-- **Going back to the outermost frame** is one more change. -/
theorem Moves.backToGlobals {x : Run Unit} {Q : Heap → Unit → Prop} (hs : s.Formed bound)
    (h : Moves bound s x Q) : Moves bound s (backToGlobals x) Q := by
  obtain ⟨s₁, hleads, ⟨a, hx, hq⟩ | ⟨stop, hx⟩⟩ := h
  · exact ⟨s₁, hleads, .inl ⟨a, by rw [Observed.backToGlobals, hx], hq⟩⟩
  · have hback : Machine.Change (Written bound) s₁.machine (s₁.moveTo s₁.machine.globals).machine :=
      .enter (hleads.formed hs).1.heap.openAt_globals
    exact ⟨s₁.moveTo s₁.machine.globals, hleads.trans (.change hback rfl),
      .inr ⟨stop, by simp only [Observed.backToGlobals, hx]⟩⟩

theorem Moves.flushOnStop {x : Run Unit} {Q : Heap → Unit → Prop} (h : Moves bound s x Q) :
    Moves bound s (flushOnStop x) Q := by
  obtain ⟨s₁, hleads, ⟨a, hx, hq⟩ | ⟨stop, hx⟩⟩ := h
  · exact ⟨s₁, hleads, .inl ⟨a, by rw [Observed.flushOnStop, hx], hq⟩⟩
  · exact ⟨s₁.withOutside s₁.machine.sink (s₁.machine.flushes + 1) s₁.machine.clock,
      hleads.trans (.change (.outside _ _ _) rfl), .inr ⟨stop, by rw [Observed.flushOnStop, hx]; rfl⟩⟩

theorem moves_flush : Moves bound s (lift Machine.Run.flush) fun _ _ => True := by
  refine ⟨s.withOutside s.machine.sink (s.machine.flushes + 1) s.machine.clock,
    .change (.outside _ _ _) rfl, ?_⟩
  unfold lift
  rw [Machine.Run.flush_eq]
  cases s.machine.sink.flushFails with
  | true => exact .inr ⟨_, rfl⟩
  | false => exact .inl ⟨(), rfl, trivial⟩

/-- **A program** moves a state on in which its distances are known. -/
theorem leads_interpret (fuel : Nat) (hs : (s.withProgram program distances).Formed bound)
    (hp : Stmt.AllWithin program 0 bound) :
    Leads bound (s.withProgram program distances)
      (Session.outcomeOf (interpret fuel program distances s)).2 := by
  have hrun : Moves bound (s.withProgram program distances)
      (do
        flushOnStop (backToGlobals (runProgram fuel .outermost program))
        lift Machine.Run.flush) fun _ _ => True :=
    (Moves.backToGlobals hs (moves_runProgram fuel hs hp)).flushOnStop.bind hs
      fun _ _ _ _ _ => moves_flush
  obtain ⟨s₁, hleads, hends⟩ := hrun
  have hlast : (Session.outcomeOf (interpret fuel program distances s)).2 = s₁ :=
    Session.outcomeOf_snd_of_ends hends
  rwa [hlast]

/-! ## Sessions -/

namespace Session

theorem formed_initial (sink : Sink) (clock : Clock) :
    (initial sink clock).state.Formed (initial sink clock).nextId := by
  have hclock : ∀ x v, Table.get? (.single Native.clock.name (Value.native .clock)) x = some v →
      Plain x ∧ v = .native .clock := by
    intro x v hv
    obtain ⟨rfl, rfl⟩ := get?_single hv
    exact ⟨⟨by decide, by decide⟩, rfl⟩
  have hopen : Frame.Open ⟨.single Native.clock.name (.native .clock), none⟩ := fun x hx =>
    have ⟨v, hv⟩ := Option.isSome_iff_exists.mp hx
    (hclock x v hv).1
  have hframes : ∀ id frame, (initial sink clock).state.machine.heap.frames.frame? id = some frame →
      id = ⟨0⟩ ∧ frame = ⟨.single Native.clock.name (.native .clock), none⟩ := by
    intro id frame hframe
    have hframe : (Frames.empty.push ⟨.single Native.clock.name (.native .clock), none⟩).2.frame? id =
      some frame := hframe
    rw [Frames.frame?_push] at hframe
    split at hframe
    next hid => exact ⟨by cases id; exact congrArg FrameId.mk hid, (Option.some.inj hframe).symm⟩
    next => cases hframe
  refine ⟨⟨⟨_, rfl, hopen, rfl⟩, ?_, ?_, ?_, ?_, ?_, ?_, ?_, ?_⟩, ⟨_, rfl, hopen⟩⟩
  · exact fun id frame hframe => .inl (hframes id frame hframe).1
  · intro id frame x hframe hx hp
    rw [(hframes id frame hframe).2] at hx
    exact absurd (hopen x hx) hp
  · intro id x v hv
    unfold Frames.binding? at hv
    cases hframe : (initial sink clock).state.machine.heap.frames.frame? id with
    | none => rw [hframe] at hv; cases hv
    | some frame =>
      rw [hframe, (hframes id frame hframe).2] at hv
      rw [(hclock x v hv).2]
      trivial
  · exact fun i f hf => nomatch (Array.getElem?_empty (i := i)).symm.trans hf
  · exact fun i c _ hc => nomatch (Array.getElem?_empty (i := i)).symm.trans hc
  · exact fun i c _ _ hc => nomatch (Array.getElem?_empty (i := i)).symm.trans hc
  · exact fun i o ho => nomatch (Array.getElem?_empty (i := i)).symm.trans ho
  · exact fun i o _ _ ho => nomatch (Array.getElem?_empty (i := i)).symm.trans ho

theorem Written.lt_of_mem {bound : NodeId} {f : FunctionDecl} (hf : Written bound f) {id : Nat}
    (hid : id ∈ f.references) : id < bound :=
  ((FunctionDecl.from_iff (.below bound) f).mp (FunctionDecl.Within.below hf (Nat.le_refl _))).1 id hid

/-- **A text moves the state of a session on**, whether it is run or not.  What is learnt of its own
names before it is run is nothing new to older functions. -/
theorem exists_leads_run {session : Session} (h : session.Ready)
    (hs : session.state.Formed session.nextId) (fuel : Nat) (text : List Char) :
    let next := (session.run fuel text).2
    ∃ start : State, start.Formed next.nextId ∧ start.visits = session.state.visits ∧
      Machine.Continues session.state.machine start.machine ∧
      Leads next.nextId start next.state := by
  have hle := Lox.Session.le_nextId_check text session.nextId
  unfold run
  cases hcheck : Lox.Session.check text session.nextId with
  | mk result nextId =>
    rw [hcheck] at hle
    have hs' : session.state.Formed nextId := hs.later hle
    cases result with
    | error faults => exact ⟨_, hs', rfl, .refl _, .refl _⟩
    | ok accepted =>
      obtain ⟨program, distances⟩ := accepted
      obtain ⟨-, hextends, -⟩ := resolved_of_check hcheck h.unused
      have hwithin := (within_of_check hcheck).mono (Nat.zero_le _) (Nat.le_refl nextId)
      have hstart : (session.state.withProgram program distances).Formed nextId :=
        ⟨hs'.heap, hs'.environment⟩
      refine ⟨session.state.withProgram program distances, hstart, rfl,
        ⟨⟨rfl, .refl _⟩, fun i f hf id hid => ?_⟩, leads_interpret fuel hstart hwithin⟩
      exact hextends.2 id (Written.lt_of_mem (hs.heap.functions i f hf).1 hid)

/-- **The machines that the texts of a session meet** on their way: the one before each text, those at
its visits, and the one behind all texts. -/
def history (session : Session) : List (Nat × List Char) → List Machine
  | [] => [session.state.machine]
  | (fuel, text) :: texts =>
    session.state.machine ::
      (((session.run fuel text).2.state.visits.drop session.state.visits.length).map Visit.machine ++
        history (session.run fuel text).2 texts)

theorem history_eq_cons (session : Session) (texts : List (Nat × List Char)) :
    ∃ later, session.history texts = session.state.machine :: later := by
  cases texts with
  | nil => exact ⟨_, rfl⟩
  | cons entry texts => exact ⟨_, rfl⟩

/-- **All machines of a history are formed**, and each continues all before it. -/
theorem Ready.formed_history : ∀ (texts : List (Nat × List Char)) {session : Session},
    session.Ready → session.state.Formed session.nextId →
    (∀ m ∈ session.history texts, ∃ bound, m.Formed (Written bound)) ∧
      (session.history texts).Pairwise Machine.Continues
  | [], session, _, hs =>
    ⟨fun m hm => ⟨session.nextId, List.mem_singleton.mp hm ▸ hs⟩, List.pairwise_singleton _ _⟩
  | (fuel, text) :: texts, session, h, hs => by
    obtain ⟨start, hstart, hsame, hlearnt, visits, hpasses, hvisits, -⟩ :=
      exists_leads_run h hs fuel text
    obtain ⟨hmoments, hbehind, hpairs⟩ := Machine.Formed.passes hstart hpasses
    obtain ⟨hothers, hotherPairs⟩ := formed_history texts (h.run fuel text) hbehind
    have hdrop : (session.run fuel text).2.state.visits.drop session.state.visits.length = visits := by
      rw [hvisits, hsame, List.drop_left]
    -- what follows the text continues the machine behind it, and so all before that
    have hfirst : ∀ m ∈ (session.run fuel text).2.history texts,
        Machine.Continues (session.run fuel text).2.state.machine m := by
      obtain ⟨later, hlater⟩ := history_eq_cons (session.run fuel text).2 texts
      rw [hlater] at hotherPairs ⊢
      exact List.forall_mem_cons.mpr ⟨.refl _, (List.pairwise_cons.mp hotherPairs).1⟩
    obtain ⟨hbefore, hpairs⟩ := List.pairwise_cons.mp hpairs
    obtain ⟨hpairs, -, hlast⟩ := List.pairwise_append.mp hpairs
    unfold history
    rw [hdrop]
    constructor
    · intro m hm
      rcases List.mem_cons.mp hm with rfl | hm
      · exact ⟨_, hs⟩
      · rcases List.mem_append.mp hm with hm | hm
        · exact ⟨_, hmoments m hm⟩
        · exact hothers m hm
    · refine .cons (fun m hm => hlearnt.trans ?_) (List.pairwise_append.mpr ⟨hpairs, hotherPairs,
        fun a ha m hm => (hlast a ha _ (List.mem_singleton_self _)).trans (hfirst m hm)⟩)
      rcases List.mem_append.mp hm with hm | hm
      · exact hbefore m (List.mem_append_left _ hm)
      · exact (hbefore _ (List.mem_append_right _ (List.mem_singleton_self _))).trans (hfirst m hm)

theorem mem_history_after : ∀ (texts : List (Nat × List Char)) (session : Session) (k : Nat),
    (session.after (texts.take k)).state.machine ∈ session.history texts
  | [], session, k => by
    rw [List.take_nil]
    exact List.mem_singleton_self _
  | entry :: texts, session, 0 => List.mem_cons_self
  | (fuel, text) :: texts, session, k + 1 =>
    List.mem_cons_of_mem _ (List.mem_append_right _
      (mem_history_after texts (session.run fuel text).2 k))

/-- **What texts visit** is written in a program, at a formed machine of the history. -/
theorem Ready.formed_visits : ∀ (texts : List (Nat × List Char)) {session : Session},
    session.Ready → session.state.Formed session.nextId →
    ∀ v ∈ (session.after texts).state.visits, v ∈ session.state.visits ∨
      v.machine ∈ session.history texts ∧
        ∃ bound, v.machine.Formed (Written bound) ∧ v.node.Within bound
  | [], _, _, _ => fun _ hv => .inl hv
  | (fuel, text) :: texts, session, h, hs => by
    obtain ⟨start, hstart, hsame, -, hleads⟩ := exists_leads_run h hs fuel text
    have hbehind := (hleads.formed hstart).1
    obtain ⟨visits, hpasses, hvisits, hwithin⟩ := hleads
    obtain ⟨hmoments, -, -⟩ := Machine.Formed.passes hstart hpasses
    rw [hsame] at hvisits
    intro v hv
    unfold history
    rw [hvisits, List.drop_left]
    rcases formed_visits texts (h.run fuel text) hbehind v hv with hbefore | ⟨hlater, hformed⟩
    · rw [hvisits] at hbefore
      refine (List.mem_append.mp hbefore).imp_right fun hnew => ?_
      have hmoment := List.mem_map_of_mem (f := Visit.machine) hnew
      exact ⟨List.mem_cons_of_mem _ (List.mem_append_left _ hmoment), _,
        hmoments _ hmoment, hwithin v hnew⟩
    · exact .inr ⟨List.mem_cons_of_mem _ (List.mem_append_right _ hlater), hformed⟩

/-- **Heaps only grow, and their links come to an end.**  Observed texts run as without observation,
and what any of them leaves behind is in the history of the session, together with the machines at
all visits.  Every machine there is linked; each is what all before it have become, in which no link
is set anew, no class changes and no name or field is lost; and a class that is there has the same
methods ever after. -/
theorem heap_only_grows (sink : Sink) (clock : Clock) (texts : List (Nat × List Char)) :
    let machines := (initial sink clock).history texts
    (initial sink clock).outcomes texts = (Lox.Session.initial sink clock).outcomes texts ∧
      (∀ k, ((Lox.Session.initial sink clock).after (texts.take k)).machine ∈ machines) ∧
      (∀ m ∈ machines, m.Linked) ∧
      machines.Pairwise fun m m' => Machine.Grows m m' ∧
        ∀ id : ClassId, id.index < m.heap.classes.size → ∀ name,
          m'.heap.findMethod? id name = m.heap.findMethod? id name := by
  obtain ⟨hformed, hpairs⟩ :=
    (ready_initial sink clock).formed_history texts (formed_initial sink clock)
  refine ⟨outcomes_eq texts _, fun k => ?_, fun m hm => ?_, ?_⟩
  · have hmem := mem_history_after texts (initial sink clock) k
    have herased : ((initial sink clock).after (texts.take k)).erased =
      (Lox.Session.initial sink clock).after (texts.take k) := erased_after _ _
    rw [← herased]
    exact hmem
  · obtain ⟨_, hm⟩ := hformed m hm
    exact hm.linked
  · refine hpairs.imp_of_mem fun {m m'} hm _ hgrows => ⟨hgrows.toGrows, fun id hid name => ?_⟩
    obtain ⟨_, hm⟩ := hformed m hm
    exact hgrows.heap.findMethod? hm.heap hid name

/-- The call of a method makes a frame that binds `this`, and one inside it for the call. -/
example :
    ((initial .unbounded (.constant 0)).history
        [(9, "class A \x7b m() \x7b print 1; \x7d \x7d".toList), (9, "A().m();".toList)]).map
      (fun m => (m.heap.frames.all.size, m.heap.classes.size, m.heap.instances.size)) =
    [(1, 0, 0), (1, 0, 0), (1, 1, 0), (1, 1, 0), (1, 1, 0), (1, 1, 0), (1, 1, 0), (1, 1, 0),
      (3, 1, 1), (3, 1, 1), (3, 1, 1)] := by
  decide +kernel

end Session

end Observed

end Lox
