import Lox.Proofs.Growth.Machine
import Lox.Proofs.Observed.Declarations
import Lox.Proofs.Operators
import Lox.Proofs.Scoping.Walk

/-!
# Runs are rows of changes

Whatever an observed run does, it comes about by changes of a machine, and what it visits is written
in a program, at the moments that these changes pass (`Leads`, `Moves`).  Rows of such runs are such
runs (`Moves.bind`), and so is a run inside another frame (`Moves.withFrame`).  The steps of which
programs are made are one or two changes each.
-/

namespace Lox

/-- Whether what can be visited is as it is written in a tree with identities below a bound. -/
def Node.Within (bound : NodeId) : Node → Prop
  | .expr e => e.Within 0 bound
  | .stmt s => s.Within 0 bound
  | .superclass reference => reference.Within 0 bound

namespace Observed

open Machine (Flow Change Passes)
open Machine.Run (allocate lookUp store)

/-- Whether a function is as it is written in a tree with identities below a bound. -/
def Written (bound : NodeId) (f : FunctionDecl) : Prop :=
  f.Within 0 bound

/-- Whether a state is formed, with functions that are written below a bound. -/
def State.Formed (bound : NodeId) (s : State) : Prop :=
  s.machine.Formed (Written bound)

/-- **Whether changes lead from one state to another**: what is visited on the way is written below a
bound, at the moments that the changes pass. -/
def Leads (bound : NodeId) (s s' : State) : Prop :=
  ∃ visits, Passes (Written bound) s.machine (visits.map Visit.machine) s'.machine ∧
    s'.visits = s.visits ++ visits ∧ ∀ v ∈ visits, v.node.Within bound

/-- **Whether a run moves a state on by changes**, and has a result that `Q` holds of if it ends
well. -/
def Moves {α : Type} (bound : NodeId) (s : State) (x : Run α) (Q : Heap → α → Prop) : Prop :=
  ∃ s', Leads bound s s' ∧ ((∃ a, x s = .ok a s' ∧ Q s'.machine.heap a) ∨ ∃ stop, x s = .error stop s')

variable {α β : Type} {bound : NodeId} {s s₁ s₂ : State}

namespace Leads

theorem of_eq (hmachine : s₁.machine = s.machine) (hvisits : s₁.visits = s.visits) :
    Leads bound s s₁ :=
  ⟨[], hmachine ▸ .done _, hvisits.trans (List.append_nil _).symm,
    fun _ hv => absurd hv List.not_mem_nil⟩

theorem refl (s : State) : Leads bound s s := .of_eq rfl rfl

theorem trans (h : Leads bound s s₁) (h' : Leads bound s₁ s₂) : Leads bound s s₂ := by
  obtain ⟨visits, hpasses, hvisits, hwithin⟩ := h
  obtain ⟨visits', hpasses', hvisits', hwithin'⟩ := h'
  refine ⟨visits ++ visits', ?_, ?_, List.forall_mem_append.mpr ⟨hwithin, hwithin'⟩⟩
  · rw [List.map_append]
    exact hpasses.trans hpasses'
  · rw [hvisits', hvisits, List.append_assoc]

theorem change (hc : Change (Written bound) s.machine s₁.machine) (hvisits : s₁.visits = s.visits) :
    Leads bound s s₁ :=
  ⟨[], .single hc, hvisits.trans (List.append_nil _).symm, fun _ hv => absurd hv List.not_mem_nil⟩

theorem visit {node : Node} (position : Position) (hnode : node.Within bound) :
    Leads bound s { s with visits := s.visits ++ [⟨node, position, s.machine⟩] } :=
  ⟨[_], .moment (.done _), rfl, List.forall_mem_singleton.mpr hnode⟩

/-- **What leads from a formed state** leads to one that continues it. -/
theorem formed (h : Leads bound s s₁) (hs : s.Formed bound) :
    s₁.Formed bound ∧ Machine.Continues s.machine s₁.machine :=
  have ⟨_, hpasses, _⟩ := h
  ⟨(Machine.Formed.passes hs hpasses).2.1, Machine.Formed.continues_of_passes hs hpasses⟩

end Leads

namespace Moves

variable {x : Run α} {f : α → Run β} {Q : Heap → α → Prop} {R : Heap → β → Prop}

theorem pure {a : α} (hq : Q s.machine.heap a) : Moves bound s (Pure.pure a) Q :=
  ⟨s, .refl s, .inl ⟨a, rfl, hq⟩⟩

theorem stop {y : Machine.Run α} {e : Machine.Stop} (hy : y s.machine = .error e s.machine) :
    Moves bound s (lift y) Q :=
  ⟨s, .refl s, .inr ⟨e, by rw [lift, hy]⟩⟩

theorem fail {fault : Machine.Fault} : Moves bound s (lift (Machine.Run.fail fault)) Q :=
  stop rfl

theorem outOfFuel : Moves bound s (lift Machine.Run.outOfFuel) Q :=
  stop rfl

theorem step {y : Machine.Run α} {a : α} {m : Machine} (hy : y s.machine = .ok a m)
    (hc : Change (Written bound) s.machine m) (hq : Q m.heap a) : Moves bound s (lift y) Q :=
  ⟨{ s with machine := m }, .change hc rfl, .inl ⟨a, by rw [lift, hy], hq⟩⟩

theorem reads {y : Machine.Run α} {P : α → Prop} (hy : Reads s.machine y P)
    (hq : ∀ a, P a → Q s.machine.heap a) : Moves bound s (lift y) Q := by
  rcases hy with ⟨a, hy, ha⟩ | ⟨reason, hy⟩
  · exact ⟨s, .refl s, .inl ⟨a, by rw [lift, hy], hq a ha⟩⟩
  · exact stop hy

/-- **Rows of runs** that move a state on move it on. -/
theorem bind (hs : s.Formed bound) (h : Moves bound s x Q)
    (hf : ∀ a s', s'.Formed bound → s.machine.heap.Grows s'.machine.heap → Q s'.machine.heap a →
      Moves bound s' (f a) R) : Moves bound s (x >>= f) R := by
  obtain ⟨s₁, hleads, ⟨a, hx, hq⟩ | ⟨reason, hx⟩⟩ := h
  · obtain ⟨hs₁, hcontinues⟩ := hleads.formed hs
    obtain ⟨s₂, hleads', hends⟩ := hf a s₁ hs₁ hcontinues.heap hq
    refine ⟨s₂, hleads.trans hleads', ?_⟩
    rw [Steps.bind_of_ok hx]
    exact hends
  · exact ⟨s₁, hleads, .inr ⟨reason, Steps.bind_of_error hx⟩⟩

theorem mono {P : Heap → α → Prop} (h : Moves bound s x Q) (hq : ∀ heap a, Q heap a → P heap a) :
    Moves bound s x P := by
  obtain ⟨s₁, hleads, ⟨a, hx, ha⟩ | hstop⟩ := h
  · exact ⟨s₁, hleads, .inl ⟨a, hx, hq _ a ha⟩⟩
  · exact ⟨s₁, hleads, .inr hstop⟩

theorem get {f : State → Run β} (h : Moves bound s (f s) R) :
    Moves bound s (MonadState.get >>= f) R := h

theorem getHeap {f : Heap → Run β} (h : Moves bound s (f s.machine.heap) R) :
    Moves bound s (lift Machine.Run.getHeap >>= f) R := h

theorem originOf {id : FunctionId} {f : Position → Run β} (h : Moves bound s (f (s.origin id)) R) :
    Moves bound s (originOf id >>= f) R := h

theorem visit {node : Node} {position : Position} {f : Unit → Run β} (hs : s.Formed bound)
    (hnode : node.Within bound)
    (h : ∀ s', s'.Formed bound → s'.machine = s.machine → Moves bound s' (f ()) R) :
    Moves bound s (visit node position >>= f) R := by
  obtain ⟨s₁, hleads, hends⟩ :=
    h { s with visits := s.visits ++ [⟨node, position, s.machine⟩] } hs rfl
  exact ⟨s₁, (Leads.visit position hnode).trans hleads, hends⟩

theorem note {id : FunctionId} {position : Position} {f : Unit → Run β}
    (h : ∀ s', s'.machine = s.machine → Moves bound s' (f ()) R) :
    Moves bound s (note id position >>= f) R := by
  obtain ⟨s₁, hleads, hends⟩ :=
    h { s with origin := fun other => if other = id then position else s.origin other } rfl
  exact ⟨s₁, (Leads.of_eq rfl rfl).trans hleads, hends⟩

/-- **A run inside another frame** enters that frame, and in the end the one that was left. -/
theorem withFrame {frame : FrameId} (hs : s.Formed bound)
    (hframe : s.machine.heap.frames.OpenAt frame)
    (h : ∀ s', s'.Formed bound → s'.machine.heap = s.machine.heap → Moves bound s' x Q) :
    Moves bound s (withFrame frame x) Q := by
  have henter : Change (Written bound) s.machine (s.moveTo frame).machine := .enter hframe
  have hentered : Leads bound s (s.moveTo frame) := .change henter rfl
  obtain ⟨s₁, hinside, hends⟩ := h (s.moveTo frame) (hentered.formed hs).1 rfl
  have hthere := hentered.trans hinside
  have hleave : Change (Written bound) s₁.machine (s₁.moveTo s.machine.environment).machine :=
    .enter ((hthere.formed hs).2.heap.openAt hs.environment)
  refine ⟨s₁.moveTo s.machine.environment, hthere.trans (.change hleave rfl), ?_⟩
  rcases hends with ⟨a, hx, hq⟩ | ⟨reason, hx⟩
  · exact .inl ⟨a, by rw [Observed.withFrame, hx], hq⟩
  · exact .inr ⟨reason, by rw [Observed.withFrame, hx]⟩

end Moves

/-! ## Variables -/

theorem State.Formed.in_of_bound (hs : s.Formed bound) {v : Value}
    (hv : Reads.Bound s.machine v) : v.In s.machine.heap := by
  obtain ⟨g, x, hv⟩ := hv
  exact hs.heap.bindings g x v hv

theorem moves_getAt (hs : s.Formed bound) {frame : FrameId} {d : Nat} {x : String} :
    Moves bound s (lift (Machine.Run.getAt frame d x)) fun heap v => v.In heap :=
  .reads .getAt fun _ => hs.in_of_bound

theorem moves_lookUp (hs : s.Formed bound) {reference : Reference} :
    Moves bound s (lift (lookUp reference)) fun heap v => v.In heap :=
  .reads .lookUp fun _ => hs.in_of_bound

theorem Reads.holder_binds {m : Machine} {reference : Reference} :
    Reads m (Machine.Run.holder reference) fun frame =>
      (m.heap.frames.binding? frame reference.name.text).isSome := by
  refine get ?_
  cases m.distances.get? reference.id with
  | some distance =>
    dsimp only
    unfold Frames.holderAt
    cases m.heap.frames.out m.environment distance with
    | error left => exact fail
    | ok frame =>
      cases hbinds : (m.heap.frames.binding? frame reference.name.text).isSome with
      | true => simp only [hbinds, if_true]; exact pure hbinds
      | false => simp only [hbinds]; exact fail
  | none =>
    dsimp only
    cases hholder : m.heap.frames.holder? m.globals reference.name.text with
    | some frame => exact pure (Frames.isSome_of_holder? hholder)
    | none => exact fail

theorem moves_store {target : Reference} {v : Value} (hx : Plain target.name.text)
    (hv : v.In s.machine.heap) : Moves bound s (lift (store target v)) fun _ _ => True := by
  have hreads : Reads s.machine (Machine.Run.holder target) _ := .holder_binds
  rcases hreads with ⟨frame, hy, hbinds⟩ | ⟨reason, hy⟩
  · refine .step (a := ()) (m := { s.machine with heap := { s.machine.heap with
      frames := s.machine.heap.frames.define frame target.name.text v } }) ?_
      (.heap (.bind hx (.inr hbinds) hv)) trivial
    rw [store, Steps.bind_of_ok hy]
    rfl
  · exact .stop (by rw [store, Steps.bind_of_error hy])

theorem moves_assignName {name : Name} {v : Value} (hx : Plain name.text)
    (hv : v.In s.machine.heap) :
    Moves bound s (lift (Machine.assignName name v)) fun _ _ => True := by
  cases hholder : s.machine.heap.frames.holder? s.machine.environment name.text with
  | some frame =>
    refine .step (a := ()) (m := { s.machine with heap := { s.machine.heap with
      frames := s.machine.heap.frames.define frame name.text v } }) ?_
      (.heap (.bind hx (.inr (Frames.isSome_of_holder? hholder)) hv)) trivial
    rw [Machine.assignName, Steps.get_bind, hholder]
    rfl
  | none =>
    refine .stop (e := .fault (.undefinedVariable name)) ?_
    rw [Machine.assignName, Steps.get_bind, hholder]
    rfl

theorem moves_define (hs : s.Formed bound) {x : String} {v : Value} (hx : Plain x)
    (hv : v.In s.machine.heap) :
    Moves bound s (lift (Machine.Run.define x v)) fun _ _ => True :=
  .step (a := ()) rfl (.heap (.bind hx (.inl hs.environment) hv)) trivial

theorem moves_writeLine {text : String} :
    Moves bound s (lift (Machine.Run.writeLine text)) fun _ _ => True := by
  have hwrite : Change (Written bound) s.machine { s.machine with
    sink := (s.machine.sink.write (text ++ "\n").toUTF8).1 } := .outside _ _ _
  refine ⟨{ s with machine := _ }, .change hwrite rfl, ?_⟩
  unfold lift
  rw [Machine.Run.writeLine_eq]
  cases (s.machine.sink.write (text ++ "\n").toUTF8).2 with
  | true => exact .inl ⟨(), rfl, trivial⟩
  | false => exact .inr ⟨_, rfl⟩

/-! ## Objects -/

theorem moves_newFrame {outer : FrameId} {bindings : Table Value}
    (houter : outer.index < s.machine.heap.frames.all.size)
    (hplain : ∀ x, (bindings.get? x).isSome → Plain x)
    (hin : ∀ x v, bindings.get? x = some v → v.In s.machine.heap) :
    Moves bound s (lift (allocate (·.newFrame (some outer) bindings))) fun heap frame =>
      heap.frames.OpenAt frame :=
  .step rfl (.heap (.frame houter (fun x hx hp => absurd (hplain x hx) hp) hin))
    ⟨⟨bindings, some outer⟩, Frames.frame?_push_self _ _, hplain⟩

/-- A frame with a single name binds nothing else. -/
theorem alone_single {outer : FrameId} {name : String} {v : Value} :
    ∀ x, Frame.Binds ⟨.single name v, some outer⟩ x → ¬Plain x →
      ∀ y, Frame.Binds ⟨.single name v, some outer⟩ y → y = x := by
  intro x hx _ y hy
  obtain ⟨u, hu⟩ := Option.isSome_iff_exists.mp hx
  obtain ⟨w, hw⟩ := Option.isSome_iff_exists.mp hy
  exact (get?_single hw).1.trans (get?_single hu).1.symm

theorem moves_newFunction {f : FunctionObject} (hf : Written bound f.declaration)
    (hclosure : f.closure.index < s.machine.heap.frames.all.size) :
    Moves bound s (lift (allocate (·.newFunction f))) fun heap id =>
      heap.functions[id.index]? = some f :=
  .step rfl (.heap (.function hf hclosure)) Array.getElem?_push_size

theorem State.Formed.function (hs : s.Formed bound) {id : FunctionId}
    (hid : id.index < s.machine.heap.functions.size) :
    Written bound (s.machine.heap.function id).declaration ∧
      (s.machine.heap.function id).closure.index < s.machine.heap.frames.all.size := by
  have hf := Array.getElem?_eq_getElem hid
  rw [Heap.function, hf]
  exact hs.heap.functions id.index _ hf

/-- **A method is bound** by two changes: a frame that binds `this`, and a function inside it. -/
theorem moves_bind (hs : s.Formed bound) {method : FunctionId} {receiver : InstanceId}
    (hmethod : method.index < s.machine.heap.functions.size)
    (hreceiver : receiver.index < s.machine.heap.instances.size) :
    Moves bound s (bind method receiver) fun heap id => heap.BoundTo id receiver := by
  obtain ⟨hwritten, hclosure⟩ := hs.function hmethod
  have hframe : s.machine.heap.Change (Written bound) (s.machine.heap.newFrame
      (some (s.machine.heap.function method).closure) (.single thisName (.inst receiver))).2 :=
    .frame hclosure alone_single fun x v hv => by rw [(get?_single hv).2]; exact hreceiver
  have hfunction : Heap.Change (Written bound) (s.machine.heap.newFrame
      (some (s.machine.heap.function method).closure) (.single thisName (.inst receiver))).2
      (s.bindMethod method receiver).machine.heap :=
    .function hwritten (Heap.size_lt_push _ _)
  have hfirst : Leads bound s (s.addFrame (s.machine.heap.function method).closure
      (.single thisName (.inst receiver))) := .change (.heap hframe) rfl
  exact ⟨s.bindMethod method receiver, hfirst.trans (.change (.heap hfunction) rfl),
    .inl ⟨s.nextFunction, bind_eq method receiver s, Heap.boundTo_bind _ method receiver⟩⟩

theorem State.Formed.method (hs : s.Formed bound) {id : ClassId} {name : String}
    {method : FunctionId} (h : s.machine.heap.findMethod? id name = some method) :
    s.machine.heap.MethodUnder name method := by
  obtain ⟨i, c, hc, hx⟩ := Heap.exists_of_findMethod? h
  exact hs.heap.methods i c name method hc hx

theorem moves_property (hs : s.Formed bound) {id : InstanceId} {name : Name}
    (hid : id.index < s.machine.heap.instances.size) :
    Moves bound s (property id name) fun heap v => v.In heap := by
  refine Moves.getHeap ?_
  cases hproperty : s.machine.heap.property? id name.text with
  | none => exact .fail
  | some found =>
    cases found with
    | field value =>
      obtain ⟨i, o, ho, hv⟩ := Heap.exists_of_property?_field hproperty
      exact .pure (hs.heap.fields i o _ value ho hv)
    | method method =>
      have hmethod := hs.method (Heap.findMethod?_of_property?_method hproperty)
      exact (moves_bind hs hmethod.lt hid).bind hs fun _ _ _ _ hbound => .pure hbound.held

theorem Reads.receiverAt_bound {m : Machine} {d : Nat} :
    Reads m (Machine.Run.receiverAt d) fun id => Bound m (.inst id) := by
  refine get (bind getAt fun v hv => ?_)
  cases v with
  | inst id => exact pure hv
  | _ => exact fail

theorem moves_superMethod (hs : s.Formed bound) {keyword : Reference} {method : Name} :
    Moves bound s (superMethod keyword method) fun heap v => v.In heap := by
  refine Moves.get ?_
  cases s.machine.distances.get? keyword.id with
  | none => exact .fail
  | some distance =>
    refine (Moves.reads (Q := fun _ _ => True) .superclassAt fun _ _ => trivial).bind hs
      fun parent s₁ hs₁ _ _ => ?_
    cases distance with
    | zero => exact .fail
    | succ inner =>
      refine (Moves.reads (Q := fun heap id => Value.In heap (.inst id)) .receiverAt_bound
        fun _ => hs₁.in_of_bound).bind hs₁ fun receiver s₂ hs₂ _ hreceiver => Moves.getHeap ?_
      cases hfound : s₂.machine.heap.findMethod? parent method.text with
      | none => exact .fail
      | some found =>
        exact (moves_bind hs₂ (hs₂.method hfound).lt hreceiver).bind hs₂
          fun _ _ _ _ hbound => .pure hbound.held

end Observed

end Lox
