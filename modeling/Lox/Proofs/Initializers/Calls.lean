import Lox.Proofs.Growth.Programs
import Lox.Proofs.Observed.Erasure
import Lox.Proofs.Reading

/-!
# Calls of initializers

The call of an initializer runs its body and looks `this` up in its closure, which is two steps away
from what is meant: to hand back the receiver.  In a formed machine every initializer that can be
called is bound, and what its body does cannot undo that.  So the look-up never fails, and the call is
one that hands back the receiver to begin with (`Machine.Formed.callFunction_eq`); the same is true of
the initializer that the call of a class runs on the new instance (`Machine.Formed.construct_eq`).

What is read off observed runs here is stated of the runs of the machine (`Machine.Formed.of_moves`).
-/

namespace Lox.Machine

open Observed (Written Moves Erases)
open Run (allocate getHeap withFrame getAt fail)

/-! ## Runs from formed machines -/

/-- The machine with nothing on record. -/
def unobserved (m : Machine) : Observed.State :=
  ⟨m, fun _ => .outermost, [], []⟩

section

variable {α : Type} {bound : NodeId} {m m' : Machine}

/-- **What is known of an observed run** is known of the run of the machine. -/
theorem Formed.of_moves (h : m.Formed (Written bound)) {x : Observed.Run α} {y : Run α}
    {Q : Heap → α → Prop} (hx : Erases x y) (hmoves : Moves bound m.unobserved x Q) {a : α}
    (hy : y m = .ok a m') : m'.Formed (Written bound) ∧ Continues m m' ∧ Q m'.heap a := by
  obtain ⟨s', hleads, hends⟩ := hmoves
  have hrun : Observed.erased (x m.unobserved) = .ok a m' := (hx m.unobserved).trans hy
  rcases hends with ⟨b, hb, hq⟩ | ⟨stop, hstop⟩
  · rw [hb] at hrun
    cases hrun
    exact ⟨(hleads.formed h).1, (hleads.formed h).2, hq⟩
  · rw [hstop] at hrun
    cases hrun

theorem Formed.methodUnder (h : m.Formed (Written bound)) {id : ClassId} {name : String}
    {method : FunctionId} (hfound : m.heap.findMethod? id name = some method) :
    m.heap.MethodUnder name method :=
  Observed.State.Formed.method (s := m.unobserved) h hfound

variable {fuel : Nat}

theorem Formed.of_evaluate (h : m.Formed (Written bound)) {e : Expr} (he : e.Within 0 bound)
    {v : Value} (hv : evaluate fuel e m = .ok v m') :
    m'.Formed (Written bound) ∧ Continues m m' ∧ v.In m'.heap :=
  h.of_moves (Observed.erases_evaluate fuel .outermost e)
    (Observed.evaluating fuel .outermost h he) hv

theorem Formed.of_evaluateAll (h : m.Formed (Written bound)) {es : List Expr}
    (hes : Expr.AllWithin es 0 bound) {values : List Value}
    (hvalues : evaluateAll (evaluate fuel) es m = .ok values m') :
    m'.Formed (Written bound) ∧ Continues m m' ∧ ∀ v ∈ values, v.In m'.heap :=
  h.of_moves (.evaluateAll (Observed.erases_evaluate fuel .outermost) es)
    (Observed.moves_evaluateAll (Observed.evaluating fuel .outermost) h hes) hvalues

end

/-! ## Handing back the receiver -/

/-- Calls a function for what it does to an instance: its body runs, and the instance is handed
back. -/
def callOn (execute : Stmt → Run Flow) (receiver : InstanceId) (id : FunctionId)
    (args : List Value) : Run Value := do
  let object := (← getHeap).function id
  let frame ← allocate
    (·.newFrame (some object.closure) (bindParams object.declaration.params args))
  let _ ← withFrame frame (runAll execute object.declaration.body)
  return .inst receiver

/-- Makes an instance of a class, and calls its initializer for what it does to the instance. -/
def constructOn (execute : Stmt → Run Flow) (id : ClassId) (args : List Value) : Run Value := do
  let receiver ← allocate (·.newInstance id)
  match (← getHeap).findMethod? id initializerName with
  | some init => do
    let bound ← allocate (·.bind init receiver)
    callOn execute receiver bound args
  | none => return .inst receiver

section

variable {execute : Stmt → Run Flow} {receiver : InstanceId} {id : FunctionId} {args : List Value}
  {m m' : Machine} {v : Value}

theorem callOn_eq_ok (h : callOn execute receiver id args m = .ok v m') : v = .inst receiver := by
  obtain ⟨_, _, -, h⟩ := Steps.bind_eq_ok.mp h
  obtain ⟨_, _, -, h⟩ := Steps.bind_eq_ok.mp h
  obtain ⟨_, _, -, h⟩ := Steps.bind_eq_ok.mp h
  cases h
  rfl

/-- What is handed back anyway needs not be handed back again. -/
theorem callOn_bind_pure :
    (callOn execute receiver id args >>= fun _ => pure (.inst receiver)) m =
      callOn execute receiver id args m := by
  cases hcall : callOn execute receiver id args m with
  | ok u m₁ => rw [Steps.bind_of_ok hcall, callOn_eq_ok hcall]; rfl
  | error stop m₁ => rw [Steps.bind_of_error hcall]

end

section

variable {bound : NodeId} {m : Machine} {fuel : Nat} {args : List Value}

/-- **The call of an initializer that is bound** hands back the receiver: to look it up never
fails. -/
theorem Formed.callFunction_eq (h : m.Formed (Written bound)) {id : FunctionId}
    {receiver : InstanceId} (hbound : m.heap.BoundTo id receiver)
    (hinit : (m.heap.function id).isInitializer = true) (hargs : ∀ v ∈ args, v.In m.heap) :
    callFunction (execute fuel) id args m = callOn (execute fuel) receiver id args m := by
  obtain ⟨hwritten, hclosure⟩ := Observed.State.Formed.function (s := m.unobserved) h hbound.lt
  obtain ⟨hparams, hbody⟩ := hwritten.body
  let f := m.heap.function id
  let frame := m.heap.newFrame (some f.closure) (bindParams f.declaration.params args)
  let m₁ : Machine := { m with heap := frame.2 }
  have hnew : allocate (·.newFrame (some f.closure) (bindParams f.declaration.params args)) m =
    .ok frame.1 m₁ := rfl
  obtain ⟨h₁, hcontinues₁, hopen⟩ := h.of_moves (.lift _)
    (Observed.moves_newFrame (s := m.unobserved) hclosure
      (fun x hx => plain_of_bindParams hparams hx)
      fun x v hv => hargs v (mem_of_bindParams hv)) hnew
  let body : Run Flow := withFrame frame.1 (runAll (execute fuel) f.declaration.body)
  show (body >>= fun flow =>
      if f.isInitializer then getAt f.closure 0 thisName else pure flow.result) m₁ =
    (body >>= fun _ => pure (.inst receiver)) m₁
  cases hrun : body m₁ with
  | error stop m₂ => rw [Steps.bind_of_error hrun, Steps.bind_of_error hrun]
  | ok flow m₂ =>
    -- behind the body the function is bound as it was before
    obtain ⟨-, hcontinues₂, -⟩ := h₁.of_moves
      (.withFrame frame.1 (.runAll (Observed.erases_execute fuel) f.declaration.body .outermost))
      (Observed.Moves.withFrame h₁ hopen fun s hs _ =>
        Observed.moves_runAll (Observed.executing fuel) hs hbody) hrun
    have hgrows := hcontinues₁.heap.trans hcontinues₂.heap
    have hthis := (hgrows.boundTo hbound).binding?
    rw [hgrows.function hbound.lt] at hthis
    rw [Steps.bind_of_ok hrun, Steps.bind_of_ok hrun]
    simp only [f, hinit, if_true]
    exact Run.getAt_eq_ok rfl hthis

/-- **The call of a class** makes an instance and hands it back, however its initializer ends. -/
theorem Formed.construct_eq (h : m.Formed (Written bound)) {id : ClassId}
    (hid : id.index < m.heap.classes.size) (hargs : ∀ v ∈ args, v.In m.heap) :
    construct (execute fuel) id args m = constructOn (execute fuel) id args m := by
  let receiver := m.heap.newInstance id
  let m₁ : Machine := { m with heap := receiver.2 }
  have hnew : allocate (·.newInstance id) m = .ok receiver.1 m₁ := rfl
  obtain ⟨h₁, hcontinues₁, -, hof⟩ :=
    h.of_moves (.lift _) (Observed.moves_newInstance (s := m.unobserved) hid) hnew
  have hheap : getHeap m₁ = .ok m₁.heap m₁ := rfl
  rw [construct, constructOn, Steps.bind_of_ok hnew, Steps.bind_of_ok hnew,
    Steps.bind_of_ok hheap, Steps.bind_of_ok hheap]
  cases hfound : m₁.heap.findMethod? id initializerName with
  | none => rfl
  | some init =>
    have hmethod := h₁.methodUnder hfound
    let method := m₁.heap.bind init receiver.1
    let m₂ : Machine := { m₁ with heap := method.2 }
    have hmade : allocate (·.bind init receiver.1) m₁ = .ok method.1 m₂ := rfl
    obtain ⟨h₂, hcontinues₂, hbound⟩ := h₁.of_moves (.bindMethod init receiver.1)
      (Observed.moves_bind (s := m₁.unobserved) h₁ hmethod.lt hof.lt) hmade
    have hinit : (m₂.heap.function method.1).isInitializer = true := by
      rw [Heap.isInitializer_bind, hmethod.isInitializer]
      exact beq_self_eq_true _
    have hargs₂ : ∀ v ∈ args, v.In m₂.heap := fun v hv =>
      ((hargs v hv).mono hcontinues₁.heap).mono hcontinues₂.heap
    have hcall : callFunction (execute fuel) method.1 args m₂ = _ :=
      h₂.callFunction_eq hbound hinit hargs₂
    show (callFunction (execute fuel) method.1 args >>= fun _ => pure (.inst receiver.1)) m₂ =
      callOn (execute fuel) receiver.1 method.1 args m₂
    rw [← callOn_bind_pure]
    simp only [bind, EStateM.bind, hcall]

/-! ## Calls of values -/

variable {m' : Machine} {line : Nat} {v : Value}

theorem callValue_eq {execute : Stmt → Run Flow} {callee : Value} {target : Callable}
    (h : callee.callable? = some target) : callValue execute line callee args m =
      if args.length = m.heap.arity target then call execute target args m
      else fail (.argumentCount line (m.heap.arity target) args.length) m := by
  rw [callValue, h]
  show (if _ then _ else _ : Run Value) m = _
  split <;> rfl

/-- **A class that is called** with as many arguments as it takes makes an instance and hands it
back, however its initializer ends. -/
theorem Formed.callValue_cls (h : m.Formed (Written bound)) {id : ClassId}
    (hid : id.index < m.heap.classes.size) (hargs : ∀ v ∈ args, v.In m.heap)
    (hlen : args.length = m.heap.arity (.cls id)) :
    callValue (execute fuel) line (.cls id) args m = constructOn (execute fuel) id args m := by
  rw [callValue_eq rfl, if_pos hlen]
  exact h.construct_eq hid hargs

/-- **What the call of a class comes to** is an instance of just that class, in the next place. -/
theorem Formed.of_callValue_cls (h : m.Formed (Written bound)) {id : ClassId}
    (hid : id.index < m.heap.classes.size) (hargs : ∀ v ∈ args, v.In m.heap)
    (hv : callValue (execute fuel) line (.cls id) args m = .ok v m') :
    v = .inst ⟨m.heap.instances.size⟩ ∧ m'.heap.InstanceOf ⟨m.heap.instances.size⟩ id := by
  rw [callValue_eq rfl] at hv
  split at hv
  · exact (h.of_moves (.construct (Observed.erases_execute fuel) id args)
      (Observed.moves_construct (s := m.unobserved) (Observed.executing fuel) h hid hargs) hv).2.2
  · cases hv

/-- **An initializer that is called** with as many arguments as it takes hands back its receiver. -/
theorem Formed.callValue_initializer (h : m.Formed (Written bound)) {id : FunctionId}
    {receiver : InstanceId} (hbound : m.heap.BoundTo id receiver)
    (hinit : (m.heap.function id).isInitializer = true) (hargs : ∀ v ∈ args, v.In m.heap)
    (hlen : args.length = m.heap.arity (.function id)) :
    callValue (execute fuel) line (.function id) args m =
      callOn (execute fuel) receiver id args m := by
  rw [callValue_eq rfl, if_pos hlen]
  exact h.callFunction_eq hbound hinit hargs

/-- **What the call of an initializer comes to** is its receiver. -/
theorem Formed.of_callValue_initializer (h : m.Formed (Written bound)) {id : FunctionId}
    {receiver : InstanceId} (hbound : m.heap.BoundTo id receiver)
    (hinit : (m.heap.function id).isInitializer = true) (hargs : ∀ v ∈ args, v.In m.heap)
    (hv : callValue (execute fuel) line (.function id) args m = .ok v m') : v = .inst receiver := by
  by_cases hlen : args.length = m.heap.arity (.function id)
  · rw [h.callValue_initializer hbound hinit hargs hlen] at hv
    exact callOn_eq_ok hv
  · rw [callValue_eq rfl, if_neg hlen] at hv
    cases hv

/-! ## Methods that are fetched -/

/-- **Whether a value is a method that was fetched** under a name from an instance: it is bound to
the instance, and an initializer if the name is that of initializers. -/
def Fetched (heap : Heap) (receiver : InstanceId) (x : String) (v : Value) : Prop :=
  ∃ id, v = .function id ∧ heap.BoundTo id receiver ∧
    (heap.function id).isInitializer = (x == initializerName)

theorem fetched_bind {heap : Heap} {x : String} {method : FunctionId}
    (h : heap.MethodUnder x method) (receiver : InstanceId) :
    Fetched (heap.bind method receiver).2 receiver x (.function (heap.bind method receiver).1) :=
  ⟨_, rfl, Heap.boundTo_bind heap method receiver,
    (Heap.isInitializer_bind heap method receiver).trans h.isInitializer⟩

/-- **A property that is a method** is fetched from the instance. -/
theorem Formed.property (h : m.Formed (Written bound)) {id : InstanceId} {name : Name}
    {method : FunctionId} (hproperty : m.heap.property? id name.text = some (.method method)) :
    ∃ v m', Run.property id name m = .ok v m' ∧ Fetched m'.heap id name.text v := by
  have hmethod := h.methodUnder (Heap.findMethod?_of_property?_method hproperty)
  refine ⟨.function (m.heap.bind method id).1, { m with heap := (m.heap.bind method id).2 }, ?_,
    fetched_bind hmethod id⟩
  have hheap : getHeap m = .ok m.heap m := rfl
  rw [Run.property, Steps.bind_of_ok hheap, hproperty]
  rfl

/-- **A method of the superclass** is fetched from the receiver. -/
theorem Formed.boundMethod (h : m.Formed (Written bound)) {receiver : InstanceId} {parent : ClassId}
    {method : Name} (hv : Run.boundMethod receiver parent method m = .ok v m') :
    Fetched m'.heap receiver method.text v := by
  have hheap : getHeap m = .ok m.heap m := rfl
  rw [Run.boundMethod, Steps.bind_of_ok hheap] at hv
  cases hfound : m.heap.findMethod? parent method.text with
  | none => rw [hfound] at hv; cases hv
  | some found =>
    rw [hfound] at hv
    cases hv
    exact fetched_bind (h.methodUnder hfound) receiver

/-! ## The contract -/

/-- **The contract of initializers** for the call of a value, at the machine behind its arguments. -/
structure Contract (fuel line : Nat) (callee : Value) (args : List Value) (m : Machine) : Prop where
  /-- A class makes an instance and hands that back, whatever its initializer does: to look `this` up
  behind it never fails. -/
  constructs : ∀ id, callee = .cls id → args.length = m.heap.arity (.cls id) →
    callValue (execute fuel) line callee args m = constructOn (execute fuel) id args m
  /-- What a class comes to is equal to nothing that was there before, and is of just this class. -/
  makes : ∀ id v m', callee = .cls id → callValue (execute fuel) line callee args m = .ok v m' →
    ∃ made, v = .inst made ∧ (∀ u : Value, u.In m.heap → u.same v = false) ∧
      m'.heap.InstanceOf made id
  /-- An initializer is bound to an instance.  Its call does what its body does and hands that
  instance back: to look `this` up never fails. -/
  handsBack : ∀ id, callee = .function id → (m.heap.function id).isInitializer = true →
    ∃ receiver, m.heap.BoundTo id receiver ∧
      (args.length = m.heap.arity (.function id) → callValue (execute fuel) line callee args m =
        callOn (execute fuel) receiver id args m) ∧
      ∀ v m', callValue (execute fuel) line callee args m = .ok v m' → v = .inst receiver

/-- The next instance is equal to nothing that is there. -/
theorem same_next {heap : Heap} {u : Value} (hu : u.In heap) :
    u.same (.inst ⟨heap.instances.size⟩) = false := by
  cases u with
  | inst id =>
    have hlt : id.index < heap.instances.size := hu
    exact beq_eq_false_iff_ne.mpr fun heq => Nat.lt_irrefl _ (heq ▸ hlt)
  | _ => rfl

/-- **Formed machines keep the contract** of initializers. -/
theorem Formed.contract (h : m.Formed (Written bound)) {callee : Value} (hcallee : callee.In m.heap)
    (hargs : ∀ v ∈ args, v.In m.heap) : Contract fuel line callee args m where
  constructs id hid hlen := by
    subst hid
    exact h.callValue_cls hcallee hargs hlen
  makes id v m' hid hv := by
    subst hid
    obtain ⟨rfl, hof⟩ := h.of_callValue_cls hcallee hargs hv
    exact ⟨_, rfl, fun _ => same_next, hof⟩
  handsBack id hid hinit := by
    subst hid
    obtain ⟨receiver, hbound⟩ := Heap.Held.bound hcallee hinit
    exact ⟨receiver, hbound, h.callValue_initializer hbound hinit hargs,
      fun v m' => h.of_callValue_initializer hbound hinit hargs⟩

end

end Lox.Machine
