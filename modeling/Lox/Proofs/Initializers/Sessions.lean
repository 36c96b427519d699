import Lox.Proofs.Growth.Identities
import Lox.Proofs.Initializers.Calls

/-!
# What initializers hand back

Whatever a session visits, it does so at a formed machine (`Session.Ready.formed_visits`), so the
contract of initializers is kept by every call (`Visit.Contract`).  The call of a class comes to an
instance of just that class that is equal to nothing before it, and the call of an initializer to the
instance that it is bound to, be it fetched by `object.init`, by `super.init`, or taken from where it
was stored (`Session.initializer_contract`).
-/

namespace Lox

/-! ## What is there for good -/

namespace Heap

variable {heap heap₁ : Heap}

/-- Whether a value is stored in a heap: a frame binds a name to it, or it was written to a field. -/
def Stores (heap : Heap) (v : Value) : Prop :=
  (∃ frame x, heap.frames.binding? frame x = some v) ∨
    ∃ (i : Nat) (o : InstanceObject) (x : String),
      heap.instances[i]? = some o ∧ o.fields.get? x = some v

/-- **Whether everything stays what it is**: values are there, functions are bound to their instances,
and instances are of their classes. -/
structure Keeps (heap heap' : Heap) : Prop where
  values : ∀ v : Value, v.In heap → v.In heap'
  receivers : ∀ id receiver, heap.BoundTo id receiver → heap'.BoundTo id receiver
  classes : ∀ id classId, heap.InstanceOf id classId → heap'.InstanceOf id classId

theorem Grows.keeps (h : heap.Grows heap₁) : heap.Keeps heap₁ :=
  ⟨fun _ hv => hv.mono h, fun _ _ => h.boundTo, fun _ _ => h.instanceOf⟩

/-- **Whatever is stored is there**, and bound if it is an initializer. -/
theorem Formed.stores {known : FunctionDecl → Prop} {globals : FrameId}
    (h : heap.Formed known globals) {v : Value} (hv : heap.Stores v) : v.In heap := by
  rcases hv with ⟨frame, x, hv⟩ | ⟨i, o, x, ho, hv⟩
  · exact h.bindings frame x v hv
  · exact h.fields i o x v ho hv

/-- **To look up `this`** in the closure of an initializer never fails. -/
theorem getAt_of_in {id : FunctionId} (hid : (Value.function id).In heap)
    (hinit : (heap.function id).isInitializer = true) :
    ∃ receiver, heap.BoundTo id receiver ∧
      heap.frames.getAt (heap.function id).closure 0 thisName = .ok (.inst receiver) :=
  have ⟨receiver, hbound⟩ := Held.bound hid hinit
  ⟨receiver, hbound, Frames.getAt_eq_ok rfl hbound.binding?⟩

end Heap

/-! ## Calls of what was fetched -/

namespace Machine

variable {bound : NodeId} {fuel line : Nat} {m m' : Machine} {v : Value}

/-- **The call of an initializer that is fetched** comes to the instance from which it is fetched. -/
theorem Formed.of_call_fetched (h : m.Formed (Observed.Written bound)) {callee : Expr}
    {args : List Expr} (hwithin : (Expr.call callee line args).Within 0 bound)
    {receiver : InstanceId} (hfetched : ∀ f m₁, evaluate fuel callee m = .ok f m₁ →
      Fetched m₁.heap receiver initializerName f)
    (hv : evaluate (fuel + 1) (.call callee line args) m = .ok v m') : v = .inst receiver := by
  obtain ⟨hcallee, hargs⟩ := hwithin.of_call
  obtain ⟨f, m₁, hf, hv⟩ := Steps.bind_eq_ok.mp hv
  obtain ⟨values, m₂, hvalues, hv⟩ := Steps.bind_eq_ok.mp hv
  obtain ⟨h₁, -, -⟩ := h.of_evaluate hcallee hf
  obtain ⟨h₂, hcontinues₂, hin⟩ := h₁.of_evaluateAll hargs hvalues
  obtain ⟨id, rfl, hbound, hnamed⟩ := hfetched f m₁ hf
  have hinit : (m₂.heap.function id).isInitializer = true := by
    rw [hcontinues₂.heap.function hbound.lt, hnamed]
    exact beq_self_eq_true _
  exact h₂.of_callValue_initializer (hcontinues₂.heap.boundTo hbound) hinit hin hv

/-- A property that is a method is fetched by the expression for it. -/
theorem Formed.evaluate_get (h : m.Formed (Observed.Written bound)) {object : Expr} {name : Name}
    (hwithin : object.Within 0 bound) {id : InstanceId} {m₁ : Machine}
    (hobject : evaluate fuel object m = .ok (.inst id) m₁) {method : FunctionId}
    (hproperty : m₁.heap.property? id name.text = some (.method method)) :
    ∃ f m', evaluate (fuel + 1) (.get object name) m = .ok f m' ∧
      Fetched m'.heap id name.text f := by
  obtain ⟨f, m', hf, hfetched⟩ := (h.of_evaluate hwithin hobject).1.property hproperty
  exact ⟨f, m', (Steps.bind_of_ok hobject).trans hf, hfetched⟩

end Machine

namespace Observed

open Machine (Fetched)

variable {bound : NodeId} {m m' : Machine} {position : Position}

/-- **The method that `super` comes to** at a position is fetched from the instance of the
position. -/
theorem At.fetched_super (hhere : At m position) (h : m.Formed (Written bound)) {bound' : NodeId}
    {own : Option String} {keyword : Reference} {name : Name}
    (hresolved :
      (Expr.super keyword name).Resolved m.distances bound' position.scopes.ribs own) :
    ∃ receiver, position.receiver = some receiver ∧ ∀ fuel v m',
      Machine.evaluate fuel (.super keyword name) m = .ok v m' →
        Fetched m'.heap receiver name.text v := by
  obtain ⟨receiver, parent, hreceiver, -, hsuper⟩ := hhere.evaluate_super hresolved
  refine ⟨receiver, hreceiver, fun fuel v m' hv => ?_⟩
  cases fuel with
  | zero => cases hv
  | succ fuel =>
    rw [hsuper fuel] at hv
    exact h.boundMethod hv

/-! ## Visits -/

/-- **The contract of initializers at a visit**, for whatever fuel is left there. -/
structure Visit.Contract (visit : Visit) : Prop where
  /-- What an expression comes to is there, and everything stays what it is. -/
  values : ∀ e fuel v m, visit.node = .expr e → Machine.evaluate fuel e visit.machine = .ok v m →
    v.In m.heap ∧ visit.machine.heap.Keeps m.heap
  /-- Whatever is called, and with whatever arguments, keeps the contract. -/
  calls : ∀ callee line args fuel f m values m', visit.node = .expr (.call callee line args) →
    Machine.evaluate fuel callee visit.machine = .ok f m →
    Machine.evaluateAll (Machine.evaluate fuel) args m = .ok values m' →
    visit.machine.heap.Keeps m.heap ∧ m.heap.Keeps m'.heap ∧
      Machine.Contract fuel line f values m'
  /-- A method that is found on an object is bound to it, and is an initializer if it is `init`. -/
  fetchesProperty : ∀ object name fuel id m method, visit.node = .expr (.get object name) →
    Machine.evaluate fuel object visit.machine = .ok (.inst id) m →
    m.heap.property? id name.text = some (.method method) →
    ∃ v m', Machine.evaluate (fuel + 1) (.get object name) visit.machine = .ok v m' ∧
      Fetched m'.heap id name.text v
  /-- A method of the superclass is bound to the instance of the method around the visit. -/
  fetchesSuper : ∀ keyword name, visit.node = .expr (.super keyword name) →
    ∃ receiver, visit.position.receiver = some receiver ∧ ∀ fuel v m,
      Machine.evaluate fuel (.super keyword name) visit.machine = .ok v m →
        Fetched m.heap receiver name.text v
  /-- The call of `object.init` comes to the object. -/
  callsProperty : ∀ object name line args fuel id m method v m',
    visit.node = .expr (.call (.get object name) line args) → name.text = initializerName →
    Machine.evaluate fuel object visit.machine = .ok (.inst id) m →
    m.heap.property? id name.text = some (.method method) →
    Machine.evaluate (fuel + 2) (.call (.get object name) line args) visit.machine = .ok v m' →
    v = .inst id
  /-- The call of `super.init` comes to the instance of the method around the visit. -/
  callsSuper : ∀ keyword name line args,
    visit.node = .expr (.call (.super keyword name) line args) → name.text = initializerName →
    ∃ receiver, visit.position.receiver = some receiver ∧ ∀ fuel v m,
      Machine.evaluate fuel (.call (.super keyword name) line args) visit.machine = .ok v m →
        v = .inst receiver

/-- **Every visit keeps the contract** that is at its position and at a formed machine. -/
theorem VisitOk.contract {s : State} {visit : Visit} (h : VisitOk s visit)
    (hformed : visit.machine.Formed (Written bound)) (hwithin : visit.node.Within bound) :
    visit.Contract := by
  obtain ⟨node, position, m₀⟩ := visit
  obtain ⟨-, hhere, bound', hrecorded⟩ := h
  exact {
    values := fun e fuel v m hnode hv => by
      cases hnode
      obtain ⟨-, hcontinues, hin⟩ := hformed.of_evaluate hwithin hv
      exact ⟨hin, hcontinues.heap.keeps⟩
    calls := fun callee line args fuel f m values m' hnode hf hvalues => by
      cases hnode
      have hwithin : (Expr.call callee line args).Within 0 bound := hwithin
      obtain ⟨hcallee, hargs⟩ := hwithin.of_call
      obtain ⟨h₁, hcontinues₁, hf⟩ := hformed.of_evaluate hcallee hf
      obtain ⟨h₂, hcontinues₂, hvalues⟩ := h₁.of_evaluateAll hargs hvalues
      exact ⟨hcontinues₁.heap.keeps, hcontinues₂.heap.keeps,
        h₂.contract (hf.mono hcontinues₂.heap) hvalues⟩
    fetchesProperty := fun object name fuel id m method hnode hobject hproperty => by
      cases hnode
      have hwithin : object.Within 0 bound := hwithin
      exact hformed.evaluate_get hwithin hobject hproperty
    fetchesSuper := fun keyword name hnode => by
      cases hnode
      obtain ⟨own, hresolved⟩ := hrecorded
      exact hhere.fetched_super hformed hresolved
    callsProperty := fun object name line args fuel id m method v m' hnode hname hobject
        hproperty hv => by
      cases hnode
      have hwithin : (Expr.call (.get object name) line args).Within 0 bound := hwithin
      have hobjectWithin : object.Within 0 bound := hwithin.of_call.1
      refine hformed.of_call_fetched hwithin (fun f m₁ hf => ?_) hv
      obtain ⟨f', m', hf', hfetched⟩ := hformed.evaluate_get hobjectWithin hobject hproperty
      cases hf.symm.trans hf'
      rwa [← hname]
    callsSuper := fun keyword name line args hnode hname => by
      cases hnode
      obtain ⟨own, hresolved, -⟩ := hrecorded
      obtain ⟨receiver, hreceiver, hfetched⟩ := hhere.fetched_super hformed hresolved
      refine ⟨receiver, hreceiver, fun fuel v m hv => ?_⟩
      cases fuel with
      | zero => cases hv
      | succ fuel =>
        refine hformed.of_call_fetched hwithin (fun f m₁ hf => ?_) hv
        rw [← hname]
        exact hfetched fuel f m₁ hf }

/-! ## Sessions -/

/-- **Initializers hand back their instances.**  Observed texts run as without observation, and what
any of them leaves behind is in the history of the session, together with the machines at all visits.
Whatever is stored in such a machine is there; an initializer that is there is bound to an instance,
and looking up `this` in its closure comes to that; all of it stays so at every later machine; and at
every visit the contract of initializers is kept. -/
theorem Session.initializer_contract (sink : Sink) (clock : Clock)
    (texts : List (Nat × List Char)) :
    let session := (initial sink clock).after texts
    let machines := (initial sink clock).history texts
    session.erased = (Lox.Session.initial sink clock).after texts ∧
      (initial sink clock).outcomes texts = (Lox.Session.initial sink clock).outcomes texts ∧
      (∀ k, ((Lox.Session.initial sink clock).after (texts.take k)).machine ∈ machines) ∧
      (∀ m ∈ machines, (∀ v, m.heap.Stores v → v.In m.heap) ∧
        ∀ id, (Value.function id).In m.heap → (m.heap.function id).isInitializer = true →
          ∃ receiver, m.heap.BoundTo id receiver ∧
            m.heap.frames.getAt (m.heap.function id).closure 0 thisName = .ok (.inst receiver)) ∧
      (machines.Pairwise fun m m' => m.heap.Keeps m'.heap) ∧
      ∀ visit ∈ session.state.visits, visit.machine ∈ machines ∧ visit.Contract := by
  have hready := ready_initial sink clock
  have hinitial := formed_initial sink clock
  obtain ⟨hformed, hpairs⟩ := hready.formed_history texts hinitial
  refine ⟨erased_after texts _, outcomes_eq texts _, fun k => ?_, fun m hm => ?_,
    hpairs.imp fun hcontinues => hcontinues.heap.keeps, fun visit hvisit => ?_⟩
  · rw [Lox.Session.after_eq_erased]
    exact mem_history_after texts _ k
  · obtain ⟨_, hm⟩ := hformed m hm
    exact ⟨fun _ => hm.heap.stores, fun _ => Heap.getAt_of_in⟩
  · rcases hready.formed_visits texts hinitial visit hvisit with hbefore | ⟨hmem, _, hm, hnode⟩
    · exact absurd hbefore List.not_mem_nil
    · exact ⟨hmem, ((ready_after sink clock texts).sound.visits visit hvisit).contract hm hnode⟩

end Observed

/-- An initializer that returns early, called as that of the superclass, and one that is stored and
called later both hand back their instances. -/
example : ((Session.initial .unbounded (.constant 0)).run 12
    "class A \x7b init() \x7b return; \x7d \x7d
      class B < A \x7b init() \x7b this.a = super.init(); \x7d \x7d
      var b = B(); var f = b.init; print b.a == b; print f() == B();".toList).2.machine.sink.written =
    "true\nfalse\n".toUTF8 := by
  decide +kernel

end Lox
