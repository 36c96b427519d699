import Lox.Proofs.Observed.Places

/-!
# Calls keep a state sound

A method that is bound to an instance gets a frame around it that binds `this`, for the innermost
scope of its position (`keeps_bind`).  A function that is called runs its body in a new frame inside
the one where it was declared or bound, at its own position there (`keeps_callFunction`): where the
call stands makes no difference.
-/

namespace Lox.Observed

open Machine (Flow)
open Machine.Run (allocate)

variable {bound : NodeId} {s s₁ : State}

/-! ## Bound methods -/

/-- The state in which a method is bound to an instance. -/
def State.bindMethod (s : State) (method : FunctionId) (receiver : InstanceId) : State :=
  (s.addFrame (s.machine.heap.function method).closure
    (.single thisName (.inst receiver))).addFunction
      { s.machine.heap.function method with closure := s.nextFrame }
      { s.origin method with receiver := some receiver }

theorem bind_eq (method : FunctionId) (receiver : InstanceId) (s : State) :
    bind method receiver s = .ok s.nextFunction (s.bindMethod method receiver) := rfl

/-- **A method that is bound** can be called: the innermost scope of its position has its frame. -/
theorem functionOk_bindMethod {method : FunctionId} {receiver : InstanceId}
    (hm : MethodOk s method) : FunctionOk (s.bindMethod method receiver) s.nextFunction := by
  obtain ⟨f, hf, ⟨ribs, hribs, hchain, hparent⟩, hplain, hsites⟩ := hm
  have hfunction : s.machine.heap.function method = f := by rw [Heap.function, hf]; rfl
  have horigin : (s.bindMethod method receiver).origin s.nextFunction =
    { s.origin method with receiver := some receiver } := State.origin_addFunction
  refine ⟨{ f with closure := s.nextFrame }, ?_, ?_, ?_, hplain, ?_⟩
  · rw [State.bindMethod, hfunction]
    exact State.function_addFunction
  · rw [horigin, hribs, State.bindMethod, hfunction]
    exact hchain.addReceiver
  · rw [horigin, hribs, State.bindMethod, hfunction]
    exact .addReceiver hparent
  · rw [horigin]
    exact hsites

/-- **Methods are bound.** -/
theorem keeps_bind {method : FunctionId} {receiver : InstanceId} (h : Sound bound s)
    (hm : MethodOk s method) : Keeps bound s (bind method receiver) fun s' id =>
      FunctionOk s' id ∧
        s'.machine.heap.functionArity id = s.machine.heap.functionArity method := by
  have hframe : Becomes bound s (s.addFrame (s.machine.heap.function method).closure
      (.single thisName (.inst receiver))) :=
    h.addFrame fun x v hv => by rw [(get?_single hv).2]; trivial
  refine .step (bind_eq method receiver s) (hframe.trans hframe.sound.addFunction)
    ⟨functionOk_bindMethod hm, ?_⟩
  rw [Heap.functionArity, Heap.function, State.bindMethod,
    show s.nextFunction = (s.addFrame _ _).nextFunction from rfl, State.function_addFunction]
  rfl

theorem Sound.methodOk_of_findMethod? (h : Sound bound s) {id : ClassId} {name : String}
    {method : FunctionId} (hm : s.machine.heap.findMethod? id name = some method) :
    MethodOk s method := by
  obtain ⟨i, c, hc, hx⟩ := Heap.exists_of_findMethod? hm
  exact h.methods i c name method hc hx

theorem keeps_property {id : InstanceId} {name : Name} (h : Sound bound s) :
    Keeps bound s (property id name) ValueOk := by
  refine Keeps.getHeap ?_
  cases hproperty : s.machine.heap.property? id name.text with
  | none => exact .fail h
  | some found =>
    cases found with
    | field value =>
      obtain ⟨i, o, ho, hv⟩ := Heap.exists_of_property?_field hproperty
      exact .pure h (h.fields i o _ value ho hv)
    | method method =>
      have hm := h.methodOk_of_findMethod? (Heap.findMethod?_of_property?_method hproperty)
      exact (keeps_bind h hm).bind fun _ _ hs hid => .pure hs.sound hid.1

theorem keeps_superMethod {keyword : Reference} {method : Name} (h : Sound bound s) :
    Keeps bound s (superMethod keyword method) ValueOk := by
  refine Keeps.get ?_
  cases s.machine.distances.get? keyword.id with
  | none => exact .fail h
  | some distance =>
    refine (Keeps.reads h .superclassAt).bind fun parent _ _ ⟨hsame, _⟩ => ?_
    subst hsame
    cases distance with
    | zero => exact .fail h
    | succ inner =>
      refine (Keeps.reads h .receiverAt).bind fun receiver _ _ ⟨hsame, _⟩ => ?_
      subst hsame
      refine Keeps.getHeap ?_
      cases hfound : Heap.findMethod? _ parent method.text with
      | none => exact .fail h
      | some found =>
        exact (keeps_bind h (h.methodOk_of_findMethod? hfound)).bind fun _ _ hs hid =>
          .pure hs.sound hid.1

/-! ## Statements in a row -/

/-- Whether the value that a statement hands out, if it does, can be called. -/
def FlowOk (s : State) : Flow → Prop
  | .normal => True
  | .returned v => ValueOk s v

theorem FlowOk.mono {flow : Flow} (h : FlowOk s flow) (hs : Grows s s₁) : FlowOk s₁ flow := by
  cases flow with
  | normal => trivial
  | returned v => exact ValueOk.mono h hs

theorem FlowOk.result {flow : Flow} (h : FlowOk s flow) : ValueOk s flow.result := by
  cases flow with
  | normal => trivial
  | returned v => exact h

/-- **Whether statements keep a state sound** wherever the walk came by them.  Behind a statement the
frames are those of the position behind it. -/
def Executes (bound : NodeId) (execute : Position → Stmt → Run Flow) : Prop :=
  ∀ {s : State} {position : Position} {stmt : Stmt}, Sound bound s → At s.machine position →
    stmt.sites position.around position.scopes ⊆ s.sites →
    Keeps bound s (execute position stmt) fun s' flow =>
      FlowOk s' flow ∧ At s'.machine (position.behind stmt)

variable {execute : Position → Stmt → Run Flow}

theorem keeps_runAll (hx : Executes bound execute) : ∀ {body : List Stmt} {s : State}
    {position : Position}, Sound bound s → At s.machine position →
    Stmt.allSites position.around position.scopes body ⊆ s.sites →
    Keeps bound s (runAll execute position body) FlowOk
  | [], _, _, h, _, _ => .pure h trivial
  | first :: others, s, position, h, ha, hsites => by
    obtain ⟨hfirst, hothers⟩ := List.append_subset.mp hsites
    refine (hx h ha hfirst).bind fun flow s₁ hs₁ ⟨hflow, ha₁⟩ => ?_
    cases flow with
    | returned v => exact .pure hs₁.sound hflow
    | normal =>
      rw [← hs₁.sites] at hothers
      exact keeps_runAll hx hs₁.sound ha₁ hothers

/-! ## Calls -/

theorem keeps_newFrame {outer : FrameId} {bindings : Table Value} (h : Sound bound s)
    (hbindings : ∀ x v, bindings.get? x = some v → ValueOk s v) :
    Keeps bound s (lift (allocate (·.newFrame (some outer) bindings)))
      fun s' frame => s' = s.addFrame outer bindings ∧ frame = s.nextFrame :=
  .step rfl (h.addFrame hbindings) ⟨rfl, rfl⟩

/-- **A function is called** at its own position. -/
theorem keeps_callFunction (hx : Executes bound execute) {id : FunctionId} {args : List Value}
    (h : Sound bound s) (hf : FunctionOk s id) (hargs : ∀ v ∈ args, ValueOk s v)
    (hlen : args.length = s.machine.heap.functionArity id) :
    Keeps bound s (callFunction execute id args) ValueOk := by
  obtain ⟨f, hobject, hchain, hholds, hplain, hsites⟩ := hf
  have hfunction : s.machine.heap.function id = f := by rw [Heap.function, hobject]; rfl
  rw [Heap.functionArity, hfunction] at hlen
  refine Keeps.getHeap (Keeps.originOf ?_)
  rw [hfunction]
  refine (keeps_newFrame h fun x v hv => hargs v (Machine.mem_of_bindParams hv)).bind
    fun frame s₁ hs₁ hnew => ?_
  obtain ⟨rfl, rfl⟩ := hnew
  have hinside : At _ ((s.origin id).inBody f.declaration) :=
    At.inBody h.outermost hchain hholds hplain hlen
  have hbody : Stmt.allSites ((s.origin id).inBody f.declaration).around
      ((s.origin id).inBody f.declaration).scopes f.declaration.body ⊆ s.sites := by
    rw [FunctionDecl.sites_eq] at hsites
    exact hsites
  refine (Keeps.withFrame (keeps_runAll hx (hs₁.sound.moveTo s.nextFrame) hinside hbody)).bind
    fun flow s₂ hs₂ hflow => ?_
  cases f.isInitializer with
  | false => exact .pure hs₂.sound (hflow.mono (.of_moveTo s₂ _)).result
  | true =>
    refine (Keeps.reads hs₂.sound .getAt).mono fun v s' _ hread => ?_
    obtain ⟨rfl, g, x, hv⟩ := hread
    exact hs₂.sound.bindings g x v hv

/-- **A class is called**: its initializer is bound to the new instance. -/
theorem keeps_construct (hx : Executes bound execute) {id : ClassId} {args : List Value}
    (h : Sound bound s) (hargs : ∀ v ∈ args, ValueOk s v)
    (hlen : args.length = s.machine.heap.arity (.cls id)) :
    Keeps bound s (construct execute id args) ValueOk := by
  refine (keeps_newInstance h).bind fun receiver s₁ hs₁ hnew => ?_
  obtain ⟨hfunctions, hclasses⟩ := hnew
  have hagree : s.machine.heap.Agree s₁.machine.heap := ⟨fun i => by rw [hfunctions], hclasses⟩
  rw [← hagree.arity] at hlen
  refine Keeps.getHeap ?_
  cases hinit : s₁.machine.heap.findMethod? id initializerName with
  | none => exact .pure hs₁.sound trivial
  | some init =>
    simp only [Heap.arity, hinit] at hlen
    refine (keeps_bind hs₁.sound (hs₁.sound.methodOk_of_findMethod? hinit)).bind
      fun method s₂ hs₂ hbound => ?_
    obtain ⟨hok, harity⟩ := hbound
    refine (keeps_callFunction hx hs₂.sound hok
      (fun v hv => (hargs v hv).mono (hs₁.trans hs₂).grows) (hlen.trans harity.symm)).bind
      fun _ _ hs₃ _ => .pure hs₃.sound trivial

/-- **A value is called** with as many arguments as it takes. -/
theorem keeps_callValue (hx : Executes bound execute) {line : Nat} {callee : Value}
    {args : List Value} (h : Sound bound s) (hcallee : ValueOk s callee)
    (hargs : ∀ v ∈ args, ValueOk s v) :
    Keeps bound s (callValue execute line callee args) ValueOk := by
  unfold callValue
  cases htarget : callee.callable? with
  | none => exact .fail h
  | some target =>
    refine Keeps.getHeap ?_
    by_cases hlen : args.length = s.machine.heap.arity target
    · rw [if_pos hlen]
      cases callee with
      | native f =>
        cases htarget
        exact keeps_callNative (f := f) h
      | function id =>
        cases htarget
        exact keeps_callFunction hx h hcallee hargs hlen
      | cls id =>
        cases htarget
        exact keeps_construct hx h hargs hlen
      | _ => cases htarget
    · rw [if_neg hlen]
      exact .fail h

end Lox.Observed
