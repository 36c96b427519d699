import Lox.Proofs.Growth.Runs

/-!
# Programs are rows of changes

Every form of expression and statement moves a state on by changes if its parts do
(`moves_evaluateWith`, `moves_executeWith`), so by induction on the fuel all programs do
(`moves_runProgram`), whether they end well or stop.  All that a program has to bring along is that
its names are of its own and its identities below a bound.
-/

namespace Lox

/-! ## Parts between bounds -/

section Parts

variable {n n' : NodeId}

theorem Expr.Within.both {a b : Expr} (h : ∃ m, a.Within n m ∧ b.Within m n') :
    a.Within n n' ∧ b.Within n n' :=
  have ⟨_, ha, hb⟩ := h
  ⟨ha.mono (Nat.le_refl _) hb.le, hb.mono ha.le (Nat.le_refl _)⟩

theorem Expr.AllWithin.cons {first : Expr} {others : List Expr}
    (h : Expr.AllWithin (first :: others) n n') :
    first.Within n n' ∧ Expr.AllWithin others n n' :=
  have ⟨_, hfirst, hothers⟩ := h
  ⟨hfirst.mono (Nat.le_refl _) hothers.le, hothers.mono hfirst.le (Nat.le_refl _)⟩

theorem Expr.Within.of_call {callee : Expr} {line : Nat} {args : List Expr}
    (h : (Expr.call callee line args).Within n n') :
    callee.Within n n' ∧ Expr.AllWithin args n n' :=
  have ⟨_, hcallee, hargs⟩ := h
  ⟨hcallee.mono (Nat.le_refl _) hargs.le, hargs.mono hcallee.le (Nat.le_refl _)⟩

theorem Stmt.AllWithin.cons {first : Stmt} {others : List Stmt}
    (h : Stmt.AllWithin (first :: others) n n') :
    first.Within n n' ∧ Stmt.AllWithin others n n' := by
  obtain ⟨m, ⟨hfirst, hothers⟩ | ⟨hfirst, hothers⟩⟩ := h
  · exact ⟨hfirst.mono (Nat.le_refl _) hothers.le, hothers.mono hfirst.le (Nat.le_refl _)⟩
  · exact ⟨hfirst.mono hothers.le (Nat.le_refl _), hothers.mono (Nat.le_refl _) hfirst.le⟩

theorem FunctionDecl.AllWithin.cons {first : FunctionDecl} {others : List FunctionDecl}
    (h : FunctionDecl.AllWithin (first :: others) n n') :
    first.Within n n' ∧ FunctionDecl.AllWithin others n n' :=
  have ⟨_, hfirst, hothers⟩ := h
  ⟨hfirst.mono (Nat.le_refl _) hothers.le, hothers.mono hfirst.le (Nat.le_refl _)⟩

theorem FunctionDecl.Within.body : ∀ {f : FunctionDecl}, f.Within n n' →
    (∀ param ∈ f.params, Plain param.text) ∧ Stmt.AllWithin f.body n n'
  | ⟨_, _, _⟩, h => h

end Parts

namespace Machine

theorem plain_of_bindParams {params : List Name} {args : List Value}
    (hplain : ∀ param ∈ params, Plain param.text) {x : String}
    (h : ((bindParams params args).get? x).isSome) : Plain x := by
  have hzip : ∀ (entries : List (Name × Value)) (table : Table Value),
      (∀ entry ∈ entries, Plain entry.1.text) → ((table.get? x).isSome → Plain x) →
      ((entries.foldl (fun table entry => table.put entry.1.text entry.2) table).get? x).isSome →
      Plain x := by
    intro entries
    induction entries with
    | nil => exact fun table _ htable hx => htable hx
    | cons entry entries ih =>
      intro table hentries htable hx
      obtain ⟨hentry, hothers⟩ := List.forall_mem_cons.mp hentries
      refine ih (table.put entry.1.text entry.2) hothers (fun hput => ?_) hx
      by_cases hsame : x = entry.1.text
      · exact hsame ▸ hentry
      · rw [Table.get?_put_of_ne _ _ hsame] at hput
        exact htable hput
  exact hzip (params.zip args) .empty (fun entry hentry => hplain _ (List.of_mem_zip hentry).1)
    (fun hx => by cases hx) h

end Machine

namespace Observed

open Machine (Flow)
open Machine.Run (allocate lookUp store)

variable {bound : NodeId} {s : State} {position : Position} {evaluate : Expr → Run Value}
  {execute : Position → Stmt → Run Flow}

/-- What a statement hands out, if it does, is there. -/
def FlowIn (heap : Heap) (flow : Flow) : Prop :=
  flow.result.In heap

/-- **Whether expressions move a state on** that are between the bounds. -/
def Evaluating (bound : NodeId) (evaluate : Expr → Run Value) : Prop :=
  ∀ ⦃s : State⦄ ⦃e : Expr⦄, s.Formed bound → e.Within 0 bound →
    Moves bound s (evaluate e) fun heap v => v.In heap

/-- **Whether statements move a state on** that are between the bounds. -/
def Executing (bound : NodeId) (execute : Position → Stmt → Run Flow) : Prop :=
  ∀ ⦃s : State⦄ ⦃position : Position⦄ ⦃stmt : Stmt⦄, s.Formed bound → stmt.Within 0 bound →
    Moves bound s (execute position stmt) FlowIn

/-! ## Calls -/

theorem moves_runAll (hx : Executing bound execute) : ∀ {body : List Stmt} {s : State}
    {position : Position}, s.Formed bound → Stmt.AllWithin body 0 bound →
    Moves bound s (runAll execute position body) FlowIn
  | [], _, _, _, _ => .pure trivial
  | first :: others, s, position, hs, hbody => by
    obtain ⟨hfirst, hothers⟩ := hbody.cons
    refine (hx hs hfirst).bind hs fun flow s₁ hs₁ _ hflow => ?_
    cases flow with
    | normal => exact moves_runAll hx hs₁ hothers
    | returned v => exact .pure hflow

/-- **A function is called** in a new frame that binds its parameters. -/
theorem moves_callFunction (hx : Executing bound execute) {id : FunctionId} {args : List Value}
    (hs : s.Formed bound) (hid : id.index < s.machine.heap.functions.size)
    (hargs : ∀ v ∈ args, v.In s.machine.heap) :
    Moves bound s (callFunction execute id args) fun heap v => v.In heap := by
  obtain ⟨hwritten, hclosure⟩ := hs.function hid
  obtain ⟨hparams, hbody⟩ := hwritten.body
  refine Moves.getHeap (Moves.originOf ((moves_newFrame hclosure
    (fun x hx => Machine.plain_of_bindParams hparams hx)
    fun x v hv => hargs v (Machine.mem_of_bindParams hv)).bind hs fun frame s₁ hs₁ _ hframe => ?_))
  refine (Moves.withFrame hs₁ hframe fun s₂ hs₂ _ => moves_runAll hx hs₂ hbody).bind hs₁
    fun flow s₃ hs₃ _ hflow => ?_
  cases (s.machine.heap.function id).isInitializer with
  | true => exact moves_getAt hs₃
  | false => exact .pure hflow

theorem moves_newInstance {id : ClassId} (hid : id.index < s.machine.heap.classes.size) :
    Moves bound s (lift (allocate (·.newInstance id))) fun heap receiver =>
      receiver = ⟨s.machine.heap.instances.size⟩ ∧ heap.InstanceOf receiver id :=
  .step rfl (.heap (.instanceObject hid)) ⟨rfl, _, Array.getElem?_push_size, rfl⟩

/-- **A class is called**: its initializer is bound to the new instance, which is what the call comes
to. -/
theorem moves_construct (hx : Executing bound execute) {id : ClassId} {args : List Value}
    (hs : s.Formed bound) (hid : id.index < s.machine.heap.classes.size)
    (hargs : ∀ v ∈ args, v.In s.machine.heap) :
    Moves bound s (construct execute id args) fun heap v =>
      v = .inst ⟨s.machine.heap.instances.size⟩ ∧
        heap.InstanceOf ⟨s.machine.heap.instances.size⟩ id := by
  refine (moves_newInstance hid).bind hs fun receiver s₁ hs₁ hgrows₁ hreceiver =>
    Moves.getHeap ?_
  obtain ⟨rfl, hreceiver⟩ := hreceiver
  cases hinit : s₁.machine.heap.findMethod? id initializerName with
  | none => exact .pure ⟨rfl, hreceiver⟩
  | some init =>
    refine (moves_bind hs₁ (hs₁.method hinit).lt hreceiver.lt).bind hs₁
      fun method s₂ hs₂ hgrows₂ hmethod => ?_
    have hargs₂ : ∀ v ∈ args, v.In s₂.machine.heap :=
      fun v hv => (hargs v hv).mono (hgrows₁.trans hgrows₂)
    exact (moves_callFunction hx hs₂ hmethod.lt hargs₂).bind hs₂ fun _ s₃ _ hgrows₃ _ =>
      .pure ⟨rfl, (hgrows₂.trans hgrows₃).instanceOf hreceiver⟩

/-- **A value is called** with as many arguments as it takes. -/
theorem moves_callValue (hx : Executing bound execute) {line : Nat} {callee : Value}
    {args : List Value} (hs : s.Formed bound) (hcallee : callee.In s.machine.heap)
    (hargs : ∀ v ∈ args, v.In s.machine.heap) :
    Moves bound s (callValue execute line callee args) fun heap v => v.In heap := by
  unfold callValue
  cases htarget : callee.callable? with
  | none => exact .fail
  | some target =>
    refine Moves.getHeap ?_
    by_cases hlen : args.length = s.machine.heap.arity target
    · rw [if_pos hlen]
      cases callee with
      | native f =>
        cases htarget
        cases f
        have hread : Machine.callNative .clock s.machine = .ok (.number s.machine.clock.now)
          { s.machine with clock := s.machine.clock.next } := rfl
        exact .step hread (.outside _ _ _) trivial
      | function id =>
        cases htarget
        exact moves_callFunction hx hs hcallee.lt hargs
      | cls id =>
        cases htarget
        exact (moves_construct hx hs hcallee hargs).mono fun _ _ hnew => hnew.1 ▸ hnew.2.lt
      | _ => cases htarget
    · rw [if_neg hlen]
      exact .fail

/-! ## Expressions -/

theorem moves_ofExcept {line : Nat} {r : Except Machine.Fault Value}
    (hr : Machine.Computed line r) :
    Moves bound s (lift (Machine.Run.ofExcept r)) fun heap v => v.In heap := by
  cases hr with
  | bool | number | string =>
    exact ⟨s, .refl s, .inl ⟨_, rfl, trivial⟩⟩
  | _ => exact .fail

theorem moves_evaluateAll (he : Evaluating bound evaluate) : ∀ {es : List Expr} {s : State},
    s.Formed bound → Expr.AllWithin es 0 bound →
    Moves bound s (evaluateAll evaluate es) fun heap vs => ∀ v ∈ vs, v.In heap
  | [], _, _, _ => .pure nofun
  | first :: others, s, hs, hes => by
    obtain ⟨hfirst, hothers⟩ := hes.cons
    refine (he hs hfirst).bind hs fun v s₁ hs₁ _ hv => ?_
    exact (moves_evaluateAll he hs₁ hothers).bind hs₁ fun vs s₂ _ hgrows₂ hvs =>
      .pure (List.forall_mem_cons.mpr ⟨hv.mono hgrows₂, hvs⟩)

theorem moves_setField {id : InstanceId} {name : String} {v : Value} (hv : v.In s.machine.heap) :
    Moves bound s (lift (modify fun m => { m with heap := m.heap.setField id name v }))
      fun _ _ => True :=
  .step (a := ()) rfl (.heap (.field hv)) trivial

/-- **One step into an expression** moves a state on. -/
theorem moves_evaluateWith (he : Evaluating bound evaluate) (hx : Executing bound execute)
    (hs : s.Formed bound) : ∀ {e : Expr}, e.Within 0 bound →
      Moves bound s (evaluateWith evaluate execute e) fun heap v => v.In heap
  | .literal value, _ => by
    cases value <;> exact .pure trivial
  | .group inner, h => he (e := inner) hs h
  | .unary op line operand, h => (he (e := operand) hs h).bind hs fun v _ _ _ _ =>
    moves_ofExcept (Machine.computed_applyUnary op line v)
  | .binary left op line right, h => by
    obtain ⟨hleft, hright⟩ := Expr.Within.both h
    exact (he hs hleft).bind hs fun a s₁ hs₁ _ _ => (he hs₁ hright).bind hs₁ fun b _ _ _ _ =>
      moves_ofExcept (Machine.computed_applyBinary op line a b)
  | .logical left op right, h => by
    obtain ⟨hleft, hright⟩ := Expr.Within.both h
    refine (he hs hleft).bind hs fun a s₁ hs₁ _ ha => ?_
    cases Machine.settles op a with
    | true => exact .pure ha
    | false => exact he hs₁ hright
  | .var _, _ | .this _, _ => moves_lookUp hs
  | .assign target value, ⟨_, hvalue, htarget, _, hlt⟩ => by
    have hvalue := hvalue.mono (Nat.le_refl _) (Nat.le_trans ‹_› (Nat.le_of_lt hlt))
    refine (he hs hvalue).bind hs fun v s₁ hs₁ _ hv => ?_
    exact (moves_store htarget hv).bind hs₁ fun _ s₂ _ hgrows₂ _ => .pure (hv.mono hgrows₂)
  | .call callee line args, h => by
    obtain ⟨hcallee, hargs⟩ := h.of_call
    refine (he hs hcallee).bind hs fun f s₁ hs₁ _ hf => ?_
    exact (moves_evaluateAll he hs₁ hargs).bind hs₁ fun vs s₂ hs₂ hgrows₂ hvs =>
      moves_callValue hx hs₂ (hf.mono hgrows₂) hvs
  | .get object name, h => by
    refine (he (e := object) hs h).bind hs fun v s₁ hs₁ _ hv => ?_
    cases v with
    | inst id => exact moves_property hs₁ hv
    | _ => exact .fail
  | .set object name value, h => by
    obtain ⟨hobject, hvalue⟩ := Expr.Within.both h
    refine (he hs hobject).bind hs fun v s₁ hs₁ _ _ => ?_
    cases v with
    | inst id =>
      refine (he hs₁ hvalue).bind hs₁ fun u s₂ hs₂ _ hu => ?_
      exact (moves_setField hu).bind hs₂ fun _ s₃ _ hgrows₃ _ => .pure (hu.mono hgrows₃)
    | _ => exact .fail
  | .super _ _, _ => moves_superMethod hs

theorem moves_evaluate? (he : Evaluating bound evaluate) (hs : s.Formed bound) {e : Option Expr}
    (h : Expr.Within? e 0 bound) :
    Moves bound s (evaluate? evaluate e) fun heap v => v.In heap := by
  cases e with
  | none => exact .pure trivial
  | some e => exact he hs h

/-! ## Declarations -/

/-- **A function is declared** in the current frame, which is also around it. -/
theorem moves_declareFunction (hs : s.Formed bound) {declaration : FunctionDecl}
    (hname : Plain declaration.name.text) (hwritten : Written bound declaration) :
    Moves bound s (declareFunction position declaration) fun _ _ => True := by
  obtain ⟨frame, hframe, -⟩ := hs.environment
  refine Moves.get ((moves_newFunction hwritten (Frames.lt_of_frame? hframe)).bind hs
    fun id s₁ hs₁ _ hid => .note fun s₂ hsame => moves_define ?_ hname ?_)
  · unfold State.Formed
    rwa [hsame]
  · rw [hsame]
    exact ⟨_, hid, nofun⟩

theorem moves_superclassOf (hs : s.Formed bound) {superclass : Option Reference}
    (hsuperclass : Reference.Within? superclass 0 bound) :
    Moves bound s (superclassOf position superclass) fun heap parent =>
      ∀ id, parent = some id → id.index < heap.classes.size := by
  cases superclass with
  | none => exact .pure nofun
  | some reference =>
    refine .visit hs hsuperclass fun s₁ hs₁ _ => (moves_lookUp hs₁).bind hs₁ fun v s₂ _ _ hv => ?_
    cases v with
    | cls id => exact .pure fun other hother => Option.some.inj hother ▸ hv
    | _ => exact .fail

theorem moves_methodFrame (hs : s.Formed bound) {parent : Option ClassId}
    (hparent : ∀ id, parent = some id → id.index < s.machine.heap.classes.size) :
    Moves bound s (lift (Machine.methodFrame parent)) fun heap frame =>
      frame.index < heap.frames.all.size := by
  obtain ⟨frame, hframe, -⟩ := hs.environment
  have hcurrent := Frames.lt_of_frame? hframe
  cases parent with
  | none => exact .reads (.get (.pure hcurrent)) fun _ hid => hid
  | some p =>
    exact .step rfl (.heap (.frame hcurrent alone_single fun x v hv => by
      rw [(get?_single hv).2]; exact hparent p rfl)) (Heap.size_lt_push _ _)

theorem moves_makeMethods {frame : FrameId} : ∀ {methods : List FunctionDecl}
    {table : Table FunctionId} {s : State}, s.Formed bound →
    frame.index < s.machine.heap.frames.all.size → FunctionDecl.AllWithin methods 0 bound →
    (∀ x id, table.get? x = some id → s.machine.heap.MethodUnder x id) →
    Moves bound s (makeMethods position frame table methods) fun heap table =>
      ∀ x id, table.get? x = some id → heap.MethodUnder x id
  | [], _, _, _, _, _, htable => .pure htable
  | method :: others, table, s, hs, hframe, hmethods, htable => by
    obtain ⟨hmethod, hothers⟩ := hmethods.cons
    refine (moves_newFunction (f := ⟨method, frame, method.isInitializer⟩) hmethod hframe).bind hs
      fun id s₁ hs₁ hgrows₁ hid => .note fun s₂ hsame =>
        moves_makeMethods ?_ ?_ hothers fun x other hother => ?_
    · unfold State.Formed
      rwa [hsame]
    · rw [hsame]
      exact hgrows₁.lt_frames hframe
    · rw [hsame]
      by_cases hx : x = method.name.text
      · subst hx
        cases (Table.get?_put_self _ _ _).symm.trans hother
        exact ⟨_, hid, rfl⟩
      · exact hgrows₁.methodUnder (htable x other ((Table.get?_put_of_ne _ _ hx).symm.trans hother))

theorem moves_newClass {c : ClassObject}
    (hparent : ∀ parent, c.superclass = some parent → parent.index < s.machine.heap.classes.size)
    (hmethods : ∀ x id, c.methods.get? x = some id → s.machine.heap.MethodUnder x id) :
    Moves bound s (lift (allocate (·.newClass c))) fun heap id => id.index < heap.classes.size :=
  .step rfl (.heap (.classObject hparent hmethods)) (Heap.size_lt_push _ _)

/-- **A class is declared** below one that is there, with methods that are there. -/
theorem moves_declareClass (hs : s.Formed bound) {name : Name} {superclass : Option Reference}
    {methods : List FunctionDecl} (hname : Plain name.text)
    (hsuperclass : Reference.Within? superclass 0 bound)
    (hmethods : FunctionDecl.AllWithin methods 0 bound) :
    Moves bound s (declareClass position name superclass methods) fun _ _ => True := by
  refine (moves_define (v := .nil) hs hname trivial).bind hs fun _ s₁ hs₁ _ _ => ?_
  refine (moves_superclassOf hs₁ hsuperclass).bind hs₁ fun parent s₂ hs₂ _ hparent => ?_
  refine (moves_methodFrame hs₂ hparent).bind hs₂ fun frame s₃ hs₃ hgrows₃ hframe => ?_
  refine (moves_makeMethods hs₃ hframe hmethods fun x id hid => by cases hid).bind hs₃
    fun table s₄ hs₄ hgrows₄ htable => ?_
  refine (moves_newClass (fun id hid => (hgrows₃.trans hgrows₄).lt_classes (hparent id hid))
    htable).bind hs₄ fun id s₅ hs₅ _ hid => ?_
  exact moves_assignName hname hid

/-! ## Statements -/

theorem moves_loop {condition : Run Value} {body : Run Flow}
    (hc : ∀ {s : State}, s.Formed bound → Moves bound s condition fun heap v => v.In heap)
    (hb : ∀ {s : State}, s.Formed bound → Moves bound s body FlowIn) :
    ∀ (rounds : Nat) {s : State}, s.Formed bound → Moves bound s (loop condition body rounds) FlowIn
  | 0, _, _ => .outOfFuel
  | rounds + 1, s, hs => by
    refine (hc hs).bind hs fun v s₁ hs₁ _ _ => ?_
    cases v.isTruthy with
    | false => exact .pure trivial
    | true =>
      refine (hb hs₁).bind hs₁ fun flow s₂ hs₂ _ hflow => ?_
      cases flow with
      | normal => exact moves_loop hc hb rounds hs₂
      | returned u => exact .pure hflow

/-- **A block** runs in a new frame that binds nothing yet. -/
theorem moves_runBlock (hx : Executing bound execute) (hs : s.Formed bound) (body : List Stmt)
    (hbody : Stmt.AllWithin body 0 bound) :
    Moves bound s (runBlock execute position body) FlowIn := by
  obtain ⟨frame, hframe, -⟩ := hs.environment
  exact Moves.get ((moves_newFrame (Frames.lt_of_frame? hframe) (fun x hx => by cases hx)
    fun x v hv => by cases hv).bind hs fun frame s₁ hs₁ _ hnew =>
      .withFrame hs₁ hnew fun s₂ hs₂ _ => moves_runAll hx hs₂ hbody)

/-- **One step into a statement** moves a state on. -/
theorem moves_executeWith {evaluate : Position → Expr → Run Value}
    (he : ∀ position, Evaluating bound (evaluate position)) (hx : Executing bound execute)
    (rounds : Nat) (hs : s.Formed bound) : ∀ {stmt : Stmt}, stmt.Within 0 bound →
      Moves bound s (executeWith evaluate execute rounds position stmt) FlowIn
  | .expr value, h => (he position (e := value) hs h).bind hs fun _ _ _ _ _ => .pure trivial
  | .print value, h => (he position (e := value) hs h).bind hs fun _ _ hs₁ _ _ =>
    Moves.getHeap (moves_writeLine.bind hs₁ fun _ _ _ _ _ => .pure trivial)
  | .var name initializer, ⟨hname, hinitializer⟩ =>
    (moves_evaluate? (he _) hs hinitializer).bind hs fun v s₁ hs₁ _ hv =>
      (moves_define hs₁ hname hv).bind hs₁ fun _ _ _ _ _ => .pure trivial
  | .block body, h => moves_runBlock hx hs body h
  | .ifElse condition thenBranch none, ⟨_, _, hcondition, hthen⟩ => by
    refine (he position hs (hcondition.mono (Nat.le_refl _) hthen.le)).bind hs fun v s₁ hs₁ _ _ => ?_
    cases v.isTruthy with
    | true => exact hx hs₁ (hthen.mono hcondition.le (Nat.le_refl _))
    | false => exact .pure trivial
  | .ifElse condition thenBranch (some elseBranch), ⟨_, _, _, _, hcondition, hthen, helse⟩ => by
    refine (he position hs (hcondition.mono (Nat.le_refl _) (Nat.le_trans hthen.le helse.le))).bind hs
      fun v s₁ hs₁ _ _ => ?_
    cases v.isTruthy with
    | true => exact hx hs₁ (hthen.mono hcondition.le helse.le)
    | false => exact hx hs₁ (helse.mono (Nat.le_trans hcondition.le hthen.le) (Nat.le_refl _))
  | .whileDo condition body, ⟨_, _, hcondition, hbody⟩ =>
    moves_loop (fun hs' => he position hs' (hcondition.mono (Nat.le_refl _) hbody.le))
      (fun hs' => hx hs' (hbody.mono hcondition.le (Nat.le_refl _))) rounds hs
  | .function declaration, ⟨hname, hwritten⟩ =>
    (moves_declareFunction hs hname hwritten).bind hs fun _ _ _ _ _ => .pure trivial
  | .ret _ value, h =>
    (moves_evaluate? (e := value) (he position) hs h).bind hs fun v _ _ _ hv => .pure hv
  | .classDecl name superclass methods, ⟨hname, _, hsuperclass, hmethods⟩ =>
    (moves_declareClass hs hname (hsuperclass.mono (Nat.le_refl _) hmethods.le)
      (hmethods.mono hsuperclass.le (Nat.le_refl _))).bind hs fun _ _ _ _ _ => .pure trivial

/-! ## Any amount of fuel -/

mutual

/-- **All expressions move a state on** by changes. -/
theorem evaluating : ∀ (fuel : Nat) (position : Position),
    Evaluating bound (Observed.evaluate fuel position)
  | 0, _, _, _, _, _ => .outOfFuel
  | fuel + 1, position, _, _, hs, h => .visit hs h fun _ hs₁ _ =>
    moves_evaluateWith (evaluating fuel position) (executing fuel) hs₁ h

/-- **All statements move a state on** by changes. -/
theorem executing : ∀ fuel : Nat, Executing bound (Observed.execute fuel)
  | 0, _, _, _, _, _ => .outOfFuel
  | fuel + 1, _, _, _, hs, h => .visit hs h fun _ hs₁ _ =>
    moves_executeWith (evaluating fuel) (executing fuel) fuel hs₁ h

end

/-- **Programs move a state on** by changes. -/
theorem moves_runProgram (fuel : Nat) : ∀ {program : Program} {s : State} {position : Position},
    s.Formed bound → Stmt.AllWithin program 0 bound →
    Moves bound s (runProgram fuel position program) fun _ _ => True
  | [], _, _, _, _ => .pure trivial
  | first :: others, s, position, hs, h => by
    obtain ⟨hfirst, hothers⟩ := h.cons
    exact (executing fuel hs hfirst).bind hs fun _ s₁ hs₁ _ _ => moves_runProgram fuel hs₁ hothers

end Observed

end Lox
