import Lox.Proofs.Lexical.Objects

/-!
# Calls on both sides

What a call does is given by what running the statements of its body does.  So far as that is alike
on both sides (`Executes`), calls are: a new frame that binds the parameters is on the other side a
map that has them too (`coupled_callFunction`).
-/

namespace Lox.Lexical

/-- Whether the value that a statement hands out, if it does, can be called. -/
def FlowOk (w : World) : Machine.Flow → Prop
  | .normal => True
  | .returned v => ValueOk w v

/-- **Whether statements run alike** wherever they are resolved.  Behind a statement the map and the
current frame have the names that it declares. -/
def Executes (x : Stmt → Machine.Run Machine.Flow) (y : Env → Stmt → Run (Machine.Flow × Env)) :
    Prop :=
  ∀ {w env ribs s}, w.Sound → At w env ribs → s.Resolved w.machine.distances w.bound ribs →
    Coupled (some w.machine.environment) w (x s) (y env s)
      fun w' a b => a = b.1 ∧ FlowOk w' a ∧ At w' b.2 (s.behind ribs)

namespace World

variable {opened : Option FrameId} {w : World} {frame : FrameId}

theorem moveTo_moveTo (w : World) (frame frame' : FrameId) :
    (w.moveTo frame).moveTo frame' = w.moveTo frame' := rfl

theorem moveTo_self (h : w.machine.environment = frame) : w.moveTo frame = w := by
  subst h
  rfl

theorem grows_of_moveTo : (w.moveTo frame).Grows opened w :=
  { Grows.refl w with }

end World

namespace Coupled

variable {α β γ δ : Type} {opened : Option FrameId} {w : World} {x : Machine.Run α} {y : Run β}
  {f : α → Machine.Run γ} {g : β → Run δ} {Q : World → α → β → Prop} {R : World → γ → δ → Prop}
  {frame : FrameId}

/-- Behind a step that makes a frame, names are declared in that frame only. -/
theorem closing (w₁ : World) {a : α} {b : β} (hx : x w.machine = .ok a w₁.machine)
    (hy : y w.state = .ok b w₁.state) (hw : w.Becomes none w₁)
    (hframe : w.frames.all.size ≤ frame.index) (h : Coupled (some frame) w₁ (f a) (g b) R) :
    Coupled none w (x >>= f) (y >>= g) R := by
  obtain ⟨w₂, hw₂, hends⟩ := h
  refine ⟨w₂, ⟨hw.grows.closing hw₂.grows hframe, hw₂.sound,
    hw₂.environment.trans hw.environment⟩, ?_⟩
  rw [Steps.bind_of_ok hx, Steps.bind_of_ok hy]
  exact hends

/-- It may be that only the machine makes that step. -/
theorem closing_left (w₁ : World) {a : α} {z : Run δ} (hx : x w.machine = .ok a w₁.machine)
    (hz : w₁.state = w.state) (hw : w.Becomes none w₁) (hframe : w.frames.all.size ≤ frame.index)
    (h : Coupled (some frame) w₁ (f a) z R) : Coupled none w (x >>= f) z R := by
  have hy : (Pure.pure () : Run Unit) w.state = .ok () w₁.state := by
    rw [hz]
    rfl
  exact closing w₁ (y := Pure.pure ()) (g := fun _ => z) hx hy hw hframe h

theorem withFrame (h : Coupled opened (w.moveTo frame) x y Q) :
    Coupled opened w (Machine.Run.withFrame frame x) y fun w' a b => Q (w'.moveTo frame) a b := by
  obtain ⟨w₁, hw₁, hends⟩ := h
  have henv : w₁.machine.environment = frame := hw₁.environment
  have hback : (w₁.moveTo w.machine.environment).moveTo frame = w₁ := by
    rw [World.moveTo_moveTo, World.moveTo_self henv]
  refine ⟨w₁.moveTo w.machine.environment, ⟨?_, hw₁.sound.moveTo, rfl⟩, ?_⟩
  · exact (World.grows_moveTo.trans hw₁.grows).trans World.grows_moveTo
  · rcases hends with ⟨a, b, hx, hy, hq⟩ | ⟨e, e', hx, hy, he⟩
    · rw [← hback] at hq
      refine .inl ⟨a, b, ?_, hy, hq⟩
      simp only [Machine.Run.withFrame, show x { w.machine with environment := frame } = _ from hx]
      rfl
    · refine .inr ⟨e, e', ?_, hy, he⟩
      simp only [Machine.Run.withFrame, show x { w.machine with environment := frame } = _ from hx]
      rfl

end Coupled

section
variable {opened : Option FrameId} {w w' : World} {env : Env} {ribs : Ribs}
  {x : Stmt → Machine.Run Machine.Flow} {y : Env → Stmt → Run (Machine.Flow × Env)}

theorem FlowOk.mono {flow : Machine.Flow} (h : FlowOk w flow) (hw : w.Grows opened w') :
    FlowOk w' flow := by
  cases flow with
  | normal => trivial
  | returned v => exact ValueOk.mono h hw

theorem FlowOk.result {flow : Machine.Flow} (h : FlowOk w flow) : ValueOk w flow.result := by
  cases flow with
  | normal => trivial
  | returned v => exact h

theorem coupled_runAll (hx : Executes x y) : ∀ {ss : List Stmt} {w : World} {env : Env} {ribs : Ribs},
    w.Sound → At w env ribs → Stmt.AllResolved w.machine.distances w.bound ribs ss →
    Coupled (some w.machine.environment) w (Machine.runAll x ss) (runAll y env ss)
      fun w' a b => a = b ∧ FlowOk w' a
  | [], _, _, _, hs, _, _ => .pure hs ⟨rfl, trivial⟩
  | first :: others, w, env, ribs, hs, ha, ⟨hfirst, hothers⟩ => by
    refine (hx hs ha hfirst).bind fun flow r w' hw ⟨hflow, hok, hat⟩ => ?_
    obtain ⟨flow', behind⟩ := r
    subst hflow
    cases flow with
    | returned v => exact .pure hw.sound ⟨rfl, hok⟩
    | normal =>
      rw [← hw.environment]
      rw [← hw.grows.distances, ← hw.grows.bound] at hothers
      exact coupled_runAll hx hw.sound hat hothers

/-! ## Functions -/

theorem Ribs.fresh_extend {rib : Rib} {outer : Ribs} {a b : String}
    (h : Ribs.Fresh (rib :: outer) b) (hne : b ≠ a) : Ribs.Fresh (rib.add a :: outer) b := by
  rintro _ ⟨⟩
  have hb : rib b = false := h rib rfl
  simp [Rib.add, hne, hb]

/-- **Parameters are declared** one after the other in the current frame. -/
theorem bindParams_declares : ∀ (params : List Name) (args : List Value) {w : World} {env : Env}
    {rib : Rib} {outer : Ribs}, w.Sound → At w env (rib :: outer) →
    (∀ param ∈ params, Plain param.text) → (params.map Name.text).Nodup →
    (∀ param ∈ params, Ribs.Fresh (rib :: outer) param.text) → (∀ v ∈ args, ValueOk w v) →
    args.length = params.length →
    ∃ w' env', bindParams env params args w.state = .ok env' w'.state ∧
      w'.machine = { w.machine with heap := { w.machine.heap with frames := w'.frames } } ∧
      w'.frames = (params.zip args).foldl
        (fun frames entry => frames.define w.machine.environment entry.1.text entry.2) w.frames ∧
      w.Becomes (some w.machine.environment) w' ∧
      At w' env' (Ribs.extendAll (rib :: outer) params)
  | [], _, w, env, _, _, hs, ha, _, _, _, _, _ => by
    refine ⟨w, env, ?_, rfl, rfl, .refl hs, ha⟩
    unfold bindParams
    rfl
  | _ :: _, [], _, _, _, _, _, _, _, _, _, _, hlen => nomatch hlen
  | param :: params, arg :: args, w, env, rib, outer, hs, ha, hplain, hnodup, hfresh, hargs, hlen => by
    obtain ⟨-, hne, hlt, hbinds⟩ := ha.inside rib outer rfl
    have hunbound : (w.frames.binding? w.machine.environment param.text).isSome = false :=
      (hbinds _).trans (hfresh param List.mem_cons_self rib rfl)
    have hw : w.Becomes (some w.machine.environment)
        (w.declare w.machine.environment param.text arg) :=
      ⟨World.grows_declare, hs.declare hne hlt hunbound (hargs arg List.mem_cons_self)
        (.of_plain (hplain param List.mem_cons_self)), rfl⟩
    rw [List.map_cons, List.nodup_cons] at hnodup
    obtain ⟨w', env', hbind, hmachine, hframes, hw', hat⟩ := bindParams_declares params args hw.sound
      ha.declare (fun p hp => hplain p (List.mem_cons_of_mem _ hp)) hnodup.2
      (fun p hp => Ribs.fresh_extend (hfresh p (List.mem_cons_of_mem _ hp)) fun he =>
        hnodup.1 (he ▸ List.mem_map_of_mem hp))
      (fun v hv => (hargs v (List.mem_cons_of_mem _ hv)).mono hw.grows) (Nat.succ.inj hlen)
    refine ⟨w', env', ?_, hmachine, ?_, hw.trans hw', hat⟩
    · rw [bindParams, Steps.bind_of_ok (bindLocal_eq hs _ _)]
      exact hbind
    · rw [List.zip_cons_cons, List.foldl_cons]
      exact hframes

/-- **Functions are called alike.** -/
theorem coupled_callFunction (hx : Executes x y) {id : FunctionId} {args : List Value}
    (hs : w.Sound) (hf : FunctionOk w id) (hargs : ∀ v ∈ args, ValueOk w v)
    (hlen : args.length = w.machine.heap.functionArity id) :
    Coupled none w (Machine.callFunction x id args) (callFunction y id args)
      fun w' a b => a = b ∧ ValueOk w' a := by
  obtain ⟨⟨⟨name, params, body⟩, outer, isInitializer⟩, env, ribs, htwin, hresolved, hthis⟩ := hf
  obtain ⟨hplain, hnodup, hbody⟩ := hresolved
  have hfunction : w.machine.heap.function id = ⟨⟨name, params, body⟩, outer, isInitializer⟩ := by
    rw [Heap.function, htwin.object]
    rfl
  rw [World.functionArity_of_twin htwin] at hlen
  -- the world in which the frame of the call is the current one, without parameters and with them
  have hs₀ : ((w.addFrame outer).moveTo w.nextFrame).Sound := hs.addFrame.moveTo
  have hw₀ : w.Grows none ((w.addFrame outer).moveTo w.nextFrame) :=
    World.grows_addFrame.trans World.grows_moveTo
  obtain ⟨w₁, env₁, hbind, hmachine, hframes, hw₁, hat⟩ := bindParams_declares params args hs₀
    (At.addFrame htwin.mirrors hs) hplain hnodup (fun _ _ rib hrib => by cases hrib; rfl)
    (fun v hv => (hargs v hv).mono hw₀) hlen
  have henv₁ : w₁.machine.environment = w.nextFrame := hw₁.environment
  have hback : (w₁.moveTo w.machine.environment).moveTo w.nextFrame = w₁ := by
    rw [World.moveTo_moveTo, World.moveTo_self henv₁]
  refine .after w (a := w.machine.heap) rfl (closure_of_twin htwin) (.refl hs) ?_
  rw [hfunction]
  refine .closing (w₁.moveTo w.machine.environment) (a := w.nextFrame) ?_ hbind
    ⟨(hw₀.closing hw₁.grows (Nat.le_refl _)).trans World.grows_moveTo, hw₁.sound.moveTo, rfl⟩
    (Nat.le_refl _) ?_
  · have hmade : w₁.frames = (w.frames.push ⟨Machine.bindParams params args, some outer⟩).2 :=
      hframes.trans (Frames.foldl_define_push w.frames (some outer) (params.zip args) .empty)
    rw [allocate_eq, World.moveTo, hmachine, hmade]
    rfl
  · have hrun : Coupled (some w.nextFrame) ((w₁.moveTo w.machine.environment).moveTo w.nextFrame)
        (Machine.runAll x body) (runAll y env₁ body) fun w' a b => a = b ∧ FlowOk w' a := by
      rw [hback, ← henv₁]
      refine coupled_runAll hx hw₁.sound hat ?_
      rw [hw₁.grows.distances, hw₁.grows.bound]
      exact hbody
    refine hrun.withFrame.bind fun flow flow' w₂ hw₂ hends => ?_
    obtain ⟨rfl, hok⟩ := hends
    have hw : w.Grows none w₂ := by
      refine hw₀.closing (hw₁.grows.trans ?_) (Nat.le_refl _)
      exact World.grows_moveTo.trans hw₂.grows
    cases isInitializer with
    | false =>
      have hok : FlowOk w₂ flow := hok.mono (World.grows_of_moveTo : World.Grows none _ _)
      exact .pure hw₂.sound ⟨rfl, hok.result⟩
    | true =>
      obtain ⟨_, _, v, hlookup, hout, -, hv, hbinding, hvok, -⟩ :=
        (htwin.mono hw).mirrors.read hw₂.sound (hthis rfl)
      have hreceiver : lookUp env ⟨thisName, 0⟩ w₂.state = .ok v w₂.state :=
        lookUp_of_some hlookup hv
      exact .step w₂ (Machine.Run.getAt_eq_ok hout hbinding) hreceiver (.refl hw₂.sound) ⟨rfl, hvok⟩

/-! ## Classes and values -/

theorem coupled_newInstance {id : ClassId} (hs : w.Sound) :
    Coupled none w (Machine.Run.allocate (·.newInstance id))
      (modifyGet fun s : State =>
        ((⟨s.instances.size⟩ : InstanceId), { s with instances := s.instances.push ⟨id, .empty⟩ }))
      fun w' a b => a = b ∧ w'.machine.heap.functions = w.machine.heap.functions ∧
        w'.machine.heap.classes = w.machine.heap.classes := by
  refine .step (w.withInstances (w.state.instances.push ⟨id, .empty⟩))
    (a := ⟨w.state.instances.size⟩) ?_ rfl
    ⟨World.grows_withInstances, hs.withInstances fun i o x v ho hv => ?_, rfl⟩ ⟨rfl, rfl, rfl⟩
  · rw [allocate_eq, World.withInstances, ← hs.sameObjects.instances]
    rfl
  · rw [Array.getElem?_push] at ho
    split at ho
    · cases ho
      cases hv
    · exact hs.sameObjects.fields i o x v ho hv

/-- **Classes are called alike.** -/
theorem coupled_construct (hx : Executes x y) {id : ClassId} {args : List Value} (hs : w.Sound)
    (hargs : ∀ v ∈ args, ValueOk w v) (hlen : args.length = w.machine.heap.arity (.cls id)) :
    Coupled none w (Machine.construct x id args) (construct y id args)
      fun w' a b => a = b ∧ ValueOk w' a := by
  refine (coupled_newInstance hs).bind fun receiver _ w₁ hw₁ hnew => ?_
  obtain ⟨rfl, hfunctions, hclasses⟩ := hnew
  have hagree : w.machine.heap.Agree w₁.machine.heap := ⟨fun i => by rw [hfunctions], hclasses⟩
  rw [← hagree.arity] at hlen
  refine Coupled.getHeap_left ?_
  refine Coupled.get_right ?_
  rw [hw₁.sound.agree.findMethod?]
  cases hinit : w₁.machine.heap.findMethod? id initializerName with
  | none => exact .pure hw₁.sound ⟨rfl, trivial⟩
  | some init =>
    simp only [Heap.arity, hinit] at hlen
    refine (coupled_bind hw₁.sound (hw₁.sound.methodOk_of_findMethod? hinit)).bind
      fun bound _ w₂ hw₂ hbound => ?_
    obtain ⟨rfl, hok, harity⟩ := hbound
    refine (coupled_callFunction hx hw₂.sound hok
      (fun v hv => (hargs v hv).mono (hw₁.grows.trans hw₂.grows)) (hlen.trans harity.symm)).bind
      fun _ _ w₃ hw₃ _ => ?_
    exact .pure hw₃.sound ⟨rfl, trivial⟩

theorem coupled_readClock (hs : w.Sound) :
    Coupled none w (Machine.callNative .clock) (callNative .clock)
      fun w' a b => a = b ∧ ValueOk w' a := by
  refine .step (w.withOutside w.machine.sink w.machine.flushes w.machine.clock.next) rfl ?_
    ⟨World.grows_withOutside, hs.withOutside, rfl⟩ ⟨rfl, trivial⟩
  show EStateM.Result.ok (Value.number w.state.clock.now)
    { w.state with clock := w.state.clock.next } = _
  rw [← hs.sameObjects.clock, World.withOutside, hs.sameObjects.sink]

/-- **Values are called alike**, with as many arguments as they take. -/
theorem coupled_callValue (hx : Executes x y) {line : Nat} {callee : Value} {args : List Value}
    (hs : w.Sound) (hcallee : ValueOk w callee) (hargs : ∀ v ∈ args, ValueOk w v) :
    Coupled none w (Machine.callValue x line callee args) (callValue y line callee args)
      fun w' a b => a = b ∧ ValueOk w' a := by
  unfold Machine.callValue callValue
  cases htarget : callee.callable? with
  | none => exact .fail hs nofun
  | some target =>
    refine Coupled.get_right ?_
    show Coupled none w (if args.length = w.machine.heap.arity target then _ else
      Machine.Run.fail (.argumentCount line (w.machine.heap.arity target) args.length)) _ _
    rw [hs.agree.arity]
    by_cases hlen : args.length = w.machine.heap.arity target
    · rw [if_pos hlen, if_pos hlen]
      cases callee with
      | native f =>
        cases htarget
        cases f
        exact coupled_readClock hs
      | function id =>
        cases htarget
        exact coupled_callFunction hx hs hcallee hargs hlen
      | cls id =>
        cases htarget
        exact coupled_construct hx hs hargs hlen
      | _ => cases htarget
    · rw [if_neg hlen, if_neg hlen]
      exact .fail hs nofun

end

end Lox.Lexical
