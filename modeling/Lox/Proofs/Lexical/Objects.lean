import Lox.Proofs.Heap
import Lox.Proofs.Lexical.Variables

/-!
# Objects on both sides

Making functions, classes and instances, binding methods, and finding properties.  A new frame that
binds one name is on the other side a new location and a map with one name more
(`World.addRib`): so it is for the receiver of a method and for the superclass of a class.
-/

namespace Lox.Lexical

/-! ## Questions to the heap -/

theorem World.Sound.agree {w : World} (hs : w.Sound) : w.machine.heap.Agree w.state.heap where
  declarations i := by
    rw [hs.sameObjects.alike i]
    simp only [State.heap, List.getElem?_toArray, List.getElem?_map, Option.map_map]
    rfl
  classes := hs.sameObjects.classes.symm

theorem World.Sound.methodOk_of_findMethod? {w : World} {id : ClassId} {name : String}
    {method : FunctionId} (hs : w.Sound)
    (h : w.machine.heap.findMethod? id name = some method) : MethodOk w method := by
  obtain ⟨i, c, hc, hmethod⟩ := Heap.exists_of_findMethod? h
  rw [hs.sameObjects.classes] at hc
  exact hs.sameObjects.methods i c name method hc hmethod

/-! ## One more rib -/

namespace World

/-- One more frame, which binds one name to a new location. -/
def addRib (w : World) (outer : FrameId) (x : String) (v : Value) : World :=
  w.withVariables (w.frames.push ⟨.single x v, some outer⟩).2 w.state.globals
    (w.state.store ++ [v]) (w.places ++ [(w.nextFrame, x)])

variable {w : World} {outer : FrameId} {x : String} {v : Value}

theorem addRib_eq (w : World) (outer : FrameId) (x : String) (v : Value) :
    w.addRib outer x v = (w.addFrame outer).declare w.nextFrame x v := by
  have hframes := Frames.define_push w.frames .empty (some outer) x v
  unfold declare
  rw [show (w.addFrame outer).frames.define w.nextFrame x v = _ from hframes]
  rfl

theorem grows_addRib : w.Grows none (w.addRib outer x v) := by
  rw [addRib_eq]
  exact grows_addFrame.closing grows_declare (Nat.le_refl _)

theorem Sound.nextFrame_ne (hs : w.Sound) : w.nextFrame ≠ w.machine.globals := by
  intro he
  have hlt := hs.lt_globals
  rw [← he] at hlt
  exact Nat.lt_irrefl _ hlt

theorem Sound.addRib (hs : w.Sound) (hv : ValueOk w v) (hfits : Fitting x v) :
    (w.addRib outer x v).Sound := by
  rw [addRib_eq]
  refine hs.addFrame.declare hs.nextFrame_ne ?_ ?_ (hv.mono grows_addFrame) hfits
  · show _ < (w.frames.all.push _).size
    rw [Array.size_push]
    exact Nat.lt_succ_self _
  · exact congrArg Option.isSome (Frames.binding?_push_self _ _)

theorem mirrors_addRib {names : List (String × Location)} {ribs : Ribs}
    (hm : Mirrors w outer names ribs) :
    Mirrors (w.addRib outer x v) w.nextFrame ((x, w.places.length) :: names)
      (.single x :: ribs) := by
  have hrib : Rib.none.add x = Rib.single x := by
    funext y
    simp [Rib.add, Rib.none, Rib.single]
  rw [addRib_eq, ← hrib]
  exact hm.addFrame.declare

end World

section
variable {opened : Option FrameId} {w : World} {env : Env} {ribs : Ribs}

/-! ## Methods of instances -/

theorem allocate_eq {α : Type} (make : Heap → α × Heap) (m : Machine) :
    Machine.Run.allocate make m = .ok (make m.heap).1 { m with heap := (make m.heap).2 } := rfl

theorem World.functionArity_of_twin {id : FunctionId} {f : FunctionObject}
    (h : Twin w id f env ribs) :
    w.machine.heap.functionArity id = f.declaration.params.length := by
  rw [Heap.functionArity, Heap.function, h.object, Option.getD_some]

theorem closure_of_twin {id : FunctionId} {f : FunctionObject} (h : Twin w id f env ribs) :
    closure id w.state = .ok ⟨f.declaration, env, f.isInitializer⟩ w.state := by
  rw [closure, Steps.get_bind, h.closure]
  rfl

theorem bindLocal_eq (hs : w.Sound) (x : String) (v : Value) :
    bindLocal env x v w.state = .ok (env.extend x w.places.length)
      { w.state with store := w.state.store ++ [v] } := by
  rw [← hs.sameVariables.length]
  rfl

/-- **A method bound to an instance** can be called, with as many arguments as the method. -/
theorem coupled_bind {method : FunctionId} {receiver : InstanceId} (hs : w.Sound)
    (hm : MethodOk w method) :
    Coupled none w (Machine.Run.allocate (·.bind method receiver)) (bind method receiver)
      fun w' a b => a = b ∧ FunctionOk w' a ∧
        w'.machine.heap.functionArity a = w.machine.heap.functionArity method := by
  obtain ⟨f, env, ribs, htwin, hresolved⟩ := hm
  have hs₁ : (w.addRib f.closure thisName (.inst receiver)).Sound :=
    hs.addRib trivial ⟨fun _ => ⟨receiver, rfl⟩, fun h => absurd h (by decide)⟩
  have hm₁ : Mirrors (w.addRib f.closure thisName (.inst receiver)) w.nextFrame
      (env.extend thisName w.places.length).names (.single thisName :: ribs) :=
    World.mirrors_addRib htwin.mirrors
  have htwin' := hs₁.twin_addFunction (f := { f with closure := w.nextFrame }) hm₁
  have hw : w.Becomes none ((w.addRib f.closure thisName (.inst receiver)).addFunction
      { f with closure := w.nextFrame } (env.extend thisName w.places.length)) :=
    ⟨World.grows_addRib.trans World.grows_addFunction, hs₁.addFunction, rfl⟩
  have hfunction : w.machine.heap.function method = f := by
    rw [Heap.function, htwin.object]
    rfl
  refine .step _ (a := w.nextFunction) (b := w.nextFunction) ?_ ?_ hw ⟨rfl, ?_, ?_⟩
  · have hnext : w.nextFunction = ⟨w.machine.heap.functions.size⟩ :=
      congrArg FunctionId.mk hs.sameObjects.functions.symm
    rw [hnext, allocate_eq, Heap.bind, hfunction]
    rfl
  · rw [bind, Steps.bind_of_ok (closure_of_twin htwin), Steps.bind_of_ok (bindLocal_eq hs _ _)]
    rfl
  · refine ⟨_, _, _, htwin', ?_, fun _ => ?_⟩
    · rw [hw.grows.distances, hw.grows.bound]
      exact hresolved
    · simp [Ribs.distance?_cons, Rib.single]
  · exact (World.functionArity_of_twin htwin').trans (World.functionArity_of_twin htwin).symm

/-- **A property has one value** on both sides. -/
theorem coupled_property {id : InstanceId} {name : Name} (hs : w.Sound) :
    Coupled none w (Machine.Run.property id name) (property id name)
      fun w' a b => a = b ∧ ValueOk w' a := by
  refine Coupled.getHeap_left ?_
  refine Coupled.get_right ?_
  rw [hs.agree.property? hs.sameObjects.instances.symm]
  cases hp : w.machine.heap.property? id name.text with
  | none => exact .fail hs nofun
  | some property =>
    cases property with
    | field v =>
      obtain ⟨i, o, ho, hv⟩ := Heap.exists_of_property?_field hp
      rw [hs.sameObjects.instances] at ho
      exact .pure hs ⟨rfl, hs.sameObjects.fields i o _ v ho hv⟩
    | method method =>
      have hm := hs.methodOk_of_findMethod? (Heap.findMethod?_of_property?_method hp)
      refine (coupled_bind hs hm).bind fun a b w' hw hq => ?_
      obtain ⟨hab, hok, -⟩ := hq
      exact .pure hw.sound ⟨congrArg Value.function hab, hok⟩

/-- **A method of the superclass** is the same on both sides. -/
theorem coupled_superMethod {keyword : Reference} {method : Name} {d : Nat} (hs : w.Sound)
    (hm : Mirrors w w.machine.environment env.names ribs)
    (hthis : ribs.distance? thisName = some d) (hsuper : ribs.distance? superName = some (d + 1))
    (hget : w.machine.distances.get? keyword.id = some (d + 1)) :
    Coupled none w (Machine.Run.superMethod keyword method)
      (superMethod env keyword.name method) fun w' a b => a = b ∧ ValueOk w' a := by
  obtain ⟨_, _, _, hlookup, hout, -, hv, hbinding, -, hfits⟩ := hm.read hs hsuper
  obtain ⟨parent, rfl⟩ := hfits.2 rfl
  obtain ⟨_, _, _, hlookup', hout', -, hv', hbinding', -, hfits'⟩ := hm.read hs hthis
  obtain ⟨receiver, rfl⟩ := hfits'.1 rfl
  have hparent : Machine.Run.superclassAt (d + 1) w.machine = .ok parent w.machine :=
    Machine.Run.superclassAt_eq_ok hout hbinding
  have hreceiver : Machine.Run.receiverAt d w.machine = .ok receiver w.machine :=
    Machine.Run.receiverAt_eq_ok hout' hbinding'
  refine Coupled.get_left ?_
  rw [hget]
  have hsuper' : lookUp env ⟨superName, keyword.name.line⟩ w.state = .ok (.cls parent) w.state :=
    lookUp_of_some hlookup hv
  have hthis' : lookUp env ⟨thisName, keyword.name.line⟩ w.state = .ok (.inst receiver) w.state :=
    lookUp_of_some hlookup' hv'
  refine .after w hparent hsuper' (.refl hs) ?_
  refine .after w hreceiver hthis' (.refl hs) ?_
  refine Coupled.getHeap_left ?_
  refine Coupled.get_right ?_
  rw [hs.agree.findMethod?]
  cases hfound : w.machine.heap.findMethod? parent method.text with
  | none => exact .fail hs nofun
  | some found =>
    have hm := hs.methodOk_of_findMethod? hfound
    refine (coupled_bind hs hm).bind fun a b w' hw hq => ?_
    obtain ⟨hab, hok, -⟩ := hq
    exact .pure hw.sound ⟨congrArg Value.function hab, hok⟩

end

end Lox.Lexical
