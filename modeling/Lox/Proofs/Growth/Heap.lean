import Lox.Proofs.Heap
import Lox.Proofs.Tokens

/-!
# How a heap grows

A running program changes the heap in six ways (`Heap.Change`): it writes to a name of its own in a
frame, it writes to a field, and it makes frames, functions, classes and instances of what is there.
A heap of which this is true from the beginning is `Formed`: what a frame is enclosed by and what a
class inherits from is older, a frame that binds `this` or `super` binds nothing else, and every
identity that is held anywhere is that of an object.  An initializer that is held is bound to an
instance; those that are not bound are in the tables of their classes alone.  What a change leaves
behind is what the heap has become (`Heap.Grows`): no link is ever set anew, no name and no field is
lost, and the frames of `this` and `super` stay as they were made.

Objects may well hold each other in a circle, since fields and names may be bound to anything.
-/

namespace Lox

/-! ## Frames -/

namespace Frame

/-- Whether a frame binds a name. -/
def Binds (frame : Frame) (x : String) : Prop :=
  (frame.bindings.get? x).isSome

/-- Whether all names that a frame binds are of the program's own. -/
def Open (frame : Frame) : Prop :=
  ∀ x, frame.Binds x → Plain x

/-- **Whether a frame is what another has become.** -/
structure Grows (frame frame' : Frame) : Prop where
  enclosing : frame'.enclosing = frame.enclosing
  names : ∀ x, frame.Binds x → frame'.Binds x
  opened : frame.Open → frame'.Open
  reserved : ∀ x, frame.Binds x → ¬Plain x → frame' = frame

variable {frame frame₁ frame₂ : Frame}

theorem Grows.refl (frame : Frame) : frame.Grows frame :=
  ⟨rfl, fun _ h => h, fun h => h, fun _ _ _ => rfl⟩

theorem Grows.trans (h : frame.Grows frame₁) (h' : frame₁.Grows frame₂) : frame.Grows frame₂ where
  enclosing := h'.enclosing.trans h.enclosing
  names x hx := h'.names x (h.names x hx)
  opened ho := h'.opened (h.opened ho)
  reserved x hx hp := (h'.reserved x (h.names x hx) hp).trans (h.reserved x hx hp)

theorem binds_put {x y : String} {v : Value}
    (h : Binds { frame with bindings := frame.bindings.put x v } y) : y = x ∨ frame.Binds y := by
  by_cases hy : y = x
  · exact .inl hy
  · refine .inr ?_
    unfold Binds at h ⊢
    rwa [Table.get?_put_of_ne _ v hy] at h

/-- **A name of the program's own** is written in a frame that binds no other names. -/
theorem Grows.put (h : frame.Open) {x : String} (v : Value) (hx : Plain x) :
    frame.Grows { frame with bindings := frame.bindings.put x v } where
  enclosing := rfl
  names y hy := by
    by_cases hyx : y = x
    · subst hyx
      exact Option.isSome_iff_exists.mpr ⟨v, Table.get?_put_self _ y v⟩
    · unfold Binds
      rwa [Table.get?_put_of_ne _ v hyx]
  opened _ y hy := (binds_put hy).elim (fun heq => heq ▸ hx) (h y)
  reserved y hy hp := absurd (h y hy) hp

end Frame

/-- Whether a frame is there and all names that it binds are of the program's own. -/
def Frames.OpenAt (frames : Frames) (id : FrameId) : Prop :=
  ∃ frame, frames.frame? id = some frame ∧ frame.Open

namespace Heap

/-! ## What becomes of a heap -/

/-- **Whether a heap is what another has become.** -/
structure Grows (heap heap' : Heap) : Prop where
  frames : ∀ id frame, heap.frames.frame? id = some frame →
    ∃ frame', heap'.frames.frame? id = some frame' ∧ frame.Grows frame'
  functions : ∀ (i : Nat) f, heap.functions[i]? = some f → heap'.functions[i]? = some f
  classes : ∀ (i : Nat) c, heap.classes[i]? = some c → heap'.classes[i]? = some c
  instances : ∀ (i : Nat) o, heap.instances[i]? = some o → ∃ o', heap'.instances[i]? = some o' ∧
    o'.classId = o.classId ∧ ∀ x, (o.fields.get? x).isSome → (o'.fields.get? x).isSome

variable {heap heap₁ heap₂ : Heap}

theorem Grows.refl (heap : Heap) : heap.Grows heap :=
  ⟨fun _ frame h => ⟨frame, h, .refl frame⟩, fun _ _ h => h, fun _ _ h => h,
    fun _ o h => ⟨o, h, rfl, fun _ hx => hx⟩⟩

theorem Grows.trans (h : heap.Grows heap₁) (h' : heap₁.Grows heap₂) : heap.Grows heap₂ where
  frames id frame hframe := by
    obtain ⟨frame₁, hframe₁, hgrows⟩ := h.frames id frame hframe
    obtain ⟨frame₂, hframe₂, hgrows'⟩ := h'.frames id frame₁ hframe₁
    exact ⟨frame₂, hframe₂, hgrows.trans hgrows'⟩
  functions i f hf := h'.functions i f (h.functions i f hf)
  classes i c hc := h'.classes i c (h.classes i c hc)
  instances i o ho := by
    obtain ⟨o₁, ho₁, hclass, hfields⟩ := h.instances i o ho
    obtain ⟨o₂, ho₂, hclass', hfields'⟩ := h'.instances i o₁ ho₁
    exact ⟨o₂, ho₂, hclass'.trans hclass, fun x hx => hfields' x (hfields x hx)⟩

theorem Grows.lt_frames (h : heap.Grows heap₁) {id : FrameId}
    (hid : id.index < heap.frames.all.size) : id.index < heap₁.frames.all.size := by
  obtain ⟨frame, hframe, -⟩ := h.frames id _ (Array.getElem?_eq_getElem hid)
  exact Frames.lt_of_frame? hframe

theorem Grows.lt_classes (h : heap.Grows heap₁) {i : Nat} (hi : i < heap.classes.size) :
    i < heap₁.classes.size :=
  (Array.getElem?_eq_some_iff.mp (h.classes i _ (Array.getElem?_eq_getElem hi))).1

theorem Grows.lt_instances (h : heap.Grows heap₁) {i : Nat} (hi : i < heap.instances.size) :
    i < heap₁.instances.size := by
  obtain ⟨o, ho, -⟩ := h.instances i _ (Array.getElem?_eq_getElem hi)
  exact (Array.getElem?_eq_some_iff.mp ho).1

theorem Grows.openAt (h : heap.Grows heap₁) {id : FrameId} (hid : heap.frames.OpenAt id) :
    heap₁.frames.OpenAt id := by
  obtain ⟨frame, hframe, hopen⟩ := hid
  obtain ⟨frame', hframe', hgrows⟩ := h.frames id frame hframe
  exact ⟨frame', hframe', hgrows.opened hopen⟩

theorem Grows.of_frames {frames : Frames}
    (h : ∀ id frame, heap.frames.frame? id = some frame →
      ∃ frame', frames.frame? id = some frame' ∧ frame.Grows frame') :
    heap.Grows { heap with frames } :=
  { Grows.refl heap with frames := h }

theorem size_lt_push {α : Type} (xs : Array α) (a : α) : xs.size < (xs.push a).size :=
  Nat.lt_of_lt_of_eq (Nat.lt_succ_self _) (Array.size_push a).symm

theorem getElem?_push_of_some {α : Type} {xs : Array α} {i : Nat} {a b : α} (h : xs[i]? = some a) :
    (xs.push b)[i]? = some a := by
  have hi := (Array.getElem?_eq_some_iff.mp h).1
  rw [Array.getElem?_push_lt hi, ← Array.getElem?_eq_getElem hi, h]

end Heap

/-! ## Functions that are there -/

namespace Heap

variable {heap heap₁ : Heap} {id : FunctionId} {receiver : InstanceId} {x : String}

/-- **Whether a function is bound to an instance**: its closure binds `this` to the instance, and
nothing else. -/
def BoundTo (heap : Heap) (id : FunctionId) (receiver : InstanceId) : Prop :=
  ∃ f outer, heap.functions[id.index]? = some f ∧
    heap.frames.frame? f.closure = some ⟨.single thisName (.inst receiver), outer⟩

/-- **Whether a function may be held**: it is there, and if it is an initializer then it is bound. -/
def Held (heap : Heap) (id : FunctionId) : Prop :=
  ∃ f, heap.functions[id.index]? = some f ∧
    (f.isInitializer = true → ∃ receiver, heap.BoundTo id receiver)

/-- Whether a function may be the method under a name: it is there, and it is an initializer if that
is the name of initializers. -/
def MethodUnder (heap : Heap) (x : String) (id : FunctionId) : Prop :=
  ∃ f, heap.functions[id.index]? = some f ∧ f.isInitializer = (x == initializerName)

theorem function_eq {f : FunctionObject} (h : heap.functions[id.index]? = some f) :
    heap.function id = f := by
  rw [function, h]
  rfl

theorem BoundTo.lt (h : heap.BoundTo id receiver) : id.index < heap.functions.size :=
  have ⟨_, _, hf, _⟩ := h
  (Array.getElem?_eq_some_iff.mp hf).1

theorem Held.lt (h : heap.Held id) : id.index < heap.functions.size :=
  have ⟨_, hf, _⟩ := h
  (Array.getElem?_eq_some_iff.mp hf).1

theorem MethodUnder.lt (h : heap.MethodUnder x id) : id.index < heap.functions.size :=
  have ⟨_, hf, _⟩ := h
  (Array.getElem?_eq_some_iff.mp hf).1

theorem MethodUnder.isInitializer (h : heap.MethodUnder x id) :
    (heap.function id).isInitializer = (x == initializerName) := by
  obtain ⟨f, hf, hnamed⟩ := h
  rw [function_eq hf, hnamed]

theorem function_bind (heap : Heap) (method : FunctionId) (receiver : InstanceId) :
    (heap.bind method receiver).2.function (heap.bind method receiver).1 =
      { heap.function method with closure := ⟨heap.frames.all.size⟩ } :=
  function_eq Array.getElem?_push_size

/-- **A method that is bound** to an instance is bound to it, -/
theorem boundTo_bind (heap : Heap) (method : FunctionId) (receiver : InstanceId) :
    (heap.bind method receiver).2.BoundTo (heap.bind method receiver).1 receiver :=
  ⟨_, _, Array.getElem?_push_size, Frames.frame?_push_self _ _⟩

/-- is an initializer if the method is one, -/
theorem isInitializer_bind (heap : Heap) (method : FunctionId) (receiver : InstanceId) :
    ((heap.bind method receiver).2.function (heap.bind method receiver).1).isInitializer =
      (heap.function method).isInitializer := by
  rw [function_bind]

/-- and declares what the method declares. -/
theorem declaration_bind (heap : Heap) (method : FunctionId) (receiver : InstanceId) :
    ((heap.bind method receiver).2.function (heap.bind method receiver).1).declaration =
      (heap.function method).declaration := by
  rw [function_bind]

theorem BoundTo.held (h : heap.BoundTo id receiver) : heap.Held id :=
  have ⟨f, _, hf, _⟩ := h
  ⟨f, hf, fun _ => ⟨receiver, h⟩⟩

theorem Held.bound (h : heap.Held id) (hinit : (heap.function id).isInitializer = true) :
    ∃ receiver, heap.BoundTo id receiver := by
  obtain ⟨f, hf, hbound⟩ := h
  rw [function_eq hf] at hinit
  exact hbound hinit

/-- The closure of a function that is bound binds `this` to the receiver. -/
theorem BoundTo.binding? (h : heap.BoundTo id receiver) :
    heap.frames.binding? (heap.function id).closure thisName = some (.inst receiver) := by
  obtain ⟨f, outer, hf, hframe⟩ := h
  rw [function_eq hf, Frames.binding?, hframe]
  rfl

/-- **A function that is bound stays bound** to its receiver, since nothing is written to its
closure. -/
theorem Grows.boundTo (h : heap.Grows heap₁) (hbound : heap.BoundTo id receiver) :
    heap₁.BoundTo id receiver := by
  obtain ⟨f, outer, hf, hframe⟩ := hbound
  obtain ⟨frame, hframe₁, hgrows⟩ := h.frames _ _ hframe
  have hthis : Frame.Binds ⟨.single thisName (.inst receiver), outer⟩ thisName := rfl
  have hsame := hgrows.reserved thisName hthis fun hplain => hplain.1 rfl
  rw [hsame] at hframe₁
  exact ⟨f, outer, h.functions _ _ hf, hframe₁⟩

theorem Grows.function (h : heap.Grows heap₁) (hid : id.index < heap.functions.size) :
    heap₁.function id = heap.function id := by
  have hf := Array.getElem?_eq_getElem hid
  rw [function_eq hf, function_eq (h.functions _ _ hf)]

theorem Grows.held (h : heap.Grows heap₁) (hheld : heap.Held id) : heap₁.Held id :=
  have ⟨f, hf, hbound⟩ := hheld
  ⟨f, h.functions _ _ hf, fun hinit =>
    have ⟨receiver, hreceiver⟩ := hbound hinit
    ⟨receiver, h.boundTo hreceiver⟩⟩

theorem Grows.methodUnder (h : heap.Grows heap₁) (hmethod : heap.MethodUnder x id) :
    heap₁.MethodUnder x id :=
  have ⟨f, hf, hnamed⟩ := hmethod
  ⟨f, h.functions _ _ hf, hnamed⟩

/-! ## Instances of a class -/

/-- Whether an instance is there and is of this class. -/
def InstanceOf (heap : Heap) (instanceId : InstanceId) (classId : ClassId) : Prop :=
  ∃ o, heap.instances[instanceId.index]? = some o ∧ o.classId = classId

variable {instanceId : InstanceId} {classId : ClassId}

theorem InstanceOf.lt (h : heap.InstanceOf instanceId classId) :
    instanceId.index < heap.instances.size :=
  have ⟨_, ho, _⟩ := h
  (Array.getElem?_eq_some_iff.mp ho).1

/-- **An instance is of its class** for good. -/
theorem Grows.instanceOf (h : heap.Grows heap₁) (hof : heap.InstanceOf instanceId classId) :
    heap₁.InstanceOf instanceId classId := by
  obtain ⟨o, ho, hclass⟩ := hof
  obtain ⟨o₁, ho₁, hsame, -⟩ := h.instances _ o ho
  exact ⟨o₁, ho₁, hsame.trans hclass⟩

end Heap

/-! ## Objects that are there -/

/-- Whether the object for which a value stands is in a heap, and may be held. -/
def Value.In (heap : Heap) : Value → Prop
  | .function id => heap.Held id
  | .cls id => id.index < heap.classes.size
  | .inst id => id.index < heap.instances.size
  | _ => True

theorem Value.In.mono {heap heap₁ : Heap} {v : Value} (hv : v.In heap) (h : heap.Grows heap₁) :
    v.In heap₁ := by
  cases v with
  | function id => exact h.held hv
  | cls id => exact h.lt_classes hv
  | inst id => exact h.lt_instances hv
  | _ => trivial

namespace Heap

/-- **Whether a heap is formed** around its outermost frame, with functions that are known. -/
structure Formed (known : FunctionDecl → Prop) (globals : FrameId) (heap : Heap) : Prop where
  outermost : ∃ frame, heap.frames.frame? globals = some frame ∧ frame.Open ∧
    frame.enclosing = none
  enclosed : ∀ id frame, heap.frames.frame? id = some frame → id = globals ∨
    ∃ outer, frame.enclosing = some outer ∧ outer.index < id.index
  alone : ∀ id frame x, heap.frames.frame? id = some frame → frame.Binds x → ¬Plain x →
    ∀ y, frame.Binds y → y = x
  bindings : ∀ id x v, heap.frames.binding? id x = some v → v.In heap
  functions : ∀ (i : Nat) f, heap.functions[i]? = some f →
    known f.declaration ∧ f.closure.index < heap.frames.all.size
  parents : ∀ (i : Nat) c parent, heap.classes[i]? = some c → c.superclass = some parent →
    parent.index < i
  methods : ∀ (i : Nat) c x id, heap.classes[i]? = some c → c.methods.get? x = some id →
    heap.MethodUnder x id
  classes : ∀ (i : Nat) o, heap.instances[i]? = some o → o.classId.index < heap.classes.size
  fields : ∀ (i : Nat) o x v, heap.instances[i]? = some o → o.fields.get? x = some v → v.In heap

/-- **One change** that a program can make to a heap. -/
inductive Change (known : FunctionDecl → Prop) (heap : Heap) : Heap → Prop
  | bind {frame : FrameId} {x : String} {v : Value} (hx : Plain x)
      (hframe : heap.frames.OpenAt frame ∨ (heap.frames.binding? frame x).isSome)
      (hv : v.In heap) : Change known heap { heap with frames := heap.frames.define frame x v }
  | frame {outer : FrameId} {bindings : Table Value} (houter : outer.index < heap.frames.all.size)
      (halone : ∀ x, Frame.Binds ⟨bindings, some outer⟩ x → ¬Plain x →
        ∀ y, Frame.Binds ⟨bindings, some outer⟩ y → y = x)
      (hbindings : ∀ x v, bindings.get? x = some v → v.In heap) :
      Change known heap (heap.newFrame (some outer) bindings).2
  | function {f : FunctionObject} (hknown : known f.declaration)
      (hclosure : f.closure.index < heap.frames.all.size) :
      Change known heap (heap.newFunction f).2
  | classObject {c : ClassObject}
      (hparent : ∀ parent, c.superclass = some parent → parent.index < heap.classes.size)
      (hmethods : ∀ x id, c.methods.get? x = some id → heap.MethodUnder x id) :
      Change known heap (heap.newClass c).2
  | instanceObject {id : ClassId} (hid : id.index < heap.classes.size) :
      Change known heap (heap.newInstance id).2
  | field {id : InstanceId} {x : String} {v : Value} (hv : v.In heap) :
      Change known heap (heap.setField id x v)

variable {known : FunctionDecl → Prop} {globals : FrameId} {heap heap₁ : Heap}

namespace Formed

theorem openAt_globals (h : heap.Formed known globals) : heap.frames.OpenAt globals := by
  obtain ⟨frame, hframe, hopen, -⟩ := h.outermost
  exact ⟨frame, hframe, hopen⟩

/-- A frame that binds a name of the program's own binds no others. -/
theorem openAt_of_binding? (h : heap.Formed known globals) {id : FrameId} {x : String}
    (hx : Plain x) (hbinds : (heap.frames.binding? id x).isSome) : heap.frames.OpenAt id := by
  unfold Frames.binding? at hbinds
  cases hframe : heap.frames.frame? id with
  | none => rw [hframe] at hbinds; cases hbinds
  | some frame =>
    rw [hframe] at hbinds
    refine ⟨frame, hframe, fun y hy => ?_⟩
    by_cases hp : Plain y
    · exact hp
    · exact h.alone id frame y hframe hy hp x hbinds ▸ hx

/-! ## What a change leaves behind -/

/-- **Every change is growth.** -/
theorem grows (h : heap.Formed known globals) (hc : Change known heap heap₁) :
    heap.Grows heap₁ := by
  cases hc with
  | @bind frame x v hx hframe hv =>
    have hopen : heap.frames.OpenAt frame := hframe.elim id (h.openAt_of_binding? hx)
    refine .of_frames fun id found hfound => ?_
    rw [Frames.frame?_define]
    split
    next hsame =>
      obtain ⟨found', hfound', hfree⟩ := hopen
      have hid : id = frame := by cases id; cases frame; exact congrArg FrameId.mk hsame.symm
      subst hid
      cases hfound.symm.trans hfound'
      exact ⟨_, by rw [hfound]; rfl, .put hfree v hx⟩
    next => exact ⟨found, hfound, .refl found⟩
  | frame houter halone hbindings =>
    exact .of_frames fun id found hfound => ⟨found,
      (Frames.frame?_push_of_lt (Frames.lt_of_frame? hfound)).trans hfound, .refl found⟩
  | function hknown hclosure =>
    exact { Grows.refl heap with functions := fun _ _ => getElem?_push_of_some }
  | classObject hparent hmethods =>
    exact { Grows.refl heap with classes := fun _ _ => getElem?_push_of_some }
  | instanceObject hid =>
    exact { Grows.refl heap with
      instances := fun _ o ho => ⟨o, getElem?_push_of_some ho, rfl, fun _ hx => hx⟩ }
  | @field id x v hv =>
    refine { Grows.refl heap with instances := fun i o ho => ?_ }
    show ∃ o', (heap.instances.modify id.index _)[i]? = some o' ∧ _
    rw [Array.getElem?_modify, ho]
    split
    · refine ⟨_, rfl, rfl, fun y hy => ?_⟩
      by_cases hyx : y = x
      · subst hyx
        exact Option.isSome_iff_exists.mpr ⟨v, Table.get?_put_self _ y v⟩
      · rwa [Table.get?_put_of_ne _ v hyx]
    · exact ⟨o, rfl, rfl, fun _ hy => hy⟩

/-- What is known of a grown heap whose frames and fields are new: everything else is as before. -/
theorem of_grows (h : heap.Formed known globals) (hgrows : heap.Grows heap₁)
    (hfunctions : heap₁.functions = heap.functions) (hclasses : heap₁.classes = heap.classes)
    (henclosed : ∀ id frame, heap₁.frames.frame? id = some frame → id = globals ∨
      ∃ outer, frame.enclosing = some outer ∧ outer.index < id.index)
    (halone : ∀ id frame x, heap₁.frames.frame? id = some frame → frame.Binds x → ¬Plain x →
      ∀ y, frame.Binds y → y = x)
    (hbindings : ∀ id x v, heap₁.frames.binding? id x = some v →
      heap.frames.binding? id x = some v ∨ v.In heap)
    (hinstances : ∀ (i : Nat) o, heap₁.instances[i]? = some o →
      o.classId.index < heap.classes.size ∧ ∀ x v, o.fields.get? x = some v → v.In heap) :
    heap₁.Formed known globals where
  outermost := by
    obtain ⟨frame, hframe, hopen, hnone⟩ := h.outermost
    obtain ⟨frame', hframe', hg⟩ := hgrows.frames _ _ hframe
    exact ⟨frame', hframe', hg.opened hopen, hg.enclosing.trans hnone⟩
  enclosed := henclosed
  alone := halone
  bindings id x v hv := (hbindings id x v hv).elim
    (fun hold => (h.bindings id x v hold).mono hgrows) fun hin => hin.mono hgrows
  functions i f hf := by
    rw [hfunctions] at hf
    exact ⟨(h.functions i f hf).1, hgrows.lt_frames (h.functions i f hf).2⟩
  parents i c parent hc := by
    rw [hclasses] at hc
    exact h.parents i c parent hc
  methods i c x id hc hx := by
    rw [hclasses] at hc
    exact hgrows.methodUnder (h.methods i c x id hc hx)
  classes i o ho := hgrows.lt_classes (hinstances i o ho).1
  fields i o x v ho hv := ((hinstances i o ho).2 x v hv).mono hgrows

theorem instances (h : heap.Formed known globals) (i : Nat) (o : InstanceObject)
    (ho : heap.instances[i]? = some o) : o.classId.index < heap.classes.size ∧
      ∀ x v, o.fields.get? x = some v → v.In heap :=
  ⟨h.classes i o ho, fun x v hv => h.fields i o x v ho hv⟩

theorem bind (h : heap.Formed known globals) {frame : FrameId} {x : String} {v : Value}
    (hgrows : heap.Grows { heap with frames := heap.frames.define frame x v }) (hx : Plain x)
    (hopen : heap.frames.OpenAt frame) (hv : v.In heap) :
    Formed known globals { heap with frames := heap.frames.define frame x v } := by
  have hframes : ∀ id found, (heap.frames.define frame x v).frame? id = some found →
      heap.frames.frame? id = some found ∨
        ∃ old, heap.frames.frame? id = some old ∧ old.Open ∧
          found = { old with bindings := old.bindings.put x v } := by
    intro id found hfound
    rw [Frames.frame?_define] at hfound
    split at hfound
    next hsame =>
      obtain ⟨old, hold, rfl⟩ := Option.map_eq_some_iff.mp hfound
      obtain ⟨old', hold', hfree⟩ := hopen
      have hid : id = frame := by cases id; cases frame; exact congrArg FrameId.mk hsame.symm
      subst hid
      cases hold.symm.trans hold'
      exact .inr ⟨old, hold, hfree, rfl⟩
    next => exact .inl hfound
  refine h.of_grows hgrows rfl rfl ?_ ?_ ?_ h.instances
  · intro id found hfound
    rcases hframes id found hfound with hold | ⟨old, hold, -, rfl⟩
    · exact h.enclosed id found hold
    · exact h.enclosed id old hold
  · intro id found y hfound hy hp
    rcases hframes id found hfound with hold | ⟨old, hold, hfree, rfl⟩
    · exact h.alone id found y hold hy hp
    · exact absurd ((Frame.Grows.put hfree v hx).opened hfree y hy) hp
  · intro id y u hu
    exact (Frames.binding?_define_cases hu).imp_right fun hsame => by rw [hsame]; exact hv

theorem frame (h : heap.Formed known globals) {outer : FrameId} {bindings : Table Value}
    (hgrows : heap.Grows (heap.newFrame (some outer) bindings).2)
    (houter : outer.index < heap.frames.all.size)
    (halone : ∀ x, Frame.Binds ⟨bindings, some outer⟩ x → ¬Plain x →
      ∀ y, Frame.Binds ⟨bindings, some outer⟩ y → y = x)
    (hbindings : ∀ x v, bindings.get? x = some v → v.In heap) :
    Formed known globals (heap.newFrame (some outer) bindings).2 := by
  have hframes : ∀ id found,
      (heap.newFrame (some outer) bindings).2.frames.frame? id = some found →
        heap.frames.frame? id = some found ∨
          id.index = heap.frames.all.size ∧ found = ⟨bindings, some outer⟩ := by
    intro id found hfound
    have hfound : (heap.frames.push _).2.frame? id = some found := hfound
    rw [Frames.frame?_push] at hfound
    split at hfound
    next hid => exact .inr ⟨hid, (Option.some.inj hfound).symm⟩
    next => exact .inl hfound
  refine h.of_grows hgrows rfl rfl ?_ ?_ ?_ h.instances
  · intro id found hfound
    rcases hframes id found hfound with hold | ⟨hid, rfl⟩
    · exact h.enclosed id found hold
    · exact .inr ⟨outer, rfl, hid ▸ houter⟩
  · intro id found x hfound hx hp
    rcases hframes id found hfound with hold | ⟨-, rfl⟩
    · exact h.alone id found x hold hx hp
    · exact halone x hx hp
  · intro id x v hv
    unfold Frames.binding? at hv ⊢
    cases hfound : (heap.newFrame (some outer) bindings).2.frames.frame? id with
    | none => rw [hfound] at hv; cases hv
    | some found =>
      rw [hfound] at hv
      rcases hframes id found hfound with hold | ⟨-, rfl⟩
      · rw [hold]
        exact .inl hv
      · exact .inr (hbindings x v hv)

theorem function (h : heap.Formed known globals) {f : FunctionObject}
    (hgrows : heap.Grows (heap.newFunction f).2) (hknown : known f.declaration)
    (hclosure : f.closure.index < heap.frames.all.size) :
    Formed known globals (heap.newFunction f).2 where
  outermost := h.outermost
  enclosed := h.enclosed
  alone := h.alone
  bindings id x v hv := (h.bindings id x v hv).mono hgrows
  functions i g hg := by
    have hg : (heap.functions.push f)[i]? = some g := hg
    rw [Array.getElem?_push] at hg
    split at hg
    · cases hg
      exact ⟨hknown, hclosure⟩
    · exact h.functions i g hg
  parents := h.parents
  methods i c x id hc hx := hgrows.methodUnder (h.methods i c x id hc hx)
  classes := h.classes
  fields i o x v ho hv := (h.fields i o x v ho hv).mono hgrows

theorem classObject (h : heap.Formed known globals) {c : ClassObject}
    (hgrows : heap.Grows (heap.newClass c).2)
    (hparent : ∀ parent, c.superclass = some parent → parent.index < heap.classes.size)
    (hmethods : ∀ x id, c.methods.get? x = some id → heap.MethodUnder x id) :
    Formed known globals (heap.newClass c).2 := by
  have hclasses : ∀ (i : Nat) d, (heap.newClass c).2.classes[i]? = some d →
      heap.classes[i]? = some d ∨ i = heap.classes.size ∧ d = c := by
    intro i d hd
    have hd : (heap.classes.push c)[i]? = some d := hd
    rw [Array.getElem?_push] at hd
    split at hd
    next hi => exact .inr ⟨hi, (Option.some.inj hd).symm⟩
    next => exact .inl hd
  exact {
    outermost := h.outermost
    enclosed := h.enclosed
    alone := h.alone
    bindings := fun id x v hv => (h.bindings id x v hv).mono hgrows
    functions := h.functions
    parents := fun i d parent hd hs => by
      rcases hclasses i d hd with hold | ⟨rfl, rfl⟩
      · exact h.parents i d parent hold hs
      · exact hparent parent hs
    methods := fun i d x id hd hx => by
      rcases hclasses i d hd with hold | ⟨-, rfl⟩
      · exact hgrows.methodUnder (h.methods i d x id hold hx)
      · exact hgrows.methodUnder (hmethods x id hx)
    classes := fun i o ho => hgrows.lt_classes (h.classes i o ho)
    fields := fun i o x v ho hv => (h.fields i o x v ho hv).mono hgrows }

theorem instanceObject (h : heap.Formed known globals) {id : ClassId}
    (hgrows : heap.Grows (heap.newInstance id).2) (hid : id.index < heap.classes.size) :
    Formed known globals (heap.newInstance id).2 := by
  refine h.of_grows hgrows rfl rfl h.enclosed h.alone (fun _ _ _ hv => .inl hv) fun i o ho => ?_
  have ho : (heap.instances.push ⟨id, .empty⟩)[i]? = some o := ho
  rw [Array.getElem?_push] at ho
  split at ho
  · cases ho
    exact ⟨hid, nofun⟩
  · exact h.instances i o ho

theorem field (h : heap.Formed known globals) {id : InstanceId} {x : String} {v : Value}
    (hgrows : heap.Grows (heap.setField id x v)) (hv : v.In heap) :
    Formed known globals (heap.setField id x v) := by
  refine h.of_grows hgrows rfl rfl h.enclosed h.alone (fun _ _ _ hu => .inl hu) fun i o ho => ?_
  obtain ⟨old, hold, hclass, hfields⟩ := exists_of_getElem?_setField ho
  obtain ⟨hid, hvalues⟩ := h.instances i old hold
  refine ⟨hclass ▸ hid, fun y u hu => ?_⟩
  rcases hfields y u hu with rfl | hu
  · exact hv
  · exact hvalues y u hu

/-- **Every change leaves a formed heap formed.** -/
theorem step (h : heap.Formed known globals) (hc : Change known heap heap₁) :
    heap₁.Formed known globals := by
  have hgrows := h.grows hc
  cases hc with
  | bind hx hframe hv => exact h.bind hgrows hx (hframe.elim id (h.openAt_of_binding? hx)) hv
  | frame houter halone hbindings => exact h.frame hgrows houter halone hbindings
  | function hknown hclosure => exact h.function hgrows hknown hclosure
  | classObject hparent hmethods => exact h.classObject hgrows hparent hmethods
  | instanceObject hid => exact h.instanceObject hgrows hid
  | field hv => exact h.field hgrows hv

end Formed

/-! ## Walks -/

/-- **Whether a list is the way from an object along its links**, to the object that has none. -/
inductive Way {α : Type} (next : α → Option α) : α → List α → Prop
  | last {a : α} (hnext : next a = none) : Way next a [a]
  | step {a b : α} {way : List α} (hnext : next a = some b) (hway : Way next b way) :
      Way next a (a :: way)

/-- The class from which a class inherits. -/
def superclass? (heap : Heap) (id : ClassId) : Option ClassId :=
  (heap.classObject id).superclass

namespace Formed

theorem enclosing? (h : heap.Formed known globals) {id : FrameId}
    (hid : id.index < heap.frames.all.size) :
    id = globals ∧ heap.frames.enclosing? id = none ∨
      ∃ outer, heap.frames.enclosing? id = some outer ∧ outer.index < id.index := by
  have hframe : heap.frames.frame? id = some _ := Array.getElem?_eq_getElem hid
  rcases h.enclosed id _ hframe with rfl | ⟨outer, houter, hlt⟩
  · obtain ⟨frame, hframe', -, hnone⟩ := h.outermost
    exact .inl ⟨rfl, by rw [Frames.enclosing?, hframe']; exact hnone⟩
  · exact .inr ⟨outer, by rw [Frames.enclosing?, hframe]; exact houter, hlt⟩

/-- **The way out of a frame** is the whole way along its links, and leads to the outermost frame. -/
theorem way_path (h : heap.Formed known globals) (id : FrameId)
    (hid : id.index < heap.frames.all.size) :
    Way heap.frames.enclosing? id (heap.frames.path id) ∧
      (heap.frames.path id).getLast? = some globals := by
  rw [Frames.path]
  rcases h.enclosing? hid with ⟨rfl, hnone⟩ | ⟨outer, houter, hlt⟩
  · simp only [hnone]
    exact ⟨.last hnone, rfl⟩
  · obtain ⟨hway, hlast⟩ := way_path h outer (Nat.lt_trans hlt hid)
    simp only [houter, if_pos hlt]
    exact ⟨.step houter hway, by rw [List.getLast?_cons, hlast]; rfl⟩
termination_by id.index

theorem superclass_lt (h : heap.Formed known globals) {id parent : ClassId}
    (hparent : heap.superclass? id = some parent) : parent.index < id.index := by
  unfold superclass? Heap.classObject at hparent
  cases hc : heap.classes[id.index]? with
  | none => rw [hc] at hparent; cases hparent
  | some c =>
    rw [hc] at hparent
    exact h.parents id.index c parent hc hparent

/-- **The line of a class** is the whole way along what is inherited from. -/
theorem way_lineage (h : heap.Formed known globals) (id : ClassId) :
    Way heap.superclass? id (heap.lineage id) := by
  rw [lineage]
  cases hparent : heap.superclass? id with
  | none =>
    have hnone : (heap.classObject id).superclass = none := hparent
    simp only [hnone]
    exact .last hparent
  | some parent =>
    have hlt := h.superclass_lt hparent
    have hsome : (heap.classObject id).superclass = some parent := hparent
    simp only [hsome, if_pos hlt]
    exact .step hparent (way_lineage h parent)
termination_by id.index

end Formed

theorem Grows.classObject (h : heap.Grows heap₁) {id : ClassId}
    (hid : id.index < heap.classes.size) : heap₁.classObject id = heap.classObject id := by
  have hc := Array.getElem?_eq_getElem hid
  rw [Heap.classObject, Heap.classObject, hc, h.classes _ _ hc]

/-- Classes that are there inherit from the same classes for good, -/
theorem Grows.lineage (h : heap.Grows heap₁) (hformed : heap.Formed known globals) (id : ClassId)
    (hid : id.index < heap.classes.size) : heap₁.lineage id = heap.lineage id ∧
      ∀ owner ∈ heap.lineage id, owner.index < heap.classes.size := by
  rw [Heap.lineage, Heap.lineage, h.classObject hid]
  cases hparent : heap.superclass? id with
  | none =>
    have hnone : (heap.classObject id).superclass = none := hparent
    simp only [hnone]
    exact ⟨trivial, fun owner howner => List.mem_singleton.mp howner ▸ hid⟩
  | some parent =>
    have hlt := hformed.superclass_lt hparent
    obtain ⟨hothers, hin⟩ := Grows.lineage h hformed parent (Nat.lt_trans hlt hid)
    have hsome : (heap.classObject id).superclass = some parent := hparent
    simp only [hsome, if_pos hlt, hothers]
    exact ⟨trivial, List.forall_mem_cons.mpr ⟨hid, hin⟩⟩
termination_by id.index

/-- **and have the same methods** for good. -/
theorem Grows.findMethod? (h : heap.Grows heap₁) (hformed : heap.Formed known globals)
    {id : ClassId} (hid : id.index < heap.classes.size) (name : String) :
    heap₁.findMethod? id name = heap.findMethod? id name := by
  obtain ⟨hlineage, hin⟩ := h.lineage hformed id hid
  rw [Heap.findMethod?, Heap.findMethod?, hlineage]
  have hown : ∀ owner ∈ heap.lineage id, (heap₁.classObject owner).methods.get? name =
      (heap.classObject owner).methods.get? name :=
    fun owner howner => by rw [h.classObject (hin owner howner)]
  generalize heap.lineage id = owners at hown
  induction owners with
  | nil => rfl
  | cons owner others ih =>
    obtain ⟨hfirst, hothers⟩ := List.forall_mem_cons.mp hown
    simp only [List.findSome?_cons, hfirst, ih hothers]

end Heap

end Lox
