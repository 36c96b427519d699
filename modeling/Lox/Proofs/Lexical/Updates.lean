import Lox.Proofs.Lexical.World

/-!
# What running does to both sides

Every step of a running program changes a world in one of a few ways: it writes to a variable,
declares one, makes a frame or an object, writes to a field, or prints.  Each way is an operation on
worlds here, with two facts: the world grows, and it stays sound.
-/

namespace Lox.Lexical

namespace World

/-- The world with other variables. -/
def withVariables (w : World) (frames : Frames) (globals : Table Value) (store : List Value)
    (places : List (FrameId × String)) : World where
  machine := { w.machine with heap := { w.machine.heap with frames } }
  state := { w.state with globals, store }
  places := places
  bound := w.bound

/-- The world with another sink, which was flushed so often, and another clock. -/
def withOutside (w : World) (sink : Sink) (flushes : Nat) (clock : Clock) : World :=
  { w with
    machine := { w.machine with sink, flushes, clock }
    state := { w.state with sink, clock } }

/-- A location and its place get another value. -/
def write (w : World) (location : Location) (g : FrameId) (x : String) (v : Value) : World :=
  w.withVariables (w.frames.define g x v) w.state.globals (w.state.store.set location v) w.places

/-- An outermost variable gets a value. -/
def writeGlobal (w : World) (x : String) (v : Value) : World :=
  w.withVariables (w.frames.define w.machine.globals x v) (w.state.globals.put x v) w.state.store
    w.places

/-- A frame binds a name more, which gets a new location. -/
def declare (w : World) (g : FrameId) (x : String) (v : Value) : World :=
  w.withVariables (w.frames.define g x v) w.state.globals (w.state.store ++ [v])
    (w.places ++ [(g, x)])

/-- The identity of the next frame. -/
def nextFrame (w : World) : FrameId := ⟨w.frames.all.size⟩

/-- One more frame, which binds nothing yet. -/
def addFrame (w : World) (outer : FrameId) : World :=
  w.withVariables (w.frames.push ⟨.empty, some outer⟩).2 w.state.globals w.state.store w.places

/-- The identity of the next function. -/
def nextFunction (w : World) : FunctionId := ⟨w.state.functions.length⟩

/-- One more function. -/
def addFunction (w : World) (f : FunctionObject) (env : Env) : World :=
  { w with
    machine := { w.machine with heap := { w.machine.heap with
      functions := w.machine.heap.functions.push f } }
    state := { w.state with
      functions := w.state.functions ++ [⟨f.declaration, env, f.isInitializer⟩] } }

/-- One more class. -/
def addClass (w : World) (c : ClassObject) : World :=
  { w with
    machine := { w.machine with heap := { w.machine.heap with
      classes := w.machine.heap.classes.push c } }
    state := { w.state with classes := w.state.classes.push c } }

/-- Other instances. -/
def withInstances (w : World) (instances : Array InstanceObject) : World :=
  { w with
    machine := { w.machine with heap := { w.machine.heap with instances } }
    state := { w.state with instances } }

end World

section
variable {opened : Option FrameId} {w w' : World}

/-! ## Variables -/

theorem ne_or_ne_of_ne {α β : Type} [DecidableEq α] {a a' : α} {b b' : β}
    (h : (a, b) ≠ (a', b')) : a ≠ a' ∨ b ≠ b' := by
  by_cases ha : a = a'
  · exact .inr fun hb => h (by rw [ha, hb])
  · exact .inl ha

theorem World.SameObjects.withVariables {frames : Frames} {globals : Table Value}
    {store : List Value} {places : List (FrameId × String)} (h : w.SameObjects)
    (hw : w.Grows opened (w.withVariables frames globals store places)) :
    (w.withVariables frames globals store places).SameObjects :=
  { h with
    methods := fun i c x id hc hx => (h.methods i c x id hc hx).mono hw
    fields := fun i o x v ho hx => (h.fields i o x v ho hx).mono hw }

/-- Frames grow where a name is bound if they bind it already, or are open. -/
theorem World.Grows.define {g : FrameId} {x : String} {v : Value} {globals : Table Value}
    {store : List Value} {places : List (FrameId × String)}
    (hg : (w.frames.binding? g x).isSome ∨ opened = some g)
    (hplaces : ∀ (location : Nat) place, w.places[location]? = some place →
      places[location]? = some place) :
    w.Grows opened (w.withVariables (w.frames.define g x v) globals store places) where
  places := hplaces
  size := Nat.le_of_eq Frames.size_define.symm
  enclosing _ _ h := Frames.enclosing?_define.trans h
  names g' _ hne y := by
    rcases hg with hg | rfl
    · exact Frames.isSome_binding?_define hg
    · have hne : g' ≠ g := by
        rintro rfl
        exact hne rfl
      exact congrArg Option.isSome (Frames.binding?_define_of_ne (.inl hne))
  objects _ _ h := h
  closures _ _ h := h
  globals := rfl
  distances := rfl
  bound := rfl

theorem World.Sound.grows_write {location : Location} {g : FrameId} {x : String} {v : Value}
    (h : w.Sound) (hplace : w.places[location]? = some (g, x)) :
    w.Grows opened (w.write location g x v) := by
  obtain ⟨-, old, -, hbinding, -, -⟩ := h.sameVariables.stored location g x hplace
  refine World.Grows.define (.inl ?_) fun _ _ h => h
  rw [hbinding]
  rfl

/-- **A write to a location and its place** keeps a world sound. -/
theorem World.Sound.write {location : Location} {g : FrameId} {x : String} {v : Value}
    (h : w.Sound) (hplace : w.places[location]? = some (g, x)) (hv : ValueOk w v)
    (hfits : Fitting x v) : (w.write location g x v).Sound := by
  have hw : w.Grows none (w.write location g x v) := h.grows_write hplace
  have hs := h.sameVariables
  have hbelow : location < w.state.store.length := by
    rw [hs.length]
    exact (List.getElem?_eq_some_iff.mp hplace).1
  refine ⟨⟨?_, hs.apart, fun location' g' y hplace' => ?_, ?_, fun y u hu => ?_⟩,
    h.sameObjects.withVariables hw⟩
  · exact List.length_set.trans hs.length
  · obtain ⟨hne, u, hu, hbinding, hok, hfits'⟩ := hs.stored location' g' y hplace'
    refine ⟨hne, ?_⟩
    by_cases he : location = location'
    · subst he
      cases hplace.symm.trans hplace'
      exact ⟨v, List.getElem?_set_self hbelow,
        Frames.binding?_define_self (Frames.lt_of_binding? hbinding), hv.mono hw, hfits⟩
    · refine ⟨u, (List.getElem?_set_ne he).trans hu, ?_, hok.mono hw, hfits'⟩
      refine (Frames.binding?_define_of_ne (ne_or_ne_of_ne ?_)).trans hbinding
      rintro ⟨⟩
      exact he (hs.apart location location' _ hplace hplace')
  · exact (Frames.frame?_define_of_ne (hs.stored location g x hplace).1.symm).trans hs.outermost
  · exact (hs.globals y u hu).mono hw

theorem World.Sound.lt_globals (h : w.Sound) : w.machine.globals.index < w.frames.all.size :=
  Frames.lt_of_frame? h.sameVariables.outermost

theorem World.Sound.binding?_globals (h : w.Sound) (x : String) :
    w.frames.binding? w.machine.globals x = w.state.globals.get? x := by
  rw [Frames.binding?, h.sameVariables.outermost]
  rfl

theorem World.Sound.enclosing?_globals (h : w.Sound) :
    w.frames.enclosing? w.machine.globals = none := by
  rw [Frames.enclosing?, h.sameVariables.outermost]
  rfl

theorem World.Sound.grows_writeGlobal {x : String} {v : Value} (h : w.Sound)
    (hx : w.state.globals.contains x ∨ opened = some w.machine.globals) :
    w.Grows opened (w.writeGlobal x v) := by
  refine World.Grows.define (hx.imp_left fun hx => ?_) fun _ _ h => h
  rw [h.binding?_globals]
  exact hx

/-- **A write to an outermost variable** keeps a world sound. -/
theorem World.Sound.writeGlobal {x : String} {v : Value} (h : w.Sound) (hv : ValueOk w v) :
    (w.writeGlobal x v).Sound := by
  have hw : w.Grows (some w.machine.globals) (w.writeGlobal x v) := h.grows_writeGlobal (.inr rfl)
  have hs := h.sameVariables
  refine ⟨⟨hs.length, hs.apart, fun location g y hplace => ?_, ?_, fun y u hu => ?_⟩,
    h.sameObjects.withVariables hw⟩
  · obtain ⟨hne, u, hu, hbinding, hok, hfits⟩ := hs.stored location g y hplace
    exact ⟨hne, u, hu, (Frames.binding?_define_of_ne (.inl hne)).trans hbinding, hok.mono hw, hfits⟩
  · refine Frames.frame?_define_self.trans ?_
    rw [hs.outermost]
    rfl
  · by_cases hy : y = x
    · subst hy
      have hu : some v = some u := (Table.get?_put_self _ _ _).symm.trans hu
      cases hu
      exact hv.mono hw
    · exact (hs.globals y u ((Table.get?_put_of_ne _ v hy).symm.trans hu)).mono hw

theorem World.grows_declare {g : FrameId} {x : String} {v : Value} :
    w.Grows (some g) (w.declare g x v) := by
  refine World.Grows.define (.inr rfl) fun location place hplace => ?_
  exact (List.getElem?_append_left (List.getElem?_eq_some_iff.mp hplace).1).trans hplace

theorem World.places_declare (w : World) (g : FrameId) (x : String) (v : Value) :
    (w.declare g x v).places[w.places.length]? = some (g, x) :=
  List.getElem?_concat_length

/-- **The declaration of a new name** keeps a world sound. -/
theorem World.Sound.declare {g : FrameId} {x : String} {v : Value} (h : w.Sound)
    (hne : g ≠ w.machine.globals) (hg : g.index < w.frames.all.size)
    (hfresh : (w.frames.binding? g x).isSome = false) (hv : ValueOk w v) (hfits : Fitting x v) :
    (w.declare g x v).Sound := by
  have hw : w.Grows (some g) (w.declare g x v) := World.grows_declare
  have hs := h.sameVariables
  -- a location of the old world has another place, because the frame did not bind the name
  have hold : ∀ (location : Nat) g' y, w.places[location]? = some (g', y) → g' ≠ g ∨ y ≠ x := by
    intro location g' y hplace
    obtain ⟨-, u, -, hbinding, -, -⟩ := hs.stored location g' y hplace
    refine ne_or_ne_of_ne ?_
    rintro ⟨⟩
    rw [hbinding] at hfresh
    cases hfresh
  have hcases : ∀ (location : Nat) place, (w.declare g x v).places[location]? = some place →
      w.places[location]? = some place ∨ location = w.places.length ∧ place = (g, x) := by
    intro location place hplace
    have hplace : (w.places ++ [(g, x)])[location]? = some place := hplace
    rcases Nat.lt_trichotomy location w.places.length with hlt | rfl | hlt
    · exact .inl ((List.getElem?_append_left hlt).symm.trans hplace)
    · rw [List.getElem?_concat_length] at hplace
      cases hplace
      exact .inr ⟨rfl, rfl⟩
    · rw [List.getElem?_eq_none (Nat.le_trans (Nat.le_of_eq List.length_append) hlt)] at hplace
      cases hplace
  refine ⟨⟨?_, fun location location' place hplace hplace' => ?_, fun location g' y hplace => ?_,
    ?_, fun y u hu => (hs.globals y u hu).mono hw⟩, h.sameObjects.withVariables hw⟩
  · show (w.state.store ++ [v]).length = (w.places ++ [(g, x)]).length
    rw [List.length_append, List.length_append, hs.length]
    rfl
  · rcases hcases location place hplace with hplace | ⟨rfl, rfl⟩ <;>
      rcases hcases location' _ hplace' with hplace' | ⟨rfl, hsame⟩
    · exact hs.apart location location' place hplace hplace'
    · subst hsame
      exact absurd rfl ((hold location g x hplace).resolve_left fun hne => hne rfl)
    · exact absurd rfl ((hold location' g x hplace').resolve_left fun hne => hne rfl)
    · rfl
  · rcases hcases location _ hplace with hplace | ⟨rfl, hsame⟩
    · obtain ⟨hne', u, hu, hbinding, hok, hfits'⟩ := hs.stored location g' y hplace
      refine ⟨hne', u, ?_, ?_, hok.mono hw, hfits'⟩
      · exact (List.getElem?_append_left (List.getElem?_eq_some_iff.mp hu).1).trans hu
      · exact (Frames.binding?_define_of_ne (hold location g' y hplace)).trans hbinding
    · cases hsame
      refine ⟨hne, v, ?_, Frames.binding?_define_self hg, hv.mono hw, hfits⟩
      rw [← hs.length]
      exact List.getElem?_concat_length
  · exact (Frames.frame?_define_of_ne hne.symm).trans hs.outermost

/-! ## Frames -/

theorem World.grows_addFrame {outer : FrameId} : w.Grows none (w.addFrame outer) where
  places _ _ h := h
  size := by
    show _ ≤ (w.frames.all.push _).size
    rw [Array.size_push]
    exact Nat.le_succ _
  enclosing _ _ h := Frames.enclosing?_push h
  names _ hg _ _ := congrArg Option.isSome (Frames.binding?_push_of_lt hg)
  objects _ _ h := h
  closures _ _ h := h
  globals := rfl
  distances := rfl
  bound := rfl

/-- **One more frame** keeps a world sound. -/
theorem World.Sound.addFrame {outer : FrameId} (h : w.Sound) : (w.addFrame outer).Sound := by
  have hw : w.Grows none (w.addFrame outer) := World.grows_addFrame
  have hs := h.sameVariables
  refine ⟨⟨hs.length, hs.apart, fun location g x hplace => ?_, ?_, fun y u hu =>
    (hs.globals y u hu).mono hw⟩, h.sameObjects.withVariables hw⟩
  · obtain ⟨hne, u, hu, hbinding, hok, hfits⟩ := hs.stored location g x hplace
    refine ⟨hne, u, hu, ?_, hok.mono hw, hfits⟩
    exact (Frames.binding?_push_of_lt (Frames.lt_of_binding? hbinding)).trans hbinding
  · exact (Frames.frame?_push_of_lt h.lt_globals).trans hs.outermost

/-- Around the new frame lies what it was made in, so names lead one frame further out. -/
theorem Mirrors.addFrame {outer : FrameId} {names : List (String × Location)} {ribs : Ribs}
    (h : Mirrors w outer names ribs) :
    Mirrors (w.addFrame outer) w.nextFrame names (.none :: ribs) where
  bound x d hd := by
    simp only [Ribs.distance?_cons, Rib.none, Bool.false_eq_true, if_false,
      Option.map_eq_some_iff] at hd
    obtain ⟨inner, hinner, rfl⟩ := hd
    obtain ⟨location, g, hlookup, hout, hplace⟩ := (h.mono World.grows_addFrame).bound x inner hinner
    have hencloses : (w.addFrame outer).frames.enclosing? w.nextFrame = some outer :=
      Frames.enclosing?_push_self _ _
    refine ⟨location, g, hlookup, ?_, hplace⟩
    rw [Frames.out_succ, hencloses]
    exact hout
  unbound x hx := by
    simp only [Ribs.distance?_cons, Rib.none, Bool.false_eq_true, if_false,
      Option.map_eq_none_iff] at hx
    exact h.unbound x hx

/-- Names lead the same way through a frame that binds one more, but for that one. -/
theorem Mirrors.declare {frame : FrameId} {names : List (String × Location)} {rib : Rib}
    {outer : Ribs} {x : String} {v : Value} (h : Mirrors w frame names (rib :: outer)) :
    Mirrors (w.declare frame x v) frame ((x, w.places.length) :: names) (rib.add x :: outer) where
  bound y d hd := by
    rw [Ribs.distance?_cons] at hd
    by_cases hy : y = x
    · subst hy
      simp only [Rib.add, BEq.rfl, Bool.true_or, if_true, Option.some.injEq] at hd
      subst hd
      exact ⟨w.places.length, frame, by rw [Table.lookup_cons, if_pos rfl], rfl,
        w.places_declare frame y v⟩
    · simp only [Rib.add, beq_eq_false_iff_ne.mpr hy, Bool.false_or] at hd
      obtain ⟨location, g, hlookup, hout, hplace⟩ :=
        (h.mono World.grows_declare).bound y d ((Ribs.distance?_cons rib outer y).trans hd)
      exact ⟨location, g, by rw [Table.lookup_cons, if_neg hy, hlookup], hout, hplace⟩
  unbound y hy := by
    rw [Ribs.distance?_cons] at hy
    have hne : y ≠ x := by
      rintro rfl
      simp [Rib.add] at hy
    simp only [Rib.add, beq_eq_false_iff_ne.mpr hne, Bool.false_or] at hy
    rw [Table.lookup_cons, if_neg hne]
    exact h.unbound y ((Ribs.distance?_cons rib outer y).trans hy)

/-! ## Objects -/

theorem World.SameVariables.mono (h : w.SameVariables) (hw : w.Grows opened w')
    (hframes : w'.frames = w.frames) (hstore : w'.state.store = w.state.store)
    (hglobals : w'.state.globals = w.state.globals) (hplaces : w'.places = w.places) :
    w'.SameVariables where
  length := by rw [hstore, hplaces, h.length]
  apart := by
    rw [hplaces]
    exact h.apart
  stored location g x hplace := by
    rw [hplaces] at hplace
    obtain ⟨hne, v, hv, hbinding, hok, hfits⟩ := h.stored location g x hplace
    rw [hstore, hframes, hw.globals]
    exact ⟨hne, v, hv, hbinding, hok.mono hw, hfits⟩
  outermost := by rw [hframes, hw.globals, hglobals, h.outermost]
  globals x v hv := by
    rw [hglobals] at hv
    exact (h.globals x v hv).mono hw

theorem World.grows_addFunction {f : FunctionObject} {env : Env} :
    w.Grows opened (w.addFunction f env) :=
  { World.Grows.refl w with
    objects := fun i o ho => by
      have hlt : i < w.machine.heap.functions.size := (Array.getElem?_eq_some_iff.mp ho).1
      show (w.machine.heap.functions.push f)[i]? = some o
      rw [Array.getElem?_push, if_neg (Nat.ne_of_lt hlt), ho]
    closures := fun i c hc =>
      (List.getElem?_append_left (List.getElem?_eq_some_iff.mp hc).1).trans hc }

/-- **One more function** keeps a world sound. -/
theorem World.Sound.addFunction {f : FunctionObject} {env : Env} (h : w.Sound) :
    (w.addFunction f env).Sound := by
  have hw : w.Grows none (w.addFunction f env) := World.grows_addFunction
  have ho := h.sameObjects
  refine ⟨h.sameVariables.mono hw rfl rfl rfl rfl, { ho with
    functions := ?_
    alike := fun i => ?_
    methods := fun i c x id hc hx => (ho.methods i c x id hc hx).mono hw
    fields := fun i o x v ho' hx => (ho.fields i o x v ho' hx).mono hw }⟩
  · show (w.machine.heap.functions.push f).size = (w.state.functions ++ [_]).length
    rw [Array.size_push, List.length_append, ho.functions]
    rfl
  · show ((w.machine.heap.functions.push f)[i]?).map _ = ((w.state.functions ++ [_])[i]?).map _
    rw [Array.getElem?_push, ho.functions]
    rcases Nat.lt_trichotomy i w.state.functions.length with hlt | rfl | hlt
    · rw [if_neg (Nat.ne_of_lt hlt), List.getElem?_append_left hlt]
      exact ho.alike i
    · rw [if_pos rfl, List.getElem?_concat_length]
      rfl
    · have hsize := ho.functions
      rw [if_neg (Nat.ne_of_gt hlt), Array.getElem?_eq_none (by omega),
        List.getElem?_eq_none (Nat.le_trans (Nat.le_of_eq List.length_append) hlt)]
      rfl

/-- The new function is the same on both sides if its map mirrors its frame. -/
theorem World.Sound.twin_addFunction {f : FunctionObject} {env : Env} {ribs : Ribs} (h : w.Sound)
    (hmirrors : Mirrors w f.closure env.names ribs) :
    Twin (w.addFunction f env) w.nextFunction f env ribs where
  object := by
    show (w.machine.heap.functions.push f)[w.state.functions.length]? = some f
    rw [← h.sameObjects.functions, Array.getElem?_push_size]
  closure := List.getElem?_concat_length
  mirrors := hmirrors.mono (World.grows_addFunction : World.Grows none _ _)

theorem World.grows_addClass {c : ClassObject} : w.Grows opened (w.addClass c) :=
  { World.Grows.refl w with }

/-- **One more class** keeps a world sound if its methods can be bound. -/
theorem World.Sound.addClass {c : ClassObject} (h : w.Sound)
    (hc : ∀ x id, c.methods.get? x = some id → MethodOk w id) : (w.addClass c).Sound := by
  have hw : w.Grows none (w.addClass c) := World.grows_addClass
  have ho := h.sameObjects
  refine ⟨h.sameVariables.mono hw rfl rfl rfl rfl, { ho with
    classes := congrArg (·.push c) ho.classes
    methods := fun i c' x id hc' hx => ?_
    fields := fun i o x v ho' hx => (ho.fields i o x v ho' hx).mono hw }⟩
  have hc' : (w.state.classes.push c)[i]? = some c' := hc'
  rw [Array.getElem?_push] at hc'
  split at hc'
  · cases hc'
    exact (hc x id hx).mono hw
  · exact (ho.methods i c' x id hc' hx).mono hw

theorem World.grows_withInstances {instances : Array InstanceObject} :
    w.Grows opened (w.withInstances instances) :=
  { World.Grows.refl w with }

/-- **Other instances** keep a world sound if their fields can be called. -/
theorem World.Sound.withInstances {instances : Array InstanceObject} (h : w.Sound)
    (hfields : ∀ (i : Nat) o x v, instances[i]? = some o → o.fields.get? x = some v →
      ValueOk w v) : (w.withInstances instances).Sound := by
  have hw : w.Grows none (w.withInstances instances) := World.grows_withInstances
  have ho := h.sameObjects
  exact ⟨h.sameVariables.mono hw rfl rfl rfl rfl, { ho with
    instances := rfl
    methods := fun i c x id hc hx => (ho.methods i c x id hc hx).mono hw
    fields := fun i o x v ho' hx => (hfields i o x v ho' hx).mono hw }⟩

section
variable {sink : Sink} {flushes : Nat} {clock : Clock}

theorem World.grows_withOutside : w.Grows opened (w.withOutside sink flushes clock) :=
  { World.Grows.refl w with }

theorem World.Sound.withOutside (h : w.Sound) : (w.withOutside sink flushes clock).Sound := by
  have hw : w.Grows none (w.withOutside sink flushes clock) := World.grows_withOutside
  have ho := h.sameObjects
  exact ⟨h.sameVariables.mono hw rfl rfl rfl rfl, { ho with
    sink := rfl
    clock := rfl
    methods := fun i c x id hc hx => (ho.methods i c x id hc hx).mono hw
    fields := fun i o x v ho' hx => (ho.fields i o x v ho' hx).mono hw }⟩

theorem World.Sound.outside_eq (h : w.Sound) :
    { w.state with sink := w.machine.sink, clock := w.machine.clock } = w.state := by
  rw [h.sameObjects.sink, h.sameObjects.clock]

end

theorem World.grows_moveTo {frame : FrameId} : w.Grows opened (w.moveTo frame) :=
  (World.Grows.refl w).moveTo w.machine.environment frame

theorem World.Sound.moveTo {frame : FrameId} (h : w.Sound) : (w.moveTo frame).Sound := by
  have hw : w.Grows none (w.moveTo frame) := World.grows_moveTo
  have ho := h.sameObjects
  exact ⟨h.sameVariables.mono hw rfl rfl rfl rfl, { ho with
    methods := fun i c x id hc hx => (ho.methods i c x id hc hx).mono hw
    fields := fun i o x v ho' hx => (ho.fields i o x v ho' hx).mono hw }⟩

end

end Lox.Lexical
