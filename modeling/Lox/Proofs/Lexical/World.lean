import Lox.Proofs.Frames
import Lox.Proofs.Scoping.Resolved
import Lox.Proofs.Lexical.Reference

/-!
# A machine and a state that agree

A `World` puts a machine with frames beside a state with a store.  Each location of the store is a
place in some frame: a frame and a name that it binds.  The world is `Sound` if the two hold the same
everywhere, and if everything that can be called has been resolved for the frames around it
(`ValueOk`).  A map of names `Mirrors` a frame if every name that the ribs around a program's place
bind leads to the same value both ways: through the map, and so many frames out.

Worlds only grow (`World.Grows`): places, functions and what encloses a frame stay for ever, and so
does the set of names that a frame binds, but for the one frame in which a program declares names
just now.  What is known of functions and values therefore stays true.
-/

namespace Lox.Lexical

/-- A machine, a state, the place of each location, and the first identity that no tree uses. -/
structure World where
  machine : Machine
  state : State
  places : List (FrameId × String)
  bound : NodeId

namespace World

/-- The frames of the machine. -/
abbrev frames (w : World) : Frames := w.machine.heap.frames

/-- The world with another current frame. -/
def moveTo (w : World) (frame : FrameId) : World :=
  { w with machine := { w.machine with environment := frame } }

end World

/-- Whether names lead to the same values through a map and through the frames from this one out. -/
structure Mirrors (w : World) (frame : FrameId) (names : List (String × Location)) (ribs : Ribs) :
    Prop where
  bound : ∀ x d, ribs.distance? x = some d → ∃ location g,
    names.lookup x = some location ∧ w.frames.out frame d = .ok g ∧
      w.places[location]? = some (g, x)
  unbound : ∀ x, ribs.distance? x = none → names.lookup x = none

/-- A function, as it is in the machine and in the state. -/
structure Twin (w : World) (id : FunctionId) (f : FunctionObject) (env : Env) (ribs : Ribs) :
    Prop where
  object : w.machine.heap.functions[id.index]? = some f
  closure : w.state.functions[id.index]? = some ⟨f.declaration, env, f.isInitializer⟩
  mirrors : Mirrors w f.closure env.names ribs

/-- Whether a function can be called: it is resolved, and an initializer knows its receiver. -/
def FunctionOk (w : World) (id : FunctionId) : Prop :=
  ∃ f env ribs, Twin w id f env ribs ∧ f.declaration.Resolved w.machine.distances w.bound ribs ∧
    (f.isInitializer = true → ribs.distance? thisName = some 0)

/-- Whether a method can be bound: it is resolved for a frame that binds its receiver. -/
def MethodOk (w : World) (id : FunctionId) : Prop :=
  ∃ f env ribs, Twin w id f env ribs ∧
    f.declaration.Resolved w.machine.distances w.bound (.single thisName :: ribs)

/-- Whether a value can be called, if it is a function. -/
def ValueOk (w : World) : Value → Prop
  | .function id => FunctionOk w id
  | _ => True

/-- Whether the value of a name is what the name says: that of `this` is an instance, that of `super`
a class. -/
def Fitting (x : String) (v : Value) : Prop :=
  (x = thisName → ∃ id, v = .inst id) ∧ (x = superName → ∃ id, v = .cls id)

/-- Whether variables have the same values, and all of them can be called.  No two locations are the
same place, and none is an outermost variable. -/
structure World.SameVariables (w : World) : Prop where
  length : w.state.store.length = w.places.length
  apart : ∀ (location location' : Nat) place, w.places[location]? = some place →
    w.places[location']? = some place → location = location'
  stored : ∀ (location : Nat) g x, w.places[location]? = some (g, x) → g ≠ w.machine.globals ∧
    ∃ v, w.state.store[location]? = some v ∧ w.frames.binding? g x = some v ∧
      ValueOk w v ∧ Fitting x v
  outermost : w.frames.frame? w.machine.globals = some ⟨w.state.globals, none⟩
  globals : ∀ x v, w.state.globals.get? x = some v → ValueOk w v

/-- Whether objects are the same, and all methods can be bound and all fields called. -/
structure World.SameObjects (w : World) : Prop where
  functions : w.machine.heap.functions.size = w.state.functions.length
  alike : ∀ i : Nat, (w.machine.heap.functions[i]?).map FunctionObject.declaration =
    (w.state.functions[i]?).map Closure.declaration
  classes : w.machine.heap.classes = w.state.classes
  methods : ∀ (i : Nat) c x id, w.state.classes[i]? = some c → c.methods.get? x = some id →
    MethodOk w id
  instances : w.machine.heap.instances = w.state.instances
  fields : ∀ (i : Nat) o x v, w.state.instances[i]? = some o → o.fields.get? x = some v →
    ValueOk w v
  sink : w.machine.sink = w.state.sink
  clock : w.machine.clock = w.state.clock

/-- **Whether a machine and a state hold the same.** -/
structure World.Sound (w : World) : Prop where
  sameVariables : w.SameVariables
  sameObjects : w.SameObjects

/-- Whether a world is one that another has become.  The names that a frame binds may only have
become more if it is the open one. -/
structure World.Grows (opened : Option FrameId) (w w' : World) : Prop where
  places : ∀ (location : Nat) place, w.places[location]? = some place →
    w'.places[location]? = some place
  size : w.frames.all.size ≤ w'.frames.all.size
  enclosing : ∀ id outer, w.frames.enclosing? id = some outer → w'.frames.enclosing? id = some outer
  names : ∀ g, g.index < w.frames.all.size → opened ≠ some g →
    ∀ x, (w'.frames.binding? g x).isSome = (w.frames.binding? g x).isSome
  objects : ∀ (i : Nat) o, w.machine.heap.functions[i]? = some o →
    w'.machine.heap.functions[i]? = some o
  closures : ∀ (i : Nat) c, w.state.functions[i]? = some c → w'.state.functions[i]? = some c
  globals : w'.machine.globals = w.machine.globals
  distances : w'.machine.distances = w.machine.distances
  bound : w'.bound = w.bound

namespace World.Grows

variable {opened : Option FrameId} {w w₁ w₂ : World}

theorem refl (w : World) : Grows opened w w where
  places _ _ h := h
  size := Nat.le_refl _
  enclosing _ _ h := h
  names _ _ _ _ := rfl
  objects _ _ h := h
  closures _ _ h := h
  globals := rfl
  distances := rfl
  bound := rfl

theorem trans (h₁ : Grows opened w w₁) (h₂ : Grows opened w₁ w₂) : Grows opened w w₂ where
  places location place h := h₂.places location place (h₁.places location place h)
  size := Nat.le_trans h₁.size h₂.size
  enclosing id outer h := h₂.enclosing id outer (h₁.enclosing id outer h)
  names g hg hne x :=
    (h₂.names g (Nat.lt_of_lt_of_le hg h₁.size) hne x).trans (h₁.names g hg hne x)
  objects i o h := h₂.objects i o (h₁.objects i o h)
  closures i c h := h₂.closures i c (h₁.closures i c h)
  globals := h₂.globals.trans h₁.globals
  distances := h₂.distances.trans h₁.distances
  bound := h₂.bound.trans h₁.bound

/-- Nothing was declared in a frame of the world, so whatever frame is open. -/
theorem opening (h : Grows none w w₁) : Grows opened w w₁ :=
  { h with names := fun g hg _ => h.names g hg nofun }

/-- What was declared in a frame that is not of the first world changes nothing in it. -/
theorem closing {frame : FrameId} (h₁ : Grows none w w₁) (h₂ : Grows (some frame) w₁ w₂)
    (hframe : w.frames.all.size ≤ frame.index) : Grows none w w₂ :=
  { h₁.opening.trans h₂ with
    names := fun g hg _ x => by
      have hne : some frame ≠ some g := by
        rintro ⟨⟩
        exact absurd hg (Nat.not_lt_of_le hframe)
      exact (h₂.names g (Nat.lt_of_lt_of_le hg h₁.size) hne x).trans (h₁.names g hg nofun x) }

theorem moveTo (h : Grows opened w w₁) (f g : FrameId) :
    Grows opened (w.moveTo f) (w₁.moveTo g) :=
  { h with }

end World.Grows

/-! ## What stays true -/

section
variable {opened : Option FrameId} {w w' : World}

theorem Mirrors.mono {frame : FrameId} {names : List (String × Location)} {ribs : Ribs}
    (h : Mirrors w frame names ribs) (hw : w.Grows opened w') : Mirrors w' frame names ribs where
  bound x d hd := by
    obtain ⟨location, g, hlookup, hout, hplace⟩ := h.bound x d hd
    exact ⟨location, g, hlookup, Frames.out_mono hw.enclosing hout, hw.places location _ hplace⟩
  unbound := h.unbound

theorem Twin.mono {id : FunctionId} {f : FunctionObject} {env : Env} {ribs : Ribs}
    (h : Twin w id f env ribs) (hw : w.Grows opened w') : Twin w' id f env ribs where
  object := hw.objects _ _ h.object
  closure := hw.closures _ _ h.closure
  mirrors := h.mirrors.mono hw

theorem FunctionOk.mono {id : FunctionId} (h : FunctionOk w id) (hw : w.Grows opened w') :
    FunctionOk w' id := by
  obtain ⟨f, env, ribs, htwin, hresolved, hthis⟩ := h
  refine ⟨f, env, ribs, htwin.mono hw, ?_, hthis⟩
  rw [hw.distances, hw.bound]
  exact hresolved

theorem MethodOk.mono {id : FunctionId} (h : MethodOk w id) (hw : w.Grows opened w') :
    MethodOk w' id := by
  obtain ⟨f, env, ribs, htwin, hresolved⟩ := h
  refine ⟨f, env, ribs, htwin.mono hw, ?_⟩
  rw [hw.distances, hw.bound]
  exact hresolved

theorem ValueOk.mono {v : Value} (h : ValueOk w v) (hw : w.Grows opened w') : ValueOk w' v := by
  cases v with
  | function id => exact FunctionOk.mono h hw
  | _ => trivial

end

/-! ## Places in a program -/

/-- Whether a program may run with this map at a place with these ribs.  The innermost rib is exactly
what the current frame binds. -/
structure At (w : World) (env : Env) (ribs : Ribs) : Prop where
  mirrors : Mirrors w w.machine.environment env.names ribs
  outside : ribs = [] → w.machine.environment = w.machine.globals ∧ env.isLocal = false
  inside : ∀ rib outer, ribs = rib :: outer → env.isLocal = true ∧
    w.machine.environment ≠ w.machine.globals ∧
    w.machine.environment.index < w.frames.all.size ∧
    ∀ x, (w.frames.binding? w.machine.environment x).isSome = rib x

/-- A place stays what it is while nothing is declared there. -/
theorem At.mono {w w' : World} {env : Env} {ribs : Ribs} (h : At w env ribs)
    (hw : w.Grows none w') (henv : w'.machine.environment = w.machine.environment) :
    At w' env ribs where
  mirrors := by
    rw [henv]
    exact h.mirrors.mono hw
  outside hribs := by
    rw [henv, hw.globals]
    exact h.outside hribs
  inside rib outer hribs := by
    obtain ⟨hlocal, hne, hlt, hbinds⟩ := h.inside rib outer hribs
    rw [henv, hw.globals]
    exact ⟨hlocal, hne, Nat.lt_of_lt_of_le hlt hw.size, fun x =>
      (hw.names _ hlt nofun x).trans (hbinds x)⟩

end Lox.Lexical
