import Lox.Proofs.Frames
import Lox.Proofs.Heap
import Lox.Proofs.Observed.Runs

/-!
# Scopes and frames

Where a run is in its program, there is a frame for each scope that the walk had there, and each
frame binds at least the names that are ready in its scope (`Chain`).  The frame of `this` binds the
instance of the position, and the frame of `super` its class (`Holds`).  A state is `Sound` if
everything that can be called was declared where this was so, and if it was so at each visit.

States only grow (`Grows`): frames stay enclosed by what they are enclosed by, never lose a name, and
never bind `this` or `super` to anything else.  What is known of functions therefore stays true.
-/

namespace Lox

/-- Whether a frame is there and has nothing around it. -/
def Frames.Outermost (frames : Frames) (g : FrameId) : Prop :=
  ∃ bindings, frames.frame? g = some ⟨bindings, none⟩

theorem Frames.Outermost.enclosing?_eq {frames : Frames} {g : FrameId} (h : frames.Outermost g) :
    frames.enclosing? g = none := by
  obtain ⟨bindings, hg⟩ := h
  rw [Frames.enclosing?, hg]
  rfl

/-- Whether frames are what others have become. -/
structure Frames.Grow (frames frames' : Frames) : Prop where
  outermost : ∀ g, frames.Outermost g → frames'.Outermost g
  enclosing : ∀ g outer, frames.enclosing? g = some outer → frames'.enclosing? g = some outer
  names : ∀ g x, (frames.binding? g x).isSome → (frames'.binding? g x).isSome
  reserved : ∀ g x v, ¬Plain x → frames.binding? g x = some v → frames'.binding? g x = some v

namespace Frames.Grow

variable {frames frames₁ frames₂ : Frames}

theorem refl (frames : Frames) : frames.Grow frames :=
  ⟨fun _ h => h, fun _ _ h => h, fun _ _ h => h, fun _ _ _ _ h => h⟩

theorem trans (h : frames.Grow frames₁) (h' : frames₁.Grow frames₂) : frames.Grow frames₂ :=
  ⟨fun g hg => h'.outermost g (h.outermost g hg),
    fun g outer hg => h'.enclosing g outer (h.enclosing g outer hg),
    fun g x hx => h'.names g x (h.names g x hx),
    fun g x v hx hv => h'.reserved g x v hx (h.reserved g x v hx hv)⟩

theorem out (h : frames.Grow frames₁) {d : Nat} {f g : FrameId} (hout : frames.out f d = .ok g) :
    frames₁.out f d = .ok g :=
  Frames.out_mono h.enclosing hout

theorem push (frames : Frames) (frame : Frame) : frames.Grow (frames.push frame).2 where
  outermost g := by
    rintro ⟨bindings, hg⟩
    exact ⟨bindings, by rw [Frames.frame?_push_of_lt (Frames.lt_of_frame? hg), hg]⟩
  enclosing g outer h := Frames.enclosing?_push h
  names g x h := by
    obtain ⟨v, hv⟩ := Option.isSome_iff_exists.mp h
    rw [Frames.binding?_push_of_lt (Frames.lt_of_binding? hv)]
    exact h
  reserved g x v _ hv := by
    rw [Frames.binding?_push_of_lt (Frames.lt_of_binding? hv)]
    exact hv

theorem define (frames : Frames) (f : FrameId) {x : String} (v : Value) (hx : Plain x) :
    frames.Grow (frames.define f x v) where
  outermost g := by
    rintro ⟨bindings, hg⟩
    unfold Frames.Outermost
    rw [Frames.frame?_define, hg]
    split
    · exact ⟨_, rfl⟩
    · exact ⟨bindings, rfl⟩
  enclosing g outer h := by rw [Frames.enclosing?_define]; exact h
  names g y h := by
    by_cases hsame : g = f ∧ y = x
    · obtain ⟨rfl, rfl⟩ := hsame
      obtain ⟨old, hold⟩ := Option.isSome_iff_exists.mp h
      rw [Frames.binding?_define_self (Frames.lt_of_binding? hold)]
      rfl
    · rw [Frames.binding?_define_of_ne (Decidable.not_and_iff_or_not.mp hsame)]
      exact h
  reserved g y u hy hu := by
    rw [Frames.binding?_define_of_ne (.inr fun h : y = x => hy (h ▸ hx))]
    exact hu

end Frames.Grow

namespace Observed

/-! ## Frames of a position -/

/-- **Whether the frames from this one out to the outermost one** are one for each rib, and each binds
at least the names of its rib. -/
inductive Chain (frames : Frames) (globals : FrameId) : FrameId → Ribs → Prop
  | outermost : Chain frames globals globals []
  | inner {frame outer : FrameId} {rib : Rib} {ribs : Ribs}
      (henclosing : frames.enclosing? frame = some outer)
      (hbinds : ∀ x, rib x = true → (frames.binding? frame x).isSome)
      (houter : Chain frames globals outer ribs) : Chain frames globals frame (rib :: ribs)

/-- Whether the frame that is meant by `this` binds an instance, and the one around it the class that
is meant by `super`. -/
structure Holds (frames : Frames) (frame : FrameId) (ribs : Ribs) (receiver : Option InstanceId)
    (parent : Option ClassId) : Prop where
  receiver : ∀ d, ribs.distance? thisName = some d → ∃ r g, receiver = some r ∧
    frames.out frame d = .ok g ∧ frames.binding? g thisName = some (.inst r)
  parent : ∀ d, ribs.distance? thisName = some d → ribs.distance? superName = some (d + 1) →
    ∃ p g, parent = some p ∧ frames.out frame (d + 1) = .ok g ∧
      frames.binding? g superName = some (.cls p)

/-- **Whether a machine may be at a position.** -/
structure At (m : Machine) (position : Position) : Prop where
  outermost : m.heap.frames.Outermost m.globals
  chain : Chain m.heap.frames m.globals m.environment position.scopes.ribs
  holds : Holds m.heap.frames m.environment position.scopes.ribs position.receiver position.parent
  head : position.scopes.ribs.distance? superName ≠ some 0

section
variable {frames frames' : Frames} {globals frame : FrameId} {ribs : Ribs}
  {receiver : Option InstanceId} {parent : Option ClassId}

theorem Chain.mono (h : Chain frames globals frame ribs) (hf : frames.Grow frames') :
    Chain frames' globals frame ribs := by
  induction h with
  | outermost => exact .outermost
  | inner henclosing hbinds _ ih =>
    exact .inner (hf.enclosing _ _ henclosing) (fun x hx => hf.names _ x (hbinds x hx)) ih

theorem Chain.getAt (h : Chain frames globals frame ribs) {x : String} :
    ∀ {d : Nat} {rib : Rib}, ribs[d]? = some rib → rib x = true →
      ∃ v, frames.getAt frame d x = .ok v := by
  induction h with
  | outermost => exact fun hrib => nomatch hrib
  | inner henclosing hbinds _ ih =>
    intro d rib hrib hx
    cases d with
    | zero =>
      cases hrib
      obtain ⟨v, hv⟩ := Option.isSome_iff_exists.mp (hbinds x hx)
      exact ⟨v, Frames.getAt_eq_ok rfl hv⟩
    | succ d =>
      obtain ⟨v, hv⟩ := ih (d := d) hrib hx
      refine ⟨v, ?_⟩
      unfold Frames.getAt at hv ⊢
      rw [Frames.out_succ, henclosing]
      exact hv

theorem Chain.out_length (h : Chain frames globals frame ribs) :
    frames.out frame ribs.length = .ok globals := by
  induction h with
  | outermost => rfl
  | inner henclosing _ _ ih =>
    rw [List.length_cons, Frames.out_succ, henclosing]
    exact ih

theorem Chain.out_ne (h : Chain frames globals frame ribs) (hout : frames.enclosing? globals = none) :
    ∀ d < ribs.length, frames.out frame d ≠ .ok globals := by
  induction h with
  | outermost => exact fun _ hd => absurd hd (Nat.not_lt_zero _)
  | inner henclosing _ _ ih =>
    intro d hd
    cases d with
    | zero =>
      rintro ⟨⟩
      rw [hout] at henclosing
      cases henclosing
    | succ d =>
      rw [Frames.out_succ, henclosing]
      exact ih d (Nat.lt_of_succ_lt_succ hd)

theorem Holds.mono (h : Holds frames frame ribs receiver parent) (hf : frames.Grow frames') :
    Holds frames' frame ribs receiver parent where
  receiver d hd := by
    obtain ⟨r, g, hr, hout, hg⟩ := h.receiver d hd
    exact ⟨r, g, hr, hf.out hout, hf.reserved g _ _ (fun hplain => hplain.1 rfl) hg⟩
  parent d hd hd' := by
    obtain ⟨p, g, hp, hout, hg⟩ := h.parent d hd hd'
    exact ⟨p, g, hp, hf.out hout, hf.reserved g _ _ (fun hplain => hplain.2 rfl) hg⟩

/-- In a scope with names of the program's own, `this` and `super` are one step further out. -/
theorem Holds.cons {rib : Rib} {inner : FrameId} (h : Holds frames frame ribs receiver parent)
    (hthis : rib thisName = false) (hsuper : rib superName = false)
    (henclosing : frames.enclosing? inner = some frame) :
    Holds frames inner (rib :: ribs) receiver parent where
  receiver d hd := by
    rw [Ribs.distance?_cons, hthis, if_neg Bool.false_ne_true] at hd
    obtain ⟨d, hinner, rfl⟩ := Option.map_eq_some_iff.mp hd
    obtain ⟨r, g, hr, hout, hg⟩ := h.receiver d hinner
    refine ⟨r, g, hr, ?_, hg⟩
    rw [Frames.out_succ, henclosing]
    exact hout
  parent d hd hd' := by
    rw [Ribs.distance?_cons, hthis, if_neg Bool.false_ne_true] at hd
    rw [Ribs.distance?_cons, hsuper, if_neg Bool.false_ne_true] at hd'
    obtain ⟨d, hinner, rfl⟩ := Option.map_eq_some_iff.mp hd
    obtain ⟨d', hinner', hsame⟩ := Option.map_eq_some_iff.mp hd'
    cases Nat.succ.inj hsame
    obtain ⟨p, g, hp, hout, hg⟩ := h.parent d hinner hinner'
    refine ⟨p, g, hp, ?_, hg⟩
    rw [Frames.out_succ, henclosing]
    exact hout

end

/-! ## Functions and values -/

/-- Whether a function can be called: the frames around it are those of the position where it was
declared or bound, and the walk came by its body. -/
def FunctionOk (s : State) (id : FunctionId) : Prop :=
  ∃ f, s.machine.heap.functions[id.index]? = some f ∧
    Chain s.machine.heap.frames s.machine.globals f.closure (s.origin id).scopes.ribs ∧
    Holds s.machine.heap.frames f.closure (s.origin id).scopes.ribs (s.origin id).receiver
      (s.origin id).parent ∧
    (∀ param ∈ f.declaration.params, Plain param.text) ∧
    f.declaration.sites (s.origin id).around (s.origin id).scopes ⊆ s.sites

/-- Whether methods may be declared in a frame: there is none yet for the innermost scope of their
position, that of `this`, and if there is one for `super`, then it binds the class of the position. -/
def AroundMethods (s : State) (frame : FrameId) (position : Position) : Prop :=
  ∃ ribs : Ribs, position.scopes.ribs = .single thisName :: ribs ∧
    Chain s.machine.heap.frames s.machine.globals frame ribs ∧
    (ribs.distance? superName = some 0 → ∃ p, position.parent = some p ∧
      s.machine.heap.frames.binding? frame superName = some (.cls p))

/-- Whether a method can be bound: it was declared among methods, and the walk came by its body. -/
def MethodOk (s : State) (id : FunctionId) : Prop :=
  ∃ f, s.machine.heap.functions[id.index]? = some f ∧
    AroundMethods s f.closure (s.origin id) ∧
    (∀ param ∈ f.declaration.params, Plain param.text) ∧
    f.declaration.sites (s.origin id).around (s.origin id).scopes ⊆ s.sites

/-- Whether a value can be called, if it is a function. -/
def ValueOk (s : State) : Value → Prop
  | .function id => FunctionOk s id
  | _ => True

/-- Whether a visit was where the walk had been, at its position, and resolved. -/
structure VisitOk (s : State) (v : Visit) : Prop where
  site : v.site ∈ s.sites
  here : At v.machine v.position
  recorded : ∃ bound, v.site.Recorded v.machine.distances bound

/-- **Whether everything in a state is at its position.** -/
structure Sound (bound : NodeId) (s : State) : Prop where
  outermost : s.machine.heap.frames.Outermost s.machine.globals
  bindings : ∀ g x v, s.machine.heap.frames.binding? g x = some v → ValueOk s v
  methods : ∀ (i : Nat) c x id, s.machine.heap.classes[i]? = some c → c.methods.get? x = some id →
    MethodOk s id
  fields : ∀ (i : Nat) o x v, s.machine.heap.instances[i]? = some o → o.fields.get? x = some v →
    ValueOk s v
  recorded : ∀ site ∈ s.sites, site.Recorded s.machine.distances bound
  visits : ∀ v ∈ s.visits, VisitOk s v

/-- Whether a state is one that another has become. -/
structure Grows (s s' : State) : Prop where
  frames : s.machine.heap.frames.Grow s'.machine.heap.frames
  functions : ∀ (i : Nat) f, s.machine.heap.functions[i]? = some f →
    s'.machine.heap.functions[i]? = some f
  origins : ∀ id : FunctionId, id.index < s.machine.heap.functions.size →
    s'.origin id = s.origin id
  globals : s'.machine.globals = s.machine.globals
  sites : s.sites ⊆ s'.sites

section
variable {s s₁ s₂ : State}

theorem Grows.refl (s : State) : Grows s s :=
  ⟨.refl _, fun _ _ h => h, fun _ _ => rfl, rfl, fun _ h => h⟩

theorem Grows.trans (h : Grows s s₁) (h' : Grows s₁ s₂) : Grows s s₂ where
  frames := h.frames.trans h'.frames
  functions i f hf := h'.functions i f (h.functions i f hf)
  origins id hid := by
    have hid₁ : id.index < s₁.machine.heap.functions.size := by
      have hf := h.functions id.index _ (Array.getElem?_eq_getElem hid)
      exact (Array.getElem?_eq_some_iff.mp hf).1
    rw [h'.origins id hid₁, h.origins id hid]
  globals := h'.globals.trans h.globals
  sites := fun _ hsite => h'.sites (h.sites hsite)

theorem Grows.origin_eq (h : Grows s s₁) {id : FunctionId} {f : FunctionObject}
    (hf : s.machine.heap.functions[id.index]? = some f) : s₁.origin id = s.origin id :=
  h.origins id (Array.getElem?_eq_some_iff.mp hf).1

theorem FunctionOk.mono {id : FunctionId} (h : FunctionOk s id) (hs : Grows s s₁) :
    FunctionOk s₁ id := by
  obtain ⟨f, hf, hchain, hholds, hplain, hsites⟩ := h
  refine ⟨f, hs.functions _ f hf, ?_⟩
  rw [hs.origin_eq hf, hs.globals]
  exact ⟨hchain.mono hs.frames, hholds.mono hs.frames, hplain,
    fun _ hsite => hs.sites (hsites hsite)⟩

theorem AroundMethods.mono {frame : FrameId} {position : Position}
    (h : AroundMethods s frame position) (hs : Grows s s₁) : AroundMethods s₁ frame position := by
  obtain ⟨ribs, hribs, hchain, hparent⟩ := h
  refine ⟨ribs, hribs, ?_, fun hsuper => ?_⟩
  · rw [hs.globals]
    exact hchain.mono hs.frames
  · obtain ⟨p, hp, hbinding⟩ := hparent hsuper
    exact ⟨p, hp, hs.frames.reserved _ _ _ (fun hplain => hplain.2 rfl) hbinding⟩

theorem MethodOk.mono {id : FunctionId} (h : MethodOk s id) (hs : Grows s s₁) :
    MethodOk s₁ id := by
  obtain ⟨f, hf, haround, hplain, hsites⟩ := h
  refine ⟨f, hs.functions _ f hf, ?_⟩
  rw [hs.origin_eq hf]
  exact ⟨haround.mono hs, hplain, fun _ hsite => hs.sites (hsites hsite)⟩

theorem ValueOk.mono {v : Value} (h : ValueOk s v) (hs : Grows s s₁) : ValueOk s₁ v := by
  cases v with
  | function id => exact FunctionOk.mono h hs
  | _ => trivial

theorem VisitOk.mono {v : Visit} (h : VisitOk s v) (hs : Grows s s₁) : VisitOk s₁ v :=
  ⟨hs.sites h.site, h.here, h.recorded⟩

/-- A position stays what it is while the state grows. -/
theorem At.mono {position : Position} (h : At s.machine position) (hs : Grows s s₁)
    (henv : s₁.machine.environment = s.machine.environment) : At s₁.machine position where
  outermost := by
    rw [hs.globals]
    exact hs.frames.outermost _ h.outermost
  chain := by
    rw [henv, hs.globals]
    exact h.chain.mono hs.frames
  holds := by
    rw [henv]
    exact h.holds.mono hs.frames
  head := h.head

end

end Observed

end Lox
