import Lox.Machine.Evaluate
import Lox.Proofs.Histories.Frames
import Lox.Proofs.Steps

/-!
# What is read, and what a write changes

Behind every history a name means what was last written to it in the nearest frame that binds it,
and at a distance what was last written to it in the frame so many steps out.  A write succeeds
where a read does, and fails as that does.  It hits the binding that would be read, makes none, and
no other read can tell (`History.frames_mirrored`).  The machine reads and writes its references in
just these ways (`Machine.lookUp_eq`, `Machine.store_cases`).
-/

namespace Lox

namespace History

variable {n : Nat}

/-! ## Writes -/

/-- **What a write to a name in one frame changes**: what is found in that frame is the value
written, from wherever it is found, and nothing else changes. -/
structure Overwrites (before after : History n) (g : FrameId) (x : String) (v : Value) : Prop where
  get : ∀ (f : Fin n) y, after.frames.get? ⟨f⟩ y =
    if before.nearest? ⟨f⟩ x = some g ∧ y = x then some v else before.frames.get? ⟨f⟩ y
  getAt : ∀ (f : Fin n) d y, after.frames.getAt ⟨f⟩ d y =
    if (before.path ⟨f⟩)[d]? = some g ∧ y = x then .ok v else before.frames.getAt ⟨f⟩ d y
  binds : ∀ f y, (after.frames.binding? f y).isSome = (before.frames.binding? f y).isSome
  enclosing : ∀ f, after.frames.enclosing? f = before.frames.enclosing? f

/-- **A write that hits a frame** that binds the name. -/
theorem overwrites {before after : History n} {g : FrameId} {x : String} {v : Value}
    (hg : (before.written? g x).isSome) (hpath : ∀ f, after.path f = before.path f)
    (hframes : after.frames = before.frames.define g x v) : before.Overwrites after g x v := by
  have ha := before.agrees
  have ha' := after.agrees
  have hlt := ha.lt_of_written? hg
  have hwritten : ∀ f y, after.written? f y =
      if f = g ∧ y = x then some v else before.written? f y := fun f y => by
    rw [← ha'.binding, hframes, Frames.binding?_define hlt, ha.binding]
  have hbinds : ∀ f y, (after.written? f y).isSome = (before.written? f y).isSome := fun f y => by
    rw [hwritten]
    split
    next hsame => rw [hsame.1, hsame.2, hg]; rfl
    next => rfl
  have hnearest : ∀ f y, after.nearest? f y = before.nearest? f y := fun f y => by
    rw [nearest?, nearest?, hpath]
    simp only [hbinds]
  refine ⟨fun f y => ?_, fun f d y => ?_, fun f y => ?_, fun f => ?_⟩
  · rw [ha'.get?_eq f.isLt, ha.get?_eq f.isLt, hnearest]
    by_cases hy : y = x
    · subst hy
      cases hf : before.nearest? ⟨f⟩ y with
      | none => simp
      | some holder => simp only [Option.bind_some, hwritten, Option.some.injEq]
    · simp only [hy, and_false, if_false, hwritten]
  · rw [ha'.getAt_eq f.isLt, ha.getAt_eq f.isLt, hpath]
    cases hf : (before.path ⟨f⟩)[d]? with
    | none => simp
    | some holder =>
      simp only [Option.elim_some, hwritten, Option.some.injEq]
      split <;> rfl
  · rw [ha'.binding, ha.binding, hbinds]
  · rw [hframes, Frames.enclosing?_define]

/-! ## Reads and writes behind a history -/

/-- **Whether frames behave as their history says.** -/
structure Mirrored (h : History n) : Prop where
  /-- A name means what was last written to it in the nearest frame that binds it. -/
  get : ∀ (f : Fin n) x, h.frames.get? ⟨f⟩ x = (h.nearest? ⟨f⟩ x).bind fun g => h.written? g x
  /-- It means nothing exactly if no frame on the way out binds it. -/
  undefined : ∀ (f : Fin n) x,
    h.frames.get? ⟨f⟩ x = none ↔ ∀ g ∈ h.path ⟨f⟩, h.written? g x = none
  /-- At a distance it means what was last written to it in the frame so many steps out. -/
  getAt : ∀ (f : Fin n) d x v, h.frames.getAt ⟨f⟩ d x = .ok v ↔
    ∃ g, (h.path ⟨f⟩)[d]? = some g ∧ h.written? g x = some v
  /-- It means nothing there exactly if this frame does not bind it, or if the way ends before.  The
  steps that are left are those beyond the end. -/
  unbound : ∀ (f : Fin n) d x left, h.frames.getAt ⟨f⟩ d x = .error left ↔
    (∃ g, (h.path ⟨f⟩)[d]? = some g ∧ h.written? g x = none ∧ left = 0) ∨
      (h.path ⟨f⟩).length ≤ d ∧ left + (h.path ⟨f⟩).length = d + 1
  /-- A name that means something can be written to, in the nearest frame that binds it. -/
  assign : ∀ (f : Fin n) x v u, h.frames.get? ⟨f⟩ x = some u → ∃ g, h.nearest? ⟨f⟩ x = some g ∧
    h.frames.assign? ⟨f⟩ x v = some (h.assign f x v).frames ∧ h.Overwrites (h.assign f x v) g x v
  /-- A name that means nothing cannot be written to, and nothing changes. -/
  assign_undefined : ∀ (f : Fin n) x v, h.frames.get? ⟨f⟩ x = none →
    h.frames.assign? ⟨f⟩ x v = none ∧ (h.assign f x v).frames = h.frames
  /-- What means something at a distance can be written to, in the frame so many steps out. -/
  assignAt : ∀ (f : Fin n) d x v u, h.frames.getAt ⟨f⟩ d x = .ok u →
    ∃ g, (h.path ⟨f⟩)[d]? = some g ∧
      h.frames.assignAt ⟨f⟩ d x v = .ok (h.assignAt f d x v).frames ∧
      h.Overwrites (h.assignAt f d x v) g x v
  /-- What means nothing there cannot be written to, and nothing changes. -/
  assignAt_unbound : ∀ (f : Fin n) d x v left, h.frames.getAt ⟨f⟩ d x = .error left →
    h.frames.assignAt ⟨f⟩ d x v = .error left ∧ (h.assignAt f d x v).frames = h.frames

variable (h : History n) (f : Fin n) (x : String) (v : Value)

theorem get?_eq_none_iff :
    h.frames.get? ⟨f⟩ x = none ↔ ∀ g ∈ h.path ⟨f⟩, h.written? g x = none := by
  rw [h.agrees.get?_eq f.isLt]
  cases hnearest : h.nearest? ⟨f⟩ x with
  | none =>
    refine iff_of_true rfl fun g hg => ?_
    simpa using List.find?_eq_none.mp hnearest g hg
  | some holder =>
    have hbinds := isSome_of_nearest? hnearest
    refine iff_of_false (fun hnone => ?_) fun hnone => ?_
    · rw [Option.bind_some] at hnone
      rw [hnone] at hbinds
      cases hbinds
    · rw [hnone holder (List.mem_of_find?_eq_some hnearest)] at hbinds
      cases hbinds

theorem getAt_eq_ok_iff (d : Nat) : h.frames.getAt ⟨f⟩ d x = .ok v ↔
    ∃ g, (h.path ⟨f⟩)[d]? = some g ∧ h.written? g x = some v := by
  rw [h.agrees.getAt_eq f.isLt]
  cases (h.path ⟨f⟩)[d]? with
  | none => exact iff_of_false nofun fun ⟨_, hg, _⟩ => nomatch hg
  | some holder => cases hwritten : h.written? holder x <;> simp [hwritten]

theorem getAt_eq_error_iff (d left : Nat) : h.frames.getAt ⟨f⟩ d x = .error left ↔
    (∃ g, (h.path ⟨f⟩)[d]? = some g ∧ h.written? g x = none ∧ left = 0) ∨
      (h.path ⟨f⟩).length ≤ d ∧ left + (h.path ⟨f⟩).length = d + 1 := by
  rw [h.agrees.getAt_eq f.isLt]
  cases hd : (h.path ⟨f⟩)[d]? with
  | none =>
    have hle := List.getElem?_eq_none_iff.mp hd
    simp only [Option.elim_none, Except.error.injEq]
    refine ⟨fun hleft => .inr ⟨hle, by omega⟩, ?_⟩
    rintro (⟨_, hg, _⟩ | ⟨-, hleft⟩)
    · cases hg
    · omega
  | some holder =>
    have hlt := (List.getElem?_eq_some_iff.mp hd).1
    have hbeyond : ¬ ((h.path ⟨f⟩).length ≤ d ∧ left + (h.path ⟨f⟩).length = d + 1) := by omega
    rw [or_iff_left hbeyond]
    cases hwritten : h.written? holder x <;> simp [hwritten, eq_comm]

theorem assign_of_get? {u : Value} (hu : h.frames.get? ⟨f⟩ x = some u) :
    ∃ g, h.nearest? ⟨f⟩ x = some g ∧ h.frames.assign? ⟨f⟩ x v = some (h.assign f x v).frames ∧
      h.Overwrites (h.assign f x v) g x v := by
  have ha := h.agrees
  rw [ha.get?_eq f.isLt] at hu
  obtain ⟨g, hnearest, hwritten⟩ := Option.bind_eq_some_iff.mp hu
  have hassign : h.frames.assign? ⟨f⟩ x v = some (h.frames.define g x v) := by
    rw [ha.assign?_eq f.isLt, hnearest]
    rfl
  have hframes : (h.assign f x v).frames = h.frames.define g x v := by
    rw [frames, hassign]
    rfl
  exact ⟨g, hnearest, hframes ▸ hassign,
    overwrites (Option.isSome_of_eq_some hwritten) (fun _ => rfl) hframes⟩

theorem assign_of_get?_none (hu : h.frames.get? ⟨f⟩ x = none) :
    h.frames.assign? ⟨f⟩ x v = none ∧ (h.assign f x v).frames = h.frames := by
  have ha := h.agrees
  have hassign : h.frames.assign? ⟨f⟩ x v = none := by
    rw [ha.assign?_eq f.isLt]
    cases hnearest : h.nearest? ⟨f⟩ x with
    | none => rfl
    | some holder =>
      have hnone := (h.get?_eq_none_iff f x).mp hu holder (List.mem_of_find?_eq_some hnearest)
      have hbinds := isSome_of_nearest? hnearest
      rw [hnone] at hbinds
      cases hbinds
  exact ⟨hassign, by rw [frames, hassign]; rfl⟩

theorem assignAt_of_getAt {d : Nat} {u : Value} (hu : h.frames.getAt ⟨f⟩ d x = .ok u) :
    ∃ g, (h.path ⟨f⟩)[d]? = some g ∧
      h.frames.assignAt ⟨f⟩ d x v = .ok (h.assignAt f d x v).frames ∧
      h.Overwrites (h.assignAt f d x v) g x v := by
  obtain ⟨g, hd, hwritten⟩ := (h.getAt_eq_ok_iff f x u d).mp hu
  have hassign : h.frames.assignAt ⟨f⟩ d x v = .ok (h.frames.define g x v) := by
    rw [h.agrees.assignAt_eq f.isLt, hd, Option.elim_some, hwritten]
    rfl
  have hframes : (h.assignAt f d x v).frames = h.frames.define g x v := by
    rw [frames, hassign]
    rfl
  exact ⟨g, hd, hframes ▸ hassign,
    overwrites (Option.isSome_of_eq_some hwritten) (fun _ => rfl) hframes⟩

theorem assignAt_of_getAt_error {d left : Nat} (hu : h.frames.getAt ⟨f⟩ d x = .error left) :
    h.frames.assignAt ⟨f⟩ d x v = .error left ∧ (h.assignAt f d x v).frames = h.frames := by
  have ha := h.agrees
  have hassign : h.frames.assignAt ⟨f⟩ d x v = .error left := by
    rw [ha.getAt_eq f.isLt] at hu
    rw [ha.assignAt_eq f.isLt]
    cases hd : (h.path ⟨f⟩)[d]? with
    | none => rw [hd] at hu; cases hu; rfl
    | some holder =>
      rw [hd, Option.elim_some] at hu
      rw [Option.elim_some]
      cases hwritten : h.written? holder x with
      | none => rw [hwritten] at hu; cases hu; rfl
      | some old => rw [hwritten] at hu; cases hu
  exact ⟨hassign, by rw [frames, hassign]; rfl⟩

theorem mirrored : h.Mirrored where
  get f _ := h.agrees.get?_eq f.isLt
  undefined := h.get?_eq_none_iff
  getAt f d x v := h.getAt_eq_ok_iff f x v d
  unbound f d x left := h.getAt_eq_error_iff f x d left
  assign f x v _ := h.assign_of_get? f x v
  assign_undefined := h.assign_of_get?_none
  assignAt f _ x v _ := h.assignAt_of_getAt f x v
  assignAt_unbound f _ x v _ := h.assignAt_of_getAt_error f x v

end History

/-! ## References of a machine -/

namespace Machine

/-- What a reference means: at its distance, or among the outermost variables. -/
def read (m : Machine) (reference : Reference) : Except Fault Value :=
  match m.distances.get? reference.id with
  | some distance => (m.heap.frames.getAt m.environment distance reference.name.text).mapError
      (Fault.unbound reference.name.text)
  | none => (m.heap.frames.get? m.globals reference.name.text).elim
      (.error (.undefinedVariable reference.name)) .ok

/-- The frames behind a write to what a reference means. -/
def write (m : Machine) (reference : Reference) (v : Value) : Except Fault Frames :=
  match m.distances.get? reference.id with
  | some distance => (m.heap.frames.assignAt m.environment distance reference.name.text v).mapError
      (Fault.unbound reference.name.text)
  | none => (m.heap.frames.assign? m.globals reference.name.text v).elim
      (.error (.undefinedVariable reference.name)) .ok

variable {m : Machine} {reference : Reference} {v : Value}

/-- **What a reference is looked up as.** -/
theorem lookUp_eq (m : Machine) (reference : Reference) :
    Run.lookUp reference m = Run.ofExcept (m.read reference) m := by
  have hheap : Run.getHeap m = .ok m.heap m := rfl
  rw [Run.lookUp, Steps.get_bind, read]
  cases m.distances.get? reference.id with
  | none =>
    dsimp only
    cases m.heap.frames.get? m.globals reference.name.text <;> rfl
  | some distance =>
    dsimp only
    rw [Run.getAt, Steps.bind_of_ok hheap]
    cases m.heap.frames.getAt m.environment distance reference.name.text <;> rfl

/-- The machine looks for the frame first and writes to it then. -/
theorem holder_cases (m : Machine) (reference : Reference) (v : Value) :
    (∃ f, Run.holder reference m = .ok f m ∧
      m.write reference v = .ok (m.heap.frames.define f reference.name.text v)) ∨
    ∃ fault, Run.holder reference m = .error (.fault fault) m ∧
      m.write reference v = .error fault := by
  rw [Run.holder, Steps.get_bind, write]
  cases m.distances.get? reference.id with
  | none =>
    dsimp only
    rw [Frames.assign?]
    cases m.heap.frames.holder? m.globals reference.name.text with
    | none => exact .inr ⟨_, rfl, rfl⟩
    | some f => exact .inl ⟨f, rfl, rfl⟩
  | some distance =>
    dsimp only
    rw [Frames.assignAt]
    cases m.heap.frames.holderAt m.environment distance reference.name.text with
    | ok f => exact .inl ⟨f, rfl, rfl⟩
    | error left => exact .inr ⟨_, rfl, rfl⟩

/-- **What a reference is written to.**  A write that fails leaves the machine as it is. -/
theorem store_cases (m : Machine) (reference : Reference) (v : Value) :
    (∃ frames, m.write reference v = .ok frames ∧
      Run.store reference v m = .ok () { m with heap := { m.heap with frames } }) ∨
    ∃ fault, m.write reference v = .error fault ∧
      Run.store reference v m = .error (.fault fault) m := by
  rcases m.holder_cases reference v with ⟨f, hholder, hwrite⟩ | ⟨fault, hholder, hwrite⟩
  · exact .inl ⟨_, hwrite, by rw [Run.store, Steps.bind_of_ok hholder]; rfl⟩
  · exact .inr ⟨fault, hwrite, by rw [Run.store, Steps.bind_of_error hholder]⟩

end Machine

/-- **Frames are the tree that their history says.**  Behind every history, reads and writes, by name
and at a distance, find what was last written and fail where nothing was.  The machine looks its
references up and writes to them in these ways, and a fault names what was not found. -/
theorem History.frames_mirrored {n : Nat} (h : History n) :
    h.Mirrored ∧
      ∀ (m : Machine) (reference : Reference) (v : Value),
        Machine.Run.lookUp reference m = Machine.Run.ofExcept (m.read reference) m ∧
          ((∃ frames, m.write reference v = .ok frames ∧
            Machine.Run.store reference v m = .ok () { m with heap := { m.heap with frames } }) ∨
          ∃ fault, m.write reference v = .error fault ∧
            Machine.Run.store reference v m = .error (.fault fault) m) :=
  ⟨h.mirrored, fun m reference v => ⟨m.lookUp_eq reference, m.store_cases reference v⟩⟩

/-- An inner frame that binds a name later hides the outer one from itself, and from no other. -/
example :
    let shared := (History.start.root.define 0 "a" .nil).child 0 |>.child 0
    let h := (shared.assign 1 "a" (.bool false)).define 1 "a" (.bool true)
    [0, 1, 2].map (fun i => h.frames.get? ⟨i⟩ "a") =
      [some (.bool false), some (.bool true), some (.bool false)] := by
  decide +kernel

end Lox
