import Lox.Proofs.Frames
import Lox.Proofs.Histories.Basic

/-!
# Frames and their histories

Frames keep bindings and links, and a name is searched for along the links.  Behind every history
the ways out are those that the history says, and each frame binds what the history says was last
written there (`History.agrees`).  So whatever is found is what was last written to the nearest
frame, or to the one so many steps out.
-/

namespace Lox

namespace Frames

variable {frames frames' : Frames} {id f g : FrameId} {x y : String} {v : Value}

/-! ## Ways out -/

theorem path_of_some {outer : FrameId} (h : frames.enclosing? id = some outer)
    (hlt : outer.index < id.index) : frames.path id = id :: frames.path outer := by
  rw [path, h]
  exact congrArg (id :: ·) (if_pos hlt)

theorem path_of_none (h : frames.enclosing? id = none) : frames.path id = [id] := by
  rw [path, h]

theorem path_congr (h : ∀ g : FrameId, g.index ≤ id.index →
    frames'.enclosing? g = frames.enclosing? g) : frames'.path id = frames.path id := by
  obtain ⟨i⟩ := id
  induction i using Nat.strongRecOn with
  | _ i ih =>
    rw [path, path, h ⟨i⟩ (Nat.le_refl i)]
    cases frames.enclosing? ⟨i⟩ with
    | none => rfl
    | some outer =>
      refine congrArg (FrameId.mk i :: ·) ?_
      dsimp only
      by_cases hlt : outer.index < i
      · rw [if_pos hlt, if_pos hlt]
        exact ih outer.index hlt fun g hg => h g (Nat.le_trans hg (Nat.le_of_lt hlt))
      · rw [if_neg hlt, if_neg hlt]

theorem path_define : (frames.define f x v).path id = frames.path id :=
  path_congr fun _ _ => enclosing?_define

theorem path_push_of_lt {frame : Frame} (h : id.index < frames.all.size) :
    (frames.push frame).2.path id = frames.path id :=
  path_congr fun g hg => by
    rw [enclosing?, frame?_push_of_lt (Nat.lt_of_le_of_lt hg h)]
    rfl

theorem out_eq_getElem? (hyounger : ∀ g outer : FrameId, frames.enclosing? g = some outer →
    outer.index < g.index) : ∀ (d : Nat) (id : FrameId), frames.out id d =
      ((frames.path id)[d]?.elim (.error (d + 1 - (frames.path id).length)) .ok)
  | 0, id => by rw [path]; rfl
  | d + 1, id => by
    rw [out_succ]
    cases henclosing : frames.enclosing? id with
    | none => rw [path_of_none henclosing]; rfl
    | some outer =>
      rw [path_of_some henclosing (hyounger id outer henclosing)]
      simp only [List.getElem?_cons_succ, List.length_cons, Nat.add_sub_add_right]
      exact out_eq_getElem? hyounger d outer

/-! ## Bindings -/

theorem binding?_push_empty (outer : Option FrameId) :
    (frames.push ⟨.empty, outer⟩).2.binding? id x = frames.binding? id x := by
  unfold binding?
  rw [frame?_push]
  split
  next hid =>
    have hnone : frames.frame? id = none := Array.getElem?_eq_none (Nat.le_of_eq hid.symm)
    rw [hnone]
    rfl
  next => rfl

theorem binding?_define (h : f.index < frames.all.size) :
    (frames.define f x v).binding? g y =
      if g = f ∧ y = x then some v else frames.binding? g y := by
  split
  next hsame =>
    obtain ⟨rfl, rfl⟩ := hsame
    exact binding?_define_self h
  next hsame => exact binding?_define_of_ne (Decidable.not_and_iff_or_not.mp hsame)

/-! ## Reads and writes at a distance -/

theorem getAt_of_ok {d : Nat} (h : frames.out id d = .ok g) :
    frames.getAt id d x = (frames.binding? g x).elim (.error 0) .ok := by
  rw [getAt, h]
  dsimp only
  cases frames.binding? g x <;> rfl

theorem getAt_of_error {d left : Nat} (h : frames.out id d = .error left) :
    frames.getAt id d x = .error left := by
  rw [getAt, h]

theorem assignAt_of_ok {d : Nat} (h : frames.out id d = .ok g) :
    frames.assignAt id d x v =
      if (frames.binding? g x).isSome then .ok (frames.define g x v) else .error 0 := by
  rw [assignAt, holderAt, h]
  dsimp only
  cases (frames.binding? g x).isSome <;> rfl

theorem assignAt_of_error {d left : Nat} (h : frames.out id d = .error left) :
    frames.assignAt id d x v = .error left := by
  rw [assignAt, holderAt, h]

end Frames

namespace History

/-! ## Frames are what their histories say -/

/-- **Whether frames are what a history says**: there are as many, the ways out are the same, and
each binds what was last written there. -/
structure Agrees {n : Nat} (h : History n) (frames : Frames) : Prop where
  size : frames.all.size = n
  younger : ∀ f outer : FrameId, frames.enclosing? f = some outer → outer.index < f.index
  path : ∀ f : FrameId, f.index < n → frames.path f = h.path f
  binding : ∀ f x, frames.binding? f x = h.written? f x

namespace Agrees

variable {n : Nat} {h : History n} {frames : Frames} {f g : FrameId} {x : String} {v : Value}

theorem lt_of_written? (ha : h.Agrees frames) (hv : (h.written? f x).isSome) :
    f.index < frames.all.size := by
  rw [← ha.binding] at hv
  obtain ⟨v, hv⟩ := Option.isSome_iff_exists.mp hv
  exact Frames.lt_of_binding? hv

theorem holder? (ha : h.Agrees frames) (hf : f.index < n) :
    frames.holder? f x = h.nearest? f x := by
  rw [Frames.holder?, nearest?, ha.path f hf]
  simp only [ha.binding]

theorem out (ha : h.Agrees frames) (hf : f.index < n) (d : Nat) :
    frames.out f d = (h.path f)[d]?.elim (.error (d + 1 - (h.path f).length)) .ok := by
  rw [Frames.out_eq_getElem? ha.younger, ha.path f hf]

theorem root (ha : h.Agrees frames) : h.root.Agrees (frames.push ⟨.empty, none⟩).2 where
  size := (Array.size_push _).trans (congrArg (· + 1) ha.size)
  younger f outer hf := by
    rw [Frames.enclosing?, Frames.frame?_push] at hf
    split at hf
    · cases hf
    · exact ha.younger f outer hf
  path f hf := by
    by_cases hnew : f.index = n
    · have hself : f = (frames.push ⟨.empty, none⟩).1 := by
        cases f
        exact congrArg FrameId.mk (hnew.trans ha.size.symm)
      rw [Frames.path_of_none (hself ▸ Frames.enclosing?_push_self ..), History.path, if_pos hnew]
    · have hold : f.index < n := Nat.lt_of_le_of_ne (Nat.le_of_lt_succ hf) hnew
      rw [Frames.path_push_of_lt (ha.size ▸ hold), ha.path f hold, History.path, if_neg hnew]
  binding f x := by rw [Frames.binding?_push_empty, ha.binding, written?]

theorem child (ha : h.Agrees frames) (outer : Fin n) :
    (h.child outer).Agrees (frames.push ⟨.empty, some ⟨outer⟩⟩).2 where
  size := (Array.size_push _).trans (congrArg (· + 1) ha.size)
  younger f around hf := by
    rw [Frames.enclosing?, Frames.frame?_push] at hf
    split at hf
    next hnew =>
      cases hf
      rw [hnew, ha.size]
      exact outer.isLt
    next => exact ha.younger f around hf
  path f hf := by
    by_cases hnew : f.index = n
    · have hself : f = (frames.push ⟨.empty, some ⟨outer⟩⟩).1 := by
        cases f
        exact congrArg FrameId.mk (hnew.trans ha.size.symm)
      have henclosing : (frames.push ⟨.empty, some ⟨outer⟩⟩).2.enclosing? f = some ⟨outer⟩ :=
        hself ▸ Frames.enclosing?_push_self ..
      rw [Frames.path_of_some henclosing (hnew ▸ outer.isLt),
        Frames.path_push_of_lt (ha.size ▸ outer.isLt), ha.path ⟨outer⟩ outer.isLt, History.path,
        if_pos hnew]
    · have hold : f.index < n := Nat.lt_of_le_of_ne (Nat.le_of_lt_succ hf) hnew
      rw [Frames.path_push_of_lt (ha.size ▸ hold), ha.path f hold, History.path, if_neg hnew]
  binding f x := by rw [Frames.binding?_push_empty, ha.binding, written?]

/-- **One more write**, or none if it hits no frame, leaves the frames what a history says that has
it. -/
theorem write (ha : h.Agrees frames) {h' : History n} {hit : Option FrameId}
    (hlt : ∀ f, hit = some f → f.index < n) (hpath : ∀ f, h'.path f = h.path f)
    (hwritten : ∀ f y, h'.written? f y = if hit = some f ∧ y = x then some v else h.written? f y) :
    h'.Agrees (hit.elim frames fun f => frames.define f x v) := by
  cases hit with
  | none =>
    show h'.Agrees frames
    refine ⟨ha.size, ha.younger, fun f hf => by rw [ha.path f hf, hpath], fun f y => ?_⟩
    rw [hwritten, if_neg (fun hhit => nomatch hhit.1), ha.binding]
  | some g =>
    show h'.Agrees (frames.define g x v)
    refine ⟨Frames.size_define.trans ha.size, fun f outer hf => ?_, fun f hf => ?_, fun f y => ?_⟩
    · rw [Frames.enclosing?_define] at hf
      exact ha.younger f outer hf
    · rw [Frames.path_define, ha.path f hf, hpath]
    · rw [Frames.binding?_define (ha.size.symm ▸ hlt g rfl), hwritten, ha.binding]
      simp only [Option.some.injEq, eq_comm (a := g)]

/-! ### Reads and writes -/

section
variable (ha : h.Agrees frames)
include ha

theorem get?_eq (hf : f.index < n) :
    frames.get? f x = (h.nearest? f x).bind fun g => h.written? g x := by
  rw [Frames.get?, ha.holder? hf]
  simp only [ha.binding]

theorem getAt_eq (hf : f.index < n) (d : Nat) : frames.getAt f d x =
    (h.path f)[d]?.elim (.error (d + 1 - (h.path f).length)) fun g =>
      (h.written? g x).elim (.error 0) .ok := by
  have hout := ha.out hf d
  cases hg : (h.path f)[d]? with
  | none => rw [hg] at hout; exact Frames.getAt_of_error hout
  | some g => rw [hg] at hout; rw [Frames.getAt_of_ok hout, ha.binding]; rfl

theorem assign?_eq (hf : f.index < n) :
    frames.assign? f x v = (h.nearest? f x).map fun g => frames.define g x v := by
  rw [Frames.assign?, ha.holder? hf]

theorem assignAt_eq (hf : f.index < n) (d : Nat) : frames.assignAt f d x v =
    (h.path f)[d]?.elim (.error (d + 1 - (h.path f).length)) fun g =>
      if (h.written? g x).isSome then .ok (frames.define g x v) else .error 0 := by
  have hout := ha.out hf d
  cases hg : (h.path f)[d]? with
  | none => rw [hg] at hout; exact Frames.assignAt_of_error hout
  | some g => rw [hg] at hout; rw [Frames.assignAt_of_ok hout, ha.binding]; rfl

end

end Agrees

section
variable {n : Nat} {h : History n} {f g : FrameId} {x : String} {d : Nat}

theorem isSome_of_nearest? (hg : h.nearest? f x = some g) : (h.written? g x).isSome := by
  have hbinds := List.find?_some hg
  exact hbinds

theorem holderAt?_eq_some :
    h.holderAt? f d x = some g ↔ (h.path f)[d]? = some g ∧ (h.written? g x).isSome := by
  rw [holderAt?, Option.filter_eq_some_iff]

end

/-- **Frames are what their history says.** -/
theorem agrees : ∀ {n : Nat} (h : History n), h.Agrees h.frames
  | _, .start =>
    { size := rfl
      younger := fun f outer hf => by
        have hnone : Frames.empty.enclosing? f = none := by
          simp [Frames.enclosing?, Frames.frame?, Frames.empty]
        cases hnone.symm.trans hf
      path := fun f hf => absurd hf (Nat.not_lt_zero _)
      binding := fun f x => by simp [frames, Frames.binding?, Frames.frame?, Frames.empty, written?] }
  | _, .root earlier => earlier.agrees.root
  | _, .child earlier outer => earlier.agrees.child outer
  | n, .define earlier frame _ _ => by
    have hlt : ∀ f, some (FrameId.mk frame) = some f → f.index < n := by
      rintro _ ⟨⟩
      exact frame.isLt
    refine earlier.agrees.write hlt (fun _ => rfl) fun f y => ?_
    simp only [written?, Option.some.injEq, eq_comm (a := f)]
  | _, .assign earlier frame x v => by
    have ha := earlier.agrees
    have hframes : (earlier.assign frame x v).frames =
        (earlier.nearest? ⟨frame⟩ x).elim earlier.frames fun f => earlier.frames.define f x v := by
      rw [frames, ha.assign?_eq frame.isLt]
      cases earlier.nearest? ⟨frame⟩ x <;> rfl
    rw [hframes]
    exact ha.write (fun f hf => ha.size ▸ ha.lt_of_written? (isSome_of_nearest? hf))
      (fun _ => rfl) fun _ _ => rfl
  | _, .assignAt earlier frame d x v => by
    have ha := earlier.agrees
    have hframes : (earlier.assignAt frame d x v).frames =
        (earlier.holderAt? ⟨frame⟩ d x).elim earlier.frames fun f =>
          earlier.frames.define f x v := by
      rw [frames, ha.assignAt_eq frame.isLt, holderAt?]
      cases (earlier.path ⟨frame⟩)[d]? with
      | none => rfl
      | some g =>
        rw [Option.filter_some]
        dsimp only [Option.elim]
        split <;> rfl
    rw [hframes]
    exact ha.write (fun f hf => ha.size ▸ ha.lt_of_written? (holderAt?_eq_some.mp hf).2)
      (fun _ => rfl) fun _ _ => rfl

end History

end Lox
