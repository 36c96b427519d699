import Lox.Store.Heap

/-!
# What happens to frames

Two things happen to frames: one more is pushed, and a name is bound in one of them.  Neither
changes what encloses a frame that is there already, so what is found so many steps out stays where
it is (`Frames.out_mono`).
-/

namespace Lox

namespace Table

variable {α : Type}

theorem putEntry_putEntry (x : String) (v u : α) : ∀ entries : List (String × α),
    putEntry x v (putEntry x u entries) = putEntry x v entries
  | [] => by simp only [putEntry, if_true]
  | (key, old) :: others => by
    by_cases hk : key = x
    · simp only [putEntry, if_pos hk]
    · simp only [putEntry, if_neg hk, putEntry_putEntry x v u others]

theorem put_put (table : Table α) (x : String) (v u : α) :
    (table.put x u).put x v = table.put x v :=
  congrArg Table.mk (putEntry_putEntry x v u table.entries)

theorem putEntry_of_notMem {x : String} {v : α} : ∀ {entries : List (String × α)},
    x ∉ entries.map Prod.fst → putEntry x v entries = entries ++ [(x, v)]
  | [], _ => rfl
  | (key, old) :: others, h => by
    rw [List.map_cons, List.mem_cons, not_or] at h
    rw [putEntry, if_neg fun he => h.1 he.symm, putEntry_of_notMem h.2, List.cons_append]

theorem put_of_notMem {table : Table α} {x : String} {v : α} (h : x ∉ table.names) :
    table.put x v = ⟨table.entries ++ [(x, v)]⟩ :=
  congrArg Table.mk (putEntry_of_notMem h)

end Table

namespace Frames

variable {frames : Frames} {id f g : FrameId} {x y : String} {v : Value}

/-! ## One more frame -/

theorem frame?_push (frames : Frames) (frame : Frame) (id : FrameId) :
    (frames.push frame).2.frame? id =
      if id.index = frames.all.size then some frame else frames.frame? id := by
  simp only [push, frame?, Array.getElem?_push]

theorem frame?_push_of_lt {frame : Frame} (h : id.index < frames.all.size) :
    (frames.push frame).2.frame? id = frames.frame? id := by
  rw [frame?_push, if_neg (Nat.ne_of_lt h)]

theorem frame?_push_self (frames : Frames) (frame : Frame) :
    (frames.push frame).2.frame? (frames.push frame).1 = some frame :=
  (frame?_push frames frame _).trans (if_pos rfl)

theorem lt_of_frame? {frame : Frame} (h : frames.frame? id = some frame) :
    id.index < frames.all.size :=
  (Array.getElem?_eq_some_iff.mp h).1

theorem lt_of_binding? (h : frames.binding? id x = some v) : id.index < frames.all.size := by
  unfold binding? at h
  cases hframe : frames.frame? id with
  | none => rw [hframe] at h; cases h
  | some frame => exact lt_of_frame? hframe

theorem binding?_push_of_lt {frame : Frame} (h : id.index < frames.all.size) :
    (frames.push frame).2.binding? id x = frames.binding? id x := by
  rw [binding?, frame?_push_of_lt h]
  rfl

theorem binding?_push_self (frames : Frames) (frame : Frame) :
    (frames.push frame).2.binding? (frames.push frame).1 x = frame.bindings.get? x := by
  rw [binding?, frame?_push_self]
  rfl

theorem enclosing?_push_self (frames : Frames) (frame : Frame) :
    (frames.push frame).2.enclosing? (frames.push frame).1 = frame.enclosing := by
  rw [enclosing?, frame?_push_self]
  rfl

theorem enclosing?_push {frame : Frame} {outer : FrameId} (h : frames.enclosing? id = some outer) :
    (frames.push frame).2.enclosing? id = some outer := by
  unfold enclosing? at h ⊢
  cases hframe : frames.frame? id with
  | none => rw [hframe] at h; cases h
  | some found => rw [frame?_push_of_lt (lt_of_frame? hframe), h]

/-! ## One more binding -/

theorem frame?_define (frames : Frames) (f g : FrameId) (x : String) (v : Value) :
    (frames.define f x v).frame? g =
      if f.index = g.index then
        (frames.frame? g).map fun frame => { frame with bindings := frame.bindings.put x v }
      else frames.frame? g := by
  simp only [define, frame?, Array.getElem?_modify]

theorem frame?_define_of_ne (h : g ≠ f) : (frames.define f x v).frame? g = frames.frame? g := by
  rw [frame?_define, if_neg]
  intro he
  exact h (by cases f; cases g; simp_all)

theorem frame?_define_self :
    (frames.define f x v).frame? f =
      (frames.frame? f).map fun frame => { frame with bindings := frame.bindings.put x v } := by
  rw [frame?_define, if_pos rfl]

theorem enclosing?_define : (frames.define f x v).enclosing? g = frames.enclosing? g := by
  unfold enclosing?
  rw [frame?_define]
  split
  · cases frames.frame? g <;> rfl
  · rfl

theorem binding?_define_of_ne (h : g ≠ f ∨ y ≠ x) :
    (frames.define f x v).binding? g y = frames.binding? g y := by
  unfold binding?
  by_cases hg : g = f
  · subst hg
    rw [frame?_define_self]
    cases frames.frame? g with
    | none => rfl
    | some frame => exact Table.get?_put_of_ne _ v (h.resolve_left fun hne => hne rfl)
  · rw [frame?_define_of_ne hg]

theorem binding?_define_self (h : f.index < frames.all.size) :
    (frames.define f x v).binding? f x = some v := by
  unfold binding?
  rw [frame?_define_self]
  have hframe : frames.frame? f = some frames.all[f.index] := Array.getElem?_eq_getElem h
  rw [hframe]
  exact Table.get?_put_self _ x v

theorem size_define : (frames.define f x v).all.size = frames.all.size := by
  simp [define]

theorem binding?_define_cases {u : Value} (h : (frames.define f x v).binding? g y = some u) :
    frames.binding? g y = some u ∨ u = v := by
  by_cases hsame : g = f ∧ y = x
  · obtain ⟨rfl, rfl⟩ := hsame
    have hlt := size_define ▸ lt_of_binding? h
    rw [binding?_define_self hlt] at h
    exact .inr (Option.some.inj h).symm
  · rw [binding?_define_of_ne (Decidable.not_and_iff_or_not.mp hsame)] at h
    exact .inl h

theorem isSome_binding?_define (h : (frames.binding? f x).isSome) :
    ((frames.define f x v).binding? g y).isSome = (frames.binding? g y).isSome := by
  by_cases hg : g = f ∧ y = x
  · obtain ⟨rfl, rfl⟩ := hg
    obtain ⟨old, hold⟩ := Option.isSome_iff_exists.mp h
    rw [binding?_define_self (lt_of_binding? hold), h]
    rfl
  · rw [binding?_define_of_ne]
    by_cases hgf : g = f
    · exact .inr fun hy => hg ⟨hgf, hy⟩
    · exact .inl hgf

theorem define_define (frames : Frames) (f : FrameId) (x : String) (v u : Value) :
    (frames.define f x u).define f x v = frames.define f x v := by
  refine congrArg Frames.mk (Array.ext_getElem? fun i => ?_)
  simp only [define, Array.getElem?_modify]
  split
  · cases frames.all[i]? with
    | none => rfl
    | some frame => simp only [Option.map_some, Table.put_put]
  · rfl

/-- A write to a new frame is as good as a frame that was made with it. -/
theorem define_push (frames : Frames) (bindings : Table Value) (outer : Option FrameId)
    (x : String) (v : Value) :
    (frames.push ⟨bindings, outer⟩).2.define ⟨frames.all.size⟩ x v =
      (frames.push ⟨bindings.put x v, outer⟩).2 := by
  refine congrArg Frames.mk (Array.ext_getElem? fun i => ?_)
  simp only [push, Array.getElem?_modify, Array.getElem?_push]
  by_cases hi : frames.all.size = i
  · rw [if_pos hi, if_pos hi.symm, if_pos hi.symm]
    rfl
  · rw [if_neg hi, if_neg (Ne.symm hi), if_neg (Ne.symm hi)]

/-- Several writes to a new frame are as good as a frame that was made with them. -/
theorem foldl_define_push (frames : Frames) (outer : Option FrameId) :
    ∀ (entries : List (Name × Value)) (bindings : Table Value),
      entries.foldl (fun frames' entry => frames'.define ⟨frames.all.size⟩ entry.1.text entry.2)
          (frames.push ⟨bindings, outer⟩).2 =
        (frames.push ⟨entries.foldl (fun table entry => table.put entry.1.text entry.2) bindings,
          outer⟩).2
  | [], _ => rfl
  | (name, v) :: entries, bindings => by
    rw [List.foldl_cons, List.foldl_cons, define_push]
    exact foldl_define_push frames outer entries _

/-! ## Steps out -/

theorem out_succ (frames : Frames) (id : FrameId) (d : Nat) :
    frames.out id (d + 1) =
      match frames.enclosing? id with
      | some outer => frames.out outer d
      | none => .error (d + 1) := rfl

/-- **What is so many steps out stays there** if no frame gets another one around it. -/
theorem out_mono {frames' : Frames}
    (h : ∀ id outer, frames.enclosing? id = some outer → frames'.enclosing? id = some outer) :
    ∀ {d : Nat} {id g : FrameId}, frames.out id d = .ok g → frames'.out id d = .ok g
  | 0, _, _, hout => hout
  | d + 1, id, g, hout => by
    rw [out_succ] at hout ⊢
    cases henclosing : frames.enclosing? id with
    | none => rw [henclosing] at hout; cases hout
    | some outer =>
      rw [henclosing] at hout
      rw [h id outer henclosing]
      exact out_mono h hout

theorem getAt_eq_ok {d : Nat} (hout : frames.out f d = .ok g) (hv : frames.binding? g x = some v) :
    frames.getAt f d x = .ok v := by
  rw [getAt, hout]
  simp only [hv]

theorem holderAt_eq_ok {d : Nat} (hout : frames.out f d = .ok g)
    (hv : (frames.binding? g x).isSome) : frames.holderAt f d x = .ok g := by
  rw [holderAt, hout]
  simp only [hv, if_true]

theorem holderAt_eq_error (hv : (frames.binding? f x).isSome = false) :
    frames.holderAt f 0 x = .error 0 := by
  rw [holderAt, out]
  simp [hv]

theorem isSome_of_holder? (h : frames.holder? f x = some g) : (frames.binding? g x).isSome := by
  have hg := List.find?_some h
  exact hg

/-! ## Frames without anything around them -/

theorem holder?_self (h : (frames.binding? f x).isSome) : frames.holder? f x = some f := by
  rw [holder?, path, List.find?_cons, h]

theorem holder?_outermost (h : frames.enclosing? f = none) :
    frames.holder? f x = if (frames.binding? f x).isSome then some f else none := by
  rw [holder?, path, h, List.find?_cons]
  cases (frames.binding? f x).isSome <;> rfl

theorem get?_outermost (h : frames.enclosing? f = none) : frames.get? f x = frames.binding? f x := by
  rw [get?, holder?_outermost h]
  cases hv : frames.binding? f x with
  | none => rfl
  | some v => exact hv

end Frames

end Lox
