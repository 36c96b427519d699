import Lox.Proofs.Interpret
import Lox.Proofs.Joining.Statements

/-!
# Programs vary

A program that runs behind another is run as one with it (`interpret_append`), and the run of a new
program behind old ones is followed on other lines (`program_follows`).  Without new code a variation
chooses nothing but the table of distances, so a run is the same with any table that answers alike
for the references of its code (`run_table`).
-/

namespace Lox.Joining

open Machine Run

variable {σ : Setting} {m : Machine} {marks : List Bool} {new : Bool}

/-! ## Programs in a row -/

theorem runProgram_append (fuel : Nat) : ∀ program more : Program,
    runProgram fuel (program ++ more) = runProgram fuel program >>= fun _ => runProgram fuel more
  | [], _ => rfl
  | s :: program, more => by
    show (execute fuel s >>= fun _ => runProgram fuel (program ++ more)) =
      (execute fuel s >>= fun _ => runProgram fuel program) >>= fun _ => runProgram fuel more
    rw [runProgram_append fuel program more, bind_assoc]

theorem backToGlobals_bind (x y : Run Unit) :
    backToGlobals (x >>= fun _ => y) = backToGlobals x >>= fun _ => backToGlobals y := by
  funext m
  cases hx : x m with
  | ok a m₁ =>
    rw [Steps.bind_of_ok (backToGlobals_of_ok hx)]
    unfold backToGlobals
    rw [Steps.bind_of_ok hx]
  | error stop m₁ =>
    rw [Steps.bind_of_error (backToGlobals_of_error hx)]
    exact backToGlobals_of_error (Steps.bind_of_error hx)

theorem flushOnStop_bind (x y : Run Unit) :
    flushOnStop (x >>= fun _ => y) = flushOnStop x >>= fun _ => flushOnStop y := by
  funext m
  cases hx : x m with
  | ok a m₁ =>
    rw [Steps.bind_of_ok (flushOnStop_of_ok hx)]
    unfold flushOnStop
    rw [Steps.bind_of_ok hx]
  | error stop m₁ =>
    rw [Steps.bind_of_error (flushOnStop_of_error hx)]
    exact flushOnStop_of_error (Steps.bind_of_error hx)

/-- **A program in two parts** runs the one and then the other, with the distances of both. -/
theorem interpret_append (fuel : Nat) (program more : Program) (distances : Distances) :
    interpret fuel (program ++ more) distances m =
      (flushOnStop (backToGlobals (runProgram fuel program)) >>= fun _ =>
        flushOnStop (backToGlobals (runProgram fuel more)) >>= fun _ => flush)
        { m with distances := m.distances.merge distances } := by
  rw [← bind_assoc, ← flushOnStop_bind, ← backToGlobals_bind, ← runProgram_append]
  rfl

/-! ## Programs on other lines -/

theorem runProgram_follows (fuel : Nat) : ∀ {program : Program} {m : Machine} {marks : List Bool},
    Stmt.AllFrom (σ.origin new) program → Fits σ m marks →
    Follows σ m marks (runProgram fuel program)
      (fun v => runProgram fuel (Stmt.allMoved (v.shift new) program))
  | [], _, _, _, h => .pure h ()
  | _ :: _, _, _, hfrom, h =>
    .bind (execute_follows σ fuel hfrom.1 h) fun _ _ _ _ h₁ => runProgram_follows fuel hfrom.2 h₁

theorem Follows.backToGlobals {x : Run Unit} {y : Variation σ → Run Unit}
    (h : Follows σ m marks x y) :
    Follows σ m marks (Machine.backToGlobals x) (fun v => Machine.backToGlobals (y v)) := by
  obtain ⟨m₁, marks₁, hfits, hgrows, ⟨a, hx, hy⟩ | ⟨stop, new, hx, hknown, hy⟩⟩ := h
  · exact ⟨m₁, marks₁, hfits, hgrows,
      .inl ⟨a, backToGlobals_of_ok hx, fun v => backToGlobals_of_ok (hy v)⟩⟩
  · exact ⟨{ m₁ with environment := m₁.globals }, marks₁, hfits.withEnvironment _, hgrows,
      .inr ⟨stop, new, backToGlobals_of_error hx, hknown, fun v => backToGlobals_of_error (hy v)⟩⟩

theorem Follows.flushOnStop {x : Run Unit} {y : Variation σ → Run Unit}
    (h : Follows σ m marks x y) :
    Follows σ m marks (Machine.flushOnStop x) (fun v => Machine.flushOnStop (y v)) := by
  obtain ⟨m₁, marks₁, hfits, hgrows, ⟨a, hx, hy⟩ | ⟨stop, new, hx, hknown, hy⟩⟩ := h
  · exact ⟨m₁, marks₁, hfits, hgrows,
      .inl ⟨a, flushOnStop_of_ok hx, fun v => flushOnStop_of_ok (hy v)⟩⟩
  · exact ⟨{ m₁ with flushes := m₁.flushes + 1 }, marks₁, hfits.withFlushes _, hgrows,
      .inr ⟨stop, new, flushOnStop_of_error hx, hknown, fun v => flushOnStop_of_error (hy v)⟩⟩

/-- **The statements of a program are followed** on other lines, up to where they stop. -/
theorem statements_follow (fuel : Nat) {program : Program}
    (hfrom : Stmt.AllFrom (σ.origin new) program) (h : Fits σ m marks) :
    Follows σ m marks (Machine.flushOnStop (Machine.backToGlobals (runProgram fuel program)))
      (fun v => Machine.flushOnStop
        (Machine.backToGlobals (runProgram fuel (Stmt.allMoved (v.shift new) program)))) :=
  (runProgram_follows fuel hfrom h).backToGlobals.flushOnStop

/-- **A program is followed** on other lines, to its end and the flush behind it. -/
theorem program_follows (fuel : Nat) {program : Program}
    (hfrom : Stmt.AllFrom (σ.origin new) program) (h : Fits σ m marks) :
    Follows σ m marks
      (Machine.flushOnStop (Machine.backToGlobals (runProgram fuel program)) >>= fun _ => flush)
      (fun v => Machine.flushOnStop
        (Machine.backToGlobals (runProgram fuel (Stmt.allMoved (v.shift new) program))) >>=
          fun _ => flush) :=
  .bind (statements_follow fuel hfrom h) fun _ _ _ _ h₁ => .flush h₁

/-! ## Variations that move nothing -/

theorem Shift.downIf_zero (new : Bool) : Shift.downIf new 0 = .zero := by
  cases new <;> rfl

theorem Shift.downIf_false (lines : Nat) : Shift.downIf false lines = .zero := rfl

theorem FunctionObject.moved_zero (object : FunctionObject) : object.moved .zero = object := by
  unfold FunctionObject.moved
  rw [FunctionDecl.moved_zero]

/-- Where no function is on later lines, the heap is the same. -/
theorem Heap.moved_eq_self {heap : Heap} {marks : List Bool} {lines : Nat}
    (h : ∀ i, Shift.downIf (marks.getD i false) lines = .zero) : heap.moved marks lines = heap := by
  have hfunctions : (heap.functions.mapIdx fun i object =>
      object.moved (.downIf (marks.getD i false) lines)) = heap.functions := by
    refine Array.mapIdx_eq_iff.mpr fun i => ?_
    rw [h i]
    cases heap.functions[i]? with
    | none => rfl
    | some object => exact congrArg some (FunctionObject.moved_zero object).symm
  unfold Heap.moved
  rw [hfunctions]

theorem getD_replicate_false (n i : Nat) : (List.replicate n false).getD i false = false := by
  rw [List.getD_eq_getElem?_getD, List.getElem?_replicate]
  split <;> rfl

/-- A variation without new functions chooses the table and the flushes only. -/
theorem moved_of_old (v : Variation σ) (n : Nat) :
    m.moved v (List.replicate n false) =
      { m with distances := v.table, flushes := v.flushes + m.flushes } := by
  have hheap : m.heap.moved (List.replicate n false) v.lines = m.heap :=
    Heap.moved_eq_self fun i => by rw [getD_replicate_false, Shift.downIf_false]
  unfold Machine.moved
  rw [hheap]

/-- A variation without later lines chooses the table and the flushes only. -/
theorem moved_of_zero {v : Variation σ} (hv : v.lines = 0) :
    m.moved v marks = { m with distances := v.table, flushes := v.flushes + m.flushes } := by
  have hheap : m.heap.moved marks v.lines = m.heap :=
    Heap.moved_eq_self fun i => by rw [hv, Shift.downIf_zero]
  unfold Machine.moved
  rw [hheap]

theorem Stop.moved_zero (stop : Stop) : stop.moved .zero = stop := by
  cases stop with
  | outOfFuel => rfl
  | fault f => exact congrArg Stop.fault f.moved_zero

/-- **A run is the same with every table** that answers alike for the references of its code. -/
theorem run_table (fuel : Nat) {program : Program} (hfrom : Stmt.AllFrom (σ.origin new) program)
    (h : Fits σ m marks) {table : Distances} (hagrees : ∀ (new : Bool) (id : NodeId),
      (σ.origin new).id id → table.get? id = σ.distances.get? id) :
    let run := Machine.flushOnStop (Machine.backToGlobals (runProgram fuel program))
    ∃ m' marks', Fits σ m' marks' ∧
      ((run m = .ok () m' ∧
        run { m with distances := table } = .ok () { m' with distances := table }) ∨
      ∃ stop, run m = .error stop m' ∧
        run { m with distances := table } = .error stop { m' with distances := table }) := by
  intro run
  let v : Variation σ := ⟨0, table, hagrees, 0⟩
  have hshift : v.shift new = .zero := Shift.downIf_zero new
  have hmoved : ∀ (m : Machine) marks, m.moved v marks = { m with distances := table } := by
    intro m marks
    rw [moved_of_zero rfl, Nat.zero_add]
  obtain ⟨m', marks', hfits, -, hends⟩ := statements_follow fuel hfrom h
  refine ⟨m', marks', hfits, ?_⟩
  rcases hends with ⟨_, hx, hy⟩ | ⟨stop, new', hx, -, hy⟩
  · have hv := hy v
    dsimp only at hv
    rw [hmoved, hmoved, hshift, Stmt.allMoved_zero] at hv
    exact .inl ⟨hx, hv⟩
  · have hv := hy v
    have hstop : v.shift new' = .zero := Shift.downIf_zero new'
    dsimp only at hv
    rw [hmoved, hmoved, hshift, hstop, Stmt.allMoved_zero, Stop.moved_zero] at hv
    exact .inr ⟨stop, hx, hv⟩

end Lox.Joining
