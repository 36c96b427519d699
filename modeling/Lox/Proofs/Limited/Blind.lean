import Lox.Machine.Interpret
import Lox.Proofs.Steps

/-!
# Steps that do not see the sink

A limited sink takes what fits of a write and then fails (`Sink.write_limited_of_lt`); an unlimited one
takes everything.  Of all steps of the machine only `writeLine` and `flush` have to do with the sink.
All others are `Blind`: with another sink they come to the same, and leave that sink as it was.
-/

namespace Lox

/-! ## First bytes -/

theorem extract_of_size_le {bytes : ByteArray} {n : Nat} (h : bytes.size ≤ n) :
    bytes.extract 0 n = bytes := by
  have hmin : min n bytes.size = bytes.size := Nat.min_eq_right h
  calc bytes.extract 0 n
      = (bytes.extract 0 bytes.size).extract 0 n := by rw [ByteArray.extract_zero_size]
    _ = bytes.extract 0 bytes.size := by
        rw [ByteArray.extract_extract, Nat.add_zero, Nat.zero_add, hmin]
    _ = bytes := ByteArray.extract_zero_size

theorem extract_append_of_le {bytes : ByteArray} (more : ByteArray) {n : Nat} (h : n ≤ bytes.size) :
    (bytes ++ more).extract 0 n = bytes.extract 0 n := by
  have hnone : n - bytes.size = 0 := Nat.sub_eq_zero_of_le h
  rw [ByteArray.extract_append, Nat.zero_sub, hnone, ByteArray.extract_same, ByteArray.append_empty]

/-! ## Sinks with a limit -/

namespace Sink

/-- The sink with another limit. -/
def limited (sink : Sink) (capacity : Option Nat) : Sink :=
  { sink with capacity }

variable {sink : Sink} {bytes : ByteArray} {n : Nat}

theorem write_unlimited (h : sink.capacity = none) (bytes : ByteArray) :
    sink.write bytes = ({ sink with written := sink.written ++ bytes }, true) := by
  simp only [write, room, h, ByteArray.extract_zero_size, beq_self_eq_true]

theorem write_limited_of_le (h : sink.written.size + bytes.size ≤ n) :
    (sink.limited (some n)).write bytes =
      ({ sink.limited (some n) with written := sink.written ++ bytes }, true) := by
  have hcount : min bytes.size (n - sink.written.size) = bytes.size := by omega
  simp only [write, room, limited, hcount, ByteArray.extract_zero_size, beq_self_eq_true]

theorem write_limited_of_lt (h : sink.written.size ≤ n)
    (hfull : n < sink.written.size + bytes.size) :
    (sink.limited (some n)).write bytes =
      ({ sink.limited (some n) with written := (sink.written ++ bytes).extract 0 n }, false) := by
  have hcount : min bytes.size (n - sink.written.size) = n - sink.written.size := by omega
  have hfits : (n - sink.written.size == bytes.size) = false := by
    rw [beq_eq_false_iff_ne]
    omega
  have htaken : (sink.written ++ bytes).extract 0 n =
      sink.written ++ bytes.extract 0 (n - sink.written.size) := by
    rw [ByteArray.extract_append, extract_of_size_le h, Nat.zero_sub]
  simp only [write, room, limited, hcount, hfits, htaken]

end Sink

namespace Machine

/-- The machine with another limit of its sink. -/
def limited (m : Machine) (capacity : Option Nat) : Machine :=
  { m with sink := m.sink.limited capacity }

/-- What a run comes to, but with this sink. -/
def withSink {α : Type} (sink : Sink) :
    EStateM.Result Stop Machine α → EStateM.Result Stop Machine α
  | .ok a m => .ok a { m with sink }
  | .error stop m => .error stop { m with sink }

/-- **Whether a step does not see the sink**: with any other it comes to the same, and that sink is
left. -/
def Blind {α : Type} (x : Run α) : Prop :=
  ∀ m sink, x { m with sink } = withSink sink (x m)

namespace Blind

variable {α β : Type} {x : Run α} {f : α → Run β}

theorem pure (a : α) : Blind (Pure.pure a : Run α) := fun _ _ => rfl

theorem fail (fault : Fault) : Blind (Run.fail fault : Run α) := fun _ _ => rfl

theorem outOfFuel : Blind (Run.outOfFuel : Run α) := fun _ _ => rfl

theorem bind (h : Blind x) (hf : ∀ a, Blind (f a)) : Blind (x >>= f) := by
  intro m sink
  have hm := h m sink
  cases hx : x m with
  | ok a m₁ =>
    rw [hx] at hm
    rw [Steps.bind_of_ok hm, Steps.bind_of_ok hx]
    exact hf a m₁ sink
  | error stop m₁ =>
    rw [hx] at hm
    rw [Steps.bind_of_error hm, Steps.bind_of_error hx]
    rfl

theorem get {f : Machine → Run β} (h : ∀ m, Blind (f m))
    (hsame : ∀ m sink, f { m with sink } = f m) : Blind (MonadState.get >>= f) := by
  intro m sink
  show f { m with sink } { m with sink } = withSink sink (f m m)
  rw [hsame]
  exact h m m sink

theorem getHeap : Blind Run.getHeap := fun _ _ => rfl

theorem allocate (make : Heap → α × Heap) : Blind (Run.allocate make) := fun _ _ => rfl

theorem modifyFrames (change : Frames → Frames) : Blind (Run.modifyFrames change) :=
  fun _ _ => rfl

theorem define (name : String) (value : Value) : Blind (Run.define name value) := fun _ _ => rfl

/-! ## Small steps -/

theorem getAt (frame : FrameId) (distance : Nat) (name : String) :
    Blind (Run.getAt frame distance name) := by
  refine getHeap.bind fun heap => ?_
  cases heap.frames.getAt frame distance name with
  | ok value => exact .pure value
  | error left => exact .fail _

theorem lookUp (reference : Reference) : Blind (Run.lookUp reference) := by
  refine get (fun m => ?_) fun _ _ => rfl
  cases m.distances.get? reference.id with
  | some distance => exact .getAt _ _ _
  | none =>
    dsimp only
    cases m.heap.frames.get? m.globals reference.name.text with
    | some value => exact .pure value
    | none => exact .fail _

theorem holder (reference : Reference) : Blind (Run.holder reference) := by
  refine get (fun m => ?_) fun _ _ => rfl
  cases m.distances.get? reference.id with
  | some distance =>
    dsimp only
    cases m.heap.frames.holderAt m.environment distance reference.name.text with
    | ok frame => exact .pure frame
    | error left => exact .fail _
  | none =>
    dsimp only
    cases m.heap.frames.holder? m.globals reference.name.text with
    | some frame => exact .pure frame
    | none => exact .fail _

theorem store (reference : Reference) (value : Value) : Blind (Run.store reference value) :=
  (holder reference).bind fun _ => .modifyFrames _

theorem superclassAt (distance : Nat) : Blind (Run.superclassAt distance) := by
  refine get (fun m => .bind (.getAt _ _ _) fun value => ?_) fun _ _ => rfl
  cases value with
  | cls id => exact .pure id
  | _ => exact .fail _

theorem receiverAt (distance : Nat) : Blind (Run.receiverAt distance) := by
  refine get (fun m => .bind (.getAt _ _ _) fun value => ?_) fun _ _ => rfl
  cases value with
  | inst id => exact .pure id
  | _ => exact .fail _

theorem ofExcept (result : Except Fault α) : Blind (Run.ofExcept result) := by
  cases result with
  | ok a => exact .pure a
  | error fault => exact .fail fault

theorem readClock : Blind Run.readClock := fun _ _ => rfl

theorem callNative (f : Native) : Blind (Machine.callNative f) := by
  cases f
  exact readClock.bind fun time => .pure (Value.number time)

theorem methodFrame : ∀ parent : Option ClassId, Blind (Machine.methodFrame parent)
  | none => get (fun m => .pure m.environment) fun _ _ => rfl
  | some _ => get (fun _ => .allocate _) fun _ _ => rfl

theorem assignName (name : Name) (value : Value) : Blind (Machine.assignName name value) := by
  refine get (fun m => ?_) fun _ _ => rfl
  cases m.heap.frames.holder? m.environment name.text with
  | some frame => exact .modifyFrames _
  | none => exact .fail _

theorem setField (id : InstanceId) (name : String) (value : Value) :
    Blind (modify fun m => { m with heap := m.heap.setField id name value } : Run Unit) :=
  fun _ _ => rfl

theorem addDistances (distances : Distances) : Blind (Machine.addDistances distances) :=
  fun _ _ => rfl

end Blind

end Machine

end Lox
