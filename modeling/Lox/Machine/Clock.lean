/-!
# The clock

What a program learns of the time is what the clock shows whenever it is read.  The readings need not
be in any order: a clock can be set back.
-/

namespace Lox

/-- What the clock shows when it is read next, at the reading after that, and so on. -/
structure Clock where
  reading : Nat → Float

namespace Clock

/-- The clock that always shows the same time. -/
def constant (time : Float) : Clock := ⟨fun _ => time⟩

instance : Coe Float Clock := ⟨constant⟩

/-- What the clock shows when it is read. -/
def now (clock : Clock) : Float := clock.reading 0

/-- The clock behind a reading. -/
def next (clock : Clock) : Clock := ⟨fun k => clock.reading (k + 1)⟩

end Clock

end Lox
