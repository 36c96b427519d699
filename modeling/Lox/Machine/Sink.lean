/-!
# Where output goes

A sink takes bytes in order.  It may be bounded: a write that finds too little room leaves in the
sink what fits, and fails.  It may also refuse to be flushed.
-/

namespace Lox

/-- The bytes written so far, the greatest number of bytes that it takes if there is one, and
whether a flush fails. -/
structure Sink where
  written : ByteArray
  capacity : Option Nat
  flushFails : Bool

namespace Sink

/-- An empty sink that takes everything. -/
def unbounded : Sink := ⟨.empty, none, false⟩

/-- How many of so many further bytes fit. -/
def room (sink : Sink) (wanted : Nat) : Nat :=
  match sink.capacity with
  | none => wanted
  | some capacity => min wanted (capacity - sink.written.size)

/-- The sink behind a write, and whether all bytes fit. -/
def write (sink : Sink) (bytes : ByteArray) : Sink × Bool :=
  let count := sink.room bytes.size
  ({ sink with written := sink.written ++ bytes.extract 0 count }, count == bytes.size)

end Sink

end Lox
