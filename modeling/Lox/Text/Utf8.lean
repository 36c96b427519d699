/-!
# Text from bytes

Bytes are cut into chunks from left to right.  A chunk is one character, or a longest run of bytes
that begins a character and cannot be continued, or such a run at the very end.  Both readings of a
byte string are views of its chunks:

* `decode` gives the text, or the first fault with its place;
* `decodeLossy` gives a replacement character for every chunk that is no character.
-/

namespace Lox.Utf8

/-- The part of a byte string that is read next. -/
inductive Chunk
  | char (c : Char) (size : Nat)
  | invalid (size : Nat)
  | truncated (size : Nat)
  deriving DecidableEq, Repr

/-- The first place where bytes are no text: its offset, and how many bytes cannot be continued;
no length if the bytes end inside a character. -/
structure Fault where
  offset : Nat
  length : Option Nat
  deriving DecidableEq, Repr

/-- The closed interval of bytes that continue a character without further restriction. -/
def anyTail : UInt8 × UInt8 := (0x80, 0xBF)

/-- The intervals for the bytes after a first byte; nothing if no character begins with it.
Narrower intervals keep out long forms, surrogates, and code points above `0x10FFFF`. -/
def following (first : UInt8) : Option (List (UInt8 × UInt8)) :=
  if first < 0x80 then some []
  else if first < 0xC2 then none
  else if first < 0xE0 then some [anyTail]
  else if first = 0xE0 then some [(0xA0, 0xBF), anyTail]
  else if first = 0xED then some [(0x80, 0x9F), anyTail]
  else if first < 0xF0 then some [anyTail, anyTail]
  else if first = 0xF0 then some [(0x90, 0xBF), anyTail, anyTail]
  else if first < 0xF4 then some [anyTail, anyTail, anyTail]
  else if first = 0xF4 then some [(0x80, 0x8F), anyTail, anyTail]
  else none

/-- How many of the bytes lie in their intervals before the first that does not. -/
def fitting : List (UInt8 × UInt8) → List UInt8 → Nat
  | (low, high) :: ranges, byte :: bytes =>
    if low ≤ byte && byte ≤ high then fitting ranges bytes + 1 else 0
  | _, _ => 0

/-- The character with this first byte and these further ones: six bits from each of them below the
free bits of the first. -/
def assemble (first : UInt8) (tail : List UInt8) : Char :=
  let lead := match tail.length with
    | 0 => first.toNat
    | 1 => first.toNat % 32
    | 2 => first.toNat % 16
    | _ => first.toNat % 8
  Char.ofNat (tail.foldl (fun code byte => code * 64 + byte.toNat % 64) lead)

/-- The chunk at the front of `first :: rest`, and how many bytes of `rest` belong to it. -/
def firstChunk (first : UInt8) (rest : List UInt8) : Chunk × Nat :=
  match following first with
  | none => (.invalid 1, 0)
  | some ranges =>
    let count := fitting ranges rest
    if count = ranges.length then (.char (assemble first (rest.take count)) (count + 1), count)
    else if rest.length ≤ count then (.truncated (count + 1), count)
    else (.invalid (count + 1), count)

/-- The chunks of a byte string. -/
def chunks : List UInt8 → List Chunk
  | [] => []
  | first :: rest =>
    let (chunk, count) := firstChunk first rest
    chunk :: chunks (rest.drop count)
termination_by bytes => bytes.length
decreasing_by simp only [List.length_drop, List.length_cons]; omega

/-- The text of chunks that all are characters, or the first fault; `offset` bytes came before. -/
def textOf (offset : Nat) : List Chunk → Except Fault (List Char)
  | [] => .ok []
  | .char c size :: others => (textOf (offset + size) others).map (c :: ·)
  | .invalid size :: _ => .error ⟨offset, some size⟩
  | .truncated _ :: _ => .error ⟨offset, none⟩

/-- The text that the bytes encode, or the first fault. -/
def decode (bytes : List UInt8) : Except Fault (List Char) :=
  textOf 0 (chunks bytes)

/-- The character shown for a chunk. -/
def Chunk.shown : Chunk → Char
  | .char c _ => c
  | .invalid _ => '\uFFFD'
  | .truncated _ => '\uFFFD'

/-- The text with a replacement character for every part that encodes none. -/
def decodeLossy (bytes : List UInt8) : List Char :=
  (chunks bytes).map Chunk.shown

/-- What is said of a fault. -/
def Fault.message (fault : Fault) : String :=
  match fault.length with
  | some n => s!"invalid utf-8 sequence of {n} bytes from index {fault.offset}"
  | none => s!"incomplete utf-8 byte sequence from index {fault.offset}"

end Lox.Utf8
