import Mathlib.Data.List.TakeWhile
import Lox.Prompt

/-!
# The lines of an input

`Prompt.Lines` says what the lines of an input are, by how the input is put together from them, and
`Prompt.lines_iff` that `splitLines` finds just these.
-/

namespace Lox.Prompt

/-- **The lines of an input.**  Each ends with a newline, or with a carriage return and a newline;
what is left behind the last newline is a line too, if it is anything. -/
inductive Lines : List UInt8 → List (List UInt8) → Prop
  | none : Lines [] []
  | unterminated {line : List UInt8} : line ≠ [] → 10 ∉ line → Lines line [line]
  | newline {line rest : List UInt8} {lines : List (List UInt8)} : 10 ∉ line →
    line.getLast? ≠ some 13 → Lines rest lines → Lines (line ++ 10 :: rest) (line :: lines)
  | carriageReturn {line rest : List UInt8} {lines : List (List UInt8)} : 10 ∉ line →
    Lines rest lines → Lines (line ++ 13 :: 10 :: rest) (line :: lines)

variable {line rest bytes : List UInt8} {lines : List (List UInt8)}

theorem ne_newline_of_not_mem (h : 10 ∉ line) : ∀ byte ∈ line, (byte != 10) = true :=
  fun _ hbyte => bne_iff_ne.mpr fun heq => h (heq ▸ hbyte)

/-- The line in front of a newline, without a carriage return at its end. -/
def chomp (line : List UInt8) : List UInt8 :=
  if line.getLast? = some 13 then line.dropLast else line

theorem splitLines_unterminated (hne : line ≠ []) (h : 10 ∉ line) : splitLines line = [line] := by
  have hall := ne_newline_of_not_mem h
  have htake := List.takeWhile_eq_self_iff.mpr hall
  have hdrop := List.dropWhile_eq_nil_iff.mpr hall
  obtain ⟨first, others, rfl⟩ := List.exists_cons_of_ne_nil hne
  rw [splitLines]
  split
  · exact congrArg ([·]) htake
  · next hrest =>
    rw [hdrop] at hrest
    cases hrest

/-- **The first line** is what stands in front of the first newline. -/
theorem splitLines_newline (h : 10 ∉ line) (rest : List UInt8) :
    splitLines (line ++ 10 :: rest) = chomp line :: splitLines rest := by
  have hall := ne_newline_of_not_mem h
  have htake : (line ++ 10 :: rest).takeWhile (· != 10) = line := by
    rw [List.takeWhile_append_of_pos hall]
    simp
  have hdrop : (line ++ 10 :: rest).dropWhile (· != 10) = 10 :: rest := by
    rw [List.dropWhile_append_of_pos hall]
    simp
  obtain ⟨first, others, hcons⟩ : ∃ first others, line ++ 10 :: rest = first :: others :=
    List.exists_cons_of_ne_nil (List.append_ne_nil_of_right_ne_nil _ (List.cons_ne_nil _ _))
  rw [hcons] at htake hdrop ⊢
  rw [splitLines]
  split
  · next hrest =>
    rw [hdrop] at hrest
    cases hrest
  · next hrest =>
    rw [hdrop] at hrest
    cases hrest
    rw [htake]
    rfl

theorem Lines.eq_splitLines (h : Lines bytes lines) : lines = splitLines bytes := by
  induction h with
  | none => rw [splitLines]
  | unterminated hne hline => exact (splitLines_unterminated hne hline).symm
  | newline hline hlast _ ih =>
    rw [splitLines_newline hline, chomp, if_neg hlast, ih]
  | @carriageReturn line rest lines hline _ ih =>
    have hline' : 10 ∉ line ++ [13] := by
      rw [List.mem_append, List.mem_singleton]
      exact not_or.mpr ⟨hline, by decide⟩
    have hsplit := splitLines_newline hline' rest
    rw [List.append_assoc, List.singleton_append] at hsplit
    rw [hsplit, chomp, List.getLast?_concat, if_pos rfl, List.dropLast_concat, ih]

theorem Lines.chomped (hline : 10 ∉ line) (h : Lines rest lines) :
    Lines (line ++ 10 :: rest) (chomp line :: lines) := by
  by_cases hlast : line.getLast? = some 13
  · obtain ⟨front, rfl⟩ := List.getLast?_eq_some_iff.mp hlast
    have hfront : 10 ∉ front := fun hmem => hline (List.mem_append_left _ hmem)
    rw [Prompt.chomp, if_pos hlast, List.dropLast_concat, List.append_assoc]
    exact .carriageReturn hfront h
  · rw [Prompt.chomp, if_neg hlast]
    exact .newline hline hlast h

theorem lines_splitLines (bytes : List UInt8) : Lines bytes (splitLines bytes) := by
  have hmem (bytes : List UInt8) : 10 ∉ bytes.takeWhile (· != 10) := fun h =>
    bne_iff_ne.mp (List.mem_takeWhile_imp (p := (· != 10)) h) rfl
  induction bytes using splitLines.induct with
  | case1 =>
    rw [splitLines]
    exact .none
  | case2 first others hrest =>
    have hline : (first :: others).takeWhile (· != 10) = first :: others := by
      have hsplit := List.takeWhile_append_dropWhile (p := (· != 10)) (l := first :: others)
      rwa [hrest, List.append_nil] at hsplit
    have hnewline : 10 ∉ first :: others := hline ▸ hmem (first :: others)
    rw [splitLines_unterminated (List.cons_ne_nil _ _) hnewline]
    exact .unterminated (List.cons_ne_nil _ _) hnewline
  | case3 first others newline rest hrest ih =>
    have hnewline : newline = 10 := by
      have hhead := List.head?_dropWhile_not (· != 10) (first :: others)
      rw [hrest] at hhead
      simpa using hhead
    have hsplit : first :: others = (first :: others).takeWhile (· != 10) ++ 10 :: rest := by
      have happend := List.takeWhile_append_dropWhile (p := (· != 10)) (l := first :: others)
      rw [hrest, hnewline] at happend
      exact happend.symm
    rw [hsplit, splitLines_newline (hmem (first :: others))]
    exact ih.chomped (hmem (first :: others))

/-- **The lines of an input** are those that it is split into. -/
theorem lines_iff : Lines bytes lines ↔ lines = splitLines bytes :=
  ⟨Lines.eq_splitLines, fun h => h ▸ lines_splitLines bytes⟩

end Lox.Prompt
