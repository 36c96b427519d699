import Lox.Proofs.Joining.Tokens
import Lox.Proofs.Scanning.LongestMatch

/-!
# Texts in two parts

A blank, a newline or a character that begins no token parts a text in two, wherever the first part
does not hide it: its items are those of the first part up to the end marker, a fault if the
character is illegal, and the items of the second part on later lines (`Token.items_parted`).  So a
fault of this kind changes no token around it.
-/

namespace Lox

/-- Whether no token begins with a character: no text that begins with it means one. -/
def BeginsNoToken (c : Char) : Prop :=
  ∀ (p : Piece) (cs : List Char) (kind : Token.Kind),
    p.Spelled (c :: cs) → ¬ p.Means (c :: cs) (some kind)

/-- Whether a character behind a text parts it from all that follows: the text does not end inside a
string, and it does not end inside a comment or the character is a newline. -/
def Parts (text : List Char) (c : Char) : Prop :=
  TextEnd.of text ≠ .string ∧ (c = '\n' ∨ TextEnd.of text ≠ .comment ∧
    (c = ' ' ∨ c = '\t' ∨ c = '\r' ∨ BeginsNoToken c))

/-- What a reader says of a character that parts a text, on its line. -/
def Token.partingFault (c : Char) (line : Nat) : List Item :=
  if c = ' ' ∨ c = '\t' ∨ c = '\r' ∨ c = '\n' then [] else [.fault line (.unexpectedCharacter c)]

/-! ## What begins no token -/

section Character

variable {c : Char} {cs : List Char} {p : Piece}

theorem Piece.Means.silent {text : List Char} (h : p.Means text none) :
    p = .blank ∨ p = .newline ∨ p = .comment := by
  cases h with
  | blank => exact .inl rfl
  | newline => exact .inr (.inl rfl)
  | comment => exact .inr (.inr rfl)

theorem BeginsNoToken.silent (hc : BeginsNoToken c) (h : p.Spelled (c :: cs)) :
    p = .blank ∨ p = .newline ∨ p = .comment := by
  obtain ⟨kind?, hmeans⟩ := h.exists_means
  cases kind? with
  | none => exact hmeans.silent
  | some kind => exact absurd hmeans (hc p cs kind h)

/-- **The characters that begin no token** are those that continue no word and are neither quotes
nor symbols. -/
theorem beginsNoToken_iff :
    BeginsNoToken c ↔ Cut.isWordTail c = false ∧ c ≠ '"' ∧ Symbol.ofChar? c = none := by
  constructor
  · intro hc
    refine ⟨?_, ?_, ?_⟩
    · by_contra hword
      rw [Bool.not_eq_false, Cut.isWordTail_iff, Char.isAlphanum, Bool.or_eq_true, or_assoc,
        or_left_comm] at hword
      rcases hword with hdigit | hstart
      · have hspelled : Piece.Spelled .number [c] :=
          .whole ⟨List.cons_ne_nil _ _, List.forall_mem_singleton.mpr hdigit⟩
        exact absurd (hc.silent hspelled) (by decide)
      · have hspelled : Piece.Spelled .word [c] := .word hstart (List.forall_mem_nil _)
        exact absurd (hc.silent hspelled) (by decide)
    · rintro rfl
      have hspelled : Piece.Spelled (.string []) ['"', '"'] := .string List.not_mem_nil
      exact absurd (hc.silent hspelled) (by decide)
    · refine Option.eq_none_iff_forall_not_mem.mpr fun s hs => ?_
      have htext : s.text.toList = [c] := by
        unfold Symbol.ofChar? at hs
        split at hs <;> cases hs <;> rfl
      have hspelled : Piece.Spelled (.symbol s) [c] := htext ▸ .symbol s
      simpa using hc.silent hspelled
  · rintro ⟨hword, hquote, hsymbol⟩ p cs kind hspelled hmeans
    have hword : ¬ (c.isAlphanum = true ∨ c = '_') := by
      rw [← Cut.isWordTail_iff, hword]
      exact Bool.false_ne_true
    have hdigits {whole rest : List Char} (h : Digits whole) (e : whole ++ rest = c :: cs) :
        False := by
      obtain ⟨d, ds, rfl⟩ := List.exists_cons_of_ne_nil h.1
      obtain ⟨rfl, -⟩ := List.cons.inj e
      exact hword (.inl (by simp [Char.isAlphanum, h.2 d List.mem_cons_self]))
    generalize e : c :: cs = text at hspelled
    cases hspelled with
    | blank | newline | comment => cases hmeans
    | symbol s =>
      rcases Cut.text_symbol s with ⟨d, htext, hd⟩ | ⟨d, t, htext, hd, -⟩ <;>
        · rw [htext] at e
          obtain ⟨rfl, -⟩ := List.cons.inj e
          rw [hsymbol] at hd
          cases hd
    | string => exact hquote (List.cons.inj e).1
    | whole h => exact hdigits h ((List.append_nil _).trans e.symm)
    | fraction hwhole => exact hdigits hwhole e.symm
    | word hd =>
      obtain ⟨rfl, -⟩ := List.cons.inj e
      exact hword (hd.imp_left fun h => by simp [Char.isAlphanum, h])

instance : Decidable (BeginsNoToken c) := decidable_of_iff _ beginsNoToken_iff.symm

instance {text : List Char} : Decidable (Parts text c) := by
  unfold Parts
  infer_instance

theorem BeginsNoToken.separates (hc : BeginsNoToken c) : Separates c := by
  obtain ⟨hword, -, hsymbol⟩ := beginsNoToken_iff.mp hc
  refine ⟨hword, ?_, ?_, ?_⟩ <;> rintro rfl <;> cases hsymbol

/-- What begins no token and is neither a blank nor a newline is illegal. -/
theorem BeginsNoToken.ofText_eq (hc : BeginsNoToken c)
    (hblank : ¬ (c = ' ' ∨ c = '\t' ∨ c = '\r' ∨ c = '\n')) :
    Cut.ofText c cs = ⟨.illegal c, [c], cs⟩ := by
  refine Cut.ofText_illegal (beginsNoToken_iff.mp hc).2.1 ?_
  rintro p front hspelled ⟨rest, hfront⟩
  obtain ⟨d, ds, rfl⟩ := List.exists_cons_of_ne_nil hspelled.ne_nil
  obtain ⟨rfl, -⟩ := List.cons.inj hfront
  rcases hc.silent hspelled with rfl | rfl | rfl
  · cases hspelled with
    | blank h => exact hblank (by tauto)
  · cases hspelled
    exact hblank (by simp)
  · cases hspelled
    exact hc.separates.ne_slash rfl

end Character

/-! ## Items of both parts -/

variable {a : List Char} {c : Char}

theorem Parts.separates (h : Parts a c) : Separates c := by
  obtain ⟨-, rfl | ⟨-, rfl | rfl | rfl | hc⟩⟩ := h
  iterate 4 exact ⟨by decide, by decide, by decide, by decide⟩
  exact hc.separates

/-- The items from the character on: its own fault, if it is illegal, and those behind it. -/
theorem Reader.items_parting (h : Parts a c) (b : List Char) (line : Nat) :
    (Reader.mk (c :: b) line false).items =
      Token.partingFault c line ++ (Reader.mk b (line + [c].count '\n') false).items := by
  unfold Token.partingFault
  split
  · next hblank =>
    rw [items_cons]
    rcases hblank with rfl | rfl | rfl | rfl <;> rfl
  · next hblank =>
    obtain ⟨-, rfl | ⟨-, rfl | rfl | rfl | hc⟩⟩ := h
    iterate 4 exact absurd hblank (by decide)
    have hcut : Cut.ofText c b = ⟨.illegal c, [c], b⟩ := hc.ofText_eq hblank
    rw [items_cons, hcut, Cut.count_illegal hcut]
    rfl

/-- **A text in two parts:** the items of both, and a fault in place of the end marker of the first
if the character between them is illegal. -/
theorem Token.items_parted (h : Parts a c) (b : List Char) :
    ∃ front, Token.items a = front ++ [.token ⟨.eof, "", 1 + a.count '\n'⟩] ∧
      Token.items (a ++ c :: b) = front ++ Token.partingFault c (1 + a.count '\n') ++
        (Token.items b).map (Item.moved (.down ((a ++ [c]).count '\n'))) := by
  obtain ⟨front, hfront, -, hjoined⟩ :=
    Reader.items_separator h.separates b a 1 h.1 (h.2.imp_right And.left)
  refine ⟨front, hfront, hjoined.trans ?_⟩
  have hline : 1 + a.count '\n' + [c].count '\n' = 1 + (a ++ [c]).count '\n' := by
    rw [List.count_append, Nat.add_assoc]
  rw [Reader.items_parting h, hline, List.append_assoc]
  congr 2
  exact Reader.items_moved (.down _) b 1

/-- An illegal character between the halves of an operator, behind a number with a point. -/
theorem Token.items_parted_operator :
    Parts "x // y\n1.!".toList '§' ∧ ∃ front,
      Token.items "x // y\n1.!".toList = front ++ [.token ⟨.eof, "", 2⟩] ∧
        Token.items ("x // y\n1.!".toList ++ '§' :: "=\n\"".toList) =
          front ++ [.fault 2 (.unexpectedCharacter '§')] ++
            [.token ⟨.symbol .equal, "=", 2⟩, .fault 3 .unterminatedString,
              .token ⟨.eof, "", 3⟩] := by
  have hparts : Parts "x // y\n1.!".toList '§' := by decide +kernel
  have hfault : Token.partingFault '§' (1 + "x // y\n1.!".toList.count '\n') =
      [.fault 2 (.unexpectedCharacter '§')] := by decide +kernel
  have hbehind : (Token.items "=\n\"".toList).map
      (Item.moved (.down (("x // y\n1.!".toList ++ ['§']).count '\n'))) =
        [.token ⟨.symbol .equal, "=", 2⟩, .fault 3 .unterminatedString,
          .token ⟨.eof, "", 3⟩] := by decide +kernel
  obtain ⟨front, hfront, hjoined⟩ := items_parted hparts "=\n\"".toList
  rw [hfault, hbehind] at hjoined
  exact ⟨hparts, front, hfront, hjoined⟩

end Lox
