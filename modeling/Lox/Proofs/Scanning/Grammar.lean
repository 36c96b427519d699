import Lox.Proofs.Tokens
import Mathlib.Data.List.TakeWhile

/-!
# The lexical grammar

Seven classes make up a text: blanks, newlines, comments, symbols, strings, numbers and words.
`Piece.Spelled` says which texts belong to which class, with one case for each way to spell a
class.  `Cut.ofText` finds at the front of a text the longest one that belongs to any class
(`Cut.longest_iff`).  Where there is none, the text begins with a quote that is never closed or with
a character of no class (`Cut.ofText_cases`).
-/

namespace Lox

/-- One or more digits. -/
def Digits (text : List Char) : Prop :=
  text ≠ [] ∧ ∀ c ∈ text, c.isDigit = true

/-- The texts of a class. -/
inductive Piece.Spelled : Piece → List Char → Prop
  | blank {c : Char} (h : c = ' ' ∨ c = '\t' ∨ c = '\r') : Spelled .blank [c]
  | newline : Spelled .newline ['\n']
  | comment {body : List Char} (h : '\n' ∉ body) : Spelled .comment ('/' :: '/' :: body)
  | symbol (s : Symbol) : Spelled (.symbol s) s.text.toList
  | string {content : List Char} (h : '"' ∉ content) :
      Spelled (.string content) ('"' :: content ++ ['"'])
  | whole {digits : List Char} (h : Digits digits) : Spelled .number digits
  | fraction {whole fraction : List Char} (hwhole : Digits whole) (hfraction : Digits fraction) :
      Spelled .number (whole ++ '.' :: fraction)
  | word {c : Char} {cs : List Char} (hc : c.isAlpha = true ∨ c = '_')
      (hcs : ∀ d ∈ cs, d.isAlphanum = true ∨ d = '_') : Spelled .word (c :: cs)

/-- The longest front of `text ++ rest` that belongs to any class is `text`, of class `p`. -/
structure Piece.Longest (p : Piece) (text rest : List Char) : Prop where
  spelled : p.Spelled text
  longest : ∀ {q : Piece} {front : List Char}, q.Spelled front → front <+: text ++ rest →
    front.length ≤ text.length

theorem Piece.Spelled.ne_nil {p : Piece} {text : List Char} (h : p.Spelled text) : text ≠ [] := by
  cases h with
  | symbol s => cases s <;> exact List.cons_ne_nil _ _
  | whole h => exact h.1
  | fraction => exact List.append_ne_nil_of_right_ne_nil _ (List.cons_ne_nil _ _)
  | _ => exact List.cons_ne_nil _ _

namespace Cut

/-! ## The first character of a class -/

section First

variable {c : Char} {cs : List Char}

theorem isBlank_iff : isBlank c = true ↔ c = ' ' ∨ c = '\t' ∨ c = '\r' := by
  simp only [isBlank, Bool.or_eq_true, beq_iff_eq, or_assoc]

theorem isWordStart_iff : isWordStart c = true ↔ c.isAlpha = true ∨ c = '_' := by
  simp only [isWordStart, Bool.or_eq_true, beq_iff_eq]

theorem isWordTail_iff : isWordTail c = true ↔ c.isAlphanum = true ∨ c = '_' := by
  simp only [isWordTail, Bool.or_eq_true, beq_iff_eq]

/-- Letters come behind the digits. -/
theorem not_isDigit_of_isWordStart (h : isWordStart c = true) : ¬ c.isDigit = true := by
  intro hdigit
  have hle : c.val ≤ '9'.val := of_decide_eq_true ((Bool.and_eq_true _ _).mp hdigit).2
  rcases isWordStart_iff.mp h with h | rfl
  · rcases (Bool.or_eq_true _ _).mp h with hupper | hlower
    · have hge : 'A'.val ≤ c.val := (of_decide_eq_true hupper).1
      exact absurd (UInt32.le_trans hge hle) (by decide)
    · have hge : 'a'.val ≤ c.val := of_decide_eq_true ((Bool.and_eq_true _ _).mp hlower).1
      exact absurd (UInt32.le_trans hge hle) (by decide)
  · exact absurd hdigit (by decide)

theorem ofText_blank (h : isBlank c = true) : ofText c cs = ⟨.blank, [c], cs⟩ := by
  rw [ofText, if_pos h]

theorem ofText_digit (h : c.isDigit = true) : ofText c cs = number c cs := by
  have hblank : ¬ isBlank c = true := by
    rw [isBlank_iff]
    rintro (rfl | rfl | rfl) <;> cases h
  have hnewline : c ≠ '\n' := by rintro rfl; cases h
  have hquote : c ≠ '"' := by rintro rfl; cases h
  rw [ofText, if_neg hblank, if_neg hnewline, if_neg hquote, if_pos h]

theorem ofText_word (h : isWordStart c = true) : ofText c cs = word c cs := by
  have hblank : ¬ isBlank c = true := by
    rw [isBlank_iff]
    rintro (rfl | rfl | rfl) <;> cases h
  have hnewline : c ≠ '\n' := by rintro rfl; cases h
  have hquote : c ≠ '"' := by rintro rfl; cases h
  rw [ofText, if_neg hblank, if_neg hnewline, if_neg hquote,
    if_neg (not_isDigit_of_isWordStart h), if_pos h]

theorem ofText_symbol {s : Symbol} (h : Symbol.ofChar? c = some s)
    (hcomment : ¬ (c = '/' ∧ cs.head? = some '/')) : ofText c cs = symbol c s cs := by
  unfold Symbol.ofChar? at h
  split at h <;> cases h
  case h_10 =>
    show (if _ then _ else _) = _
    rw [if_neg hcomment]
    rfl
  all_goals rfl

end First

/-! ## Every cut is a text of its class -/

section Text

variable (c : Char) (cs : List Char)

theorem digits_cons_takeWhile {c : Char} (h : c.isDigit = true) :
    Digits (c :: cs.takeWhile Char.isDigit) :=
  ⟨List.cons_ne_nil _ _, List.forall_mem_cons.mpr ⟨h, fun _ => List.mem_takeWhile_imp⟩⟩

theorem spelled_number {c : Char} (h : c.isDigit = true) :
    (number c cs).piece.Spelled (number c cs).text := by
  unfold number
  dsimp only
  split
  · next d rest _ =>
    split
    · next hd => exact .fraction (digits_cons_takeWhile cs h) (digits_cons_takeWhile rest hd)
    · exact .whole (digits_cons_takeWhile cs h)
  · exact .whole (digits_cons_takeWhile cs h)

theorem spelled_word {c : Char} (h : isWordStart c = true) :
    (word c cs).piece.Spelled (word c cs).text :=
  .word (isWordStart_iff.mp h) fun _ hd => isWordTail_iff.mp (List.mem_takeWhile_imp hd)

theorem spelled_comment : (comment '/' ('/' :: cs)).piece.Spelled (comment '/' ('/' :: cs)).text :=
  .comment fun h => by simpa using List.mem_takeWhile_imp h

theorem spelled_symbol {c : Char} {s : Symbol} (h : Symbol.ofChar? c = some s) :
    (symbol c s cs).piece.Spelled (symbol c s cs).text := by
  unfold symbol
  split
  · next longer hlonger =>
    have htext : [c, '='] = longer.text.toList := by
      unfold Symbol.ofChar? at h
      split at h <;> cases h <;> cases hlonger <;> rfl
    rw [htext]
    exact .symbol longer
  · have htext : [c] = s.text.toList := by
      unfold Symbol.ofChar? at h
      split at h <;> cases h <;> rfl
    rw [htext]
    exact .symbol s

/-- A string is closed, or its quote is the last one of the text. -/
theorem string_cases : (string '"' cs).piece.Spelled (string '"' cs).text ∨
    '"' ∉ cs ∧ string '"' cs = ⟨.unterminated, '"' :: cs, []⟩ := by
  unfold string
  split
  · next h =>
    refine .inr ⟨fun hquote => ?_, rfl⟩
    simpa using List.dropWhile_eq_nil_iff.mp h '"' hquote
  · next quote rest h =>
    have hquote : quote = '"' := by
      have hne : cs.dropWhile (· != '"') ≠ [] := by rw [h]; exact List.cons_ne_nil _ _
      have hfirst := List.head_dropWhile_not (· != '"') hne
      simpa [h] using hfirst
    rw [hquote]
    exact .inl (.string fun h => by simpa using List.mem_takeWhile_imp h)

/-- **What a cut is:** a text of its class, or an open string, or one character of no class. -/
theorem ofText_cases : (ofText c cs).piece.Spelled (ofText c cs).text ∨
    (c = '"' ∧ '"' ∉ cs ∧ ofText c cs = ⟨.unterminated, '"' :: cs, []⟩) ∨
    (c ≠ '"' ∧ ofText c cs = ⟨.illegal c, [c], cs⟩) := by
  unfold ofText
  split
  · next h => exact .inl (.blank (isBlank_iff.mp h))
  split
  · next h => subst h; exact .inl .newline
  split
  · next h =>
    subst h
    exact (string_cases cs).imp id fun hopen => .inl ⟨rfl, hopen⟩
  next hquote =>
  split
  · next h => exact .inl (spelled_number cs h)
  split
  · next h => exact .inl (spelled_word cs h)
  split
  · next h =>
    obtain ⟨rfl, hslash⟩ := h
    obtain ⟨rest, rfl⟩ := List.head?_eq_some_iff.mp hslash
    exact .inl (spelled_comment rest)
  split
  · next h => exact .inl (spelled_symbol cs h)
  · exact .inr (.inr ⟨hquote, rfl⟩)

end Text

/-! ## No text of a class is longer -/

/-- Whether a cut comes at least to the end of `front`, and not further only as a piece of
class `p`. -/
structure Reaches (cut : Cut) (p : Piece) (front : List Char) : Prop where
  front_le : front <+: cut.text
  ne_unterminated : cut.piece ≠ .unterminated
  ne_illegal : ∀ c, cut.piece ≠ .illegal c
  piece_eq : cut.text = front → cut.piece = p

section Longest

variable {p : Piece} {c : Char} {cs front more : List Char}

theorem prefix_takeWhile {p : Char → Bool} (more : List Char) (h : ∀ c ∈ front, p c = true) :
    front <+: (front ++ more).takeWhile p := by
  rw [List.takeWhile_append_of_pos h]
  exact List.prefix_append _ _

theorem reaches_comment (h : '\n' ∉ cs) :
    (ofText '/' ('/' :: cs ++ more)).Reaches .comment ('/' :: '/' :: cs) := by
  have hbody : ∀ c ∈ '/' :: cs, (c != '\n') = true := by
    refine List.forall_mem_cons.mpr ⟨rfl, fun c hc => ?_⟩
    rw [bne_iff_ne]
    rintro rfl
    exact h hc
  exact ⟨List.prefix_cons_inj _ |>.mpr (prefix_takeWhile more hbody), nofun, nofun, fun _ => rfl⟩

theorem ofText_string (h : '"' ∉ cs) :
    ofText '"' (cs ++ '"' :: more) = ⟨.string cs, '"' :: cs ++ ['"'], more⟩ := by
  have hcontent : ∀ c ∈ cs, (c != '"') = true := fun c hc => by
    rw [bne_iff_ne]
    rintro rfl
    exact h hc
  show string '"' (cs ++ '"' :: more) = _
  unfold string
  rw [List.dropWhile_append_of_pos hcontent, List.takeWhile_append_of_pos hcontent,
    List.dropWhile_cons_of_neg (by decide), List.takeWhile_cons_of_neg (by decide),
    List.append_nil]

theorem reaches_string (h : '"' ∉ cs) :
    (ofText '"' (cs ++ '"' :: more)).Reaches (.string cs) ('"' :: cs ++ ['"']) := by
  rw [ofText_string h]
  exact ⟨List.prefix_rfl, nofun, nofun, fun _ => rfl⟩

theorem piece_number : (number c cs).piece = .number := by
  unfold number
  dsimp only
  split
  · split <;> rfl
  · rfl

theorem reaches_number (hc : c.isDigit = true) (h : front <+: (number c cs).text) :
    (ofText c cs).Reaches .number front := by
  rw [ofText_digit hc]
  have hpiece : (number c cs).piece = .number := piece_number
  exact ⟨h, by rw [hpiece]; nofun, by rw [hpiece]; nofun, fun _ => hpiece⟩

theorem reaches_whole (hc : c.isDigit = true) (hcs : ∀ d ∈ cs, d.isDigit = true) :
    (ofText c (cs ++ more)).Reaches .number (c :: cs) := by
  refine reaches_number hc ?_
  have hwhole := (List.prefix_cons_inj c).mpr (prefix_takeWhile more hcs)
  unfold number
  dsimp only
  split
  · split
    · exact hwhole.trans (List.prefix_append _ _)
    · exact hwhole
  · exact hwhole

theorem reaches_fraction {d : Char} {ds : List Char} (hc : c.isDigit = true)
    (hcs : ∀ e ∈ cs, e.isDigit = true) (hd : d.isDigit = true) (hds : ∀ e ∈ ds, e.isDigit = true) :
    (ofText c (cs ++ '.' :: d :: (ds ++ more))).Reaches .number (c :: cs ++ '.' :: d :: ds) := by
  refine reaches_number hc ?_
  unfold number
  rw [List.dropWhile_append_of_pos hcs, List.takeWhile_append_of_pos hcs,
    List.dropWhile_cons_of_neg (by decide), List.takeWhile_cons_of_neg (by decide),
    List.append_nil]
  show _ <+: (if d.isDigit = true then (_ : Cut) else _).text
  rw [if_pos hd]
  have hfraction := (List.prefix_cons_inj d).mpr (prefix_takeWhile more hds)
  exact (List.prefix_append_right_inj (c :: cs)).mpr ((List.prefix_cons_inj '.').mpr hfraction)

theorem reaches_word (hc : isWordStart c = true) (hcs : ∀ d ∈ cs, isWordTail d = true) :
    (ofText c (cs ++ more)).Reaches .word (c :: cs) := by
  rw [ofText_word hc]
  exact ⟨(List.prefix_cons_inj c).mpr (prefix_takeWhile more hcs), nofun, nofun, fun _ => rfl⟩

/-- A symbol is spelled by one character, or by another symbol and `=`. -/
theorem text_symbol (s : Symbol) : (∃ c, s.text.toList = [c] ∧ Symbol.ofChar? c = some s) ∨
    ∃ c t, s.text.toList = [c, '='] ∧ Symbol.ofChar? c = some t ∧ t.withEqual? = some s := by
  cases s
  case bangEqual | equalEqual | greaterEqual | lessEqual => exact .inr ⟨_, _, rfl, rfl, rfl⟩
  all_goals exact .inl ⟨_, rfl, rfl⟩

theorem reaches_symbol {s : Symbol} (h : Symbol.ofChar? c = some s) :
    (ofText c cs).Reaches (.symbol s) [c] := by
  by_cases hcomment : c = '/' ∧ cs.head? = some '/'
  · obtain ⟨rfl, hslash⟩ := hcomment
    obtain ⟨rest, rfl⟩ := List.head?_eq_some_iff.mp hslash
    exact ⟨⟨_, rfl⟩, nofun, nofun, nofun⟩
  · rw [ofText_symbol h hcomment]
    unfold symbol
    split
    · exact ⟨⟨_, rfl⟩, nofun, nofun, nofun⟩
    · exact ⟨List.prefix_rfl, nofun, nofun, fun _ => rfl⟩

theorem reaches_symbol_equal {s longer : Symbol} (h : Symbol.ofChar? c = some s)
    (hlonger : s.withEqual? = some longer) :
    (ofText c ('=' :: cs)).Reaches (.symbol longer) [c, '='] := by
  have hcut : ofText c ('=' :: cs) = ⟨.symbol longer, [c, '='], cs⟩ := by
    rw [ofText_symbol h (by rintro ⟨-, ⟨⟩⟩)]
    unfold symbol
    rw [hlonger]
    rfl
  rw [hcut]
  exact ⟨List.prefix_rfl, nofun, nofun, fun _ => rfl⟩

/-- **No text of a class is longer:** a cut comes to the end of any such text in front. -/
theorem reaches_of_spelled (h : p.Spelled front) (e : front ++ more = c :: cs) :
    (ofText c cs).Reaches p front := by
  cases h with
  | blank h =>
    cases e
    rw [ofText_blank (isBlank_iff.mpr h)]
    exact ⟨List.prefix_rfl, nofun, nofun, fun _ => rfl⟩
  | newline =>
    cases e
    exact ⟨List.prefix_rfl, nofun, nofun, fun _ => rfl⟩
  | comment h =>
    cases e
    exact reaches_comment h
  | symbol s =>
    rcases text_symbol s with ⟨d, htext, hs⟩ | ⟨d, t, htext, ht, hs⟩
    · rw [htext] at e ⊢
      cases e
      exact reaches_symbol hs
    · rw [htext] at e ⊢
      cases e
      exact reaches_symbol_equal ht hs
  | string h =>
    simp only [List.cons_append, List.append_assoc, List.nil_append] at e
    cases e
    exact reaches_string h
  | whole h =>
    obtain ⟨d, ds, rfl⟩ := List.exists_cons_of_ne_nil h.1
    cases e
    obtain ⟨hd, hds⟩ := List.forall_mem_cons.mp h.2
    exact reaches_whole hd hds
  | fraction hwhole hfraction =>
    obtain ⟨d, ds, rfl⟩ := List.exists_cons_of_ne_nil hwhole.1
    obtain ⟨f, fs, rfl⟩ := List.exists_cons_of_ne_nil hfraction.1
    obtain ⟨hd, hds⟩ := List.forall_mem_cons.mp hwhole.2
    obtain ⟨hf, hfs⟩ := List.forall_mem_cons.mp hfraction.2
    simp only [List.cons_append, List.append_assoc] at e
    cases e
    exact reaches_fraction hd hds hf hfs
  | word hc hcs =>
    cases e
    exact reaches_word (isWordStart_iff.mpr hc) fun d hd => isWordTail_iff.mpr (hcs d hd)

/-- **A cut is the longest match:** a text of some class is the longest one in front if and only if
it is cut off there as such. -/
theorem longest_iff {text rest : List Char} (e : text ++ rest = c :: cs) :
    p.Longest text rest ↔ p.Spelled text ∧ ofText c cs = ⟨p, text, rest⟩ := by
  constructor
  · rintro ⟨hspelled, hlongest⟩
    have hreaches := reaches_of_spelled hspelled e
    have hsum := text_append_rest c cs
    have hcut : (ofText c cs).piece.Spelled (ofText c cs).text := by
      rcases ofText_cases c cs with h | ⟨-, -, h⟩ | ⟨-, h⟩
      · exact h
      · exact absurd (congrArg piece h) hreaches.ne_unterminated
      · exact absurd (congrArg piece h) (hreaches.ne_illegal c)
    have hle := hlongest hcut (e ▸ hsum ▸ List.prefix_append _ _)
    have htext : text = (ofText c cs).text := hreaches.front_le.eq_of_length_le hle
    have hrest : rest = (ofText c cs).rest := by
      rw [← e, ← htext] at hsum
      exact (List.append_cancel_left hsum).symm
    refine ⟨hspelled, ?_⟩
    rw [htext, hrest, ← hreaches.piece_eq htext.symm]
  · rintro ⟨hspelled, hcut⟩
    refine ⟨hspelled, fun hq hfront => ?_⟩
    obtain ⟨behind, hbehind⟩ := hfront
    have hreaches := reaches_of_spelled hq (hbehind.trans e)
    rw [hcut] at hreaches
    exact hreaches.front_le.length_le

/-! ## Where there is no such text -/

theorem ofText_unterminated (h : '"' ∉ cs) : ofText '"' cs = ⟨.unterminated, '"' :: cs, []⟩ := by
  have hopen : cs.dropWhile (· != '"') = [] := by
    refine List.dropWhile_eq_nil_iff.mpr fun c hc => ?_
    rw [bne_iff_ne]
    rintro rfl
    exact h hc
  show string '"' cs = _
  unfold string
  rw [hopen]

theorem not_spelled_of_illegal (hcut : ofText c cs = ⟨.illegal c, [c], cs⟩) (h : p.Spelled front) :
    ¬ front <+: c :: cs := by
  rintro ⟨behind, hbehind⟩
  exact (reaches_of_spelled h hbehind).ne_illegal c (congrArg piece hcut)

/-- A character that begins no text of any class is illegal, unless it is a quote. -/
theorem ofText_illegal (hquote : c ≠ '"')
    (h : ∀ (p : Piece) (front : List Char), p.Spelled front → ¬ front <+: c :: cs) :
    ofText c cs = ⟨.illegal c, [c], cs⟩ := by
  rcases ofText_cases c cs with hspelled | ⟨hopen, -⟩ | ⟨-, hillegal⟩
  · exact absurd ⟨_, text_append_rest c cs⟩ (h _ _ hspelled)
  · exact absurd hopen hquote
  · exact hillegal

theorem count_quote : ('"' :: cs).count '\n' = cs.count '\n' :=
  List.count_cons_of_ne (by decide)

theorem count_illegal (hcut : ofText c cs = ⟨.illegal c, [c], cs⟩) : [c].count '\n' = 0 := by
  refine List.count_eq_zero.mpr fun hc => ?_
  rw [← List.mem_singleton.mp hc] at hcut
  exact not_spelled_of_illegal hcut .newline (List.prefix_append ['\n'] cs)

end Longest

end Cut

end Lox
