import Lox.Proofs.Renaming.Alike
import Lox.Proofs.Scanning.LongestMatch
import Lox.Proofs.Scanning.Separators
import Mathlib.Data.List.Forall2

/-!
# Texts with other names

Any tokens that a text spells without a fault are spelled by another text if some of its names are
called otherwise (`Tokenized.exists_text`).  The other text has a blank behind each token and no
comments, so that every piece is the longest one whatever comes next.
-/

namespace Lox

/-- Whether a name is an identifier and no keyword. -/
def Identifier (name : String) : Prop :=
  Piece.word.Spelled name.toList ∧ ∀ k : Keyword, name ≠ k.text

/-- Whether the first token may be called by the second one: it is the same, or a name that has the
new name. -/
def Token.Called (ρ : Renaming) (t t' : Token) : Prop :=
  t' = t ∨ t.kind = .identifier ∧ t' = ⟨.identifier, ρ.new, t.line⟩

theorem Identifier.plain {name : String} (h : Identifier name) : Plain name :=
  ⟨h.2 .this, h.2 .super⟩

/-! ## Pieces with a blank behind them -/

/-- **A text of a class is the longest one before a blank**, unless it is a comment. -/
theorem Piece.Spelled.longest_blank {p : Piece} {text : List Char} (h : p.Spelled text)
    (hp : p ≠ .comment) (rest : List Char) : p.Longest text (' ' :: rest) := by
  obtain ⟨c, cs, rfl⟩ := List.exists_cons_of_ne_nil h.ne_nil
  have hblank : Separates ' ' := by constructor <;> decide
  have hcut : Cut.ofText c (cs ++ ' ' :: rest) = ⟨p, c :: cs, ' ' :: rest⟩ :=
    Cut.ofText_spelled h hp (by rintro _ ⟨⟩; exact hblank)
  exact (Cut.longest_iff rfl).mpr ⟨h, hcut⟩

/-! ## Texts -/

namespace Tokenized

variable {line : Nat} {rest : List Char} {items : List Token.Item}

theorem token {p : Piece} {text : List Char} {kind : Token.Kind} (hspelled : p.Spelled text)
    (hmeans : p.Means text (some kind))
    (h : Tokenized (line + text.count '\n') rest items) :
    Tokenized line (text ++ ' ' :: rest)
      (.token ⟨kind, String.ofList text, line + text.count '\n'⟩ :: items) := by
  have hlongest : Piece.blank.Longest [' '] rest :=
    (Cut.longest_iff rfl).mpr ⟨.blank (.inl rfl), rfl⟩
  have hblank : Tokenized (line + text.count '\n') (' ' :: rest) items := .piece hlongest .blank h
  exact .piece (hspelled.longest_blank (by rintro rfl; cases hmeans) rest) hmeans hblank

theorem count_word {text : List Char} (h : Piece.word.Spelled text) : text.count '\n' = 0 := by
  cases h with
  | word hc hcs =>
    refine List.count_eq_zero.mpr fun hmem => ?_
    rcases List.mem_cons.mp hmem with rfl | hmem
    · rcases hc with hc | hc <;> exact absurd hc (by decide)
    · rcases hcs _ hmem with hd | hd <;> exact absurd hd (by decide)

/-- What has no meaning is a newline, or is on one line. -/
theorem count_none {p : Piece} {text : List Char} (hspelled : p.Spelled text)
    (hmeans : p.Means text none) : p = .newline ∧ text = ['\n'] ∨ text.count '\n' = 0 := by
  cases hmeans with
  | blank =>
    cases hspelled with
    | blank h => rcases h with rfl | rfl | rfl <;> exact .inr (by decide)
  | newline =>
    cases hspelled
    exact .inl ⟨rfl, rfl⟩
  | comment =>
    cases hspelled with
    | comment h =>
      refine .inr (List.count_eq_zero.mpr fun hmem => ?_)
      simp only [List.mem_cons] at hmem
      rcases hmem with hmem | hmem | hmem
      · exact absurd hmem (by decide)
      · exact absurd hmem (by decide)
      · exact h hmem

/-- A piece without meaning is left out, or a newline stands for it. -/
theorem skip {p : Piece} {text : List Char} (hspelled : p.Spelled text) (hmeans : p.Means text none)
    (h : Tokenized (line + text.count '\n') rest items) : ∃ text', Tokenized line text' items := by
  rcases count_none hspelled hmeans with ⟨rfl, rfl⟩ | hcount
  · have hlongest : Piece.newline.Longest ['\n'] rest := (Cut.longest_iff rfl).mpr ⟨.newline, rfl⟩
    exact ⟨'\n' :: rest, .piece hlongest .newline h⟩
  · rw [hcount, Nat.add_zero] at h
    exact ⟨rest, h⟩

theorem called {ρ : Renaming} (hnew : Identifier ρ.new) {p : Piece} {text : List Char}
    {kind : Token.Kind} {t' : Token} (hspelled : p.Spelled text) (hmeans : p.Means text (some kind))
    (hcalled : Token.Called ρ ⟨kind, String.ofList text, line + text.count '\n'⟩ t')
    (h : Tokenized (line + text.count '\n') rest items) :
    ∃ text', Tokenized line text' (.token t' :: items) := by
  rcases hcalled with rfl | ⟨hkind, rfl⟩
  · exact ⟨_, token hspelled hmeans h⟩
  · have hkind : kind = .identifier := hkind
    subst hkind
    obtain rfl : p = .word := by
      cases hmeans
      rfl
    rw [count_word hspelled] at h ⊢
    rw [← count_word hnew.1] at h ⊢
    have hname : ∀ k : Keyword, ρ.new.toList ≠ k.text.toList := fun k he =>
      hnew.2 k (String.toList_inj.mp he)
    have htoken := token hnew.1 (.name hname) h
    rw [String.ofList_toList] at htoken
    exact ⟨_, htoken⟩

/-- **There is a text with other names** for the tokens of any text without faults. -/
theorem exists_text {ρ : Renaming} (hnew : Identifier ρ.new) {text : List Char}
    (h : Tokenized line text items) : ∀ {ts ts' : List Token}, items = ts.map .token →
      List.Forall₂ (Token.Called ρ) ts ts' → ∃ text', Tokenized line text' (ts'.map .token) := by
  induction h with
  | @done line =>
    rintro (_ | ⟨t, _ | _⟩) ts' hts hcalled
    · cases hts
    · cases hts
      cases hcalled with
      | cons h hothers =>
        cases hothers
        rcases h with rfl | ⟨⟨⟩, -⟩
        exact ⟨[], .done⟩
    · cases hts
  | @piece line p text rest kind? items h hmeans hrest ih =>
    intro ts ts' hts hcalled
    cases kind? with
    | none =>
      obtain ⟨rest', hrest'⟩ := ih hts hcalled
      exact skip h.spelled hmeans hrest'
    | some kind =>
      cases hcalled with
      | nil => cases hts
      | @cons t t' ts ts' hcalled hothers =>
        injection hts with ht hts
        cases ht
        obtain ⟨rest', hrest'⟩ := ih hts hothers
        exact called hnew h.spelled hmeans hcalled hrest'
  | unterminated h =>
    rintro (_ | _) ts' hts hcalled <;> cases hts
  | illegal =>
    rintro (_ | _) ts' hts hcalled <;> cases hts

end Tokenized

end Lox
