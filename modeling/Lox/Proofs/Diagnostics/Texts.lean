import Lox.Proofs.Gate
import Lox.Proofs.Occurrences.Rules
import Lox.Proofs.Scanning.Stretches
import Lox.Proofs.Diagnostics.Rules

/-!
# Where the faults of a text are

Every item of a text is on one of its lines (`Token.line_of_mem_items`), and the end marker is the
one token of a text without a lexeme (`Token.stands_of_mem_tokens`).  So each fault of a text, of its
tokens, its syntax or its names, points into the text (`Static.pointsInto`): to one of its lines, or
to one of its tokens with its lexeme, and the end of the text is named where that token is the end
marker and nowhere else.
-/

namespace Lox

/-! ## Lines -/

/-- The line of an item. -/
def Token.Item.line : Item → Nat
  | token t => t.line
  | fault line _ => line

theorem Stretch.Fits.line_of_item {s : Stretch} {line : Nat} (h : s.Fits line) {item : Token.Item}
    (hitem : s.item? = some item) : item.line = line := by
  cases h <;> cases hitem <;> rfl

theorem Stretch.Fits.token_of_item {s : Stretch} {line : Nat} (h : s.Fits line) {token : Token}
    (hitem : s.item? = some (.token token)) : token.lexeme ≠ "" ∧ token.kind ≠ .eof := by
  cases h with
  | token hlexeme hkind =>
    cases hitem
    exact ⟨hlexeme, hkind⟩
  | _ => cases hitem

/-- An item of a text is that of one of its stretches, on the line on which this ends, or the end
marker on the last line. -/
theorem Token.cases_of_mem_items {text : List Char} {item : Item} (h : item ∈ items text) :
    (∃ (s : Stretch) (before : List Char), s.item? = some item ∧
      s.Fits (1 + before.count '\n') ∧ before.Sublist text) ∨
    item = .token ⟨.eof, "", 1 + text.count '\n'⟩ := by
  obtain ⟨stretches, hrebuilt⟩ := items_rebuild text
  rw [hrebuilt.items_eq] at h
  rcases List.mem_append.mp h with h | h
  · obtain ⟨s, hmem, hitem⟩ := List.mem_filterMap.mp h
    obtain ⟨before, after, hstretches⟩ := List.append_of_mem hmem
    refine .inl ⟨s, _, hitem, hrebuilt.fits hstretches, ?_⟩
    have htext := hrebuilt.text_eq
    rw [hstretches, List.map_append, List.map_cons, List.flatten_append, List.flatten_cons,
      ← List.append_assoc] at htext
    rw [← htext]
    exact List.sublist_append_left _ _
  · exact .inr (List.mem_singleton.mp h)

/-- **Every item of a text** is on one of its lines. -/
theorem Token.line_of_mem_items {text : List Char} {item : Item} (h : item ∈ items text) :
    1 ≤ item.line ∧ item.line ≤ 1 + text.count '\n' := by
  rcases cases_of_mem_items h with ⟨s, before, hitem, hfits, hbefore⟩ | rfl
  · rw [hfits.line_of_item hitem]
    have hcount := hbefore.count_le '\n'
    omega
  · exact ⟨Nat.le_add_right 1 _, Nat.le_refl _⟩

theorem Token.exists_eof (text : List Char) : ∃ token ∈ tokens text, token.kind = .eof := by
  obtain ⟨stretches, hrebuilt⟩ := items_rebuild text
  refine ⟨⟨.eof, "", 1 + text.count '\n'⟩, List.mem_filterMap.mpr ⟨.token _, ?_, rfl⟩, rfl⟩
  rw [hrebuilt.items_eq]
  exact List.mem_append_right _ List.mem_cons_self

/-! ## Tokens -/

/-- **Whether a token stands in a text**, on one of its lines, and is reported to be at the end
exactly if it is the end marker. -/
structure Token.Stands (text : List Char) (token : Token) : Prop where
  mem : token ∈ Token.tokens text
  line : 1 ≤ token.line ∧ token.line ≤ 1 + text.count '\n'
  place : Diagnostic.place token.lexeme = " at end" ↔ token.kind = .eof

/-- Only an empty lexeme is reported to be at the end. -/
theorem Diagnostic.place_eq_end {lexeme : String} : place lexeme = " at end" ↔ lexeme = "" := by
  unfold place
  split
  · next h => exact iff_of_true rfl h
  · next h =>
    refine iff_of_false (fun hplace => ?_) h
    have hchars := congrArg String.toList hplace
    have hquote : ' ' :: 'a' :: 't' :: ' ' :: '\'' :: (lexeme.toList ++ ['\'']) =
        [' ', 'a', 't', ' ', 'e', 'n', 'd'] := by
      rwa [String.toList_append, String.toList_append] at hchars
    simp at hquote

/-- **Every token of a text** stands in it. -/
theorem Token.stands_of_mem_tokens {text : List Char} {token : Token} (h : token ∈ tokens text) :
    token.Stands text := by
  obtain ⟨item, hmem, hitem⟩ := List.mem_filterMap.mp h
  have hline := line_of_mem_items hmem
  cases item with
  | fault line fault => cases hitem
  | token t =>
    cases hitem
    refine ⟨h, hline, ?_⟩
    rw [Diagnostic.place_eq_end]
    rcases cases_of_mem_items hmem with ⟨s, before, hitem, hfits, -⟩ | heof
    · obtain ⟨hlexeme, hkind⟩ := hfits.token_of_item hitem
      exact iff_of_false hlexeme hkind
    · cases heof
      exact iff_of_true rfl rfl

/-! ## Faults -/

/-- **Whether a fault of a text points into the text:** to one of its lines, or to a token that stands
in it, with the token's line and lexeme. -/
inductive Diagnostic.PointsInto (text : List Char) : Diagnostic → Prop
  | lex {line : Nat} {message : String} (hline : 1 ≤ line ∧ line ≤ 1 + text.count '\n') :
      PointsInto text (.lex line message)
  | parse {token : Token} {message : String} (htoken : token.Stands text) :
      PointsInto text (.parse token.line token.lexeme message)
  | resolve {token : Token} {message : String} (htoken : token.Stands text) :
      PointsInto text (.resolve token.line token.lexeme message)

theorem Program.of_tokens {text : List Char} {n n' : NodeId} {program : Program}
    (h : Program.ofTokens (Token.tokens text) n = (.ok program, n')) :
    ∀ s ∈ program, s.Of (Token.tokens text) :=
  (Program.ofTokens_of (Token.exists_eof text) n).2 program n' h

/-- What is reported of occurrences has the name of one of them. -/
theorem Reported.exists_name {os : List Occurrence} {reports : List Diagnostic}
    (h : Reported os reports) : ∀ d ∈ reports, ∃ o ∈ os, ∃ message,
      d = .resolve o.name.line o.name.text message := by
  induction h with
  | nil => exact nofun
  | silent _ _ ih =>
    intro d hd
    obtain ⟨o, ho, hreport⟩ := ih d hd
    exact ⟨o, List.mem_cons_of_mem _ ho, hreport⟩
  | violation _ _ ih =>
    intro d hd
    rcases List.mem_cons.mp hd with rfl | hd
    · exact ⟨_, List.mem_cons_self, _, rfl⟩
    · obtain ⟨o, ho, hreport⟩ := ih d hd
      exact ⟨o, List.mem_cons_of_mem _ ho, hreport⟩

namespace Static

variable {text : List Char} {d : Diagnostic}

theorem pointsInto_lexical (h : d ∈ lexical text) : d.PointsInto text := by
  obtain ⟨item, hmem, hitem⟩ := List.mem_filterMap.mp h
  have hline := Token.line_of_mem_items hmem
  cases item with
  | token t => cases hitem
  | fault line fault =>
    cases hitem
    exact .lex hline

theorem pointsInto_syntactic (h : d ∈ syntactic text) : d.PointsInto text := by
  unfold syntactic at h
  split at h
  · cases h
  · next faults hread =>
    obtain ⟨fault, hmem, rfl⟩ := List.mem_map.mp h
    have htoken := (Program.ofTokens_of (Token.exists_eof text) 0).1 faults _
      (Prod.ext hread rfl) fault hmem
    exact .parse (Token.stands_of_mem_tokens htoken)

theorem pointsInto_scoping (h : d ∈ scoping text) : d.PointsInto text := by
  unfold scoping at h
  split at h
  · next program hread =>
    have hprogram : ∀ s ∈ program, s.Of (Token.tokens text) := Program.of_tokens (Prod.ext hread rfl)
    obtain ⟨o, ho, message, rfl⟩ := program.reported_violations.exists_name d h
    obtain ⟨token, htoken, hname⟩ := (Stmt.Of.all hprogram).1 [] o ho
    rw [hname]
    exact .resolve (Token.stands_of_mem_tokens htoken)
  · cases h

/-- **All faults that a text is answered by** point into the text. -/
theorem pointsInto (h : d ∈ faults text) : d.PointsInto text := by
  unfold faults at h
  split at h
  · exact pointsInto_scoping h
  · rcases List.mem_append.mp h with h | h
    · exact pointsInto_lexical h
    · exact pointsInto_syntactic h

end Static

end Lox
