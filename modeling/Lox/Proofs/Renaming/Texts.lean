import Lox.Proofs.Renaming.Derivations
import Lox.Proofs.Scoping.Check

/-!
# Texts of alike programs

A program that is alike the one of an accepted text is spelled by a text too, if what is new in it
is an identifier (`Session.exists_text`): it is derived from tokens with other names, and a text
spells these.
-/

namespace Lox

namespace Token

variable {ρ : Renaming} {text : List Char}

theorem Called.kind_eq {t t' : Token} (h : t.Called ρ t') : t'.kind = t.kind := by
  rcases h with rfl | ⟨hkind, rfl⟩
  · rfl
  · exact hkind.symm

theorem items_eq_map (h : faults text = []) : items text = (tokens text).map .token := by
  have hitems : ∀ its : List Item, its.filterMap Item.diagnostic? = [] →
      its = (its.filterMap Item.token?).map .token := by
    intro its
    induction its with
    | nil => exact fun _ => rfl
    | cons item its ih =>
      cases item with
      | token t => exact fun hits => congrArg (Item.token t :: ·) (ih hits)
      | fault line f => exact nofun
  exact hitems _ h

end Token

theorem Grammar.sourceTokens_cons (t : Token) (ts : List Token) :
    sourceTokens (t :: ts) = if t.kind = .eof then [] else t :: sourceTokens ts := by
  rw [sourceTokens, List.takeWhile_cons]
  by_cases ht : t.kind = .eof
  · rw [if_pos ht, ht]
    rfl
  · rw [if_neg ht, if_pos (bne_iff_ne.mpr ht)]
    rfl

/-- Names of a program may be called otherwise, with the end marker and what is behind it as before.
-/
theorem Grammar.exists_tokens {ρ : Renaming} : ∀ {tokens ts' : List Token},
    List.Forall₂ (Token.Called ρ) (sourceTokens tokens) ts' →
      ∃ tokens', List.Forall₂ (Token.Called ρ) tokens tokens' ∧ sourceTokens tokens' = ts'
  | [], _, .nil => ⟨[], .nil, rfl⟩
  | t :: tokens, ts', h => by
    rw [sourceTokens_cons] at h
    by_cases ht : t.kind = .eof
    · rw [if_pos ht] at h
      cases h
      refine ⟨t :: tokens, List.forall₂_same.mpr fun _ _ => .inl rfl, ?_⟩
      rw [sourceTokens_cons, if_pos ht]
    · rw [if_neg ht] at h
      cases h with
      | @cons _ t' _ ts' hcalled hothers =>
        obtain ⟨tokens', htokens, hsource⟩ := exists_tokens hothers
        refine ⟨t' :: tokens', .cons hcalled htokens, ?_⟩
        rw [← hcalled.kind_eq] at ht
        rw [sourceTokens_cons, if_neg ht, hsource]

/-- **An alike program is spelled by some text**, if the new name is an identifier. -/
theorem Session.exists_text {ρ : Renaming} {text : List Char} {n n' : NodeId}
    {program program' : Program} {distances : Distances} (hnew : Identifier ρ.new)
    (hcheck : check text n = (.ok (program, distances), n')) (halike : program.Alike ρ program') :
    ∃ text', programOf text' n = (.ok program', n') := by
  obtain ⟨hread, hfaults, -⟩ := check_eq_ok hcheck
  obtain ⟨ts', hts, hderives⟩ := (Grammar.derives_of_ofTokens hread).alike halike
  obtain ⟨tokens', htokens, rfl⟩ := Grammar.exists_tokens hts
  have htokenized := (Token.longest_match text _).mp (Token.items_eq_map hfaults)
  obtain ⟨text', htext'⟩ := htokenized.exists_text hnew rfl htokens
  obtain ⟨htokens', hfaults'⟩ := Token.tokens_of_items ((Token.longest_match text' _).mpr htext')
  refine ⟨text', ?_⟩
  rw [programOf, hfaults', htokens', Grammar.ofTokens_of_derives hderives]
  rfl

end Lox
