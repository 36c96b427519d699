import Lox.Syntax.Program
import Lox.Proofs.Grammar.Completeness.Stmt

/-!
# Programs are exactly what the grammar derives

`Program.ofTokens` comes to a program if and only if the grammar derives the tokens, and the program
is the tree of the derivation (`ofTokens_exact`); in every other case it comes to at least one
fault.

A report is never taken back, so a list of declarations that was read without a report in the end
was read without any recovery (`declarations_sound`).  Derived declarations are read one by one
(`declarations_complete`).
-/

namespace Lox

namespace Program

open Syntax Syntax.Rule

variable {c c₁ : Cursor} {fuel rounds : Nat}

/-! ## Declarations, one by one -/

theorem declarations_nil (fuel rounds : Nat) (hc : c.rest = []) :
    declarations fuel rounds c = ([], c) := by
  cases rounds with
  | zero => rfl
  | succ rounds => simp [declarations, hc]

theorem declarations_of_ok {s : Stmt} (hc : c.rest ≠ []) (h : declaration fuel c = .ok s c₁) :
    declarations fuel (rounds + 1) c =
      (s :: (declarations fuel rounds c₁).1, (declarations fuel rounds c₁).2) := by
  simp [declarations, hc, h]

theorem declarations_of_fault {fault : Fault} (hc : c.rest ≠ [])
    (h : declaration fuel c = .error (.fault fault) c₁) :
    declarations fuel (rounds + 1) c = declarations fuel rounds (c₁.report fault).recover := by
  simp [declarations, hc, h]

end Program

namespace Grammar

open Syntax Syntax.Rule

variable {fuel : Nat}

/-! ## What is read is derived -/

theorem length_boundary (before : Token) :
    ∀ ts : List Token, (Cursor.boundary before ts).length ≤ ts.length
  | [] => Nat.le_refl _
  | t :: ts => by
    rw [Cursor.boundary]
    split
    · exact Nat.le_refl _
    · exact Nat.le_succ_of_le (length_boundary t ts)

theorem length_recover (c : Cursor) :
    c.recover.rest.length ≤ c.rest.length - 1 ∧ c.recover.last = c.last ∧
      c.recover.reports = c.reports ∧ c.recover.nextId = c.nextId := by
  unfold Cursor.recover
  split
  · next h => exact ⟨by simp [h], rfl, rfl, rfl⟩
  · next t ts h => exact ⟨by simpa [h] using length_boundary t ts, rfl, rfl, rfl⟩

/-- **Declarations read without a report are derived**, and nothing is left behind them. -/
theorem declarations_sound :
    ∀ (rounds : Nat) (c : Cursor), c.last.kind = .eof → c.rest.length < rounds →
      c.rest.length + 3 < fuel →
      ∃ extra, (Program.declarations fuel rounds c).2.reports = c.reports ++ extra ∧
        c.nextId ≤ (Program.declarations fuel rounds c).2.nextId ∧
        (extra = [] → (Sentence.declarations (Program.declarations fuel rounds c).1).Derives
          c.nextId c.rest (Program.declarations fuel rounds c).2.nextId)
  | 0, _, _, hrounds, _ => absurd hrounds (Nat.not_lt_zero _)
  | rounds + 1, c, hc, hrounds, hfuel => by
    by_cases hempty : c.rest = []
    · rw [Program.declarations_nil _ _ hempty, hempty]
      exact ⟨[], (List.append_nil _).symm, Nat.le_refl _, fun _ => .declarationsEnd⟩
    have hpos : 0 < c.rest.length := List.length_pos_iff.mpr hempty
    have hread := reads_declaration fuel c.rest.length hfuel c hc (Nat.le_refl _)
    rcases hfirst : Rule.declaration fuel c with ⟨s, c₁⟩ | ⟨fault | _, c₁⟩ <;> rw [hfirst] at hread
    · obtain ⟨ts, extra₁, hpasses, hlen, hderives⟩ := hread
      have hrest := hpasses.length_rest
      obtain ⟨extra₂, hreports, hids, hothers⟩ := declarations_sound rounds c₁
        (by rw [hpasses.last, hc]) (by omega) (by omega)
      rw [Program.declarations_of_ok hempty hfirst]
      refine ⟨extra₁ ++ extra₂, by rw [hreports, hpasses.reports, List.append_assoc],
        Nat.le_trans hpasses.nextId hids, fun hextra => ?_⟩
      obtain ⟨h₁, h₂⟩ := List.append_eq_nil_iff.mp hextra
      rw [hpasses.rest]
      exact .declarationsMore (hderives h₁) (hothers h₂)
    · obtain ⟨ts, extra₁, hpasses⟩ := hread
      have hrest := hpasses.length_rest
      obtain ⟨hlength, hlast, hreport, hnextId⟩ := length_recover (c₁.report fault)
      have hlength : (c₁.report fault).recover.rest.length ≤ c₁.rest.length - 1 := hlength
      obtain ⟨extra₂, hreports, hids, -⟩ := declarations_sound rounds (c₁.report fault).recover
        (by rw [hlast]; exact hpasses.last ▸ hc) (by omega) (by omega)
      rw [hnextId] at hids
      rw [Program.declarations_of_fault hempty hfirst]
      refine ⟨extra₁ ++ fault :: extra₂, ?_, Nat.le_trans hpasses.nextId hids,
        fun h => by simp at h⟩
      rw [hreports, hreport]
      simp [Cursor.report, hpasses.reports]
    · exact hread.elim

/-! ## What is derived is read -/

/-- **Derived declarations are read** to the end of the tokens, without a report. -/
theorem declarations_complete {body : List Stmt} {ts : List Token} {n n' : NodeId} {last : Token}
    {reports : List Fault} (hlast : last.kind = .eof)
    (h : (Sentence.declarations body).Derives n ts n') (rounds : Nat) (hrounds : ts.length < rounds)
    (hfuel : ts.length + 3 < fuel) :
    Program.declarations fuel rounds ⟨ts, last, n, reports⟩ = (body, ⟨[], last, n', reports⟩) := by
  obtain ⟨rounds, rfl⟩ : ∃ k, rounds = k + 1 := ⟨rounds - 1, by omega⟩
  cases h with
  | declarationsEnd => rfl
  | @declarationsMore s body ts₁ ts₂ _ n₁ _ h hmore =>
    have hend : nextKind .eof ts₂ ≠ .keyword .else := by
      have hnext : nextKind .eof (ts₂ ++ []) ≠ .keyword .else :=
        nextKind_declarations hmore (by simp)
      simpa using hnext
    have hne : ts₁ ≠ [] := by
      obtain ⟨t, ts', rfl, -⟩ := starts_declaration h
      exact List.cons_ne_nil _ _
    have hpos : 0 < ts₁.length := List.length_pos_iff.mpr hne
    rw [List.length_append] at hrounds hfuel
    have hfirst := h.completes fuel ts₂ (by omega) hend last reports hlast
    have hothers : Program.declarations fuel rounds ⟨ts₂, last, _, reports⟩ = _ :=
      declarations_complete hlast hmore rounds (by omega) (by omega)
    rw [Program.declarations_of_ok (List.append_ne_nil_of_left_ne_nil hne ts₂) hfirst, hothers]
termination_by rounds

/-! ## Programs -/

/-- The tokens of a program: those before the first end marker. -/
def sourceTokens (tokens : List Token) : List Token :=
  tokens.takeWhile (·.kind != .eof)

theorem last_ofTokens (tokens : List Token) (n : NodeId) :
    (Cursor.ofTokens tokens n).last.kind = .eof := by
  unfold Cursor.ofTokens
  induction tokens with
  | nil => rfl
  | cons t ts ih =>
    rw [List.dropWhile_cons]
    split
    · exact ih
    · next h => simpa using h

theorem derives_of_ofTokens {tokens : List Token} {n n' : NodeId} {S : Program}
    (h : Program.ofTokens tokens n = (.ok S, n')) :
    (Sentence.declarations S).Derives n (sourceTokens tokens) n' := by
  let start := Cursor.ofTokens tokens n
  obtain ⟨extra, hreports, -, hderives⟩ := declarations_sound (start.rest.length + 1) start
    (last_ofTokens tokens n) (by omega) (Nat.lt_succ_self (start.rest.length + 3))
  have hextra : extra = (Program.declarations (start.rest.length + 4) (start.rest.length + 1)
      start).2.reports := by rw [hreports]; rfl
  unfold Program.ofTokens at h
  simp only [Prod.mk.injEq] at h
  obtain ⟨hok, rfl⟩ := h
  split at hok
  · next hempty =>
    cases hok
    exact hderives (hextra.trans (List.isEmpty_iff.mp hempty))
  · cases hok

/-- No identity is given out again, whether or not a program is read. -/
theorem le_nextId_ofTokens (tokens : List Token) (n : NodeId) : n ≤ (Program.ofTokens tokens n).2 := by
  let start := Cursor.ofTokens tokens n
  obtain ⟨-, -, hids, -⟩ := declarations_sound (start.rest.length + 1) start
    (last_ofTokens tokens n) (by omega) (Nat.lt_succ_self (start.rest.length + 3))
  exact hids

theorem ofTokens_of_derives {tokens : List Token} {n n' : NodeId} {S : Program}
    (h : (Sentence.declarations S).Derives n (sourceTokens tokens) n') :
    Program.ofTokens tokens n = (.ok S, n') := by
  let start := Cursor.ofTokens tokens n
  have hread : Program.declarations (start.rest.length + 4) (start.rest.length + 1) start =
      (S, ⟨[], start.last, n', []⟩) :=
    declarations_complete (last_ofTokens tokens n) h _ (Nat.lt_succ_self _)
      (Nat.lt_succ_self (start.rest.length + 3))
  unfold Program.ofTokens
  simp only [start] at hread
  simp [hread]

/-- Tokens that are no program come to at least one fault. -/
theorem ofTokens_eq_error {tokens : List Token} {n : NodeId}
    (h : ∀ S n', ¬ (Sentence.declarations S).Derives n (sourceTokens tokens) n') :
    ∃ fault faults n', Program.ofTokens tokens n = (.error (fault :: faults), n') := by
  cases hread : Program.ofTokens tokens n with
  | mk result n' =>
    cases result with
    | ok S => exact absurd (derives_of_ofTokens hread) (h S n')
    | error faults =>
      cases faults with
      | nil =>
        simp only [Program.ofTokens, Prod.mk.injEq] at hread
        obtain ⟨herror, -⟩ := hread
        split at herror
        · cases herror
        · next hempty =>
          injection herror with hnil
          rw [hnil] at hempty
          exact absurd rfl hempty
      | cons fault faults => exact ⟨fault, faults, n', rfl⟩

/-- **The language read is the language of the grammar.**  A list of tokens comes to a program if and
only if the grammar derives its tokens before the first end marker, and then to the tree of the
derivation, with the identities of the derivation; else it comes to a nonempty list of faults. -/
theorem ofTokens_exact (tokens : List Token) (n : NodeId) :
    (∀ S n', Program.ofTokens tokens n = (.ok S, n') ↔
      (Sentence.declarations S).Derives n (sourceTokens tokens) n') ∧
    ((∀ S n', ¬ (Sentence.declarations S).Derives n (sourceTokens tokens) n') →
      ∃ fault faults n', Program.ofTokens tokens n = (.error (fault :: faults), n')) :=
  ⟨fun _ _ => ⟨derives_of_ofTokens, ofTokens_of_derives⟩, ofTokens_eq_error⟩

end Grammar

end Lox
