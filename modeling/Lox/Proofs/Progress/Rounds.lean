import Lox.Proofs.Progress.Positions
import Lox.Proofs.Locality.Programs

/-!
# Reading makes progress

A list of tokens is read in `Rounds`, each of which reads one declaration or gives it up and
recovers.  Every round passes a token (`Program.Round.Moves`), also if its declaration fails without
any, so the rounds come to an end.

Recovery passes the token at which a declaration stops.  So the tokens at which declarations are
given up come one behind the other (`Program.Rounds.pairwise_lt`).
-/

namespace Lox.Program

open Syntax Syntax.Rule Grammar

/-- One declaration: where it begins, where it ends or stops, where the next one begins, and what it
comes to. -/
structure Round where
  start : Cursor
  stop : Cursor
  next : Cursor
  result : Except Fault Stmt

namespace Round

/-- The statement that a round reads. -/
def statement? (round : Round) : Option Stmt :=
  round.result.toOption

/-- The fault at which a round gives up. -/
def fault? (round : Round) : Option Fault :=
  match round.result with
  | .ok _ => none
  | .error fault => some fault

/-- **Whether a round makes progress** among tokens.  It does not go back, it passes a token in all,
and the fault at which it gives up is at the token where it stops. -/
structure Moves (tokens : List Token) (round : Round) : Prop where
  start : round.start.Among tokens
  stop : round.stop.Among tokens
  next : round.next.Among tokens
  start_le : round.start.position tokens ≤ round.stop.position tokens
  stop_le : round.stop.position tokens ≤ round.next.position tokens
  start_lt : round.start.position tokens < round.next.position tokens
  token : ∀ fault ∈ round.fault?,
    fault.token = tokens[round.stop.position tokens]?.getD Cursor.implicitEnd

end Round

/-- **What a round is:** there are tokens left, and a declaration is read, or given up with a report
and a recovery. -/
inductive Round.Runs (fuel : Nat) : Round → Prop
  | read {c behind : Cursor} {s : Stmt} (hmore : c.rest ≠ [])
      (hread : declaration fuel c = .ok s behind) : Runs fuel ⟨c, behind, behind, .ok s⟩
  | givenUp {c behind : Cursor} {fault : Fault} (hmore : c.rest ≠ [])
      (hstop : declaration fuel c = .error (.fault fault) behind) :
      Runs fuel ⟨c, behind, (behind.report fault).recover, .error fault⟩

/-- **The rounds from a cursor on,** as long as tokens are left, and the cursor at the end. -/
inductive Rounds (fuel : Nat) : Cursor → List Round → Cursor → Prop
  | ended {c : Cursor} (hend : c.rest = []) : Rounds fuel c [] c
  | more {round : Round} {trail : List Round} {final : Cursor} (hround : round.Runs fuel)
      (hothers : Rounds fuel round.next trail final) :
      Rounds fuel round.start (round :: trail) final

/-- The faults at which rounds give up, each with its position. -/
def faultsAt (tokens : List Token) (trail : List Round) : List (Nat × Fault) :=
  trail.filterMap fun round => round.fault?.map (round.stop.position tokens, ·)

variable {tokens : List Token} {fuel : Nat} {c final : Cursor} {trail : List Round}

theorem faultsAt_cons (round : Round) : faultsAt tokens (round :: trail) =
    (round.fault?.map (round.stop.position tokens, ·)).toList ++ faultsAt tokens trail := by
  unfold faultsAt
  rw [List.filterMap_cons]
  cases round.fault? <;> rfl

theorem mem_faultsAt {i : Nat} {fault : Fault} : (i, fault) ∈ faultsAt tokens trail ↔
    ∃ round ∈ trail, round.fault? = some fault ∧ round.stop.position tokens = i := by
  constructor
  · intro h
    obtain ⟨round, hround, hfault⟩ := List.mem_filterMap.mp h
    obtain ⟨fault', hfault', heq⟩ := Option.map_eq_some_iff.mp hfault
    cases heq
    exact ⟨round, hround, hfault', rfl⟩
  · rintro ⟨round, hround, hfault, rfl⟩
    exact List.mem_filterMap.mpr ⟨round, hround, by rw [hfault]; rfl⟩

/-! ## Recovery -/

/-- **Recovery makes progress,** unless no token is left. -/
theorem among_recover (h : c.Among tokens) : c.recover.Among tokens ∧
    c.position tokens ≤ c.recover.position tokens ∧
      (c.recover.rest ≠ [] → c.position tokens < c.recover.position tokens) := by
  obtain ⟨front, hfront⟩ := exists_eq_append_recover c
  obtain ⟨hlength, hlast, -, -⟩ := length_recover c
  have hamong : c.recover.Among tokens :=
    ⟨(List.suffix_append front _).trans (hfront ▸ h.rest), hlast.trans h.last⟩
  have hhere := h.position_add_length
  have hthere := hamong.position_add_length
  refine ⟨hamong, by omega, fun hrest => ?_⟩
  have hpos := List.length_pos_iff.mpr hrest
  omega

/-! ## Every round -/

namespace Round

variable {round : Round}

/-- **A round that is run makes progress.** -/
theorem Runs.moves (h : round.Runs fuel) (hc : round.start.Among tokens)
    (hfuel : round.start.rest.length + 3 < fuel) : round.Moves tokens := by
  cases h with
  | @read c behind s hmore hread =>
    have hcomes := comes_declaration hc hfuel
    rw [hread] at hcomes
    obtain ⟨hbehind, hlt⟩ := hcomes
    exact ⟨hc, hbehind, hbehind, hlt.le, Nat.le_refl _, hlt, fun _ h => by cases h⟩
  | @givenUp c behind fault hmore hstop =>
    have hcomes := comes_declaration hc hfuel
    rw [hstop] at hcomes
    obtain ⟨hbehind, hle, htoken⟩ := hcomes
    have hreported : (behind.report fault).Among tokens := ⟨hbehind.rest, hbehind.last⟩
    obtain ⟨hnext, hpassed, hlt⟩ := among_recover hreported
    refine ⟨hc, hbehind, hnext, hle, hpassed, ?_, fun _ h => by cases h; exact htoken⟩
    by_cases hrest : (behind.report fault).recover.rest = []
    · -- the declaration stops at the end of the tokens, which are left where it begins
      have hstart : c.position tokens + c.rest.length = _ := hc.position_add_length
      have hafter := hnext.position_add_length
      rw [hrest, List.length_nil] at hafter
      have hpos : 0 < c.rest.length := List.length_pos_iff.mpr hmore
      show c.position tokens < (behind.report fault).recover.position tokens
      omega
    · exact Nat.lt_of_le_of_lt hle (hlt hrest)

/-- The token at which a round gives up is passed, unless it is the end. -/
theorem Runs.stop_lt (h : round.Runs fuel) (hstop : round.stop.Among tokens)
    (hmore : round.next.rest ≠ []) (hfault : round.fault?.isSome = true) :
    round.stop.position tokens < round.next.position tokens := by
  cases h with
  | read => exact absurd hfault Bool.false_ne_true
  | @givenUp c behind fault =>
    have hreported : (behind.report fault).Among tokens := ⟨hstop.rest, hstop.last⟩
    exact (among_recover hreported).2.2 hmore

theorem Runs.reports (h : round.Runs fuel) (hc : round.start.last.kind = .eof)
    (hfuel : round.start.rest.length + 3 < fuel) :
    ∃ extra, round.next.reports = round.start.reports ++ extra ++ round.fault?.toList := by
  have hread := reads_declaration fuel _ hfuel round.start hc (Nat.le_refl _)
  cases h with
  | @read c behind s hmore h =>
    dsimp only at hread
    rw [h] at hread
    obtain ⟨ts, extra, hpasses, -⟩ := hread
    exact ⟨extra, hpasses.reports.trans (List.append_nil _).symm⟩
  | @givenUp c behind fault hmore h =>
    dsimp only at hread
    rw [h] at hread
    obtain ⟨ts, extra, hpasses⟩ := hread
    refine ⟨extra, (length_recover (behind.report fault)).2.2.1.trans ?_⟩
    show behind.reports ++ [fault] = _
    rw [hpasses.reports]
    rfl

theorem Moves.length_lt (h : round.Moves tokens) :
    round.next.rest.length < round.start.rest.length := by
  have hstart := h.start.position_add_length
  have hnext := h.next.position_add_length
  have hlt := h.start_lt
  omega

end Round

/-- **Reading is done in rounds,** and comes to what these read. -/
theorem exists_rounds : ∀ (rounds : Nat) (c : Cursor), c.Among tokens → c.rest.length < rounds →
    c.rest.length + 3 < fuel → ∃ trail, Rounds fuel c trail (declarations fuel rounds c).2 ∧
      (declarations fuel rounds c).1 = trail.filterMap Round.statement?
  | 0, _, _, hrounds, _ => absurd hrounds (Nat.not_lt_zero _)
  | rounds + 1, c, hc, hrounds, hfuel => by
    by_cases hmore : c.rest = []
    · rw [declarations_nil _ _ hmore]
      exact ⟨[], .ended hmore, rfl⟩
    have hcomes := comes_declaration hc hfuel
    rcases hfirst : declaration fuel c with ⟨s, behind⟩ | ⟨fault | _, behind⟩ <;>
      rw [hfirst] at hcomes
    · have hround : Round.Runs fuel ⟨c, behind, behind, .ok s⟩ := .read hmore hfirst
      have hmoves := hround.moves hc hfuel
      have hlt : behind.rest.length < c.rest.length := hmoves.length_lt
      obtain ⟨trail, htrail, hstatements⟩ :=
        exists_rounds rounds behind hmoves.next (by omega) (by omega)
      rw [declarations_of_ok hmore hfirst]
      exact ⟨_ :: trail, .more hround htrail, congrArg (s :: ·) hstatements⟩
    · have hround : Round.Runs fuel ⟨c, behind, (behind.report fault).recover, .error fault⟩ :=
        .givenUp hmore hfirst
      have hmoves := hround.moves hc hfuel
      have hlt : (behind.report fault).recover.rest.length < c.rest.length := hmoves.length_lt
      obtain ⟨trail, htrail, hstatements⟩ :=
        exists_rounds rounds (behind.report fault).recover hmoves.next (by omega) (by omega)
      rw [declarations_of_fault hmore hfirst]
      exact ⟨_ :: trail, .more hround htrail, hstatements⟩
    · exact hcomes.elim

/-! ## All rounds -/

namespace Rounds

theorem rest_eq_nil (h : Rounds fuel c trail final) : final.rest = [] := by
  induction h with
  | ended hend => exact hend
  | more _ _ ih => exact ih

/-- **Every round makes progress,** and begins behind those before it. -/
theorem moves (h : Rounds fuel c trail final) (hc : c.Among tokens)
    (hfuel : c.rest.length + 3 < fuel) : ∀ round ∈ trail, round.Moves tokens ∧
      c.position tokens ≤ round.start.position tokens := by
  induction h with
  | ended => exact List.forall_mem_nil _
  | more hround _ ih =>
    have hmoves := hround.moves hc hfuel
    have hlt := hmoves.length_lt
    refine List.forall_mem_cons.mpr ⟨⟨hmoves, Nat.le_refl _⟩, fun later hlater => ?_⟩
    obtain ⟨hlater, hle⟩ := ih hmoves.next (by omega) later hlater
    exact ⟨hlater, hmoves.start_lt.le.trans hle⟩

/-- **The tokens at which declarations are given up come one behind the other.** -/
theorem pairwise_lt (h : Rounds fuel c trail final) (hc : c.Among tokens)
    (hfuel : c.rest.length + 3 < fuel) :
    ((faultsAt tokens trail).map Prod.fst).Pairwise (· < ·) := by
  induction h with
  | ended => exact .nil
  | @more round trail final hround hothers ih =>
    have hmoves := hround.moves hc hfuel
    have hlt := hmoves.length_lt
    have hlater := ih hmoves.next (by omega)
    cases hfault : round.fault? with
    | none =>
      rw [faultsAt_cons, hfault]
      exact hlater
    | some fault =>
      rw [faultsAt_cons, hfault]
      refine .cons (fun i hi => ?_) hlater
      obtain ⟨⟨_, fault'⟩, hmem, rfl⟩ := List.mem_map.mp hi
      obtain ⟨later, htrail, -, rfl⟩ := mem_faultsAt.mp hmem
      obtain ⟨hlatermoves, hle⟩ := hothers.moves hmoves.next (by omega) later htrail
      have hmore : round.next.rest ≠ [] := by
        intro hnone
        have hnext := hmoves.next.position_add_length
        have hstart := hlatermoves.start.position_add_length
        have hlt := hlatermoves.length_lt
        rw [hnone, List.length_nil] at hnext
        omega
      have hstop := hround.stop_lt hmoves.stop hmore (by rw [hfault]; rfl)
      exact hstop.trans_le (hle.trans hlatermoves.start_le)

theorem sublist_reports (h : Rounds fuel c trail final) (hc : c.Among tokens)
    (hfuel : c.rest.length + 3 < fuel) :
    ∃ extra, final.reports = c.reports ++ extra ∧
      ((faultsAt tokens trail).map Prod.snd).Sublist extra := by
  induction h with
  | ended => exact ⟨[], (List.append_nil _).symm, .slnil⟩
  | @more round trail final hround _ ih =>
    have hmoves := hround.moves hc hfuel
    have hlt := hmoves.length_lt
    obtain ⟨extra₁, hnext⟩ := hround.reports hc.last_kind hfuel
    obtain ⟨extra₂, hfinal, hsublist⟩ := ih hmoves.next (by omega)
    refine ⟨extra₁ ++ round.fault?.toList ++ extra₂, ?_, ?_⟩
    · rw [hfinal, hnext]
      simp only [List.append_assoc]
    · rw [faultsAt_cons, List.map_append]
      refine .append (List.Sublist.trans ?_ (List.sublist_append_right extra₁ _)) hsublist
      cases round.fault? <;> exact .refl _

end Rounds

/-- More fuel and more rounds do not change what is read. -/
theorem declarations_eq_reading {n : NodeId} {rounds : Nat}
    (hfuel : (Cursor.ofTokens tokens n).rest.length + 4 ≤ fuel)
    (hrounds : (Cursor.ofTokens tokens n).rest.length < rounds) :
    declarations fuel rounds (Cursor.ofTokens tokens n) = reading tokens n := by
  let p : Spot := here (Cursor.ofTokens tokens n)
  have hstart : p.cursor (Cursor.ofTokens tokens n) = Cursor.ofTokens tokens n := by
    simp [p, here, Spot.cursor, Cursor.ofTokens]
  obtain ⟨hend, hlast, hread⟩ := reading_cursor (p := p)
    (else_not_next_here (Cursor.Among.ofTokens tokens n)) hfuel (.inl ⟨rfl, rfl⟩)
  obtain ⟨left, -, hread⟩ := hread rounds hrounds
  have hfinal : p.cursor (reading tokens n).2 = (reading tokens n).2 := by
    simp [p, here, Spot.cursor, ← hlast]
  rw [hstart, hfinal, declarations_nil _ _ hend, List.append_nil, show p.shift = .zero from rfl,
    Stmt.allMoved_zero] at hread
  exact hread

/-! ## Progress -/

/-- **Reading tokens makes progress,** whatever they are.

A cursor among the tokens has not passed their first end marker.  From there an expression, a
statement and a declaration come to something, the cursor does not go back, and if they do well a
token is passed.

Reading comes to an end, with any fuel and any number of rounds that are more than there are tokens,
and to the same.  Each of its rounds passes a token, also one that gives up a declaration.  The
tokens at which declarations are given up come one behind the other, each is the token of its fault,
and these faults are reported in this order. -/
theorem reading_progress (tokens : List Token) (n : NodeId) :
    (∀ c, c.Among tokens → (∀ t ∈ tokens.take (c.position tokens), t.kind ≠ .eof) ∧
      c.peek = tokens[c.position tokens]?.getD Cursor.implicitEnd ∧
      ∀ fuel, tokens.length + 4 ≤ fuel → Comes tokens c (expression fuel c) ∧
        Comes tokens c (statement (blockOf (declaration fuel) fuel) fuel c) ∧
        Comes tokens c (declaration fuel c)) ∧
    ∀ fuel rounds, tokens.length + 4 ≤ fuel → tokens.length < rounds →
      declarations fuel rounds (Cursor.ofTokens tokens n) = reading tokens n ∧
      ∃ trail, Rounds fuel (Cursor.ofTokens tokens n) trail (reading tokens n).2 ∧
        (reading tokens n).1 = trail.filterMap Round.statement? ∧
        (reading tokens n).2.rest = [] ∧ (∀ round ∈ trail, round.Moves tokens) ∧
        ((faultsAt tokens trail).map Prod.fst).Pairwise (· < ·) ∧
        (∀ i fault, (i, fault) ∈ faultsAt tokens trail →
          fault.token = tokens[i]?.getD Cursor.implicitEnd) ∧
        ((faultsAt tokens trail).map Prod.snd).Sublist (faults tokens n) := by
  have hshort : ∀ {c : Cursor}, c.Among tokens → c.rest.length ≤ tokens.length := fun hc =>
    hc.rest.length_le.trans (List.takeWhile_sublist _).length_le
  refine ⟨fun c hc => ⟨Cursor.kind_ne_eof_of_passed tokens c, hc.peek_eq, fun fuel hfuel => ?_⟩,
    fun fuel rounds hfuel hrounds => ?_⟩
  · have hle := hshort hc
    exact ⟨comes_expression hc (by omega), comes_statement hc (by omega),
      comes_declaration hc (by omega)⟩
  · have hc := Cursor.Among.ofTokens tokens n
    have hle := hshort hc
    have hread : declarations fuel rounds (Cursor.ofTokens tokens n) = reading tokens n :=
      declarations_eq_reading (by omega) (by omega)
    have hfuel : (Cursor.ofTokens tokens n).rest.length + 3 < fuel := by omega
    obtain ⟨trail, htrail, hstatements⟩ := exists_rounds rounds _ hc (by omega) hfuel
    rw [hread] at htrail hstatements
    have hmoves := htrail.moves hc (by omega)
    obtain ⟨extra, hreports, hsublist⟩ := htrail.sublist_reports hc (by omega)
    refine ⟨hread, trail, htrail, hstatements, htrail.rest_eq_nil,
      fun round hround => (hmoves round hround).1, htrail.pairwise_lt hc (by omega), ?_, ?_⟩
    · intro i fault hmem
      obtain ⟨round, hround, hfault, rfl⟩ := mem_faultsAt.mp hmem
      exact (hmoves round hround).1.token fault hfault
    · rw [faults_eq, hreports]
      exact hsublist

end Lox.Program
