import Lox.Proofs.Scoping.Check
import Lox.Proofs.Joining.Derivations
import Lox.Proofs.Joining.Findings
import Lox.Proofs.Joining.Tokens

/-!
# Joined texts are accepted

A text that is accepted in a session of its own is accepted in every session, with later identities
(`Session.Accepted.check`).  If two texts are accepted one behind the other, then the text that joins
them by a newline is accepted too, and its program is that of the first followed by that of the
second, on later lines (`Session.check_append`).
-/

namespace Lox

open Grammar

/-! ## Tokens -/

/-- The line of the first character behind a text and a newline, counted from the text's first. -/
def linesOf (text : List Char) : Nat := text.count '\n' + 1

theorem Token.faults_eq_nil_iff {text : List Char} : Token.faults text = [] ↔
    ∀ line fault, .fault line fault ∉ (Reader.mk text 1 false).items := by
  unfold Token.faults Token.items
  rw [List.filterMap_eq_nil_iff]
  constructor
  · intro h line fault hmem
    cases h _ hmem
  · intro h item hmem
    cases item with
    | token t => rfl
    | fault line fault => exact absurd hmem (h line fault)

theorem Token.Item.token?_moved (shift : Shift) (item : Token.Item) :
    (item.moved shift).token? = item.token?.map (Token.moved shift) := by
  cases item <;> rfl

theorem Token.Item.fault_mem_moved {shift : Shift} {items : List Token.Item} {line : Nat}
    {fault : Token.Fault} (h : Token.Item.fault line fault ∈ items.map (Token.Item.moved shift)) :
    ∃ line', Token.Item.fault line' fault ∈ items := by
  obtain ⟨item, hitem, heq⟩ := List.mem_map.mp h
  cases item with
  | token t => cases heq
  | fault line' fault' =>
    cases heq
    exact ⟨line', hitem⟩

theorem Grammar.sourceTokens_moved (shift : Shift) : ∀ ts : List Token,
    sourceTokens (allMoved shift ts) = allMoved shift (sourceTokens ts)
  | [] => rfl
  | t :: ts => by
    unfold sourceTokens
    rw [allMoved_cons, List.takeWhile_cons, List.takeWhile_cons, Token.moved_kind]
    split
    · exact congrArg (t.moved shift :: ·) (sourceTokens_moved shift ts)
    · rfl

theorem filterMap_token?_moved (shift : Shift) (items : List Token.Item) :
    (items.map (Token.Item.moved shift)).filterMap Token.Item.token? =
      allMoved shift (items.filterMap Token.Item.token?) := by
  simp only [allMoved, List.filterMap_map, List.map_filterMap]
  congr 1
  funext item
  exact Token.Item.token?_moved shift item

/-- **The tokens of joined texts** are those of the one and then those of the other, on later lines;
and there is no fault in them if there is none in either. -/
theorem tokens_append {a : List Char} (b : List Char) (ha : Token.faults a = []) :
    sourceTokens (Token.tokens (a ++ '\n' :: b)) = sourceTokens (Token.tokens a) ++
        allMoved (.down (linesOf a)) (sourceTokens (Token.tokens b)) ∧
      (Token.faults b = [] → Token.faults (a ++ '\n' :: b) = []) := by
  rw [Token.faults_eq_nil_iff] at ha
  obtain ⟨front, last, hfront, hlast, hkinds, hjoined⟩ :=
    Reader.items_append b a 1 fun line => ha line _
  have hmoved : (Reader.mk b (1 + (a.count '\n' + 1)) false).items =
      (Reader.mk b 1 false).items.map (Token.Item.moved (.down (linesOf a))) :=
    Reader.items_moved (.down (linesOf a)) b 1
  rw [hmoved] at hjoined
  have hall : ∀ t ∈ front.filterMap Token.Item.token?, (t.kind != .eof) = true := by
    intro t ht
    obtain ⟨item, hitem, heq⟩ := List.mem_filterMap.mp ht
    cases item with
    | token t' =>
      cases heq
      exact bne_iff_ne.mpr (hkinds t hitem)
    | fault => cases heq
  constructor
  · have htokens : sourceTokens (Token.tokens a) = front.filterMap Token.Item.token? := by
      unfold sourceTokens Token.tokens Token.items
      rw [Reader.ofText, hfront, List.filterMap_append, List.takeWhile_append_of_pos hall]
      simp [Token.Item.token?, hlast]
    rw [htokens, ← sourceTokens_moved]
    unfold sourceTokens Token.tokens Token.items
    rw [Reader.ofText, hjoined, List.filterMap_append, List.takeWhile_append_of_pos hall,
      filterMap_token?_moved]
    rfl
  · intro hb
    rw [Token.faults_eq_nil_iff] at hb ⊢
    intro line fault hmem
    rw [hjoined] at hmem
    rcases List.mem_append.mp hmem with hmem | hmem
    · exact ha line fault (by rw [hfront]; exact List.mem_append_left _ hmem)
    · obtain ⟨line', hmem'⟩ := Token.Item.fault_mem_moved hmem
      exact hb line' fault hmem'

/-- Newlines in front of a text are no text. -/
theorem tokens_newlines (text : List Char) (lines : Nat) :
    sourceTokens (Token.tokens (List.replicate lines '\n' ++ text)) =
        allMoved (.down lines) (sourceTokens (Token.tokens text)) ∧
      (Token.faults text = [] → Token.faults (List.replicate lines '\n' ++ text) = []) := by
  have hitems : ∀ lines line : Nat,
      (Reader.mk (List.replicate lines '\n' ++ text) line false).items =
        (Reader.mk text (line + lines) false).items := by
    intro lines
    induction lines with
    | zero => exact fun line => rfl
    | succ lines ih =>
      intro line
      rw [List.replicate_succ, List.cons_append, Reader.items_newline, ih]
      congr 2
      omega
  have hmoved : (Reader.mk (List.replicate lines '\n' ++ text) 1 false).items =
      (Reader.mk text 1 false).items.map (Token.Item.moved (.down lines)) :=
    (hitems lines 1).trans (Reader.items_moved (.down lines) text 1)
  constructor
  · rw [← sourceTokens_moved]
    unfold Token.tokens Token.items
    rw [Reader.ofText, hmoved, filterMap_token?_moved]
    rfl
  · intro h
    rw [Token.faults_eq_nil_iff] at h ⊢
    intro line fault hmem
    rw [hmoved] at hmem
    obtain ⟨line', hmem'⟩ := Token.Item.fault_mem_moved hmem
    exact h line' fault hmem'

/-! ## Findings -/

theorem Stmt.walkAll_append (around : Surroundings) : ∀ (ss ss' : List Stmt) (scopes : Scopes),
    Stmt.walkAll around scopes (ss ++ ss') =
      ((Stmt.walkAll around (Stmt.walkAll around scopes ss).1 ss').1,
        (Stmt.walkAll around scopes ss).2 ++
          (Stmt.walkAll around (Stmt.walkAll around scopes ss).1 ss').2)
  | [], _, _ => rfl
  | s :: ss, ss', scopes => by
    simp only [List.cons_append, Stmt.walkAll, Stmt.walkAll_append around ss, List.append_assoc]

/-- On the outermost level no declaration opens a scope. -/
theorem Stmt.walkAll_outermost (around : Surroundings) : ∀ {ss : List Stmt} {n n' : Nat},
    Stmt.AllWithin ss n n' → (Stmt.walkAll around [] ss).1 = []
  | [], _, _, _ => rfl
  | s :: ss, _, _, ⟨_, h⟩ => by
    obtain ⟨m, m', hs⟩ : ∃ m m', s.Within m m' := by
      rcases h with ⟨h, -⟩ | ⟨h, -⟩ <;> exact ⟨_, _, h⟩
    obtain ⟨m, m', hss⟩ : ∃ m m', Stmt.AllWithin ss m m' := by
      rcases h with ⟨-, h⟩ | ⟨-, h⟩ <;> exact ⟨_, _, h⟩
    have hfirst : (s.walk around []).1 = [] := by
      rw [Stmt.walk_fst around [] hs]
      cases s.declared? <;> rfl
    simp only [Stmt.walkAll, hfirst, Stmt.walkAll_outermost around hss]

/-- **The findings of a program in two parts** are those of the parts. -/
theorem Program.findings_append {program : Program} {n n' : Nat}
    (h : Stmt.AllWithin program n n') (more : Program) :
    Program.findings (program ++ more) = program.findings ++ more.findings := by
  unfold Program.findings
  rw [Stmt.walkAll_append, Stmt.walkAll_outermost _ h]

/-! ## Texts -/

namespace Session

/-- What is derived from a text without faults, and breaks no rule, is accepted. -/
theorem check_of_derives {text : List Char} {n n' : NodeId} {program : Program}
    (hfaults : Token.faults text = [])
    (hderives : (Sentence.declarations program).Derives n (sourceTokens (Token.tokens text)) n')
    (hviolations : program.violations = []) :
    check text n = (.ok (program, program.distances), n') := by
  unfold check programOf
  rw [ofTokens_of_derives hderives, hfaults]
  simp only [List.isEmpty_nil, if_true, Program.resolve, hviolations, Except.map]

/-- Whether a text is accepted in a session of its own: it passes scanner, parser and resolver. -/
def Accepted (text : List Char) : Prop :=
  (check text 0).1.isOk = true

instance (text : List Char) : Decidable (Accepted text) :=
  inferInstanceAs (Decidable (_ = true))

/-- **A text that is accepted** is accepted in every session. -/
theorem Accepted.check {text : List Char} (h : Accepted text) (n : NodeId) :
    ∃ program distances n', Session.check text n = (.ok (program, distances), n') := by
  unfold Accepted at h
  cases hcheck : Session.check text 0 with
  | mk result n₀ =>
    rw [hcheck] at h
    cases result with
    | error faults => cases h
    | ok accepted =>
      obtain ⟨program, distances⟩ := accepted
      obtain ⟨hread, hfaults, hviolations, -⟩ := check_eq_ok hcheck
      have hderives := (derives_of_ofTokens hread).moved ⟨n, 0⟩
      have hsame : allMoved ⟨n, 0⟩ (sourceTokens (Token.tokens text)) =
          sourceTokens (Token.tokens text) := List.map_id _
      rw [hsame] at hderives
      exact ⟨_, _, _, check_of_derives hfaults hderives (Program.violations_moved _ hviolations)⟩

/-- **Joined texts are accepted** if the one is accepted behind the other; their program is that of
the one and then that of the other, on later lines. -/
theorem check_append {a b : List Char} {n n₁ n₂ : NodeId} {program program' : Program}
    {distances distances' : Distances} (ha : check a n = (.ok (program, distances), n₁))
    (hb : check b n₁ = (.ok (program', distances'), n₂)) :
    check (a ++ '\n' :: b) n =
      (.ok (program ++ Stmt.allMoved (.down (linesOf a)) program', distances ++ distances'), n₂) := by
  have hwithin := within_of_check ha
  obtain ⟨hread, hfaults, hviolations, rfl⟩ := check_eq_ok ha
  obtain ⟨hread', hfaults', hviolations', rfl⟩ := check_eq_ok hb
  obtain ⟨htokens, hjoined⟩ := tokens_append b hfaults
  have hderives' := (derives_of_ofTokens hread').moved (.down (linesOf a))
  rw [show (Shift.down (linesOf a)).ids + n₁ = n₁ from Nat.zero_add n₁,
    show (Shift.down (linesOf a)).ids + n₂ = n₂ from Nat.zero_add n₂] at hderives'
  have hderives := (derives_of_ofTokens hread).append hderives'
  rw [← htokens] at hderives
  have hfindings := Program.findings_append hwithin (Stmt.allMoved (.down (linesOf a)) program')
  have hnone : Program.violations (program ++ Stmt.allMoved (.down (linesOf a)) program') = [] := by
    have hmoved := Program.violations_moved (.down (linesOf a)) hviolations'
    unfold Program.violations at hviolations hmoved ⊢
    rw [hfindings, List.filterMap_append, hviolations, hmoved]
    rfl
  have hdistances : Program.distances (program ++ Stmt.allMoved (.down (linesOf a)) program') =
      program.distances ++ program'.distances := by
    rw [← Program.distances_moved_down program' (linesOf a)]
    unfold Program.distances
    rw [hfindings, List.filterMap_append]
  rw [check_of_derives (hjoined hfaults') hderives hnone, hdistances]

/-- Newlines in front of a text are accepted, and move its program down. -/
theorem check_newlines {text : List Char} {n n' : NodeId} {program : Program}
    {distances : Distances} (h : check text n = (.ok (program, distances), n')) (lines : Nat) :
    check (List.replicate lines '\n' ++ text) n =
      (.ok (Stmt.allMoved (.down lines) program, distances), n') := by
  obtain ⟨hread, hfaults, hviolations, rfl⟩ := check_eq_ok h
  obtain ⟨htokens, hnewlines⟩ := tokens_newlines text lines
  have hderives := (derives_of_ofTokens hread).moved (.down lines)
  rw [show (Shift.down lines).ids + n = n from Nat.zero_add n,
    show (Shift.down lines).ids + n' = n' from Nat.zero_add n', ← htokens] at hderives
  rw [check_of_derives (hnewlines hfaults) hderives (Program.violations_moved _ hviolations),
    Program.distances_moved_down]

end Session

end Lox
