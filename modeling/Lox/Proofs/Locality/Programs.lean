import Lox.Proofs.Grammar.Program
import Lox.Proofs.Locality.Statements
import Lox.Token.Reader

/-!
# Tokens in two parts

Reading tokens is reading the one part and then the other, faults and recoveries included, if the
first part is over where the second begins (`Program.ofTokens_parts`): no fault shows at its end, no
recovery passes it, and no `else` takes up its last statement again.  Behind a fault this is what a
semicolon at the end is for, where every recovery stops at the latest.

Where reading begins to count identities changes nothing but the identities of the tree
(`Program.reading_moved`).
-/

namespace Lox.Program

open Syntax Syntax.Rule Grammar

variable {p : Spot} {c c₁ : Cursor} {fuel fuel' rounds : Nat}

/-! ## Recovery at another place -/

/-- Whether the last of some tokens, if there is one, is a semicolon. -/
def EndsWithSemicolon (ts : List Token) : Prop :=
  ∀ front t, ts = front ++ [t] → t.kind = .symbol .semicolon

theorem EndsWithSemicolon.behind {front ts : List Token} (h : EndsWithSemicolon (front ++ ts)) :
    EndsWithSemicolon ts := by
  rintro front' t rfl
  exact h (front ++ front') t (List.append_assoc _ _ _).symm

theorem exists_eq_append_boundary : ∀ (before : Token) (ts : List Token),
    ∃ front, ts = front ++ Cursor.boundary before ts
  | _, [] => ⟨[], rfl⟩
  | before, t :: ts => by
    rw [Cursor.boundary]
    split
    · exact ⟨[], rfl⟩
    · obtain ⟨front, hfront⟩ := exists_eq_append_boundary t ts
      exact ⟨t :: front, congrArg (t :: ·) hfront⟩

theorem exists_eq_append_recover (c : Cursor) : ∃ front, c.rest = front ++ c.recover.rest := by
  unfold Cursor.recover
  split
  · next hrest => exact ⟨[], rfl⟩
  · next t ts hrest =>
    obtain ⟨front, hfront⟩ := exists_eq_append_boundary t ts
    exact ⟨t :: front, hrest.trans (congrArg (t :: ·) hfront)⟩

/-- **A boundary is not passed** that the tokens end with. -/
theorem boundary_append {more : List Token} : ∀ {before : Token} {ts : List Token},
    more = [] ∨ EndsWithSemicolon (before :: ts) →
    Cursor.boundary before (ts ++ more) = Cursor.boundary before ts ++ more
  | _, _, .inl hmore => by rw [hmore, List.append_nil, List.append_nil]
  | before, [], .inr h => by
    cases more with
    | nil => rfl
    | cons t more => exact if_pos (.inl (h [] before rfl))
  | before, t :: ts, .inr h => by
    have hbehind : EndsWithSemicolon ([before] ++ t :: ts) := h
    have hothers : more = [] ∨ EndsWithSemicolon (t :: ts) := .inr hbehind.behind
    rw [List.cons_append, Cursor.boundary, Cursor.boundary]
    split
    · rfl
    · exact boundary_append hothers

/-- Recovery is the same at a place behind a semicolon, or before nothing. -/
theorem recover_eq (h : p.more = [] ∨ c.rest ≠ [] ∧ EndsWithSemicolon c.rest) :
    (p.cursor c).recover = p.cursor c.recover := by
  cases hrest : c.rest with
  | nil =>
    have hmore : p.more = [] := h.resolve_right fun h => h.1 hrest
    simp [Cursor.recover, Spot.cursor, hrest, hmore]
  | cons t ts =>
    have hclosed : p.more = [] ∨ EndsWithSemicolon (t :: ts) := h.imp_right fun h => hrest ▸ h.2
    simp [Cursor.recover, Spot.cursor, hrest, boundary_append hclosed]

/-! ## Declarations at another place -/

/-- Whether tokens are over for certain behind a cursor, from where reading comes to these reports:
nothing else follows at the place, or no fault shows at the end and no recovery passes it. -/
def Over (p : Spot) (c : Cursor) (reports : List Fault) : Prop :=
  p.more = [] ∧ p.last = c.last ∨
    (∀ fault ∈ reports, fault.token.kind ≠ .eof) ∧ (reports = [] ∨ EndsWithSemicolon c.rest)

theorem Over.behind {front : List Token} {reports : List Fault} (h : Over p c reports)
    (hrest : c.rest = front ++ c₁.rest) (hlast : c₁.last = c.last) : Over p c₁ reports := by
  rcases h with ⟨hmore, hend⟩ | ⟨hinside, hclosed⟩
  · exact .inl ⟨hmore, hend.trans hlast.symm⟩
  · exact .inr ⟨hinside, hclosed.imp_right fun h => (hrest ▸ h).behind⟩

/-- **A fault shows at a place too,** and recovery from it comes to the same boundary. -/
theorem fault_cursor (helse : nextKind p.last.kind p.more ≠ .keyword .else) (hle : fuel ≤ fuel')
    {fault : Fault} {reports extra : List Fault} {ts : List Token} (hc : c.last.kind = .eof)
    (h : declaration fuel c = .error (.fault fault) c₁) (hpasses : c.Passes ts extra c₁)
    (hmem : fault ∈ reports) (hover : Over p c reports) :
    declaration fuel' (p.cursor c) = .error (.fault fault) (p.cursor c₁) ∧
      ((p.cursor c₁).report fault).recover = p.cursor (c₁.report fault).recover := by
  have hends := ends_declaration (p := p) helse hle
  have hinside : p.Inside c₁ := by
    rcases hover with ⟨hmore, hend⟩ | ⟨hinside, -⟩
    · exact .inr ⟨hmore, hend.trans hpasses.last.symm⟩
    · refine .inl fun hrest => hinside fault hmem ?_
      rw [hends.stops c fault c₁ h, Cursor.peek_of_rest_nil hrest, hpasses.last, hc]
  have hclosed : p.more = [] ∨ c₁.rest ≠ [] ∧ EndsWithSemicolon c₁.rest := by
    rcases hinside with hrest | ⟨hmore, -⟩
    · rcases hover with ⟨hmore, -⟩ | ⟨-, hnone | hclosed⟩
      · exact .inl hmore
      · rw [hnone] at hmem
        cases hmem
      · exact .inr ⟨hrest, (hpasses.rest ▸ hclosed).behind⟩
    · exact .inl hmore
  have hcarries := hends.carries c (by rw [h]; exact hinside)
  rw [h] at hcarries
  refine ⟨hcarries, ?_⟩
  rw [Spot.report_eq]
  exact recover_eq hclosed

/-- **Declarations are read at a place** as they are elsewhere, with any more fuel, and then what
follows there. -/
theorem declarations_cursor (helse : nextKind p.last.kind p.more ≠ .keyword .else)
    (hle : fuel ≤ fuel') : ∀ (rounds : Nat) {c final : Cursor} {body : List Stmt},
    declarations fuel rounds c = (body, final) → c.last.kind = .eof → c.rest.length < rounds →
    c.rest.length + 3 < fuel → Over p c final.reports →
    final.rest = [] ∧ final.last = c.last ∧
      ∀ rounds', c.rest.length + p.more.length < rounds' → ∃ left, p.more.length < left ∧
        declarations fuel' rounds' (p.cursor c) =
          (Stmt.allMoved p.shift body ++ (declarations fuel' left (p.cursor final)).1,
            (declarations fuel' left (p.cursor final)).2)
  | 0, _, _, _, _, _, hrounds, _, _ => absurd hrounds (Nat.not_lt_zero _)
  | rounds + 1, c, final, body, hrun, hc, hrounds, hfuel, hover => by
    by_cases hrest : c.rest = []
    · rw [declarations_nil _ _ hrest] at hrun
      cases hrun
      exact ⟨hrest, rfl, fun rounds' hrounds' => ⟨rounds', by omega, rfl⟩⟩
    have hplace : (p.cursor c).rest ≠ [] := fun h => hrest (List.append_eq_nil_iff.mp h).1
    have hpos : 0 < c.rest.length := List.length_pos_iff.mpr hrest
    have hread := reads_declaration fuel c.rest.length hfuel c hc (Nat.le_refl _)
    rcases hfirst : declaration fuel c with ⟨s, c₁⟩ | ⟨fault | _, c₁⟩ <;> rw [hfirst] at hread
    · obtain ⟨ts, extra, hpasses, hlen, -⟩ := hread
      have hlength := hpasses.length_rest
      have hthere := (ends_declaration helse hle).closes c s c₁ hc hfirst
      rw [declarations_of_ok hrest hfirst] at hrun
      cases hrun
      obtain ⟨hend, hlast, hothers⟩ := declarations_cursor helse hle rounds rfl
        (by rw [hpasses.last, hc]) (by omega) (by omega) (hover.behind hpasses.rest hpasses.last)
      refine ⟨hend, hlast.trans hpasses.last, fun rounds' hrounds' => ?_⟩
      obtain ⟨rounds', rfl⟩ : ∃ n, rounds' = n + 1 := ⟨rounds' - 1, by omega⟩
      obtain ⟨left, hleft, hmore⟩ := hothers rounds' (by omega)
      refine ⟨left, hleft, ?_⟩
      rw [declarations_of_ok hplace hthere, hmore]
      rfl
    · obtain ⟨ts, extra, hpasses⟩ := hread
      have hlength := hpasses.length_rest
      obtain ⟨hshorter, hlast₁, hreports, -⟩ := length_recover (c₁.report fault)
      obtain ⟨front, hfront⟩ := exists_eq_append_recover (c₁.report fault)
      have hshorter : (c₁.report fault).recover.rest.length ≤ c₁.rest.length - 1 := hshorter
      have hlast₁ : (c₁.report fault).recover.last = c.last := hlast₁.trans hpasses.last
      have hbehind : c.rest = (ts ++ front) ++ (c₁.report fault).recover.rest := by
        rw [hpasses.rest, List.append_assoc]
        exact congrArg (ts ++ ·) hfront
      rw [declarations_of_fault hrest hfirst] at hrun
      -- a report is never taken back, so the fault is among those in the end
      have hmem : fault ∈ final.reports := by
        obtain ⟨others, hothers, -⟩ := declarations_sound rounds (c₁.report fault).recover
          (by rw [hlast₁, hc]) (by omega) (show _ < fuel by omega)
        rw [hrun] at hothers
        rw [hothers, hreports]
        simp [Cursor.report]
      obtain ⟨hstop, hrecover⟩ := fault_cursor helse hle hc hfirst hpasses hmem hover
      obtain ⟨hend, hlast, hothers⟩ := declarations_cursor helse hle rounds hrun
        (by rw [hlast₁, hc]) (by omega) (by omega) (hover.behind hbehind hlast₁)
      refine ⟨hend, hlast.trans hlast₁, fun rounds' hrounds' => ?_⟩
      obtain ⟨rounds', rfl⟩ : ∃ n, rounds' = n + 1 := ⟨rounds' - 1, by omega⟩
      obtain ⟨left, hleft, hmore⟩ := hothers rounds' (by omega)
      refine ⟨left, hleft, ?_⟩
      rw [declarations_of_fault hplace hstop, hrecover, hmore]
    · exact hread.elim

/-! ## Lists of tokens -/

/-- What is read of a list of tokens, and the cursor at its end. -/
def reading (tokens : List Token) (n : NodeId) : List Stmt × Cursor :=
  declarations ((Cursor.ofTokens tokens n).rest.length + 4)
    ((Cursor.ofTokens tokens n).rest.length + 1) (Cursor.ofTokens tokens n)

/-- The faults that reading a list of tokens comes to. -/
def faults (tokens : List Token) (n : NodeId) : List Fault :=
  match (ofTokens tokens n).1 with
  | .ok _ => []
  | .error faults => faults

theorem ofTokens_eq (tokens : List Token) (n : NodeId) : ofTokens tokens n =
    (if (reading tokens n).2.reports.isEmpty then .ok (reading tokens n).1
      else .error (reading tokens n).2.reports, (reading tokens n).2.nextId) := rfl

theorem faults_eq (tokens : List Token) (n : NodeId) :
    faults tokens n = (reading tokens n).2.reports := by
  unfold faults
  rw [ofTokens_eq]
  dsimp only
  split
  · next h =>
    split at h
    · next hnone => exact (List.isEmpty_iff.mp hnone).symm
    · cases h
  · next h =>
    split at h <;> cases h
    rfl

theorem ofTokens_of_faults_eq_nil {tokens : List Token} {n : NodeId} (h : faults tokens n = []) :
    ofTokens tokens n = (.ok (reading tokens n).1, (reading tokens n).2.nextId) := by
  rw [faults_eq] at h
  rw [ofTokens_eq, h]
  rfl

/-- Nothing is left behind what is read. -/
theorem reading_cursor {tokens : List Token} {n : NodeId}
    (helse : nextKind p.last.kind p.more ≠ .keyword .else)
    (hle : (Cursor.ofTokens tokens n).rest.length + 4 ≤ fuel')
    (hover : Over p (Cursor.ofTokens tokens n) (reading tokens n).2.reports) :
    (reading tokens n).2.rest = [] ∧ (reading tokens n).2.last = (Cursor.ofTokens tokens n).last ∧
      ∀ rounds', (Cursor.ofTokens tokens n).rest.length + p.more.length < rounds' →
        ∃ left, p.more.length < left ∧
          declarations fuel' rounds' (p.cursor (Cursor.ofTokens tokens n)) =
            (Stmt.allMoved p.shift (reading tokens n).1 ++
                (declarations fuel' left (p.cursor (reading tokens n).2)).1,
              (declarations fuel' left (p.cursor (reading tokens n).2)).2) :=
  declarations_cursor helse hle _ rfl (last_ofTokens tokens n) (Nat.lt_succ_self _)
    (Nat.lt_succ_self (_ + 3)) hover

/-! ## Other identities -/

/-- **Identities do not matter:** with later ones the same faults are found, and the same tree but
for its identities. -/
theorem reading_moved (tokens : List Token) (k n : NodeId) :
    reading tokens (k + n) = (Stmt.allMoved ⟨k, 0⟩ (reading tokens n).1,
      { (reading tokens n).2 with nextId := k + (reading tokens n).2.nextId }) := by
  let p : Spot := ⟨k, [], [], (Cursor.ofTokens tokens n).last⟩
  have helse : nextKind p.last.kind p.more ≠ .keyword .else := by
    show (Cursor.ofTokens tokens n).last.kind ≠ _
    rw [last_ofTokens]
    nofun
  have hstart : p.cursor (Cursor.ofTokens tokens n) = Cursor.ofTokens tokens (k + n) := by
    simp [p, Spot.cursor, Cursor.ofTokens]
  obtain ⟨hend, hlast, hread⟩ := reading_cursor helse (Nat.le_refl _) (.inl ⟨rfl, rfl⟩)
  obtain ⟨left, -, hread⟩ := hread ((Cursor.ofTokens tokens n).rest.length + 1)
    (Nat.lt_succ_self _)
  have hfinal : p.cursor (reading tokens n).2 =
      { (reading tokens n).2 with nextId := k + (reading tokens n).2.nextId } := by
    simp [p, Spot.cursor, hlast]
  have hnone : (p.cursor (reading tokens n).2).rest = [] := by rw [hfinal]; exact hend
  rw [hstart, declarations_nil _ _ hnone, hfinal, List.append_nil] at hread
  exact hread

theorem faults_moved (tokens : List Token) (k n : NodeId) :
    faults tokens (k + n) = faults tokens n := by
  rw [faults_eq, faults_eq, reading_moved]

/-- Whether two programs differ in nothing but the identities of their references, which one of them
begins to count later. -/
def SameUpToIds (S S' : Program) : Prop :=
  ∃ T k k', S = Stmt.allMoved ⟨k, 0⟩ T ∧ S' = Stmt.allMoved ⟨k', 0⟩ T

/-- Reading the same tokens comes to the same program up to identities. -/
theorem sameUpToIds_reading (tokens : List Token) (n n' : NodeId) :
    SameUpToIds (reading tokens n).1 (reading tokens n').1 :=
  ⟨(reading tokens 0).1, n, n', congrArg Prod.fst (reading_moved tokens n 0),
    congrArg Prod.fst (reading_moved tokens n' 0)⟩

/-! ## Two parts -/

theorem ofTokens_append {ts : List Token} {last : Token} (hts : ∀ t ∈ ts, t.kind ≠ .eof)
    (hlast : last.kind = .eof) (n : NodeId) :
    Cursor.ofTokens (ts ++ [last]) n = ⟨ts, last, n, []⟩ := by
  have hall : ∀ t ∈ ts, (t.kind != .eof) = true := fun t ht => bne_iff_ne.mpr (hts t ht)
  unfold Cursor.ofTokens
  rw [List.takeWhile_append_of_pos hall, List.dropWhile_append_of_pos hall]
  simp [hlast]

variable {X B : List Token} {lastX lastB : Token}

/-- The first part is read before the tokens of the second as it is before its own end. -/
theorem declarations_first (fuel rounds : Nat) (hX : ∀ t ∈ X, t.kind ≠ .eof)
    (hlastX : lastX.kind = .eof) (hlastB : lastB.kind = .eof)
    (helse : ∀ t ∈ B.head?, t.kind ≠ .keyword .else) (n : NodeId)
    (hinside : ∀ fault ∈ faults (X ++ [lastX]) n, fault.token.kind ≠ .eof)
    (hclosed : faults (X ++ [lastX]) n = [] ∨ EndsWithSemicolon X)
    (hfuel : X.length + 4 ≤ fuel) (hrounds : X.length + B.length < rounds) :
    ∃ left, B.length < left ∧ declarations fuel rounds ⟨X ++ B, lastB, n, []⟩ =
      ((reading (X ++ [lastX]) n).1 ++ (declarations fuel left ⟨B, lastB,
          (reading (X ++ [lastX]) n).2.nextId, faults (X ++ [lastX]) n⟩).1,
        (declarations fuel left ⟨B, lastB,
          (reading (X ++ [lastX]) n).2.nextId, faults (X ++ [lastX]) n⟩).2) := by
  let p : Spot := ⟨0, [], B, lastB⟩
  have hstart := ofTokens_append hX hlastX n
  have hlength : (Cursor.ofTokens (X ++ [lastX]) n).rest.length = X.length := by rw [hstart]
  have hnext : nextKind p.last.kind p.more ≠ .keyword .else := by
    show nextKind lastB.kind B ≠ _
    cases B with
    | nil =>
      rw [nextKind_nil, hlastB]
      nofun
    | cons t ts => exact helse t rfl
  have hover : Over p (Cursor.ofTokens (X ++ [lastX]) n) (reading (X ++ [lastX]) n).2.reports := by
    rw [hstart, ← faults_eq]
    exact .inr ⟨hinside, hclosed⟩
  have hle : (Cursor.ofTokens (X ++ [lastX]) n).rest.length + 4 ≤ fuel := by omega
  obtain ⟨hend, -, hread⟩ := reading_cursor hnext hle hover
  obtain ⟨left, hleft, hread⟩ := hread rounds (by rw [hlength]; exact hrounds)
  have hbegin : p.cursor (Cursor.ofTokens (X ++ [lastX]) n) = ⟨X ++ B, lastB, n, []⟩ := by
    simp [hstart, p, Spot.cursor]
  have hbehind : p.cursor (reading (X ++ [lastX]) n).2 =
      ⟨B, lastB, (reading (X ++ [lastX]) n).2.nextId, faults (X ++ [lastX]) n⟩ := by
    simp [p, Spot.cursor, hend, faults_eq]
  rw [hbegin, hbehind, show p.shift = .zero from rfl, Stmt.allMoved_zero] at hread
  exact ⟨left, hleft, hread⟩

/-- The second part is read behind the reports of the first as it is without any. -/
theorem declarations_second (fuel rounds : Nat) (hB : ∀ t ∈ B, t.kind ≠ .eof)
    (hlastB : lastB.kind = .eof) (n : NodeId) (earlier : List Fault)
    (hfuel : B.length + 4 ≤ fuel) (hrounds : B.length < rounds) :
    declarations fuel rounds ⟨B, lastB, n, earlier⟩ = ((reading (B ++ [lastB]) n).1,
      ⟨[], lastB, (reading (B ++ [lastB]) n).2.nextId, earlier ++ faults (B ++ [lastB]) n⟩) := by
  let p : Spot := ⟨0, earlier, [], lastB⟩
  have hstart := ofTokens_append hB hlastB n
  have hlength : (Cursor.ofTokens (B ++ [lastB]) n).rest.length = B.length := by rw [hstart]
  have hnext : nextKind p.last.kind p.more ≠ .keyword .else := by
    show lastB.kind ≠ _
    rw [hlastB]
    nofun
  have hover : Over p (Cursor.ofTokens (B ++ [lastB]) n) (reading (B ++ [lastB]) n).2.reports := by
    rw [hstart]
    exact .inl ⟨rfl, rfl⟩
  have hle : (Cursor.ofTokens (B ++ [lastB]) n).rest.length + 4 ≤ fuel := by omega
  obtain ⟨hend, -, hread⟩ := reading_cursor hnext hle hover
  obtain ⟨left, -, hread⟩ := hread rounds (by rw [hlength]; exact hrounds)
  have hbegin : p.cursor (Cursor.ofTokens (B ++ [lastB]) n) = ⟨B, lastB, n, earlier⟩ := by
    simp [hstart, p, Spot.cursor]
  have hbehind : p.cursor (reading (B ++ [lastB]) n).2 =
      ⟨[], lastB, (reading (B ++ [lastB]) n).2.nextId, earlier ++ faults (B ++ [lastB]) n⟩ := by
    simp [p, Spot.cursor, hend, faults_eq]
  have hnone : (p.cursor (reading (B ++ [lastB]) n).2).rest = [] := by rw [hbehind]
  rw [hbegin, declarations_nil _ _ hnone, hbehind, List.append_nil,
    show p.shift = .zero from rfl, Stmt.allMoved_zero] at hread
  exact hread

/-- **Reading two parts** is reading the one and then the other, with identities that go on. -/
theorem reading_append (hX : ∀ t ∈ X, t.kind ≠ .eof) (hB : ∀ t ∈ B, t.kind ≠ .eof)
    (hlastX : lastX.kind = .eof) (hlastB : lastB.kind = .eof)
    (helse : ∀ t ∈ B.head?, t.kind ≠ .keyword .else) (n : NodeId)
    (hinside : ∀ fault ∈ faults (X ++ [lastX]) n, fault.token.kind ≠ .eof)
    (hclosed : faults (X ++ [lastX]) n = [] ∨ EndsWithSemicolon X) :
    ∃ n₁ n₂, reading (X ++ B ++ [lastB]) n =
      ((reading (X ++ [lastX]) n).1 ++ (reading (B ++ [lastB]) n₁).1,
        ⟨[], lastB, n₂, faults (X ++ [lastX]) n ++ faults (B ++ [lastB]) n₁⟩) := by
  have hboth : ∀ t ∈ X ++ B, t.kind ≠ .eof := fun t ht => (List.mem_append.mp ht).elim (hX t) (hB t)
  have hlength : (X ++ B).length = X.length + B.length := List.length_append
  obtain ⟨left, hleft, hfirst⟩ := declarations_first ((X ++ B).length + 4) ((X ++ B).length + 1)
    hX hlastX hlastB helse n hinside hclosed (by omega) (by omega)
  rw [declarations_second _ left hB hlastB _ _ (by omega) hleft] at hfirst
  refine ⟨(reading (X ++ [lastX]) n).2.nextId,
    (reading (B ++ [lastB]) (reading (X ++ [lastX]) n).2.nextId).2.nextId, ?_⟩
  rw [reading, ofTokens_append hboth hlastB n]
  exact hfirst

theorem endsWithSemicolon_of_getLast? {ts : List Token}
    (h : ∃ t ∈ ts.getLast?, t.kind = .symbol .semicolon) : EndsWithSemicolon ts := by
  rintro front t rfl
  obtain ⟨t', ht', hkind⟩ := h
  rw [List.getLast?_concat, Option.mem_some_iff] at ht'
  exact ht' ▸ hkind

/-- **Faults stay where they are.**  Let tokens be in two parts, such that no fault of the first
shows at its end, the first is a program or ends with a semicolon, and the second does not begin
with `else`.  Then the faults of all tokens are those of the first part followed by those of the
second, and if there are none, then the program is that of the first part followed by that of the
second, up to identities. -/
theorem ofTokens_parts (hX : ∀ t ∈ X, t.kind ≠ .eof) (hB : ∀ t ∈ B, t.kind ≠ .eof)
    (hlastX : lastX.kind = .eof) (hlastB : lastB.kind = .eof)
    (helse : ∀ t ∈ B.head?, t.kind ≠ .keyword .else) (n nX nB : NodeId)
    (hinside : ∀ fault ∈ faults (X ++ [lastX]) nX, fault.token.kind ≠ .eof)
    (hclosed : (∃ S n', ofTokens (X ++ [lastX]) nX = (.ok S, n')) ∨
      ∃ t ∈ X.getLast?, t.kind = .symbol .semicolon) :
    faults (X ++ B ++ [lastB]) n = faults (X ++ [lastX]) nX ++ faults (B ++ [lastB]) nB ∧
      (faults (X ++ B ++ [lastB]) n = [] → ∃ S T S' T' n' nX' nB',
        ofTokens (X ++ [lastX]) nX = (.ok S, nX') ∧ ofTokens (B ++ [lastB]) nB = (.ok T, nB') ∧
          ofTokens (X ++ B ++ [lastB]) n = (.ok (S' ++ T'), n') ∧
            SameUpToIds S S' ∧ SameUpToIds T T') := by
  have hsame : ∀ (tokens : List Token) (k k' : NodeId), faults tokens k = faults tokens k' :=
    fun tokens k k' => (faults_moved tokens k 0).trans (faults_moved tokens k' 0).symm
  have hclosed : faults (X ++ [lastX]) n = [] ∨ EndsWithSemicolon X := by
    rcases hclosed with ⟨S, n', hS⟩ | hlast
    · rw [hsame _ n nX]
      unfold faults
      rw [hS]
      exact .inl rfl
    · exact .inr (endsWithSemicolon_of_getLast? hlast)
  obtain ⟨n₁, n₂, hread⟩ := reading_append hX hB hlastX hlastB helse n
    (by rwa [hsame _ n nX]) hclosed
  have hfaults : faults (X ++ B ++ [lastB]) n =
      faults (X ++ [lastX]) nX ++ faults (B ++ [lastB]) nB := by
    rw [faults_eq, hread, hsame _ n nX, hsame _ n₁ nB]
  refine ⟨hfaults, fun hnone => ?_⟩
  obtain ⟨hnoneX, hnoneB⟩ := List.append_eq_nil_iff.mp (hfaults.symm.trans hnone)
  refine ⟨_, _, (reading (X ++ [lastX]) n).1, (reading (B ++ [lastB]) n₁).1, n₂, _, _,
    ofTokens_of_faults_eq_nil hnoneX, ofTokens_of_faults_eq_nil hnoneB, ?_,
    sameUpToIds_reading _ nX n, sameUpToIds_reading _ nB n₁⟩
  rw [ofTokens_of_faults_eq_nil hnone, hread]

/-- A recovery that swallows a statement and one that ends with the first part, before a part with a
report and a fault at its end. -/
theorem ofTokens_parts_recovery :
    let X := sourceTokens (Token.tokens "class A \x7b m(nil) \x7b\x7d \x7d b = ; f(;".toList)
    let B := sourceTokens (Token.tokens "nil = b; print c".toList)
    let last : Token := ⟨.eof, "", 1⟩
    (∀ t ∈ X, t.kind ≠ .eof) ∧ (∀ t ∈ B, t.kind ≠ .eof) ∧ last.kind = .eof ∧
      (∀ t ∈ B.head?, t.kind ≠ .keyword .else) ∧
      (∀ fault ∈ faults (X ++ [last]) 0, fault.token.kind ≠ .eof) ∧
      (∃ t ∈ X.getLast?, t.kind = .symbol .semicolon) ∧
      faults (X ++ B ++ [last]) 0 = faults (X ++ [last]) 0 ++ faults (B ++ [last]) 0 ∧
      (faults (X ++ [last]) 0).map Fault.cause = [.parameterName, .expression] ∧
      (faults (B ++ [last]) 0).map Fault.cause = [.assignmentTarget, .printEnd] := by
  intro X B last
  have hX : ∀ t ∈ X, t.kind ≠ .eof := by decide +kernel
  have hB : ∀ t ∈ B, t.kind ≠ .eof := by decide +kernel
  have helse : ∀ t ∈ B.head?, t.kind ≠ .keyword .else := by decide +kernel
  have hinside : ∀ fault ∈ faults (X ++ [last]) 0, fault.token.kind ≠ .eof := by decide +kernel
  have hclosed : ∃ t ∈ X.getLast?, t.kind = .symbol .semicolon :=
    ⟨⟨.symbol .semicolon, ";", 1⟩, by decide +kernel, rfl⟩
  exact ⟨hX, hB, rfl, helse, hinside, hclosed,
    (ofTokens_parts hX hB rfl rfl helse 0 0 0 hinside (.inr hclosed)).1, by decide +kernel,
    by decide +kernel⟩

end Lox.Program
