import Lox.Syntax.Cursor
import Lox.Proofs.Steps

/-!
# What rules read

A rule that is run at a cursor passes some tokens and may report faults (`Cursor.Passes`).  `Reads`
says of a rule what it does on every cursor with at most `bound` tokens: it never runs out of fuel,
it passes at least `least` tokens if it comes to a result, and a result that is reached without any
report is one that the tokens passed stand for.  A meaning of tokens is a `Reading`: of a result and
the tokens between two identities and before a token of some kind.

A rule of the grammar is mostly a row of rules, and `Reads.step` takes off the first of them.  What
is asked of the others then is that their tokens mean the right thing behind the tokens of the first,
and that they need only so many tokens fewer as it passes at least.
-/

namespace Lox.Syntax

/-- The kind of the next token before some tokens, if `next` is the one behind them. -/
def nextKind (next : Token.Kind) : List Token → Token.Kind
  | [] => next
  | t :: _ => t.kind

@[simp]
theorem nextKind_nil (next : Token.Kind) : nextKind next [] = next := rfl

/-- The second cursor is the first one behind these tokens, with these reports more, and no identity
is given out again. -/
structure Cursor.Passes (c : Cursor) (ts : List Token) (extra : List Fault) (c' : Cursor) : Prop where
  rest : c.rest = ts ++ c'.rest
  last : c'.last = c.last
  reports : c'.reports = c.reports ++ extra
  nextId : c.nextId ≤ c'.nextId

namespace Cursor.Passes

variable {c c₁ c₂ : Cursor} {ts₁ ts₂ : List Token} {extra₁ extra₂ : List Fault}

theorem refl (c : Cursor) : c.Passes [] [] c := ⟨rfl, rfl, by simp, Nat.le_refl _⟩

theorem trans (h₁ : c.Passes ts₁ extra₁ c₁) (h₂ : c₁.Passes ts₂ extra₂ c₂) :
    c.Passes (ts₁ ++ ts₂) (extra₁ ++ extra₂) c₂ where
  rest := by rw [h₁.rest, h₂.rest, List.append_assoc]
  last := by rw [h₂.last, h₁.last]
  reports := by rw [h₂.reports, h₁.reports, List.append_assoc]
  nextId := Nat.le_trans h₁.nextId h₂.nextId

theorem length_rest (h : c.Passes ts₁ extra₁ c₁) :
    c.rest.length = ts₁.length + c₁.rest.length := by
  rw [h.rest, List.length_append]

theorem kind_peek (h : c.Passes ts₁ extra₁ c₁) : c.peek.kind = nextKind c₁.peek.kind ts₁ := by
  cases ts₁ with
  | nil => simp [nextKind, Cursor.peek, h.rest, h.last]
  | cons t ts => simp [nextKind, Cursor.peek, h.rest]

end Cursor.Passes

theorem Cursor.peek_of_rest_nil {c : Cursor} (h : c.rest = []) : c.peek = c.last := by
  simp [Cursor.peek, h]

theorem Cursor.rest_eq_cons {c : Cursor} (hlast : c.last.kind = .eof) (h : c.peek.kind ≠ .eof) :
    c.rest = c.peek :: c.advance.rest := by
  cases hr : c.rest with
  | nil => exact absurd (by rw [peek_of_rest_nil hr, hlast]) h
  | cons t ts => simp [Cursor.peek, Cursor.advance, hr]

theorem Cursor.passes_advance {c : Cursor} (hlast : c.last.kind = .eof) (h : c.peek.kind ≠ .eof) :
    c.Passes [c.peek] [] c.advance :=
  ⟨by simpa using rest_eq_cons hlast h, rfl, by simp [Cursor.advance], Nat.le_refl _⟩

namespace Rule

variable {α β : Type} {least bound : Nat}

/-- What tokens mean between two identities and before a token of some kind. -/
abbrev Reading (α : Type) := α → NodeId → List Token → NodeId → Token.Kind → Prop

/-- What comes of a rule at a cursor fits a reading. -/
def Fits (c : Cursor) (least : Nat) (P : Reading α) : EStateM.Result Stop Cursor α → Prop
  | .ok a c' => ∃ ts extra, c.Passes ts extra c' ∧ least ≤ ts.length ∧
      (extra = [] → P a c.nextId ts c'.nextId c'.peek.kind)
  | .error (.fault _) c' => ∃ ts extra, c.Passes ts extra c'
  | .error .outOfFuel _ => False

/-- **What a rule reads**, on every cursor with at most `bound` tokens. -/
def Reads (least bound : Nat) (r : Rule α) (P : Reading α) : Prop :=
  ∀ c : Cursor, c.last.kind = .eof → c.rest.length ≤ bound → Fits c least P (r c)

theorem Fits.mono {c : Cursor} {P Q : Reading α} {r : EStateM.Result Stop Cursor α} {least' : Nat}
    (h : Fits c least P r) (hle : least' ≤ least) (hPQ : ∀ a n ts n' k, P a n ts n' k → Q a n ts n' k) :
    Fits c least' Q r := by
  rcases r with ⟨a, c'⟩ | ⟨_ | _, c'⟩
  · obtain ⟨ts, extra, hp, hl, hP⟩ := h
    exact ⟨ts, extra, hp, Nat.le_trans hle hl, fun he => hPQ _ _ _ _ _ (hP he)⟩
  · exact h
  · exact h

theorem Reads.mono {r : Rule α} {P Q : Reading α} {least' bound' : Nat} (h : Reads least bound r P)
    (hle : least' ≤ least) (hb : bound' ≤ bound) (hPQ : ∀ a n ts n' k, P a n ts n' k → Q a n ts n' k) :
    Reads least' bound' r Q :=
  fun c hc hl => (h c hc (Nat.le_trans hl hb)).mono hle hPQ

/-- With fewer tokens a rule reads the same. -/
theorem Reads.within {r : Rule α} {P : Reading α} {bound' : Nat} (h : Reads least bound r P)
    (hb : bound' ≤ bound) : Reads least bound' r P :=
  h.mono (Nat.le_refl _) hb fun _ _ _ _ _ => id

theorem Reads.of_least {r : Rule α} {P : Reading α} {least' : Nat} (h : Reads least bound r P)
    (hle : least' ≤ least) : Reads least' bound r P :=
  h.mono hle (Nat.le_refl _) fun _ _ _ _ _ => id

theorem Fits.of_error {c c' : Cursor} {P : Reading α} {Q : Reading β} {e : Stop} {least' : Nat}
    (h : Fits c least P (.error e c')) : Fits c least' Q (.error e c') := by
  cases e <;> exact h

/-- What comes behind a cursor fits if it fits behind some tokens that are passed first. -/
theorem Fits.after {c c₁ : Cursor} {ts₁ : List Token} {extra₁ : List Fault} {R : Reading β}
    {r : EStateM.Result Stop Cursor β} {least₁ : Nat} (hp : c.Passes ts₁ extra₁ c₁)
    (hl : least₁ ≤ ts₁.length)
    (h : Fits c₁ (least - least₁) (fun b n₁ ts n' k => n₁ = c₁.nextId →
      c₁.peek.kind = nextKind k ts → extra₁ = [] → R b c.nextId (ts₁ ++ ts) n' k) r) :
    Fits c least R r := by
  rcases r with ⟨b, c'⟩ | ⟨_ | _, c'⟩
  · obtain ⟨ts, extra, hp', hl', hR⟩ := h
    refine ⟨ts₁ ++ ts, extra₁ ++ extra, hp.trans hp', by rw [List.length_append]; omega, ?_⟩
    intro he
    obtain ⟨h₁, h₂⟩ := List.append_eq_nil_iff.mp he
    exact hR h₂ rfl hp'.kind_peek h₁
  · obtain ⟨ts, extra, hp'⟩ := h
    exact ⟨_, _, hp.trans hp'⟩
  · exact h

/-- **Rules in a row:** what is left to show when the first one is known. -/
theorem Reads.step {r : Rule α} {f : α → Rule β} {P : Reading α} {R : Reading β} {least₁ : Nat}
    (hr : Reads least₁ bound r P)
    (hf : ∀ a, least₁ ≤ bound → Reads (least - least₁) (bound - least₁) (f a) fun b n₁ ts₂ n' k =>
      ∀ n ts₁, P a n ts₁ n₁ (nextKind k ts₂) → R b n (ts₁ ++ ts₂) n' k) :
    Reads least bound (r >>= f) R := by
  intro c hc hb
  have h := hr c hc hb
  rcases hrc : r c with ⟨a, c₁⟩ | ⟨e, c₁⟩ <;> rw [hrc] at h
  · rw [Steps.bind_of_ok hrc]
    obtain ⟨ts, extra, hp, hl, hP⟩ := h
    have hlen := hp.length_rest
    have hf' := hf a (by omega) c₁ (by rw [hp.last, hc]) (by omega)
    refine .after hp hl (hf'.mono (Nat.le_refl _) ?_)
    rintro b _ ts' n' k hR rfl hk he
    exact hR _ _ (hk ▸ hP he)
  · rw [Steps.bind_of_error hrc]
    exact h.of_error

/-! ## Single steps -/

theorem reads_pure {a : α} {R : Reading α} (h : ∀ n k, R a n [] n k) : Reads 0 bound (pure a) R :=
  fun c _ _ => ⟨[], [], .refl c, Nat.le_refl _, fun _ => h _ _⟩

theorem reads_fail (cause : Cause) (P : Reading α) : Reads least bound (fail cause) P :=
  fun c _ _ => ⟨[], [], .refl c⟩

/-- What a rule reads where `token` is the next one. -/
def ReadsAt (token : Token) (least bound : Nat) (r : Rule α) (P : Reading α) : Prop :=
  ∀ c : Cursor, c.last.kind = .eof → c.rest.length ≤ bound → c.peek = token → Fits c least P (r c)

theorem reads_peek {f : Token → Rule α} {P : Reading α}
    (h : ∀ token, ReadsAt token least bound (f token) P) : Reads least bound (peek >>= f) P :=
  fun c hc hb => h c.peek c hc hb rfl

theorem Reads.at {r : Rule α} {P : Reading α} {token : Token} (h : Reads least bound r P) :
    ReadsAt token least bound r P :=
  fun c hc hb _ => h c hc hb

theorem ReadsAt.advance {token : Token} {f : Rule α} {P : Reading α} (hk : token.kind ≠ .eof)
    (hf : 0 < bound → Reads (least - 1) (bound - 1) f fun a n ts n' k => P a n (token :: ts) n' k) :
    ReadsAt token least bound (advance >>= fun _ => f) P := by
  rintro c hc hb rfl
  have hp := Cursor.passes_advance hc hk
  have hlen := hp.length_rest
  simp only [List.length_singleton] at hlen
  refine .after hp (Nat.le_refl 1) ((hf (by omega) c.advance hc (by omega)).mono (Nat.le_refl _) ?_)
  rintro a _ ts n' k hP rfl - -
  exact hP

theorem reads_accept? {kind : Token.Kind} (hk : kind ≠ .eof) :
    Reads 0 bound (accept? kind) fun found n ts n' k => n' = n ∧
      match found with
      | some t => ts = [t] ∧ t.kind = kind
      | none => ts = [] ∧ k ≠ kind := by
  refine reads_peek fun token => ?_
  split
  · next h => exact .advance (h ▸ hk) fun _ => reads_pure fun _ _ => ⟨rfl, rfl, h⟩
  · next h =>
    rintro c - - rfl
    exact ⟨[], [], .refl c, Nat.le_refl _, fun _ => ⟨rfl, rfl, h⟩⟩

theorem accept?_of_kind {kind : Token.Kind} {c : Cursor} (h : c.peek.kind = kind) :
    accept? kind c = .ok (some c.peek) c.advance := by
  change (if c.peek.kind = kind then _ else _ : Rule (Option Token)) c = _
  rw [if_pos h]
  rfl

theorem accept?_of_kind_ne {kind : Token.Kind} {c : Cursor} (h : c.peek.kind ≠ kind) :
    accept? kind c = .ok none c := by
  change (if c.peek.kind = kind then _ else _ : Rule (Option Token)) c = _
  rw [if_neg h]
  rfl

theorem expect_of_kind {kind : Token.Kind} {cause : Cause} {c : Cursor} (h : c.peek.kind = kind) :
    expect kind cause c = .ok c.peek c.advance :=
  Steps.bind_of_ok (accept?_of_kind h)

theorem expect_of_kind_ne {kind : Token.Kind} {cause : Cause} {c : Cursor}
    (h : c.peek.kind ≠ kind) : expect kind cause c = .error (.fault ⟨c.peek, cause⟩) c :=
  Steps.bind_of_ok (accept?_of_kind_ne h)

theorem reads_expect {kind : Token.Kind} (cause : Cause) (hk : kind ≠ .eof) :
    Reads 1 bound (expect kind cause) fun t n ts n' _ => n' = n ∧ ts = [t] ∧ t.kind = kind := by
  intro c hc _
  by_cases h : c.peek.kind = kind
  · rw [expect_of_kind h]
    exact ⟨[c.peek], [], Cursor.passes_advance hc (h ▸ hk), Nat.le_refl _, fun _ => ⟨rfl, rfl, h⟩⟩
  · rw [expect_of_kind_ne h]
    exact ⟨[], [], .refl c⟩

theorem reads_expectName (cause : Cause) :
    Reads 1 bound (expectName cause) fun name n ts n' _ =>
      n' = n ∧ ∃ t, ts = [t] ∧ t.kind = .identifier ∧ name = ⟨t.lexeme, t.line⟩ := by
  refine (reads_expect cause (by simp)).step fun t _ => reads_pure fun _ _ => ?_
  rintro n _ ⟨rfl, rfl, hk⟩
  exact ⟨rfl, t, rfl, hk, rfl⟩

theorem reads_reference (name : Name) :
    Reads 0 bound (reference name) fun r n ts n' _ => r = ⟨n, name⟩ ∧ ts = [] ∧ n' = n + 1 :=
  fun c _ _ => ⟨[], [], ⟨rfl, rfl, by simp, Nat.le_succ _⟩, Nat.le_refl _, fun _ => ⟨rfl, rfl, rfl⟩⟩

theorem reads_limit (count : Nat) (cause : Cause) :
    Reads 0 bound (limit count cause) fun _ n ts n' _ =>
      count < maxArguments ∧ ts = [] ∧ n' = n := by
  intro c _ _
  unfold limit
  split
  · exact ⟨[], [⟨c.peek, cause⟩], ⟨rfl, rfl, rfl, Nat.le_refl _⟩, Nat.le_refl _, fun h => by simp at h⟩
  · next h => exact ⟨[], [], .refl c, Nat.le_refl _, fun _ => ⟨by omega, rfl, rfl⟩⟩

theorem reads_listUnless {stop : Token.Kind} {items : Rule (List α)} {P : Reading (List α)}
    (h : Reads least bound items P) :
    Reads 0 bound (listUnless stop items) fun l n ts n' k =>
      P l n ts n' k ∨ l = [] ∧ ts = [] ∧ n' = n := by
  refine reads_peek fun token => ?_
  split
  · exact (reads_pure fun _ _ => .inr ⟨rfl, rfl, rfl⟩).at
  · exact (h.mono (Nat.zero_le _) (Nat.le_refl _) fun _ _ _ _ _ => .inl).at

end Rule

end Lox.Syntax
