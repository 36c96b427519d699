import Lox.Proofs.Grammar.Reading
import Lox.Proofs.Joining.Moved

/-!
# Rules at another place

A `Spot` puts a cursor elsewhere: its identities come later, earlier reports stand before its own,
and more tokens follow its last one, up to another end marker.  A rule that does not come to the end
of its tokens cannot tell the difference.  `Carries` says this of a rule `x` and the rule `y` that
is run elsewhere: as long as `x` stops or ends before a token that is left, `y` does there what `x`
does here.  The two may differ in the identities of what was read before and in their fuel, so that
a run with enough fuel is a run with any more.

A rule that comes to the end of its tokens looks at the end marker, and elsewhere at another token.
It still `Closes` if it then ends well here and elsewhere in the same way, as all rules do that end
with a token of their own.  And it `Ends` something if it never ends well without any token.  A row
of rules ends something if its last rule does (`Carries.ends`), whatever was looked at before.
-/

namespace Lox.Syntax

/-- Another place for a cursor: what comes before its identities and reports, and the tokens behind
its own with their end marker. -/
structure Spot where
  ids : Nat
  earlier : List Fault
  more : List Token
  last : Token

namespace Spot

/-- How much later identities are at a place. -/
def shift (p : Spot) : Shift := ⟨p.ids, 0⟩

/-- A cursor at a place. -/
def cursor (p : Spot) (c : Cursor) : Cursor :=
  ⟨c.rest ++ p.more, p.last, p.ids + c.nextId, p.earlier ++ c.reports⟩

/-- Whether the next token of a cursor is the same at a place, since one is left or nothing else
follows there. -/
def Inside (p : Spot) (c : Cursor) : Prop :=
  c.rest ≠ [] ∨ p.more = [] ∧ p.last = c.last

variable {p : Spot} {c : Cursor}

theorem Inside.peek_eq (h : p.Inside c) : (p.cursor c).peek = c.peek := by
  rcases h with h | ⟨hmore, hlast⟩
  · cases hr : c.rest with
    | nil => exact absurd hr h
    | cons t ts => simp [cursor, Cursor.peek, hr]
  · simp [cursor, Cursor.peek, hmore, hlast]

theorem advance_eq (h : p.Inside c) : (p.cursor c).advance = p.cursor c.advance := by
  rcases h with h | ⟨hmore, -⟩
  · cases hr : c.rest with
    | nil => exact absurd hr h
    | cons t ts => simp [cursor, Cursor.advance, hr]
  · simp [cursor, Cursor.advance, hmore]

theorem report_eq (fault : Fault) : (p.cursor c).report fault = p.cursor (c.report fault) := by
  simp [cursor, Cursor.report]

end Spot

namespace Rule

variable {α β : Type}

/-- The cursor that a rule leaves behind, however it ends. -/
def behind (x : Rule α) (c : Cursor) : Cursor :=
  match x c with
  | .ok _ c' => c'
  | .error _ c' => c'

/-- What a rule comes to, at another place. -/
def placed (p : Spot) (move : α → α) : EStateM.Result Stop Cursor α → EStateM.Result Stop Cursor α
  | .ok a c => .ok (move a) (p.cursor c)
  | .error stop c => .error stop (p.cursor c)

/-- Whether a rule had enough fuel and did not come to the end of its tokens, or to one that is the
same at a place. -/
def Stays (p : Spot) : EStateM.Result Stop Cursor α → Prop
  | .ok _ c => p.Inside c
  | .error (.fault _) c => p.Inside c
  | .error .outOfFuel _ => False

/-- **Whether a rule carries over to a place,** where `y` is run for it and `move` says what becomes
of its result.  Neither the end of the tokens is taken back nor the end marker, and a rule stops at
the next token. -/
structure Carries (p : Spot) (move : α → α) (x y : Rule α) : Prop where
  rest : ∀ c, c.rest = [] → (x.behind c).rest = []
  last : ∀ c, (x.behind c).last = c.last
  stops : ∀ c fault c', x c = .error (.fault fault) c' → fault.token = c'.peek
  carries : ∀ c, Stays p (x c) → y (p.cursor c) = placed p move (x c)

/-- **Whether a rule closes:** if it ends well, it does so at the place too, even at the end of its
tokens. -/
structure Closes (p : Spot) (move : α → α) (x y : Rule α) : Prop extends Carries p move x y where
  closes : ∀ c a c', c.last.kind = .eof → x c = .ok a c' →
    y (p.cursor c) = .ok (move a) (p.cursor c')

/-- **Whether a rule ends something:** it closes, and needs a token for it. -/
structure Ends (p : Spot) (move : α → α) (x y : Rule α) : Prop extends Closes p move x y where
  needs : ∀ c a c', c.last.kind = .eof → x c = .ok a c' → c.rest ≠ []

variable {p : Spot} {move : α → α} {moveTo : β → β} {x y : Rule α} {f g : α → Rule β}

/-! ## Rows of rules -/

namespace Carries

theorem inside (h : Carries p move x y) {c : Cursor} (hc : p.Inside (x.behind c)) : p.Inside c := by
  rcases hc with hc | ⟨hmore, hlast⟩
  · exact .inl fun hrest => hc (h.rest c hrest)
  · exact .inr ⟨hmore, hlast.trans (h.last c)⟩

theorem inside_of_stays (h : Carries p move x y) {c : Cursor} (hc : Stays p (x c)) :
    p.Inside c := by
  refine h.inside ?_
  unfold Rule.behind
  rcases hx : x c with ⟨a, c'⟩ | ⟨_ | _, c'⟩ <;> rw [hx] at hc
  · exact hc
  · exact hc
  · exact hc.elim

theorem last_of_ok (h : Carries p move x y) {c c' : Cursor} {a : α} (hx : x c = .ok a c') :
    c'.last = c.last := by
  have hlast := h.last c
  unfold Rule.behind at hlast
  rwa [hx] at hlast

theorem rest_of_ok (h : Carries p move x y) {c c' : Cursor} {a : α} (hx : x c = .ok a c')
    (hc : c'.rest ≠ []) : c.rest ≠ [] := by
  intro hrest
  have hrest := h.rest c hrest
  unfold Rule.behind at hrest
  rw [hx] at hrest
  exact hc hrest

theorem pure (a : α) : Carries p move (Pure.pure a) (Pure.pure (move a)) where
  rest _ h := h
  last _ := rfl
  stops _ _ _ h := by cases h
  carries _ _ := rfl

theorem outOfFuel : Carries p move (Rule.outOfFuel : Rule α) y where
  rest _ h := h
  last _ := rfl
  stops _ _ _ h := by cases h
  carries _ h := h.elim

/-- **Rules in a row** carry over one after another. -/
theorem bind (hx : Carries p move x y) (hf : ∀ a, Carries p moveTo (f a) (g (move a))) :
    Carries p moveTo (x >>= f) (y >>= g) where
  rest c hc := by
    have hrest := hx.rest c hc
    unfold Rule.behind at hrest ⊢
    rcases hxc : x c with ⟨a, c₁⟩ | ⟨e, c₁⟩ <;> rw [hxc] at hrest
    · rw [Steps.bind_of_ok hxc]
      exact (hf a).rest c₁ hrest
    · rw [Steps.bind_of_error hxc]
      exact hrest
  last c := by
    have hlast := hx.last c
    unfold Rule.behind at hlast ⊢
    rcases hxc : x c with ⟨a, c₁⟩ | ⟨e, c₁⟩ <;> rw [hxc] at hlast
    · rw [Steps.bind_of_ok hxc]
      exact ((hf a).last c₁).trans hlast
    · rw [Steps.bind_of_error hxc]
      exact hlast
  stops c fault c' h := by
    rcases hxc : x c with ⟨a, c₁⟩ | ⟨e, c₁⟩
    · rw [Steps.bind_of_ok hxc] at h
      exact (hf a).stops c₁ fault c' h
    · rw [Steps.bind_of_error hxc] at h
      cases h
      exact hx.stops c fault c' hxc
  carries c h := by
    rcases hxc : x c with ⟨a, c₁⟩ | ⟨e, c₁⟩
    · rw [Steps.bind_of_ok hxc] at h ⊢
      have hy := hx.carries c (by rw [hxc]; exact (hf a).inside_of_stays h)
      rw [hxc] at hy
      rw [Steps.bind_of_ok hy]
      exact (hf a).carries c₁ h
    · rw [Steps.bind_of_error hxc] at h ⊢
      cases e with
      | fault fault =>
        have hy := hx.carries c (by rw [hxc]; exact h)
        rw [hxc] at hy
        rw [Steps.bind_of_error hy]
        rfl
      | outOfFuel => exact h.elim

/-- **A row ends something if its last rule does.** -/
theorem ends (hx : Carries p move x y) (hf : ∀ a, Ends p moveTo (f a) (g (move a))) :
    Ends p moveTo (x >>= f) (y >>= g) where
  toCarries := hx.bind fun a => (hf a).toCarries
  closes c b c' hc h := by
    obtain ⟨a, c₁, hxc, hfc⟩ := Steps.bind_eq_ok.mp h
    have hc₁ : c₁.last.kind = .eof := by rw [hx.last_of_ok hxc, hc]
    have hy := hx.carries c (by rw [hxc]; exact .inl ((hf a).needs c₁ b c' hc₁ hfc))
    rw [hxc] at hy
    rw [Steps.bind_of_ok hy]
    exact (hf a).closes c₁ b c' hc₁ hfc
  needs c b c' hc h := by
    obtain ⟨a, c₁, hxc, hfc⟩ := Steps.bind_eq_ok.mp h
    have hc₁ : c₁.last.kind = .eof := by rw [hx.last_of_ok hxc, hc]
    exact hx.rest_of_ok hxc ((hf a).needs c₁ b c' hc₁ hfc)

end Carries

theorem Ends.outOfFuel : Ends p move (Rule.outOfFuel : Rule α) y where
  toCarries := .outOfFuel
  closes _ _ _ _ h := by cases h
  needs _ _ _ _ h := by cases h

theorem Closes.pure (a : α) : Closes p move (Pure.pure a) (Pure.pure (move a)) where
  toCarries := .pure a
  closes _ _ _ _ h := by
    cases h
    rfl

theorem Closes.bind (hx : Closes p move x y) (hf : ∀ a, Closes p moveTo (f a) (g (move a))) :
    Closes p moveTo (x >>= f) (y >>= g) where
  toCarries := hx.toCarries.bind fun a => (hf a).toCarries
  closes c b c' hc h := by
    obtain ⟨a, c₁, hxc, hfc⟩ := Steps.bind_eq_ok.mp h
    rw [Steps.bind_of_ok (hx.closes c a c₁ hc hxc)]
    exact (hf a).closes c₁ b c' (by rw [hx.last_of_ok hxc, hc]) hfc

/-- Behind what ends something it is enough to close. -/
theorem Ends.bind (hx : Ends p move x y) (hf : ∀ a, Closes p moveTo (f a) (g (move a))) :
    Ends p moveTo (x >>= f) (y >>= g) where
  toCloses := hx.toCloses.bind hf
  needs c _ _ hc h := by
    obtain ⟨a, c₁, hxc, -⟩ := Steps.bind_eq_ok.mp h
    exact hx.needs c a c₁ hc hxc

theorem Ends.map {h k : α → β} (hx : Ends p move x y) (hmove : ∀ a, moveTo (h a) = k (move a)) :
    Ends p moveTo (x >>= fun a => Pure.pure (h a)) (y >>= fun a => Pure.pure (k a)) :=
  hx.bind fun a => by rw [← hmove a]; exact .pure _

/-! ## Single steps -/

theorem carries_peek : Carries p id peek peek where
  rest _ h := h
  last _ := rfl
  stops _ _ _ h := by cases h
  carries c h := by
    show EStateM.Result.ok _ _ = EStateM.Result.ok _ _
    rw [Spot.Inside.peek_eq h]
    rfl

theorem carries_advance : Carries p id advance advance where
  rest c h := by
    show c.rest.tail = []
    rw [h]
    rfl
  last _ := rfl
  stops _ _ _ h := by cases h
  carries c h := by
    have hc : p.Inside c := by
      rcases h with h | h
      · refine .inl fun hrest => h ?_
        show c.rest.tail = []
        rw [hrest]
        rfl
      · exact .inr h
    show EStateM.Result.ok _ _ = EStateM.Result.ok _ _
    rw [Spot.advance_eq hc]

/-- Whether a rule ends something where `token` is the next one. -/
def EndsAt (p : Spot) (token : Token) (move : α → α) (x y : Rule α) : Prop :=
  ∀ c a c', c.last.kind = .eof → c.peek = token → x c = .ok a c' →
    c.rest ≠ [] ∧ y (p.cursor c) = .ok (move a) (p.cursor c')

theorem Ends.at {token : Token} (h : Ends p move x y) : EndsAt p token move x y :=
  fun c a c' hc _ hx => ⟨h.needs c a c' hc hx, h.closes c a c' hc hx⟩

theorem EndsAt.advance {token : Token} {x y : Rule α} (hk : token.kind ≠ .eof)
    (h : Closes p move x y) :
    EndsAt p token move (advance >>= fun _ => x) (Rule.advance >>= fun _ => y) := by
  rintro c a c' hc rfl hx
  have hrest : c.rest ≠ [] := by
    rw [Cursor.rest_eq_cons hc hk]
    exact List.cons_ne_nil _ _
  have hpassed : Rule.advance (p.cursor c) = .ok () (p.cursor c.advance) :=
    congrArg (EStateM.Result.ok ()) (Spot.advance_eq (.inl hrest))
  rw [Steps.bind_of_ok hpassed]
  exact ⟨hrest, h.closes c.advance a c' hc hx⟩

theorem ends_peek {f g : Token → Rule α} (hcarries : ∀ token, Carries p move (f token) (g token))
    (h : ∀ token, EndsAt p token move (f token) (g token)) :
    Ends p move (peek >>= f) (peek >>= g) where
  toCarries := carries_peek.bind hcarries
  closes c a c' hc hx := by
    obtain ⟨hrest, hy⟩ := h c.peek c a c' hc rfl hx
    have hpeek : peek (p.cursor c) = .ok c.peek (p.cursor c) :=
      congrArg (EStateM.Result.ok · (p.cursor c)) (Spot.Inside.peek_eq (.inl hrest))
    rw [Steps.bind_of_ok hpeek]
    exact hy
  needs c a c' hc hx := (h c.peek c a c' hc rfl hx).1

theorem carries_fail (cause : Cause) : Carries p move (fail cause) (fail cause) where
  rest _ h := h
  last _ := rfl
  stops c fault c' h := by
    cases h
    rfl
  carries c h := by
    show EStateM.Result.error (Stop.fault ⟨(p.cursor c).peek, cause⟩) _ = EStateM.Result.error _ _
    rw [Spot.Inside.peek_eq h]

theorem carries_report (token : Token) (cause : Cause) :
    Carries p id (report token cause) (report token cause) where
  rest _ h := h
  last _ := rfl
  stops _ _ _ h := by cases h
  carries c _ := by
    show EStateM.Result.ok _ ((p.cursor c).report ⟨token, cause⟩) = _
    rw [Spot.report_eq]
    rfl

theorem carries_reference (name : Name) :
    Carries p (Reference.moved p.shift) (reference name) (reference name) where
  rest _ h := h
  last _ := rfl
  stops _ _ _ h := by cases h
  carries _ _ := rfl

theorem Carries.ite {x' y' : Rule α} {q : Prop} [Decidable q] (h : Carries p move x y)
    (h' : Carries p move x' y') : Carries p move (if q then x else x') (if q then y else y') := by
  split
  · exact h
  · exact h'

theorem carries_accept? (kind : Token.Kind) : Carries p id (accept? kind) (accept? kind) :=
  carries_peek.bind fun token => .ite (carries_advance.bind fun _ => .pure (some token)) (.pure none)

/-- **An expected token ends something,** as the end marker is never expected. -/
theorem ends_expect {kind : Token.Kind} (cause : Cause) (hk : kind ≠ .eof) :
    Ends p id (expect kind cause) (expect kind cause) where
  toCarries := by
    refine (carries_accept? kind).bind fun found => ?_
    cases found with
    | none => exact carries_fail cause
    | some token => exact .pure token
  closes c token c' hc h := by
    by_cases hpeek : c.peek.kind = kind
    · have hinside : p.Inside c := .inl (by
        rw [Cursor.rest_eq_cons hc (hpeek ▸ hk)]
        exact List.cons_ne_nil _ _)
      rw [expect_of_kind hpeek] at h
      cases h
      rw [expect_of_kind ((congrArg Token.kind hinside.peek_eq).trans hpeek), hinside.peek_eq,
        Spot.advance_eq hinside]
      rfl
    · rw [expect_of_kind_ne hpeek] at h
      cases h
  needs c token c' hc h := by
    by_cases hpeek : c.peek.kind = kind
    · rw [Cursor.rest_eq_cons hc (hpeek ▸ hk)]
      exact List.cons_ne_nil _ _
    · rw [expect_of_kind_ne hpeek] at h
      cases h

theorem ends_expectName (cause : Cause) :
    Ends p id (expectName cause) (expectName cause) :=
  (ends_expect cause (by simp)).map fun _ => rfl

theorem carries_limit (count : Nat) (cause : Cause) :
    Carries p id (limit count cause) (limit count cause) := by
  unfold limit
  exact .ite (carries_peek.bind fun token => carries_report token cause) (.pure ())

theorem carries_listUnless {stop : Token.Kind} {move : List α → List α}
    {items items' : Rule (List α)} (hnil : move [] = []) (h : Carries p move items items') :
    Carries p move (listUnless stop items) (listUnless stop items') := by
  refine carries_peek.bind fun token => .ite ?_ h
  have hpure : Carries p move (pure []) (pure (move [])) := .pure []
  rwa [hnil] at hpure

end Rule

end Lox.Syntax
