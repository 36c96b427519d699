import Lox.Proofs.Grammar.Reading

/-!
# What rules build

`Builds` says that a rule, run before certain tokens, builds something from them without a report
and stops behind them.  Other than `Reads` it is about one list of tokens and names what follows it,
since a rule looks at the token behind its own to know that it is done.  A row of rules builds what
its steps build one after another (`Builds.step`).
-/

namespace Lox.Syntax.Rule

variable {α β : Type} {n n₁ n' : NodeId} {ts₁ ts₂ rest : List Token}

/-- **What a rule builds** from `ts` where `rest` follows, between two identities. -/
def Builds (r : Rule α) (a : α) (n : NodeId) (ts : List Token) (n' : NodeId) (rest : List Token) :
    Prop :=
  ∀ (last : Token) (reports : List Fault), last.kind = .eof →
    r ⟨ts ++ rest, last, n, reports⟩ = .ok a ⟨rest, last, n', reports⟩

theorem kind_peek {last : Token} {reports : List Fault} (hlast : last.kind = .eof) :
    (Cursor.mk rest last n reports).peek.kind = nextKind .eof rest := by
  cases rest with
  | nil => exact hlast
  | cons t ts => rfl

/-- **Rules in a row** build one after another. -/
theorem Builds.step {r : Rule α} {f : α → Rule β} {a : α} {b : β}
    (hr : Builds r a n ts₁ n₁ (ts₂ ++ rest)) (hf : Builds (f a) b n₁ ts₂ n' rest) :
    Builds (r >>= f) b n (ts₁ ++ ts₂) n' rest := by
  intro last reports hlast
  rw [List.append_assoc, Steps.bind_of_ok (hr last reports hlast)]
  exact hf last reports hlast

theorem Builds.last {r : Rule α} {f : α → Rule β} {a : α} {b : β}
    (hr : Builds r a n ts₁ n₁ rest) (hf : Builds (f a) b n₁ [] n' rest) :
    Builds (r >>= f) b n ts₁ n' rest := by
  intro last reports hlast
  rw [Steps.bind_of_ok (hr last reports hlast)]
  exact hf last reports hlast

theorem Builds.map {r : Rule α} {a : α} (g : α → β) (h : Builds r a n ts₁ n' rest) :
    Builds (r >>= fun a => pure (g a)) (g a) n ts₁ n' rest := by
  intro last reports hlast
  rw [Steps.bind_of_ok (h last reports hlast)]
  rfl

theorem builds_pure (a : α) (n : NodeId) (rest : List Token) : Builds (pure a) a n [] n rest :=
  fun _ _ _ => rfl

theorem builds_peek {f : Token → Rule α} {a : α} {t : Token} {ts : List Token}
    (h : Builds (f t) a n (t :: ts) n' rest) : Builds (peek >>= f) a n (t :: ts) n' rest :=
  h

theorem builds_peek_kind {f : Token → Rule α} {a : α}
    (h : ∀ token : Token, token.kind = nextKind .eof (ts₁ ++ rest) →
      Builds (f token) a n ts₁ n' rest) :
    Builds (peek >>= f) a n ts₁ n' rest :=
  fun last reports hlast => h _ (kind_peek hlast) last reports hlast

theorem builds_advance {f : Rule α} {a : α} {t : Token} {ts : List Token}
    (h : Builds f a n ts n' rest) : Builds (advance >>= fun _ => f) a n (t :: ts) n' rest :=
  h

theorem builds_accept {f : Option Token → Rule α} {a : α} {t : Token} {ts : List Token}
    {kind : Token.Kind} (hk : t.kind = kind) (h : Builds (f (some t)) a n ts n' rest) :
    Builds (accept? kind >>= f) a n (t :: ts) n' rest := by
  have ht : Builds (accept? kind) (some t) n [t] n (ts ++ rest) := by
    refine builds_peek ?_
    rw [if_pos hk]
    exact builds_advance (builds_pure _ _ _)
  exact ht.step h

theorem builds_accept_none {f : Option Token → Rule α} {a : α} {ts : List Token}
    {kind : Token.Kind} (hk : nextKind .eof (ts ++ rest) ≠ kind)
    (h : Builds (f none) a n ts n' rest) : Builds (accept? kind >>= f) a n ts n' rest := by
  have ht : Builds (accept? kind) none n [] n (ts ++ rest) := by
    refine builds_peek_kind fun token htoken => ?_
    rw [if_neg (htoken ▸ hk)]
    exact builds_pure _ _ _
  exact ht.step h

theorem builds_expect {f : Token → Rule α} {a : α} {t : Token} {ts : List Token}
    {kind : Token.Kind} {cause : Cause} (hk : t.kind = kind) (h : Builds (f t) a n ts n' rest) :
    Builds (expect kind cause >>= f) a n (t :: ts) n' rest := by
  have ht : Builds (expect kind cause) t n [t] n (ts ++ rest) := fun _ _ _ => expect_of_kind hk
  exact ht.step h

theorem builds_expectName {f : Name → Rule α} {a : α} {t : Token} {ts : List Token}
    {cause : Cause} (hk : t.kind = .identifier)
    (h : Builds (f ⟨t.lexeme, t.line⟩) a n ts n' rest) :
    Builds (expectName cause >>= f) a n (t :: ts) n' rest := by
  have ht : Builds (expectName cause) ⟨t.lexeme, t.line⟩ n [t] n (ts ++ rest) :=
    builds_expect hk (builds_pure _ _ _)
  exact ht.step h

theorem builds_reference {f : Reference → Rule α} {a : α} {name : Name}
    (h : Builds (f ⟨n, name⟩) a (n + 1) ts₁ n' rest) :
    Builds (reference name >>= f) a n ts₁ n' rest :=
  h

theorem builds_limit {f : Unit → Rule α} {a : α} {count : Nat} {cause : Cause}
    (hmax : count < maxArguments) (h : Builds (f ()) a n ts₁ n' rest) :
    Builds (limit count cause >>= f) a n ts₁ n' rest := by
  have ht : Builds (limit count cause) () n [] n (ts₁ ++ rest) := by
    unfold limit
    rw [if_neg (by omega)]
    exact builds_pure _ _ _
  exact ht.step h

theorem builds_listUnless_nil {stop : Token.Kind} {items : Rule (List α)}
    (h : nextKind .eof rest = stop) : Builds (listUnless stop items) [] n [] n rest := by
  refine builds_peek_kind fun token htoken => ?_
  rw [if_pos (htoken.trans h)]
  exact builds_pure _ _ _

theorem builds_listUnless {stop : Token.Kind} {items : Rule (List α)} {as : List α}
    (h : nextKind .eof (ts₁ ++ rest) ≠ stop) (hitems : Builds items as n ts₁ n' rest) :
    Builds (listUnless stop items) as n ts₁ n' rest := by
  refine builds_peek_kind fun token htoken => ?_
  rw [if_neg (htoken ▸ h)]
  exact hitems

end Lox.Syntax.Rule
