import Lox.Proofs.Grammar.Completeness.Expr
import Lox.Proofs.Grammar.Soundness.Stmt

/-!
# Derived statements are read

From the tokens of a derivation, each rule for statements builds the tree of the derivation.  An
open statement is read to its end only if no `else` follows; behind every other one nothing more is
looked for.
-/

namespace Lox.Grammar

open Syntax Syntax.Rule

variable {n n' : NodeId} {ts rest : List Token} {fuel : Nat}

/-! ## Parts of statements -/

theorem builds_expression {e : Expr} (h : (Phrase.expression e).Derives n ts n')
    (hnext : EndsExpression (nextKind .eof rest)) (hfuel : ts.length + 1 < fuel) :
    Builds (Rule.expression fuel) e n ts n' rest :=
  h.completes fuel rest hfuel hnext

theorem builds_expressionUnless {stop : Token.Kind} {close : Token} {e : Option Expr}
    (h : DerivesOptional e n ts n') (hclose : close.kind = stop)
    (hstop : startsExpression stop = false) (hends : EndsExpression stop)
    (hfuel : ts.length + 1 < fuel) :
    Builds (expressionUnless stop fuel) e n ts n' (close :: rest) := by
  cases h with
  | absent =>
    refine builds_peek_kind fun token htoken => ?_
    rw [if_pos (htoken.trans hclose)]
    exact builds_pure _ _ _
  | present h =>
    have hvalue : Builds (Rule.expression fuel) _ n ts n' (close :: rest) :=
      builds_expression h (by rw [← hclose] at hends; exact hends) hfuel
    obtain ⟨t, ts', rfl, ht⟩ := h.starts
    refine builds_peek ?_
    rw [if_neg]
    · exact hvalue.map _
    · rintro rfl
      rw [hstop] at ht
      cases ht

theorem builds_variableDeclaration {s : Stmt} (h : DerivesVariable s n ts n')
    (hfuel : ts.length < fuel) : Builds (variableDeclaration fuel) s n ts n' rest := by
  cases h with
  | plain hname hclose =>
    refine builds_expectName hname (builds_accept_none ?_ (builds_expect hclose (builds_pure _ _ _)))
    simp [nextKind, hclose]
  | @initialized name equals close value ts _ _ hname hequals hvalue hclose =>
    simp only [List.length_cons, List.length_append] at hfuel
    refine builds_expectName hname (builds_accept hequals ?_)
    have hvalue : Builds (Rule.expression fuel) value n ts n' ([close] ++ rest) :=
      builds_expression hvalue (endsExpression_of (.inr (.inr hclose))) (by omega)
    exact hvalue.step (builds_expect hclose (builds_pure _ _ _))

theorem builds_terminated {missing : Cause} {e : Expr} {close : Token}
    (h : (Phrase.expression e).Derives n ts n') (hclose : close.kind = .symbol .semicolon)
    (hfuel : ts.length + 1 < fuel) :
    Builds (terminated fuel missing) e n (ts ++ [close]) n' rest := by
  have hvalue : Builds (Rule.expression fuel) e n ts n' ([close] ++ rest) :=
    builds_expression h (endsExpression_of (.inr (.inr hclose))) hfuel
  exact hvalue.step (builds_expect hclose (builds_pure _ _ _))

theorem builds_expressionStatement {e : Expr} {close : Token}
    (h : (Phrase.expression e).Derives n ts n') (hclose : close.kind = .symbol .semicolon)
    (hfuel : ts.length + 1 < fuel) :
    Builds (expressionStatement fuel) (.expr e) n (ts ++ [close]) n' rest :=
  (builds_terminated h hclose hfuel).map Stmt.expr

theorem builds_forInitializer {s : Option Stmt} (h : DerivesInitializer s n ts n')
    (hfuel : ts.length < fuel) : Builds (forInitializer fuel) s n ts n' rest := by
  cases h with
  | absent hclose =>
    refine builds_peek ?_
    simp only [hclose]
    exact builds_advance (builds_pure _ _ _)
  | var hkeyword h =>
    rw [List.length_cons] at hfuel
    refine builds_peek ?_
    simp only [hkeyword]
    exact builds_advance ((builds_variableDeclaration h (by omega)).map _)
  | expression h hclose =>
    rw [List.length_append, List.length_singleton] at hfuel
    obtain ⟨t, ts', rfl, ht⟩ := h.starts
    refine builds_peek ?_
    split
    · next hk => rw [hk] at ht; cases ht
    · next hk => rw [hk] at ht; cases ht
    · exact (builds_expressionStatement h hclose hfuel).map some

/-- A condition in parentheses, and the rest of a row behind it. -/
theorem builds_parenthesized {α : Type} {f : Expr → Rule α} {a : α} {noStart noEnd : Cause}
    {e : Expr} {start close : Token} {ts₁ ts₂ : List Token} {n₁ : NodeId}
    (hstart : start.kind = .symbol .leftParen) (h : (Phrase.expression e).Derives n ts₁ n₁)
    (hclose : close.kind = .symbol .rightParen) (hfuel : ts₁.length + 1 < fuel)
    (hf : Builds (f e) a n₁ ts₂ n' rest) :
    Builds (parenthesized fuel noStart noEnd >>= f) a n (start :: (ts₁ ++ close :: ts₂)) n' rest := by
  have hvalue : Builds (Rule.expression fuel) e n ts₁ n₁ ([close] ++ (ts₂ ++ rest)) :=
    builds_expression h (endsExpression_of (.inl hclose)) hfuel
  have hcondition : Builds (parenthesized fuel noStart noEnd) e n (start :: (ts₁ ++ [close])) n₁
      (ts₂ ++ rest) :=
    builds_expect hstart (hvalue.step (builds_expect hclose (builds_pure _ _ _)))
  rw [List.append_cons]
  exact hcondition.step hf

theorem builds_parameters {params : List Name} (h : DerivesParameters params ts)
    (hnext : nextKind .eof rest = .symbol .rightParen) :
    ∀ (fuel count : Nat), ts.length < fuel → count + params.length ≤ maxItems →
      Builds (parameters fuel count) params n ts n rest := by
  induction h with
  | one hname =>
    intro fuel count hfuel hmax
    obtain ⟨fuel, rfl⟩ : ∃ k, fuel = k + 1 := ⟨fuel - 1, by omega⟩
    refine builds_limit hmax (builds_expectName hname ?_)
    exact builds_accept_none (by rw [List.nil_append, hnext]; simp) (builds_pure _ _ _)
  | more hname hcomma _ ih =>
    intro fuel count hfuel hmax
    obtain ⟨fuel, rfl⟩ : ∃ k, fuel = k + 1 := ⟨fuel - 1, by omega⟩
    simp only [List.length_cons] at hfuel hmax
    refine builds_limit (by simp only [maxItems, maxArguments] at *; omega) ?_
    refine builds_expectName hname (builds_accept hcomma ?_)
    exact (ih fuel (count + 1) (by omega) (by omega)).map _

theorem builds_formals {params : List Name} {close : Token} (h : DerivesFormals params ts)
    (hclose : close.kind = .symbol .rightParen) (hfuel : ts.length < fuel) :
    Builds (listUnless (.symbol .rightParen) (parameters fuel 0)) params n ts n (close :: rest) := by
  cases h with
  | none => exact builds_listUnless_nil hclose
  | some h hmax =>
    have hnext : nextKind .eof (close :: rest) = .symbol .rightParen := hclose
    refine builds_listUnless ?_ (builds_parameters h hnext fuel 0 hfuel (by omega))
    cases h with
    | one hname => simp [nextKind, hname]
    | more hname => simp [nextKind, hname]

theorem builds_superclass {parent : Option Reference} {start : Token}
    (h : DerivesSuperclass parent n ts n') (hstart : start.kind = .symbol .leftBrace) :
    Builds superclass parent n ts n' (start :: rest) := by
  cases h with
  | absent => exact builds_accept_none (by simp [nextKind, hstart]) (builds_pure _ _ _)
  | present hless hname =>
    exact builds_accept hless (builds_expectName hname (builds_reference (builds_pure _ _ _)))

/-! ## First tokens of statements -/

/-- Whether a statement may begin with a token of this kind. -/
def startsStatement : Token.Kind → Bool
  | .keyword .for => true
  | .keyword .if => true
  | .keyword .print => true
  | .keyword .return => true
  | .keyword .while => true
  | .symbol .leftBrace => true
  | kind => startsExpression kind

/-- Whether a declaration may begin with a token of this kind. -/
def startsDeclaration : Token.Kind → Bool
  | .keyword .cls => true
  | .keyword .fun => true
  | .keyword .var => true
  | kind => startsStatement kind

theorem startsStatement_of_startsExpression {kind : Token.Kind} (h : startsExpression kind) :
    startsStatement kind := by
  unfold startsStatement
  split
  case h_7 => exact h
  all_goals rfl

theorem startsDeclaration_of_startsStatement {kind : Token.Kind} (h : startsStatement kind) :
    startsDeclaration kind := by
  unfold startsDeclaration
  split
  case h_4 => exact h
  all_goals rfl

theorem starts_statement {s : Stmt} {isOpen : Bool}
    (h : (Sentence.statement s isOpen).Derives n ts n') :
    ∃ t ts', ts = t :: ts' ∧ startsStatement t.kind := by
  cases h with
  | expr h =>
    obtain ⟨t, ts', rfl, ht⟩ := h.starts
    exact ⟨t, _, rfl, startsStatement_of_startsExpression ht⟩
  | forLoop hkeyword => exact ⟨_, _, rfl, by rw [hkeyword]; rfl⟩
  | ifThen hkeyword => exact ⟨_, _, rfl, by rw [hkeyword]; rfl⟩
  | ifElse hkeyword => exact ⟨_, _, rfl, by rw [hkeyword]; rfl⟩
  | print hkeyword => exact ⟨_, _, rfl, by rw [hkeyword]; rfl⟩
  | ret hkeyword => exact ⟨_, _, rfl, by rw [hkeyword]; rfl⟩
  | whileDo hkeyword => exact ⟨_, _, rfl, by rw [hkeyword]; rfl⟩
  | block hstart => exact ⟨_, _, rfl, by rw [hstart]; rfl⟩

theorem starts_declaration {s : Stmt} (h : (Sentence.declaration s).Derives n ts n') :
    ∃ t ts', ts = t :: ts' ∧ startsDeclaration t.kind := by
  cases h with
  | classDecl hkeyword => exact ⟨_, _, rfl, by rw [hkeyword]; rfl⟩
  | function hkeyword => exact ⟨_, _, rfl, by rw [hkeyword]; rfl⟩
  | var hkeyword => exact ⟨_, _, rfl, by rw [hkeyword]; rfl⟩
  | statement h =>
    obtain ⟨t, ts', rfl, ht⟩ := starts_statement h
    exact ⟨t, ts', rfl, startsDeclaration_of_startsStatement ht⟩

/-- What ends a list of declarations or begins one more is no `else`. -/
theorem nextKind_declarations {body : List Stmt} (h : (Sentence.declarations body).Derives n ts n')
    (hnext : nextKind .eof rest ≠ .keyword .else) :
    nextKind .eof (ts ++ rest) ≠ .keyword .else := by
  cases h with
  | declarationsEnd => exact hnext
  | declarationsMore h _ =>
    obtain ⟨t, ts', rfl, ht⟩ := starts_declaration h
    intro hk
    rw [show t.kind = .keyword .else from hk] at ht
    cases ht

/-! ## Lists up to a closing brace -/

theorem builds_untilBrace_nil {α : Type} {item : Rule α}
    (hnext : nextKind .eof rest = .symbol .rightBrace) :
    Builds (untilBrace item (fuel + 1)) [] n [] n rest := by
  refine builds_peek_kind fun token htoken => ?_
  rw [if_pos (.inl (htoken.trans hnext))]
  exact builds_pure _ _ _

theorem builds_untilBrace_cons {α : Type} {item : Rule α} {a : α} {as : List α} {t : Token}
    {ts₁ ts₂ : List Token} {n₁ : NodeId} (ht : t.kind ≠ .symbol .rightBrace ∧ t.kind ≠ .eof)
    (hfirst : Builds item a n (t :: ts₁) n₁ (ts₂ ++ rest))
    (hmore : Builds (untilBrace item fuel) as n₁ ts₂ n' rest) :
    Builds (untilBrace item (fuel + 1)) (a :: as) n (t :: ts₁ ++ ts₂) n' rest := by
  refine builds_peek ?_
  rw [if_neg (by simpa using ht)]
  exact hfirst.step (hmore.map _)

/-! ## Statements and declarations -/

/-- The rule for a block, as the rule for a declaration makes it. -/
def blockRule (fuel : Nat) : Rule (List Stmt) := blockOf (Rule.declaration fuel) fuel

/-- What the rule of a sentence builds behind its derivation. -/
def CompletesSentence : Sentence → NodeId → List Token → NodeId → Prop
  | .declarations body, n, ts, n' => ∀ fuel bound rest, ts.length + 3 < fuel → ts.length < bound →
      nextKind .eof rest = .symbol .rightBrace →
      Builds (untilBrace (Rule.declaration fuel) bound) body n ts n' rest
  | .declaration s, n, ts, n' => ∀ fuel rest, ts.length + 3 < fuel →
      nextKind .eof rest ≠ .keyword .else → Builds (Rule.declaration fuel) s n ts n' rest
  | .statement s isOpen, n, ts, n' => ∀ fuel bound rest, ts.length + 2 < fuel →
      ts.length + 2 < bound → (isOpen = true → nextKind .eof rest ≠ .keyword .else) →
      Builds (Rule.statement (blockRule fuel) bound) s n ts n' rest
  | .body body, n, ts, n' => ∀ fuel rest, ts.length + 2 < fuel →
      Builds (blockRule fuel) body n ts n' rest
  | .subroutine f, n, ts, n' => ∀ kind fuel bound rest, ts.length + 2 < fuel → ts.length < bound →
      Builds (subroutine (blockRule fuel) kind bound) f n ts n' rest
  | .subroutines fs, n, ts, n' => ∀ fuel bound bound' rest, ts.length + 2 < fuel →
      ts.length < bound → ts.length < bound' → nextKind .eof rest = .symbol .rightBrace →
      Builds (untilBrace (subroutine (blockRule fuel) .method bound) bound') fs n ts n' rest

theorem builds_declaration_statement {s : Stmt} {t : Token} (ht : startsStatement t.kind)
    (h : Builds (Rule.statement (blockRule fuel) fuel) s n (t :: ts) n' rest) :
    Builds (Rule.declaration (fuel + 1)) s n (t :: ts) n' rest := by
  refine builds_peek ?_
  split
  · next hk => rw [hk] at ht; cases ht
  · next hk => rw [hk] at ht; cases ht
  · next hk => rw [hk] at ht; cases ht
  · exact h

theorem builds_statement_expression {block : Rule (List Stmt)} {s : Stmt} {t : Token}
    (ht : startsExpression t.kind) (h : Builds (expressionStatement fuel) s n (t :: ts) n' rest) :
    Builds (Rule.statement block (fuel + 1)) s n (t :: ts) n' rest := by
  refine builds_peek ?_
  split
  case h_7 => exact h
  all_goals next hk => rw [hk] at ht; cases ht

/-- **Derived statements are read**, as far as the rule of each sentence goes. -/
theorem Sentence.Derives.completes {sentence : Sentence} (h : sentence.Derives n ts n') :
    CompletesSentence sentence n ts n' := by
  induction h with
  | declarationsEnd =>
    intro fuel bound rest _ hbound hnext
    obtain ⟨bound, rfl⟩ : ∃ k, bound = k + 1 := ⟨bound - 1, by omega⟩
    exact builds_untilBrace_nil hnext
  | declarationsMore h hmore ih ihmore =>
    intro fuel bound rest hfuel hbound hnext
    obtain ⟨bound, rfl⟩ : ∃ k, bound = k + 1 := ⟨bound - 1, by omega⟩
    have hend := nextKind_declarations hmore (show nextKind .eof rest ≠ .keyword .else by simp [hnext])
    obtain ⟨t, ts', rfl, ht⟩ := starts_declaration h
    simp only [List.length_append, List.length_cons] at hfuel hbound
    refine builds_untilBrace_cons ⟨?_, ?_⟩ (ih fuel _ (by simp; omega) hend)
      (ihmore fuel bound rest (by omega) (by omega) hnext)
    · intro hk; rw [hk] at ht; cases ht
    · intro hk; rw [hk] at ht; cases ht
  | @classDecl keyword name start close parent methods ts₁ ts₂ n n₁ n' hkeyword hname hparent hstart
      _ hclose ih =>
    intro fuel rest hfuel _
    obtain ⟨fuel, rfl⟩ : ∃ k, fuel = k + 1 := ⟨fuel - 1, by omega⟩
    simp only [List.length_cons, List.length_append, List.length_nil] at hfuel
    refine builds_peek ?_
    simp only [hkeyword]
    refine builds_advance (builds_expectName hname ?_)
    refine (builds_superclass hparent hstart).step (builds_expect hstart ?_)
    have hmethods := ih fuel fuel fuel ([close] ++ rest) (by omega) (by omega) (by omega) hclose
    exact hmethods.step (builds_expect hclose (builds_pure _ _ _))
  | @function keyword f ts n n' hkeyword _ ih =>
    intro fuel rest hfuel _
    obtain ⟨fuel, rfl⟩ : ∃ k, fuel = k + 1 := ⟨fuel - 1, by omega⟩
    rw [List.length_cons] at hfuel
    refine builds_peek ?_
    simp only [hkeyword]
    exact builds_advance ((ih .function fuel fuel rest (by omega) (by omega)).map _)
  | var hkeyword h =>
    intro fuel rest hfuel _
    obtain ⟨fuel, rfl⟩ : ∃ k, fuel = k + 1 := ⟨fuel - 1, by omega⟩
    rw [List.length_cons] at hfuel
    refine builds_peek ?_
    simp only [hkeyword]
    exact builds_advance (builds_variableDeclaration h (by omega))
  | statement h ih =>
    intro fuel rest hfuel hnext
    obtain ⟨fuel, rfl⟩ : ∃ k, fuel = k + 1 := ⟨fuel - 1, by omega⟩
    obtain ⟨t, ts', rfl, ht⟩ := starts_statement h
    exact builds_declaration_statement ht
      (ih fuel fuel rest (by omega) (by omega) fun _ => hnext)
  | expr h hclose =>
    intro fuel bound rest _ hbound _
    obtain ⟨bound, rfl⟩ : ∃ k, bound = k + 1 := ⟨bound - 1, by omega⟩
    rw [List.length_append, List.length_singleton] at hbound
    obtain ⟨t, ts', rfl, ht⟩ := h.starts
    exact builds_statement_expression ht (builds_expressionStatement h hclose (by omega))
  | @forLoop keyword start middle close initializer condition increment body isOpen ts₁ ts₂ ts₃ ts₄
      n n₁ n₂ n₃ n' hkeyword hstart hinitializer hcondition hmiddle hincrement hclose _ ih =>
    intro fuel bound rest hfuel hbound hnext
    obtain ⟨bound, rfl⟩ : ∃ k, bound = k + 1 := ⟨bound - 1, by omega⟩
    simp only [List.length_cons, List.length_append] at hfuel hbound
    refine builds_peek ?_
    simp only [hkeyword]
    refine builds_advance (builds_expect hstart ?_)
    refine (builds_forInitializer hinitializer (by omega)).step ?_
    refine (builds_expressionUnless hcondition hmiddle rfl (endsExpression_of (.inr (.inr rfl)))
      (by omega)).step (builds_expect hmiddle ?_)
    refine (builds_expressionUnless hincrement hclose rfl (endsExpression_of (.inl rfl))
      (by omega)).step (builds_expect hclose ?_)
    exact (ih fuel bound rest (by omega) (by omega) hnext).map _
  | @ifThen keyword start close condition thenBranch isOpen ts₁ ts₂ n n₁ n' hkeyword hstart hcondition
      hclose _ ih =>
    intro fuel bound rest hfuel hbound hnext
    obtain ⟨bound, rfl⟩ : ∃ k, bound = k + 1 := ⟨bound - 1, by omega⟩
    simp only [List.length_cons, List.length_append] at hfuel hbound
    refine builds_peek ?_
    simp only [hkeyword]
    refine builds_advance (builds_parenthesized hstart hcondition hclose (by omega) ?_)
    refine (ih fuel bound rest (by omega) (by omega) fun _ => hnext rfl).last ?_
    exact builds_accept_none (hnext rfl) (builds_pure _ _ _)
  | @ifElse keyword start close other condition thenBranch elseBranch isOpen ts₁ ts₂ ts₃ n n₁ n₂ n'
      hkeyword hstart hcondition hclose _ hother _ ihthen ihelse =>
    intro fuel bound rest hfuel hbound hnext
    obtain ⟨bound, rfl⟩ : ∃ k, bound = k + 1 := ⟨bound - 1, by omega⟩
    simp only [List.length_cons, List.length_append] at hfuel hbound
    refine builds_peek ?_
    simp only [hkeyword]
    refine builds_advance (builds_parenthesized hstart hcondition hclose (by omega) ?_)
    refine (ihthen fuel bound _ (by omega) (by omega) nofun).step (builds_accept hother ?_)
    exact (ihelse fuel bound rest (by omega) (by omega) hnext).map _
  | print hkeyword h hclose =>
    intro fuel bound rest _ hbound _
    obtain ⟨bound, rfl⟩ : ∃ k, bound = k + 1 := ⟨bound - 1, by omega⟩
    simp only [List.length_cons, List.length_append, List.length_nil] at hbound
    refine builds_peek ?_
    simp only [hkeyword]
    exact builds_advance ((builds_terminated h hclose (by omega)).map _)
  | @ret keyword close value ts n n' hkeyword h hclose =>
    intro fuel bound rest _ hbound _
    obtain ⟨bound, rfl⟩ : ∃ k, bound = k + 1 := ⟨bound - 1, by omega⟩
    simp only [List.length_cons, List.length_append, List.length_nil] at hbound
    refine builds_peek ?_
    simp only [hkeyword]
    refine builds_advance ?_
    exact (builds_expressionUnless h hclose rfl (endsExpression_of (.inr (.inr rfl)))
      (by omega)).step (builds_expect hclose (builds_pure _ _ _))
  | @whileDo keyword start close condition body isOpen ts₁ ts₂ n n₁ n' hkeyword hstart hcondition
      hclose _ ih =>
    intro fuel bound rest hfuel hbound hnext
    obtain ⟨bound, rfl⟩ : ∃ k, bound = k + 1 := ⟨bound - 1, by omega⟩
    simp only [List.length_cons, List.length_append] at hfuel hbound
    refine builds_peek ?_
    simp only [hkeyword]
    refine builds_advance (builds_parenthesized hstart hcondition hclose (by omega) ?_)
    exact (ih fuel bound rest (by omega) (by omega) hnext).map _
  | block hstart _ ih =>
    intro fuel bound rest hfuel hbound _
    obtain ⟨bound, rfl⟩ : ∃ k, bound = k + 1 := ⟨bound - 1, by omega⟩
    rw [List.length_cons] at hfuel
    refine builds_peek ?_
    simp only [hstart]
    exact builds_advance ((ih fuel rest (by omega)).map _)
  | @body close body ts n n' _ hclose ih =>
    intro fuel rest hfuel
    rw [List.length_append, List.length_singleton] at hfuel
    exact (ih fuel fuel ([close] ++ rest) (by omega) (by omega) hclose).step
      (builds_expect hclose (builds_pure _ _ _))
  | @subroutine name start close brace params body ts₁ ts₂ n n' hname hstart hparams hclose hbrace _
      ih =>
    intro kind fuel bound rest hfuel hbound
    simp only [List.length_cons, List.length_append] at hfuel hbound
    refine builds_expectName hname (builds_expect hstart ?_)
    refine (builds_formals hparams hclose (by omega)).step ?_
    refine builds_expect hclose (builds_expect hbrace ?_)
    exact (ih fuel rest (by omega)).map _
  | subroutinesEnd =>
    intro fuel bound bound' rest _ _ hbound' hnext
    obtain ⟨bound', rfl⟩ : ∃ k, bound' = k + 1 := ⟨bound' - 1, by omega⟩
    exact builds_untilBrace_nil hnext
  | @subroutinesMore f fs ts₁ ts₂ n n₁ n' h _ ih ihmore =>
    intro fuel bound bound' rest hfuel hbound hbound' hnext
    obtain ⟨bound', rfl⟩ : ∃ k, bound' = k + 1 := ⟨bound' - 1, by omega⟩
    cases h with
    | subroutine hname =>
      simp only [List.length_append, List.length_cons] at hfuel hbound hbound'
      refine builds_untilBrace_cons (by simp [hname]) (ih .method fuel bound _ ?_ ?_)
        (ihmore fuel bound bound' rest (by omega) (by omega) (by omega) hnext)
      · simp only [List.length_cons, List.length_append]; omega
      · simp only [List.length_cons, List.length_append]; omega

end Lox.Grammar
