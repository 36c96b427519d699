import Lox.Syntax.Grammar.Stmt
import Lox.Proofs.Grammar.Soundness.Expr

/-!
# Statements that are read are derived

Each rule for statements reads only what the grammar derives.  A statement that ends in an `if`
without `else` is open, and the rule for `if` leaves it so only if no `else` is next; this is why
the reading of a statement looks at the token behind it.
-/

namespace Lox.Grammar

open Syntax Syntax.Rule

variable {bound fuel : Nat}

/-! ## Parts of statements -/

theorem reads_expressionUnless (stop : Token.Kind) (hf : bound + 1 < fuel) :
    Reads 0 bound (expressionUnless stop fuel) fun e n ts n' _ => DerivesOptional e n ts n' := by
  refine reads_peek fun token => ?_
  split
  · exact (reads_pure fun _ _ => .absent).at
  · refine ((reads_expression fuel bound hf).step fun e _ => reads_pure fun _ _ => ?_).at
    exact fun n ts he => .present (by simpa using he)

theorem reads_variableDeclaration (hf : bound + 1 < fuel) :
    Reads 1 bound (variableDeclaration fuel) fun s n ts n' _ => DerivesVariable s n ts n' := by
  refine (reads_expectName _).step fun name _ => ?_
  refine (reads_accept? (by simp)).step fun found _ => ?_
  cases found with
  | none =>
    refine (reads_expect _ (by simp)).step fun close _ => reads_pure fun _ _ => ?_
    rintro _ _ ⟨rfl, rfl, hclose⟩ _ _ ⟨rfl, rfl, -⟩ _ _ ⟨rfl, t, rfl, hname, rfl⟩
    exact .plain hname hclose
  | some equals =>
    refine (reads_expression fuel _ (by omega)).step fun value _ => ?_
    refine (reads_expect _ (by simp)).step fun close _ => reads_pure fun _ _ => ?_
    rintro _ _ ⟨rfl, rfl, hclose⟩ _ ts hvalue _ _ ⟨rfl, rfl, hequals⟩ _ _ ⟨rfl, t, rfl, hname, rfl⟩
    exact .initialized hname hequals hvalue hclose

theorem reads_terminated (missing : Cause) (hf : bound + 1 < fuel) :
    Reads 1 bound (terminated fuel missing) fun e n ts n' _ => ∃ ts₁ close, ts = ts₁ ++ [close] ∧
      (Phrase.expression e).Derives n ts₁ n' ∧ close.kind = .symbol .semicolon := by
  refine (reads_expression fuel bound hf).step fun e _ => ?_
  refine (reads_expect _ (by simp)).step fun close _ => reads_pure fun _ _ => ?_
  rintro _ _ ⟨rfl, rfl, hclose⟩ n ts he
  exact ⟨ts, close, rfl, he, hclose⟩

theorem reads_expressionStatement (hf : bound + 1 < fuel) :
    Reads 1 bound (expressionStatement fuel) fun s n ts n' _ => ∃ e ts₁ close, s = .expr e ∧
      ts = ts₁ ++ [close] ∧ (Phrase.expression e).Derives n ts₁ n' ∧
      close.kind = .symbol .semicolon := by
  refine (reads_terminated _ hf).step fun e _ => reads_pure fun _ _ => ?_
  rintro n _ ⟨ts₁, close, rfl, he, hclose⟩
  exact ⟨e, ts₁, close, rfl, by simp, he, hclose⟩

theorem reads_forInitializer (hf : bound + 1 < fuel) :
    Reads 1 bound (forInitializer fuel) fun s n ts n' _ => DerivesInitializer s n ts n' := by
  refine reads_peek fun token => ?_
  split
  · next hk => exact .advance (by simp [hk]) fun _ => reads_pure fun _ _ => .absent hk
  · next hk =>
    refine .advance (by simp [hk]) fun hpos => ?_
    refine (reads_variableDeclaration (by omega)).step fun s _ => reads_pure fun _ _ => ?_
    exact fun n ts hs => .var hk (by simpa using hs)
  · refine ((reads_expressionStatement hf).step fun s _ => reads_pure fun _ _ => ?_).at
    rintro n _ ⟨e, ts₁, close, rfl, rfl, he, hclose⟩
    simpa using .expression he hclose

theorem reads_parenthesized (noStart noEnd : Cause) (hf : bound < fuel) :
    Reads 1 bound (parenthesized fuel noStart noEnd) fun e n ts n' _ =>
      ∃ start ts₁ close, ts = start :: (ts₁ ++ [close]) ∧ start.kind = .symbol .leftParen ∧
        (Phrase.expression e).Derives n ts₁ n' ∧ close.kind = .symbol .rightParen := by
  refine (reads_expect _ (by simp)).step fun start hpos => ?_
  refine (reads_expression fuel _ (by omega)).step fun e _ => ?_
  refine (reads_expect _ (by simp)).step fun close _ => reads_pure fun _ _ => ?_
  rintro _ _ ⟨rfl, rfl, hclose⟩ n ts he _ _ ⟨rfl, rfl, hstart⟩
  exact ⟨start, ts, close, rfl, hstart, he, hclose⟩

theorem reads_parameters :
    ∀ (fuel count bound : Nat), bound < fuel →
      Reads 1 bound (parameters fuel count) fun params n ts n' _ => n' = n ∧
        DerivesParameters params ts ∧ count + params.length ≤ maxItems
  | 0, _, _, hf => absurd hf (Nat.not_lt_zero _)
  | fuel + 1, count, bound, hf => by
    refine (reads_limit count _).step fun _ _ => ?_
    refine (reads_expectName _).step fun first hpos => ?_
    refine (reads_accept? (by simp)).step fun found _ => ?_
    cases found with
    | none =>
      refine reads_pure fun _ _ => ?_
      rintro n₁ _ ⟨rfl, rfl, -⟩ n ts ⟨rfl, t, rfl, hname, rfl⟩ _ _ ⟨hcount, rfl, rfl⟩
      exact ⟨rfl, .one hname, hcount⟩
    | some comma =>
      refine (reads_parameters fuel (count + 1) _ (by omega)).step fun more _ => ?_
      refine reads_pure fun _ _ => ?_
      rintro n₁ ts₂ ⟨rfl, hmore, hlen⟩ _ _ ⟨rfl, rfl, hcomma⟩ _ _ ⟨rfl, t, rfl, hname, rfl⟩ _ _
        ⟨-, rfl, rfl⟩
      refine ⟨rfl, by simpa using .more hname hcomma hmore, ?_⟩
      rw [List.length_cons]
      omega

theorem reads_superclass :
    Reads 0 bound superclass fun parent n ts n' _ => DerivesSuperclass parent n ts n' := by
  refine (reads_accept? (by simp)).step fun found _ => ?_
  cases found with
  | none =>
    refine reads_pure fun _ _ => ?_
    rintro n _ ⟨rfl, rfl, -⟩
    exact .absent
  | some less =>
    refine (reads_expectName _).step fun name _ => ?_
    refine (reads_reference _).step fun r _ => reads_pure fun _ _ => ?_
    rintro n _ ⟨rfl, rfl, rfl⟩ _ _ ⟨rfl, t, rfl, hname, rfl⟩ _ _ ⟨rfl, rfl, hless⟩
    exact .present hless hname

/-- What an item means, and what a list of items means. -/
theorem reads_untilBrace {α : Type} {item : Rule α} {P : Reading α} {Q : Reading (List α)}
    (hitem : Reads 1 bound item P) (hnil : ∀ n k, Q [] n [] n k)
    (hcons : ∀ {a as n n₁ n' ts₁ ts₂ k₁ k}, P a n ts₁ n₁ k₁ → Q as n₁ ts₂ n' k →
      Q (a :: as) n (ts₁ ++ ts₂) n' k) :
    ∀ (fuel bound' : Nat), bound' ≤ bound → bound' < fuel →
      Reads 0 bound' (untilBrace item fuel) Q
  | 0, _, _, hf => absurd hf (Nat.not_lt_zero _)
  | fuel + 1, bound', hb, hf => by
    refine reads_peek fun token => ?_
    split
    · exact (reads_pure hnil).at
    · refine ((hitem.within hb).step fun first _ => ?_).at
      refine (reads_untilBrace hitem hnil hcons fuel _ (by omega) (by omega)).step fun others _ => ?_
      refine reads_pure fun _ _ => ?_
      intro n₁ ts₂ hothers n ts₁ hfirst
      simpa using hcons hfirst hothers

/-! ## Statements -/

/-- What is read of a statement: before `else` it is not open. -/
def statementReading : Reading Stmt := fun s n ts n' k =>
  ∃ isOpen, (Sentence.statement s isOpen).Derives n ts n' ∧ (isOpen = true → k ≠ .keyword .else)

/-- What the rule for a block does behind the first of at most so many tokens. -/
abbrev ReadsBlock (bound : Nat) (block : Rule (List Stmt)) : Prop :=
  0 < bound → Reads 1 (bound - 1) block fun body n ts n' _ => (Sentence.body body).Derives n ts n'

variable {statement : Rule Stmt} {block : Rule (List Stmt)} {keyword : Token}

theorem reads_forStatement (hs : Reads 1 bound statement statementReading) (hf : bound + 1 < fuel)
    (hk : keyword.kind = .keyword .for) :
    Reads 1 bound (forStatement statement fuel) fun s n ts n' k =>
      statementReading s n (keyword :: ts) n' k := by
  refine (reads_expect _ (by simp)).step fun start _ => ?_
  refine (reads_forInitializer (by omega)).step fun initializer _ => ?_
  refine (reads_expressionUnless _ (by omega)).step fun condition _ => ?_
  refine (reads_expect _ (by simp)).step fun middle _ => ?_
  refine (reads_expressionUnless _ (by omega)).step fun increment _ => ?_
  refine (reads_expect _ (by simp)).step fun close _ => ?_
  refine (hs.within (by omega)).step fun body _ => reads_pure fun _ _ => ?_
  rintro n₃ ts₄ ⟨isOpen, hbody, hopen⟩ _ _ ⟨rfl, rfl, hclose⟩ n₂ ts₃ hincrement _ _
    ⟨rfl, rfl, hmiddle⟩ n₁ ts₂ hcondition n ts₁ hinitializer _ _ ⟨rfl, rfl, hstart⟩
  refine ⟨isOpen, ?_, hopen⟩
  simpa using .forLoop hk hstart hinitializer hcondition hmiddle hincrement hclose hbody

theorem reads_ifStatement (hs : Reads 1 bound statement statementReading) (hf : bound < fuel)
    (hk : keyword.kind = .keyword .if) :
    Reads 1 bound (ifStatement statement fuel) fun s n ts n' k =>
      statementReading s n (keyword :: ts) n' k := by
  refine (reads_parenthesized _ _ hf).step fun condition _ => ?_
  refine (hs.within (by omega)).step fun thenBranch _ => ?_
  refine (reads_accept? (by simp)).step fun found _ => ?_
  cases found with
  | none =>
    refine reads_pure fun _ _ => ?_
    rintro _ _ ⟨rfl, rfl, hnext⟩ n₁ ts₂ ⟨isOpen, hthen, -⟩ n _
      ⟨start, ts₁, close, rfl, hstart, hcondition, hclose⟩
    refine ⟨true, ?_, fun _ => hnext⟩
    simpa using .ifThen hk hstart hcondition hclose hthen
  | some other =>
    refine (hs.within (by omega)).step fun elseBranch _ => reads_pure fun _ _ => ?_
    rintro n₂ ts₃ ⟨isOpen, helse, hopen⟩ _ _ ⟨rfl, rfl, hother⟩ n₁ ts₂ ⟨isOpen', hthen, hclosed⟩
      n _ ⟨start, ts₁, close, rfl, hstart, hcondition, hclose⟩
    refine ⟨isOpen, ?_, hopen⟩
    cases isOpen' with
    | true => exact absurd hother (hclosed rfl)
    | false => simpa using .ifElse hk hstart hcondition hclose hthen hother helse

theorem reads_whileStatement (hs : Reads 1 bound statement statementReading) (hf : bound < fuel)
    (hk : keyword.kind = .keyword .while) :
    Reads 1 bound (whileStatement statement fuel) fun s n ts n' k =>
      statementReading s n (keyword :: ts) n' k := by
  refine (reads_parenthesized _ _ hf).step fun condition _ => ?_
  refine (hs.within (by omega)).step fun body _ => reads_pure fun _ _ => ?_
  rintro n₁ ts₂ ⟨isOpen, hbody, hopen⟩ n _ ⟨start, ts₁, close, rfl, hstart, hcondition, hclose⟩
  refine ⟨isOpen, ?_, hopen⟩
  simpa using .whileDo hk hstart hcondition hclose hbody

theorem reads_returnStatement (hf : bound + 1 < fuel) (hk : keyword.kind = .keyword .return) :
    Reads 1 bound (returnStatement keyword fuel) fun s n ts n' k =>
      statementReading s n (keyword :: ts) n' k := by
  refine (reads_expressionUnless _ hf).step fun value _ => ?_
  refine (reads_expect _ (by simp)).step fun close _ => reads_pure fun _ _ => ?_
  rintro _ _ ⟨rfl, rfl, hclose⟩ n ts hvalue
  exact ⟨false, .ret hk hvalue hclose, nofun⟩

/-- **Statements that are read are derived.** -/
theorem reads_statement :
    ∀ (fuel bound : Nat), bound + 2 < fuel → ReadsBlock bound block →
      Reads 1 bound (Rule.statement block fuel) statementReading
  | 0, _, hf, _ => absurd hf (Nat.not_lt_zero _)
  | fuel + 1, bound, hf, hblock => by
    have hs : 0 < bound → Reads 1 (bound - 1) (Rule.statement block fuel) statementReading :=
      fun hpos => reads_statement fuel (bound - 1) (by omega) fun hpos' =>
        (hblock hpos).within (by omega)
    refine reads_peek fun token => ?_
    split
    · next hk =>
      exact .advance (by simp [hk]) fun hpos =>
        (reads_forStatement (hs hpos) (by omega) hk).of_least (Nat.zero_le _)
    · next hk =>
      exact .advance (by simp [hk]) fun hpos =>
        (reads_ifStatement (hs hpos) (by omega) hk).of_least (Nat.zero_le _)
    · next hk =>
      exact .advance (by simp [hk]) fun hpos =>
        (reads_whileStatement (hs hpos) (by omega) hk).of_least (Nat.zero_le _)
    · next hk =>
      exact .advance (by simp [hk]) fun hpos =>
        (reads_returnStatement (by omega) hk).of_least (Nat.zero_le _)
    · next hk =>
      refine .advance (by simp [hk]) fun hpos => ?_
      refine (hblock hpos).step fun body _ => reads_pure fun _ _ => ?_
      intro n ts hbody
      exact ⟨false, by simpa using .block hk hbody, nofun⟩
    · next hk =>
      refine .advance (by simp [hk]) fun hpos => ?_
      refine (reads_terminated _ (by omega)).step fun e _ => reads_pure fun _ _ => ?_
      rintro n _ ⟨ts, close, rfl, he, hclose⟩
      exact ⟨false, by simpa using .print hk he hclose, nofun⟩
    · refine ((reads_expressionStatement (by omega)).mono (Nat.le_refl _) (Nat.le_refl _) ?_).at
      rintro s n _ n' k ⟨e, ts, close, rfl, rfl, he, hclose⟩
      exact ⟨false, .expr he hclose, nofun⟩

/-! ## Declarations -/

theorem reads_blockOf {declaration : Rule Stmt}
    (h : Reads 1 bound declaration fun s n ts n' _ => (Sentence.declaration s).Derives n ts n')
    (hf : bound < fuel) :
    Reads 1 bound (blockOf declaration fuel) fun body n ts n' _ =>
      (Sentence.body body).Derives n ts n' := by
  have hbody : Reads 0 bound (untilBrace declaration fuel) fun body n ts n' _ =>
      (Sentence.declarations body).Derives n ts n' :=
    reads_untilBrace h (fun _ _ => .declarationsEnd) (fun h hmore => .declarationsMore h hmore)
      fuel bound (Nat.le_refl _) hf
  refine hbody.step fun body _ => ?_
  refine (reads_expect _ (by simp)).step fun close _ => reads_pure fun _ _ => ?_
  rintro _ _ ⟨rfl, rfl, hclose⟩ n ts h
  exact .body h hclose

theorem reads_subroutine (hblock : ReadsBlock bound block) (kind : Subroutine)
    (hf : bound < fuel) :
    Reads 1 bound (subroutine block kind fuel) fun f n ts n' _ =>
      (Sentence.subroutine f).Derives n ts n' := by
  refine (reads_expectName _).step fun name _ => ?_
  refine (reads_expect _ (by simp)).step fun start _ => ?_
  refine (reads_listUnless (reads_parameters fuel 0 _ (by omega))).step fun params _ => ?_
  refine (reads_expect _ (by simp)).step fun close _ => ?_
  refine (reads_expect _ (by simp)).step fun brace _ => ?_
  refine ((hblock (by omega)).within (by omega)).step fun body _ => reads_pure fun _ _ => ?_
  rintro n₁ ts₂ hbody _ _ ⟨rfl, rfl, hbrace⟩ _ _ ⟨rfl, rfl, hclose⟩ _ ts₁ hparams _ _
    ⟨rfl, rfl, hstart⟩ _ _ ⟨rfl, t, rfl, hname, rfl⟩
  rcases hparams with ⟨rfl, hparams, hmax⟩ | ⟨rfl, rfl, rfl⟩
  · simpa using .subroutine hname hstart (.some hparams (by omega)) hclose hbrace hbody
  · simpa using .subroutine hname hstart .none hclose hbrace hbody

theorem reads_classDeclaration (hblock : ReadsBlock bound block) (hf : bound < fuel)
    (hk : keyword.kind = .keyword .cls) :
    Reads 1 bound (classDeclaration block fuel) fun s n ts n' _ =>
      (Sentence.declaration s).Derives n (keyword :: ts) n' := by
  have hmethods : Reads 0 bound (untilBrace (subroutine block .method fuel) fuel)
      fun fs n ts n' _ => (Sentence.subroutines fs).Derives n ts n' :=
    reads_untilBrace (reads_subroutine hblock .method hf) (fun _ _ => .subroutinesEnd)
      (fun h hmore => .subroutinesMore h hmore) fuel bound (Nat.le_refl _) hf
  refine (reads_expectName _).step fun name _ => ?_
  refine reads_superclass.step fun parent _ => ?_
  refine (reads_expect _ (by simp)).step fun start _ => ?_
  refine (hmethods.within (by omega)).step fun methods _ => ?_
  refine (reads_expect _ (by simp)).step fun close _ => reads_pure fun _ _ => ?_
  rintro _ _ ⟨rfl, rfl, hclose⟩ _ ts₂ hmethods _ _ ⟨rfl, rfl, hstart⟩ n ts₁ hparent _ _
    ⟨rfl, t, rfl, hname, rfl⟩
  simpa using .classDecl hk hname hparent hstart hmethods hclose

/-- **Declarations that are read are derived.** -/
theorem reads_declaration :
    ∀ (fuel bound : Nat), bound + 3 < fuel →
      Reads 1 bound (Rule.declaration fuel) fun s n ts n' _ =>
        (Sentence.declaration s).Derives n ts n'
  | 0, _, hf => absurd hf (Nat.not_lt_zero _)
  | fuel + 1, bound, hf => by
    have hblock : ReadsBlock bound (blockOf (Rule.declaration fuel) fuel) := fun hpos =>
      reads_blockOf (reads_declaration fuel (bound - 1) (by omega)) (by omega)
    refine reads_peek fun token => ?_
    split
    · next hk =>
      refine .advance (by simp [hk]) fun hpos => ?_
      exact (reads_classDeclaration (fun _ => (hblock hpos).within (by omega)) (by omega) hk).of_least
        (Nat.zero_le _)
    · next hk =>
      refine .advance (by simp [hk]) fun hpos => ?_
      refine (reads_subroutine (fun _ => (hblock hpos).within (by omega)) .function (by omega)).step
        fun f _ => reads_pure fun _ _ => ?_
      exact fun n ts hf => by simpa using .function hk hf
    · next hk =>
      refine .advance (by simp [hk]) fun hpos => ?_
      refine (reads_variableDeclaration (by omega)).mono (Nat.zero_le _) (Nat.le_refl _) ?_
      exact fun s n ts n' _ hs => .var hk hs
    · refine ((reads_statement fuel bound (by omega) hblock).mono (Nat.le_refl _) (Nat.le_refl _)
        ?_).at
      rintro s n ts n' k ⟨isOpen, hs, -⟩
      exact .statement hs

end Lox.Grammar
