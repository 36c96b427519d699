import Lox.Syntax.Grammar.Stmt
import Lox.Proofs.Locality.Expressions

/-!
# Statements at another place

Every statement and every declaration ends with a token of its own, a semicolon or a brace, or with
a statement, so it is read in the same way wherever that token stands (`ends_declaration`).  The one
exception is a choice, which looks for `else` behind its first branch: at a place where `else` comes
next, it would go on.
-/

namespace Lox.Syntax.Rule

open Grammar

variable {p : Spot} {fuel fuel' : Nat}

/-- Whether two rules end the same statements, here and at a place. -/
abbrev EndsStmt (p : Spot) (x y : Rule Stmt) : Prop :=
  Ends p (Stmt.moved p.shift) x y

/-- Whether two rules end the same lists of statements, here and at a place. -/
abbrev EndsStmts (p : Spot) (x y : Rule (List Stmt)) : Prop :=
  Ends p (Stmt.allMoved p.shift) x y

/-! ## Parts of statements -/

theorem carries_expressionUnless (stop : Token.Kind) (hle : fuel ≤ fuel') :
    Carries p (Option.map (Expr.moved p.shift)) (expressionUnless stop fuel)
      (expressionUnless stop fuel') :=
  carries_peek.bind fun _ => .ite (.pure none)
    ((carries_expression hle).bind fun value => .pure (some value))

theorem ends_variableDeclaration (hle : fuel ≤ fuel') :
    EndsStmt p (variableDeclaration fuel) (variableDeclaration fuel') := by
  refine (ends_expectName _).toCarries.ends fun name => (carries_accept? _).ends fun found => ?_
  cases found with
  | none => exact (ends_expect _ (by simp)).bind fun _ => .pure (Stmt.var name none)
  | some equals =>
    exact (carries_expression hle).ends fun value =>
      (ends_expect _ (by simp)).bind fun _ => .pure (Stmt.var name (some value))

theorem ends_terminated (missing : Cause) (hle : fuel ≤ fuel') :
    Ends p (Expr.moved p.shift) (terminated fuel missing) (terminated fuel' missing) :=
  (carries_expression hle).ends fun value => (ends_expect _ (by simp)).bind fun _ => .pure value

theorem ends_expressionStatement (hle : fuel ≤ fuel') :
    EndsStmt p (expressionStatement fuel) (expressionStatement fuel') :=
  (ends_terminated _ hle).bind fun value => .pure (Stmt.expr value)

theorem ends_forInitializer (hle : fuel ≤ fuel') :
    Ends p (Option.map (Stmt.moved p.shift)) (forInitializer fuel) (forInitializer fuel') := by
  have declared : Ends p (Option.map (Stmt.moved p.shift))
      (variableDeclaration fuel >>= fun s => pure (some s))
      (variableDeclaration fuel' >>= fun s => pure (some s)) :=
    (ends_variableDeclaration hle).map fun _ => rfl
  have evaluated : Ends p (Option.map (Stmt.moved p.shift))
      (expressionStatement fuel >>= fun s => pure (some s))
      (expressionStatement fuel' >>= fun s => pure (some s)) :=
    (ends_expressionStatement hle).map fun _ => rfl
  refine ends_peek (fun token => ?_) fun token => ?_
  · split
    · exact carries_advance.bind fun _ => .pure none
    · exact carries_advance.bind fun _ => declared.toCarries
    · exact evaluated.toCarries
  · split
    · next hk => exact .advance (by simp [hk]) (.pure none)
    · next hk => exact .advance (by simp [hk]) declared.toCloses
    · exact evaluated.at

theorem ends_parenthesized (noStart noEnd : Cause) (hle : fuel ≤ fuel') :
    Ends p (Expr.moved p.shift) (parenthesized fuel noStart noEnd)
      (parenthesized fuel' noStart noEnd) :=
  (ends_expect _ (by simp)).toCarries.ends fun _ => (carries_expression hle).ends fun condition =>
    (ends_expect _ (by simp)).bind fun _ => .pure condition

theorem carries_parameters : ∀ {fuel fuel' : Nat} (count : Nat), fuel ≤ fuel' →
    Carries p id (parameters fuel count) (parameters fuel' count)
  | 0, _, _, _ => .outOfFuel
  | fuel + 1, 0, _, hle => absurd hle (Nat.not_succ_le_zero fuel)
  | fuel + 1, fuel' + 1, count, hle => by
    refine (carries_limit count _).bind fun _ => (ends_expectName _).toCarries.bind fun first =>
      (carries_accept? _).bind fun found => ?_
    cases found with
    | none => exact .pure [first]
    | some comma =>
      exact (carries_parameters (count + 1) (Nat.le_of_succ_le_succ hle)).bind fun others =>
        .pure (first :: others)

theorem carries_superclass :
    Carries p (Option.map (Reference.moved p.shift)) superclass superclass := by
  refine (carries_accept? _).bind fun found => ?_
  cases found with
  | none => exact .pure none
  | some less =>
    exact (ends_expectName _).toCarries.bind fun name => (carries_reference name).bind fun r =>
      .pure (some r)

theorem carries_untilBrace {α : Type} {move : α → α} {moveAll : List α → List α}
    {item item' : Rule α} (h : Carries p move item item') (hnil : moveAll [] = [])
    (hcons : ∀ a as, moveAll (a :: as) = move a :: moveAll as) : ∀ {fuel fuel' : Nat},
    fuel ≤ fuel' → Carries p moveAll (untilBrace item fuel) (untilBrace item' fuel')
  | 0, _, _ => .outOfFuel
  | fuel + 1, 0, hle => absurd hle (Nat.not_succ_le_zero fuel)
  | _ + 1, _ + 1, hle => by
    have none : Carries p moveAll (pure []) (pure (moveAll [])) := .pure []
    rw [hnil] at none
    refine carries_peek.bind fun _ => .ite none (h.bind fun first =>
      (carries_untilBrace h hnil hcons (Nat.le_of_succ_le_succ hle)).bind fun others => ?_)
    rw [← hcons]
    exact .pure (first :: others)

theorem ends_blockOf {declaration declaration' : Rule Stmt}
    (h : EndsStmt p declaration declaration') (hle : fuel ≤ fuel') :
    EndsStmts p (blockOf declaration fuel) (blockOf declaration' fuel') :=
  (carries_untilBrace h.toCarries rfl (fun _ _ => rfl) hle).ends fun body =>
    (ends_expect _ (by simp)).bind fun _ => .pure body

/-! ## Statements -/

section Statements

variable {statement statement' : Rule Stmt} {block block' : Rule (List Stmt)}

theorem ends_forStatement (h : EndsStmt p statement statement') (hle : fuel ≤ fuel') :
    EndsStmt p (forStatement statement fuel) (forStatement statement' fuel') :=
  (ends_expect _ (by simp)).toCarries.ends fun _ =>
    (ends_forInitializer hle).toCarries.ends fun initializer =>
      (carries_expressionUnless _ hle).ends fun condition =>
        (ends_expect _ (by simp)).toCarries.ends fun _ =>
          (carries_expressionUnless _ hle).ends fun increment =>
            (ends_expect _ (by simp)).toCarries.ends fun _ =>
              h.map fun body => forLoop_moved p.shift initializer condition increment body

/-- What may come next is not found here if it does not come next elsewhere. -/
theorem closes_accept? {kind : Token.Kind} (hk : kind ≠ .eof)
    (hnext : nextKind p.last.kind p.more ≠ kind) :
    Closes p id (accept? kind) (accept? kind) where
  toCarries := carries_accept? kind
  closes c found c' hc h := by
    by_cases hrest : c.rest = []
    · have hhere : c.peek.kind ≠ kind := by
        rw [Cursor.peek_of_rest_nil hrest, hc]
        exact hk.symm
      have hthere : (p.cursor c).peek.kind = nextKind p.last.kind p.more := by
        unfold Spot.cursor Cursor.peek nextKind
        rw [hrest]
        cases p.more <;> rfl
      rw [accept?_of_kind_ne hhere] at h
      cases h
      exact accept?_of_kind_ne (hthere ▸ hnext)
    · have hpeek : (p.cursor c).peek = c.peek := Spot.Inside.peek_eq (.inl hrest)
      by_cases hfound : c.peek.kind = kind
      · rw [accept?_of_kind hfound] at h
        cases h
        rw [accept?_of_kind (hpeek ▸ hfound), hpeek, Spot.advance_eq (.inl hrest)]
        rfl
      · rw [accept?_of_kind_ne hfound] at h
        cases h
        exact accept?_of_kind_ne (hpeek ▸ hfound)

theorem ends_ifStatement (helse : nextKind p.last.kind p.more ≠ .keyword .else)
    (h : EndsStmt p statement statement') (hle : fuel ≤ fuel') :
    EndsStmt p (ifStatement statement fuel) (ifStatement statement' fuel') := by
  refine (ends_parenthesized _ _ hle).toCarries.ends fun condition => h.bind fun thenBranch =>
    (closes_accept? (by simp) helse).bind fun found => ?_
  cases found with
  | none => exact .pure (Stmt.ifElse condition thenBranch none)
  | some _ =>
    exact (h.map fun elseBranch => by rfl).toCloses

theorem ends_whileStatement (h : EndsStmt p statement statement') (hle : fuel ≤ fuel') :
    EndsStmt p (whileStatement statement fuel) (whileStatement statement' fuel') :=
  (ends_parenthesized _ _ hle).toCarries.ends fun _ => h.map fun _ => rfl

theorem ends_returnStatement (keyword : Token) (hle : fuel ≤ fuel') :
    EndsStmt p (returnStatement keyword fuel) (returnStatement keyword fuel') :=
  (carries_expressionUnless _ hle).ends fun value =>
    (ends_expect _ (by simp)).bind fun _ => .pure (Stmt.ret ⟨keyword.lexeme, keyword.line⟩ value)

/-- **Statements end** at every place where `else` does not come next, if blocks do. -/
theorem ends_statement (helse : nextKind p.last.kind p.more ≠ .keyword .else)
    (h : EndsStmts p block block') : ∀ {fuel fuel' : Nat}, fuel ≤ fuel' →
    EndsStmt p (Rule.statement block fuel) (Rule.statement block' fuel')
  | 0, _, _ => .outOfFuel
  | fuel + 1, 0, hle => absurd hle (Nat.not_succ_le_zero fuel)
  | fuel + 1, fuel' + 1, hle => by
    have hle := Nat.le_of_succ_le_succ hle
    refine carries_peek.ends fun token => ?_
    dsimp only [id]
    split
    · exact carries_advance.ends fun _ => ends_forStatement (ends_statement helse h hle) hle
    · exact carries_advance.ends fun _ => ends_ifStatement helse (ends_statement helse h hle) hle
    · exact carries_advance.ends fun _ => ends_whileStatement (ends_statement helse h hle) hle
    · exact carries_advance.ends fun _ => ends_returnStatement token hle
    · exact carries_advance.ends fun _ => h.map fun _ => rfl
    · exact carries_advance.ends fun _ => (ends_terminated _ hle).map fun _ => rfl
    · exact ends_expressionStatement hle

/-! ## Declarations -/

theorem ends_subroutine (h : EndsStmts p block block') (kind : Subroutine) (hle : fuel ≤ fuel') :
    Ends p (FunctionDecl.moved p.shift) (subroutine block kind fuel)
      (subroutine block' kind fuel') := by
  refine (ends_expectName _).toCarries.ends fun name =>
    (ends_expect _ (by simp)).toCarries.ends fun _ =>
      (carries_listUnless rfl (carries_parameters 0 hle)).ends fun params =>
        (ends_expect _ (by simp)).toCarries.ends fun _ =>
          (ends_expect _ (by simp)).toCarries.ends fun _ => h.map fun body => ?_
  have hparams : params.map (Name.moved p.shift) = params := List.map_id params
  show FunctionDecl.mk name (params.map (Name.moved p.shift)) _ = _
  rw [hparams]
  rfl

theorem ends_classDeclaration (h : EndsStmts p block block') (hle : fuel ≤ fuel') :
    EndsStmt p (classDeclaration block fuel) (classDeclaration block' fuel') :=
  (ends_expectName _).toCarries.ends fun name => carries_superclass.ends fun parent =>
    (ends_expect _ (by simp)).toCarries.ends fun _ =>
      (carries_untilBrace (ends_subroutine h .method hle).toCarries rfl (fun _ _ => rfl) hle).ends
        fun methods => (ends_expect _ (by simp)).bind fun _ =>
          .pure (Stmt.classDecl name parent methods)

/-- **Declarations end** at every place where `else` does not come next. -/
theorem ends_declaration (helse : nextKind p.last.kind p.more ≠ .keyword .else) :
    ∀ {fuel fuel' : Nat}, fuel ≤ fuel' →
      EndsStmt p (declaration fuel) (declaration fuel')
  | 0, _, _ => .outOfFuel
  | fuel + 1, 0, hle => absurd hle (Nat.not_succ_le_zero fuel)
  | _ + 1, _ + 1, hle => by
    have hle := Nat.le_of_succ_le_succ hle
    have block := ends_blockOf (ends_declaration helse hle) hle
    refine carries_peek.ends fun token => ?_
    dsimp only [id]
    split
    · exact carries_advance.ends fun _ => ends_classDeclaration block hle
    · exact carries_advance.ends fun _ => (ends_subroutine block .function hle).map fun _ => rfl
    · exact carries_advance.ends fun _ => ends_variableDeclaration hle
    · exact ends_statement helse block hle

end Statements

end Lox.Syntax.Rule
