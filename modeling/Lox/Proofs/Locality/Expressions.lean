import Lox.Proofs.Grammar.Soundness.Expr
import Lox.Proofs.Joining.Derivations
import Lox.Proofs.Locality.Places

/-!
# Expressions at another place

Every rule for expressions carries over to every place, with any more fuel
(`carries_expression`).  None of them ends with a token of its own: whether an expression goes on is
seen at the token behind it.
-/

namespace Lox.Syntax.Rule

open Grammar

variable {p : Spot} {fuel fuel' : Nat} {operand operand' expression expression' : Rule Expr}

/-- Whether two rules are for the same expressions, here and at a place. -/
abbrev CarriesExpr (p : Spot) (x y : Rule Expr) : Prop :=
  Carries p (Expr.moved p.shift) x y

/-! ## Operators -/

theorem carries_chain (level : Precedence) (h : CarriesExpr p operand operand') :
    ∀ {fuel fuel' : Nat} (left : Expr), fuel ≤ fuel' →
      CarriesExpr p (chain level.operators operand fuel left)
        (chain level.operators operand' fuel' (left.moved p.shift))
  | 0, _, _, _ => .outOfFuel
  | fuel + 1, 0, _, hle => absurd hle (Nat.not_succ_le_zero fuel)
  | fuel + 1, fuel' + 1, left, hle => by
    refine carries_peek.bind fun token => ?_
    cases hop : level.operators token.kind with
    | none => simpa [hop] using .pure left
    | some build =>
      have hnode : ∀ right : Expr, (build token.line left right).moved p.shift =
          build token.line (left.moved p.shift) (right.moved p.shift) :=
        fun right => Precedence.node_moved p.shift (level.operators_eq ▸ hop) token.line left right
      simp only [id, hop]
      refine carries_advance.bind fun _ => h.bind fun right => ?_
      rw [← hnode]
      exact carries_chain level h _ (Nat.le_of_succ_le_succ hle)

theorem carries_leftAssoc (level : Precedence) (h : CarriesExpr p operand operand')
    (hle : fuel ≤ fuel') : CarriesExpr p (leftAssoc level.operators operand fuel)
      (leftAssoc level.operators operand' fuel') :=
  h.bind fun first => carries_chain level h first hle

/-! ## Calls and primary expressions -/

theorem carries_arguments (h : CarriesExpr p expression expression') :
    ∀ {fuel fuel' : Nat} (count : Nat), fuel ≤ fuel' →
      Carries p (Expr.allMoved p.shift) (arguments expression fuel count)
        (arguments expression' fuel' count)
  | 0, _, _, _ => .outOfFuel
  | fuel + 1, 0, _, hle => absurd hle (Nat.not_succ_le_zero fuel)
  | fuel + 1, fuel' + 1, count, hle => by
    refine (carries_limit count _).bind fun _ => h.bind fun first => ?_
    refine (carries_accept? _).bind fun found => ?_
    cases found with
    | none => exact .pure [first]
    | some comma =>
      exact (carries_arguments h (count + 1) (Nat.le_of_succ_le_succ hle)).bind fun others =>
        .pure (first :: others)

theorem carries_finishCall (h : CarriesExpr p expression expression') (hle : fuel ≤ fuel')
    (callee : Expr) : CarriesExpr p (finishCall expression fuel callee)
      (finishCall expression' fuel' (callee.moved p.shift)) :=
  (carries_listUnless rfl (carries_arguments h 0 hle)).bind fun args =>
    (ends_expect _ (by simp)).toCarries.bind fun close => .pure (Expr.call callee close.line args)

theorem carries_suffixes (h : CarriesExpr p expression expression') :
    ∀ {fuel fuel' : Nat} (object : Expr), fuel ≤ fuel' →
      CarriesExpr p (suffixes expression fuel object)
        (suffixes expression' fuel' (object.moved p.shift))
  | 0, _, _, _ => .outOfFuel
  | fuel + 1, 0, _, hle => absurd hle (Nat.not_succ_le_zero fuel)
  | fuel + 1, fuel' + 1, object, hle => by
    have hle := Nat.le_of_succ_le_succ hle
    refine carries_peek.bind fun token => ?_
    dsimp only [id]
    split
    · exact carries_advance.bind fun _ => (carries_finishCall h hle object).bind fun call =>
        carries_suffixes h call hle
    · exact carries_advance.bind fun _ => (ends_expectName _).toCarries.bind fun name =>
        carries_suffixes h (.get object name) hle
    · exact .pure object

theorem carries_constant (value : Literal) :
    CarriesExpr p (Rule.constant value) (Rule.constant value) :=
  carries_advance.bind fun _ => .pure (Expr.literal value)

theorem carries_primary (h : CarriesExpr p expression expression') :
    CarriesExpr p (primary expression) (primary expression') := by
  refine carries_peek.bind fun token => ?_
  dsimp only [id]
  split
  iterate 5 exact carries_constant _
  · exact carries_advance.bind fun _ => (carries_reference _).bind fun r => .pure (Expr.this r)
  · exact carries_advance.bind fun _ => (ends_expect _ (by simp)).toCarries.bind fun _ =>
      (ends_expectName _).toCarries.bind fun method => (carries_reference _).bind fun r =>
        .pure (Expr.super r method)
  · exact carries_advance.bind fun _ => (carries_reference _).bind fun r => .pure (Expr.var r)
  · exact carries_advance.bind fun _ => h.bind fun inner =>
      (ends_expect _ (by simp)).toCarries.bind fun _ => .pure (Expr.group inner)
  · exact carries_fail _

theorem carries_unary (h : CarriesExpr p expression expression') :
    ∀ {fuel fuel' : Nat}, fuel ≤ fuel' →
      CarriesExpr p (Rule.unary expression fuel) (Rule.unary expression' fuel')
  | 0, _, _ => .outOfFuel
  | fuel + 1, 0, hle => absurd hle (Nat.not_succ_le_zero fuel)
  | fuel + 1, fuel' + 1, hle => by
    have hle := Nat.le_of_succ_le_succ hle
    refine carries_peek.bind fun token => ?_
    dsimp only [id]
    split
    · exact carries_advance.bind fun _ => (carries_unary h hle).bind fun e =>
        .pure (Expr.unary .not token.line e)
    · exact carries_advance.bind fun _ => (carries_unary h hle).bind fun e =>
        .pure (Expr.unary .negate token.line e)
    · exact (carries_primary h).bind fun first => carries_suffixes h first hle

/-! ## Whole expressions -/

theorem carries_operators (h : CarriesExpr p expression expression') (hle : fuel ≤ fuel') :
    CarriesExpr p (operators expression fuel) (operators expression' fuel') :=
  have factor := carries_leftAssoc .factor (carries_unary h hle) hle
  have term := carries_leftAssoc .term factor hle
  have comparison := carries_leftAssoc .comparison term hle
  have equality := carries_leftAssoc .equality comparison hle
  have and := carries_leftAssoc .and equality hle
  carries_leftAssoc .or and hle

/-- What is assigned to is told by the form of the target, which is the same at every place. -/
theorem carries_assignTo (target : Expr) (equals : Token) (value : Expr) :
    CarriesExpr p (assignTo target equals value)
      (assignTo (target.moved p.shift) equals (value.moved p.shift)) := by
  cases target with
  | var place => exact (carries_reference place.name).bind fun r => .pure (Expr.assign r value)
  | get object name => exact .pure (Expr.set object name value)
  | _ => exact (carries_report equals _).bind fun _ => .pure _

theorem carries_assignment (h : CarriesExpr p expression expression') (hle : fuel ≤ fuel') :
    CarriesExpr p (assignment expression fuel) (assignment expression' fuel') := by
  refine (carries_operators h hle).bind fun target => (carries_accept? _).bind fun found => ?_
  cases found with
  | none => exact .pure target
  | some equals => exact h.bind fun value => carries_assignTo target equals value

/-- **Expressions carry over** to every place, by induction on the fuel. -/
theorem carries_expression : ∀ {fuel fuel' : Nat}, fuel ≤ fuel' →
    CarriesExpr p (Rule.expression fuel) (Rule.expression fuel')
  | 0, _, _ => .outOfFuel
  | fuel + 1, 0, hle => absurd hle (Nat.not_succ_le_zero fuel)
  | _ + 1, _ + 1, hle =>
    carries_assignment (carries_expression (Nat.le_of_succ_le_succ hle))
      (Nat.le_of_succ_le_succ hle)

end Lox.Syntax.Rule
