import Lox.Syntax.Grammar.Expr
import Lox.Proofs.Grammar.Phrase
import Lox.Proofs.Grammar.Reading

/-!
# Expressions that are read are derived

Each rule for expressions reads only what the grammar derives, and never runs out of fuel if it has
enough for the tokens that are left.  The rules take the rule for a whole expression as a parameter;
what is asked of it (`ReadsNested`) is what `expression` has been shown to do with less fuel.
-/

namespace Lox.Grammar

open Syntax Syntax.Rule

variable {bound fuel : Nat}

/-- What a derivation with this tree says of tokens. -/
abbrev Phrase.reading {α : Type} (phrase : α → Phrase) : Reading α :=
  fun a n ts n' _ => (phrase a).Derives n ts n'

/-! ## Operators -/

/-- The operators of a level, as its rule knows them. -/
def Precedence.operators : Precedence → Level
  | .or => orLevel
  | .and => andLevel
  | .equality => equalityLevel
  | .comparison => comparisonLevel
  | .term => termLevel
  | .factor => factorLevel

theorem Precedence.operators_eq (p : Precedence) : p.operators = p.node? := by
  funext kind
  cases p <;> rcases kind with s | k | _ | _ | _ | _ <;>
    first | rfl | (cases s <;> rfl) | (cases k <;> rfl)

theorem Precedence.kind_ne_eof {p : Precedence} {kind : Token.Kind}
    {build : Nat → Expr → Expr → Expr} (h : p.node? kind = some build) : kind ≠ .eof := by
  rintro rfl
  cases p <;> cases h

theorem reads_chain {p : Precedence} {operand : Rule Expr}
    (hoperand : Reads 1 bound operand (Phrase.reading (Phrase.operand p))) :
    ∀ (fuel : Nat) (left : Expr) (bound' : Nat), bound' ≤ bound → bound' < fuel →
      Reads 0 bound' (chain p.operators operand fuel left) (Phrase.reading (.tail p left))
  | 0, _, _, _, hf => absurd hf (Nat.not_lt_zero _)
  | fuel + 1, left, bound', hb, hf => by
    refine reads_peek fun token => ?_
    cases hop : p.node? token.kind with
    | none =>
      rw [p.operators_eq, hop]
      exact (reads_pure fun _ _ => .tailEnd).at
    | some build =>
      rw [p.operators_eq, hop]
      refine .advance (Precedence.kind_ne_eof hop) fun hpos => ?_
      refine (hoperand.within (by omega)).step fun right _ => ?_
      rw [← p.operators_eq]
      refine (reads_chain hoperand fuel _ _ (by omega) (by omega)).mono (Nat.zero_le _)
        (Nat.le_refl _) ?_
      exact fun e n₁ ts₂ n' _ hmore n ts₁ hright => .tailMore hop hright hmore

theorem reads_leftAssoc {p : Precedence} {operand : Rule Expr}
    (hoperand : Reads 1 bound operand (Phrase.reading (Phrase.operand p))) (hf : bound < fuel) :
    Reads 1 bound (leftAssoc p.operators operand fuel) (Phrase.reading (.level p)) := by
  refine hoperand.step fun first _ => ?_
  refine (reads_chain hoperand fuel first _ (by omega) (by omega)).mono (Nat.le_refl _)
    (Nat.le_refl _) ?_
  exact fun e n₁ ts₂ n' _ htail n ts₁ hfirst => .level hfirst htail

/-! ## Calls and primary expressions -/

variable {expression : Rule Expr}

theorem reads_arguments (h : Reads 1 bound expression (Phrase.reading .expression)) :
    ∀ (fuel count bound' : Nat), bound' ≤ bound → bound' < fuel →
      Reads 1 bound' (arguments expression fuel count) fun args n ts n' _ =>
        (Phrase.arguments args).Derives n ts n' ∧ count + args.length ≤ maxItems
  | 0, _, _, _, hf => absurd hf (Nat.not_lt_zero _)
  | fuel + 1, count, bound', hb, hf => by
    refine (reads_limit count _).step fun _ _ => ?_
    refine (h.within (by omega)).step fun first hpos => ?_
    refine (reads_accept? (by simp)).step fun found _ => ?_
    cases found with
    | none =>
      refine reads_pure fun _ _ => ?_
      rintro n₁ _ ⟨rfl, rfl, -⟩ n ts hfirst _ _ ⟨hcount, rfl, rfl⟩
      exact ⟨by simpa using .argumentsOne hfirst, hcount⟩
    | some comma =>
      refine (reads_arguments h fuel (count + 1) _ (by omega) (by omega)).step fun more _ => ?_
      refine reads_pure fun _ _ => ?_
      rintro n₁ ts₂ ⟨hmore, hlen⟩ _ _ ⟨rfl, rfl, hcomma⟩ n ts₁ hfirst _ _ ⟨-, rfl, rfl⟩
      refine ⟨by simpa using .argumentsMore hfirst hcomma hmore, ?_⟩
      rw [List.length_cons]
      omega

theorem reads_finishCall (h : Reads 1 bound expression (Phrase.reading .expression))
    (hf : bound < fuel) (callee : Expr) :
    Reads 1 bound (finishCall expression fuel callee) fun e n ts n' _ =>
      ∃ args ts₁ close, ts = ts₁ ++ [close] ∧ (Phrase.given args).Derives n ts₁ n' ∧
        close.kind = .symbol .rightParen ∧ e = .call callee close.line args := by
  refine (reads_listUnless (reads_arguments h fuel 0 bound (Nat.le_refl _) hf)).step
    fun args _ => ?_
  refine (reads_expect _ (by simp)).step fun close _ => ?_
  refine reads_pure fun _ _ => ?_
  rintro n₁ _ ⟨rfl, rfl, hclose⟩ n ts (⟨hargs, hmax⟩ | ⟨rfl, rfl, rfl⟩)
  · exact ⟨args, ts, close, by simp, .givenSome hargs (by omega), hclose, rfl⟩
  · exact ⟨[], [], close, rfl, .givenNone, hclose, rfl⟩

/-- What the rule for a nested expression does behind the first of at most so many tokens. -/
abbrev ReadsNested (bound : Nat) (expression : Rule Expr) : Prop :=
  0 < bound → Reads 1 (bound - 1) expression (Phrase.reading .expression)

theorem reads_suffixes (h : ReadsNested bound expression) :
    ∀ (fuel : Nat) (object : Expr) (bound' : Nat), bound' ≤ bound → bound' < fuel →
      Reads 0 bound' (suffixes expression fuel object) (Phrase.reading (.suffixes object))
  | 0, _, _, _, hf => absurd hf (Nat.not_lt_zero _)
  | fuel + 1, object, bound', hb, hf => by
    refine reads_peek fun token => ?_
    split
    · next hstart =>
      refine .advance (by simp [hstart]) fun hpos => ?_
      refine (reads_finishCall ((h (by omega)).within (by omega)) (by omega) object).step
        fun call _ => ?_
      refine (reads_suffixes h fuel call _ (by omega) (by omega)).mono (Nat.zero_le _)
        (Nat.le_refl _) ?_
      rintro e n₁ ts₂ n' _ hmore n _ ⟨args, ts₁, close, rfl, hargs, hclose, rfl⟩
      simpa using .suffixesCall hstart hargs hclose hmore
    · next hdot =>
      refine .advance (by simp [hdot]) fun hpos => ?_
      refine (reads_expectName _).step fun name _ => ?_
      refine (reads_suffixes h fuel _ _ (by omega) (by omega)).mono (Nat.zero_le _)
        (Nat.le_refl _) ?_
      rintro e n₁ ts₂ n' _ hmore n _ ⟨rfl, t, rfl, hname, rfl⟩
      exact .suffixesGet hdot hname hmore
    · exact (reads_pure fun _ _ => .suffixesEnd).at

theorem reads_constant {token : Token} {value : Literal} (h : constant? token.kind = some value) :
    ReadsAt token 1 bound (Rule.constant value) (Phrase.reading .primary) := by
  refine .advance ?_ fun hpos => ?_
  · intro he
    rw [he] at h
    cases h
  · exact reads_pure fun _ _ => .constant h

theorem reads_primary (h : ReadsNested bound expression) :
    Reads 1 bound (primary expression) (Phrase.reading .primary) := by
  refine reads_peek fun token => ?_
  split
  · next hk => exact reads_constant (by rw [hk]; rfl)
  · next hk => exact reads_constant (by rw [hk]; rfl)
  · next hk => exact reads_constant (by rw [hk]; rfl)
  · next hk => exact reads_constant (by rw [hk]; rfl)
  · next hk => exact reads_constant (by rw [hk]; rfl)
  · next hk =>
    refine .advance (by simp [hk]) fun hpos => ?_
    refine (reads_reference _).step fun r _ => reads_pure fun _ _ => ?_
    rintro n _ ⟨rfl, rfl, rfl⟩
    exact .this hk
  · next hk =>
    refine .advance (by simp [hk]) fun hpos => ?_
    refine (reads_expect _ (by simp)).step fun dot _ => ?_
    refine (reads_expectName _).step fun method _ => ?_
    refine (reads_reference _).step fun r _ => reads_pure fun _ _ => ?_
    rintro n _ ⟨rfl, rfl, rfl⟩ _ _ ⟨rfl, t, rfl, hmethod, rfl⟩ _ _ ⟨rfl, rfl, hdot⟩
    exact .super hk hdot hmethod
  · next hk =>
    refine .advance (by simp [hk]) fun hpos => ?_
    refine (reads_reference _).step fun r _ => reads_pure fun _ _ => ?_
    rintro n _ ⟨rfl, rfl, rfl⟩
    exact .var hk
  · next hk =>
    refine .advance (by simp [hk]) fun hpos => ?_
    refine (h hpos).step fun inner _ => ?_
    refine (reads_expect _ (by simp)).step fun close _ => reads_pure fun _ _ => ?_
    rintro _ _ ⟨rfl, rfl, hclose⟩ n ts hinner
    exact .group hk hinner hclose
  · exact (reads_fail _ _).at

theorem reads_unary (h : ReadsNested bound expression) :
    ∀ (fuel bound' : Nat), bound' ≤ bound → bound' < fuel →
      Reads 1 bound' (Rule.unary expression fuel) (Phrase.reading .unary)
  | 0, _, _, hf => absurd hf (Nat.not_lt_zero _)
  | fuel + 1, bound', hb, hf => by
    refine reads_peek fun token => ?_
    split
    · next hk =>
      refine .advance (by simp [hk]) fun hpos => ?_
      refine (reads_unary h fuel _ (by omega) (by omega)).step fun e _ => reads_pure fun _ _ => ?_
      intro n ts he
      simpa using .signed (by rw [hk]; rfl) he
    · next hk =>
      refine .advance (by simp [hk]) fun hpos => ?_
      refine (reads_unary h fuel _ (by omega) (by omega)).step fun e _ => reads_pure fun _ _ => ?_
      intro n ts he
      simpa using .signed (by rw [hk]; rfl) he
    · have primary : Reads 1 bound' (primary expression) (Phrase.reading .primary) :=
        reads_primary fun hpos => (h (by omega)).within (by omega)
      refine (primary.step fun first hpos => ?_).at
      refine (reads_suffixes h fuel first _ (by omega) (by omega)).mono (Nat.le_refl _)
        (Nat.le_refl _) ?_
      exact fun e n₁ ts₂ n' _ hmore n ts₁ hfirst => .unsigned (.call hfirst hmore)

/-! ## Whole expressions -/

theorem reads_operators (h : ReadsNested bound expression) (hf : bound < fuel) :
    Reads 1 bound (operators expression fuel) (Phrase.reading (.level .or)) := by
  have unary := reads_unary h fuel bound (Nat.le_refl _) hf
  have factor := reads_leftAssoc (p := .factor) unary hf
  have term := reads_leftAssoc (p := .term) factor hf
  have comparison := reads_leftAssoc (p := .comparison) term hf
  have equality := reads_leftAssoc (p := .equality) comparison hf
  have and := reads_leftAssoc (p := .and) equality hf
  exact reads_leftAssoc (p := .or) and hf

/-- Whether an expression is one that may stand before an equals sign. -/
def isTarget : Expr → Bool
  | .var _ => true
  | .get _ _ => true
  | _ => false

theorem isTarget_node {p : Precedence} {kind : Token.Kind} {build : Nat → Expr → Expr → Expr}
    (h : p.node? kind = some build) (line : Nat) (left right : Expr) :
    isTarget (build line left right) = false := by
  unfold Precedence.node? at h
  split at h <;> cases h <;> rfl

theorem tail_eq_of_isTarget {p : Precedence} {left e : Expr} {ts : List Token} {n n' : NodeId}
    (he : isTarget e) : (Phrase.tail p left e).Derives n ts n' → e = left ∧ ts = [] ∧ n' = n
  | .tailEnd => ⟨rfl, rfl, rfl⟩
  | .tailMore hop _ hmore => by
    obtain ⟨rfl, -, -⟩ := tail_eq_of_isTarget he hmore
    rw [isTarget_node hop] at he
    cases he
termination_by ts.length

theorem operand_of_isTarget {p : Precedence} {e : Expr} {ts : List Token} {n n' : NodeId}
    (he : isTarget e) : (Phrase.level p e).Derives n ts n' → (Phrase.operand p e).Derives n ts n'
  | .level hfirst htail => by
    obtain ⟨rfl, rfl, rfl⟩ := tail_eq_of_isTarget he htail
    simpa using hfirst

/-- A target that is read as a chain of operators is a call without any operator. -/
theorem call_of_isTarget {e : Expr} {ts : List Token} {n n' : NodeId} (he : isTarget e)
    (h : (Phrase.level .or e).Derives n ts n') : (Phrase.call e).Derives n ts n' := by
  have and : (Phrase.level .and e).Derives n ts n' := operand_of_isTarget he h
  have equality : (Phrase.level .equality e).Derives n ts n' := operand_of_isTarget he and
  have comparison : (Phrase.level .comparison e).Derives n ts n' := operand_of_isTarget he equality
  have term : (Phrase.level .term e).Derives n ts n' := operand_of_isTarget he comparison
  have factor : (Phrase.level .factor e).Derives n ts n' := operand_of_isTarget he term
  have unary : (Phrase.unary e).Derives n ts n' := operand_of_isTarget he factor
  cases unary with
  | signed => cases he
  | unsigned h => exact h

theorem suffixes_cases {object e : Expr} {ts : List Token} {n n' : NodeId} :
    (Phrase.suffixes object e).Derives n ts n' →
      (e = object ∧ ts = [] ∧ n' = n) ∨ (∃ callee line args, e = .call callee line args) ∨
      ∃ inner dot name ts₁, e = .get inner (nameOf name) ∧ ts = ts₁ ++ [dot, name] ∧
        dot.kind = .symbol .dot ∧ name.kind = .identifier ∧
        (Phrase.suffixes object inner).Derives n ts₁ n'
  | .suffixesEnd => .inl ⟨rfl, rfl, rfl⟩
  | .suffixesCall hstart hargs hclose hmore => by
    rcases suffixes_cases hmore with ⟨rfl, rfl, rfl⟩ | hcall |
      ⟨inner, dot, name, ts₁, rfl, rfl, hdot, hname, hinner⟩
    · exact .inr (.inl ⟨_, _, _, rfl⟩)
    · exact .inr (.inl hcall)
    · refine .inr (.inr ⟨inner, dot, name, _, rfl, ?_, hdot, hname,
        .suffixesCall hstart hargs hclose hinner⟩)
      simp
  | .suffixesGet hdot hname hmore => by
    rcases suffixes_cases hmore with ⟨rfl, rfl, rfl⟩ | hcall |
      ⟨inner, dot, name, ts₁, rfl, rfl, hdot', hname', hinner⟩
    · exact .inr (.inr ⟨_, _, _, [], rfl, rfl, hdot, hname, .suffixesEnd⟩)
    · exact .inr (.inl hcall)
    · exact .inr (.inr ⟨inner, dot, name, _, rfl, rfl, hdot', hname',
        .suffixesGet hdot hname hinner⟩)
termination_by ts.length

theorem name_of_var {r : Reference} {ts : List Token} {n n' : NodeId}
    (h : (Phrase.level .or (.var r)).Derives n ts n') :
    ∃ name, name.kind = .identifier ∧ ts = [name] ∧ r = ⟨n, nameOf name⟩ ∧ n' = n + 1 := by
  cases call_of_isTarget rfl h with
  | call hfirst hmore =>
    rcases suffixes_cases hmore with ⟨rfl, rfl, rfl⟩ | ⟨_, _, _, he⟩ | ⟨_, _, _, _, he, -⟩
    · cases hfirst with
      | var hname => exact ⟨_, hname, rfl, rfl, rfl⟩
    · cases he
    · cases he

theorem access_of_get {object : Expr} {name : Name} {ts : List Token} {n n' : NodeId}
    (h : (Phrase.level .or (.get object name)).Derives n ts n') :
    ∃ dot t ts₁, ts = ts₁ ++ [dot, t] ∧ dot.kind = .symbol .dot ∧ t.kind = .identifier ∧
      name = nameOf t ∧ (Phrase.call object).Derives n ts₁ n' := by
  cases call_of_isTarget rfl h with
  | call hfirst hmore =>
    rcases suffixes_cases hmore with ⟨rfl, rfl, rfl⟩ | ⟨_, _, _, he⟩ |
      ⟨inner, dot, t, ts₁, he, rfl, hdot, hname, hinner⟩
    · cases hfirst
    · cases he
    · cases he
      exact ⟨dot, t, _, by simp, hdot, hname, rfl, .call hfirst hinner⟩

/-- What is assigned to is a name or an access; any other target is reported. -/
theorem reads_assignTo (target : Expr) (equals : Token) (value : Expr) :
    Reads 0 bound (assignTo target equals value) fun e n₂ ts₂ n' _ => ts₂ = [] ∧
      ∀ n n₁ ts ts₁, (Phrase.level .or target).Derives n ts n₁ → equals.kind = .symbol .equal →
        (Phrase.expression value).Derives n₁ ts₁ n₂ →
        (Phrase.expression e).Derives n (ts ++ equals :: ts₁) n' := by
  unfold assignTo
  split
  · refine (reads_reference _).step fun r _ => reads_pure fun _ _ => ?_
    rintro n₂ _ ⟨rfl, rfl, rfl⟩
    refine ⟨rfl, fun n n₁ ts ts₁ htarget hequals hvalue => ?_⟩
    obtain ⟨name, hname, rfl, rfl, rfl⟩ := name_of_var htarget
    exact .assign hname hequals hvalue
  · refine reads_pure fun n₂ _ => ⟨rfl, fun n n₁ ts ts₁ htarget hequals hvalue => ?_⟩
    obtain ⟨dot, t, ts', rfl, hdot, hname, rfl, hobject⟩ := access_of_get htarget
    simpa using .set hobject hdot hname hequals hvalue
  · exact fun c _ _ => ⟨[], [⟨equals, _⟩], ⟨rfl, rfl, rfl, Nat.le_refl _⟩, Nat.le_refl _,
      fun h => nomatch h⟩

theorem reads_assignment (h : ReadsNested bound expression) (hf : bound < fuel) :
    Reads 1 bound (assignment expression fuel) (Phrase.reading .expression) := by
  refine (reads_operators h hf).step fun target _ => ?_
  refine (reads_accept? (by simp)).step fun found _ => ?_
  cases found with
  | none =>
    refine reads_pure fun _ _ => ?_
    rintro n₁ _ ⟨rfl, rfl, -⟩ n ts htarget
    simpa using .operators htarget
  | some equals =>
    refine ((h (by omega)).within (by omega)).step fun value _ => ?_
    refine (reads_assignTo target equals value).mono (Nat.le_of_eq (by simp)) (Nat.le_refl _) ?_
    rintro e n₂ _ n' _ ⟨rfl, hassign⟩ _ ts₁ hvalue n₁ _ ⟨rfl, rfl, hequals⟩ n ts htarget
    simpa using hassign n _ ts ts₁ htarget hequals hvalue

/-- **Expressions that are read are derived.**  Each nested expression lies behind a token. -/
theorem reads_expression :
    ∀ (fuel bound : Nat), bound + 1 < fuel →
      Reads 1 bound (Rule.expression fuel) (Phrase.reading .expression)
  | 0, _, hf => absurd hf (Nat.not_lt_zero _)
  | fuel + 1, bound, hf => by
    refine reads_assignment (fun hpos => ?_) (by omega)
    exact reads_expression fuel (bound - 1) (by omega)

end Lox.Grammar
