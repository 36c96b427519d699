import Lox.Proofs.Grammar.Building
import Lox.Proofs.Grammar.Soundness.Expr

/-!
# Derived expressions are read

From the tokens of a derivation, each rule for expressions builds the tree of the derivation,
whatever follows, as long as the next token cannot go on with it.  Which tokens can is said once for
each rule (`Phrase.Ends`), and with which tokens a rule begins (`Phrase.Starts`); the rest is an
induction on derivations.  What is before an access that is assigned to is not all of a call, so of
suffixes it is shown that the rule goes on behind them, and not that it ends.
-/

namespace Lox.Grammar

open Syntax Syntax.Rule

/-! ## First tokens -/

/-- Whether a primary expression may begin with a token of this kind. -/
def startsPrimary : Token.Kind → Bool
  | .identifier => true
  | .keyword .this => true
  | .keyword .super => true
  | .symbol .leftParen => true
  | kind => (constant? kind).isSome

/-- Whether an expression may begin with a token of this kind. -/
def startsExpression (kind : Token.Kind) : Bool :=
  startsPrimary kind || (sign? kind).isSome

/-- What is known of the first token of a phrase that is never empty. -/
def Phrase.Starts : Phrase → List Token → Prop
  | .primary _, ts | .call _, ts => ∃ t ts', ts = t :: ts' ∧ startsPrimary t.kind
  | .expression _, ts | .level _ _, ts | .unary _, ts | .arguments _, ts =>
    ∃ t ts', ts = t :: ts' ∧ startsExpression t.kind
  | .tail _ _ _, _ | .suffixes _ _, _ | .given _, _ => True

theorem startsPrimary_constant {kind : Token.Kind} {value : Literal}
    (h : constant? kind = some value) : startsPrimary kind := by
  unfold startsPrimary
  split
  · rfl
  · rfl
  · rfl
  · rfl
  · rw [h]; rfl

theorem Phrase.Derives.starts {phrase : Phrase} {n n' : NodeId} {ts : List Token}
    (h : phrase.Derives n ts n') : phrase.Starts ts := by
  induction h with
  | assign hname => exact ⟨_, _, rfl, by simp [startsExpression, startsPrimary, hname]⟩
  | set _ _ _ _ _ hobject =>
    obtain ⟨t, ts', rfl, ht⟩ := hobject
    exact ⟨t, _, rfl, by simp [startsExpression, ht]⟩
  | operators _ h => exact h
  | @level p _ _ _ _ _ _ _ _ _ hfirst =>
    cases p <;> obtain ⟨t, ts', rfl, ht⟩ := hfirst <;> exact ⟨t, _, rfl, ht⟩
  | signed hsign => exact ⟨_, _, rfl, by simp [startsExpression, hsign]⟩
  | unsigned _ h =>
    obtain ⟨t, ts', rfl, ht⟩ := h
    exact ⟨t, _, rfl, by simp [startsExpression, ht]⟩
  | call _ _ hfirst =>
    obtain ⟨t, ts', rfl, ht⟩ := hfirst
    exact ⟨t, _, rfl, ht⟩
  | constant h => exact ⟨_, _, rfl, startsPrimary_constant h⟩
  | this h => exact ⟨_, _, rfl, by rw [h]; rfl⟩
  | super h => exact ⟨_, _, rfl, by rw [h]; rfl⟩
  | var h => exact ⟨_, _, rfl, by rw [h]; rfl⟩
  | group hstart => exact ⟨_, _, rfl, by rw [hstart]; rfl⟩
  | argumentsOne _ h => exact h
  | argumentsMore _ _ _ h =>
    obtain ⟨t, ts', rfl, ht⟩ := h
    exact ⟨t, _, rfl, ht⟩
  | tailEnd | tailMore | suffixesEnd | suffixesCall | suffixesGet | givenNone | givenSome => trivial

theorem sign?_of_startsPrimary {kind : Token.Kind} (h : startsPrimary kind) : sign? kind = none := by
  rcases kind with s | k | _ | _ | _ | _
  · cases s <;> first | rfl | cases h
  all_goals rfl

/-! ## Next tokens -/

/-- Whether a token of this kind cannot go on with a call. -/
def EndsCall (kind : Token.Kind) : Prop :=
  kind ≠ .symbol .leftParen ∧ kind ≠ .symbol .dot

/-- The levels of operators that are tighter than a level, the loosest first. -/
def Precedence.tighter : Precedence → List Precedence
  | .or => [.and, .equality, .comparison, .term, .factor]
  | .and => [.equality, .comparison, .term, .factor]
  | .equality => [.comparison, .term, .factor]
  | .comparison => [.term, .factor]
  | .term => [.factor]
  | .factor => []

/-- Whether a token of this kind cannot go on with an operand of a level. -/
def Precedence.EndsOperand (p : Precedence) (kind : Token.Kind) : Prop :=
  EndsCall kind ∧ ∀ q ∈ p.tighter, q.node? kind = none

/-- Whether a token of this kind cannot go on with the operators of a level. -/
def Precedence.Ends (p : Precedence) (kind : Token.Kind) : Prop :=
  p.node? kind = none ∧ p.EndsOperand kind

/-- Whether a token of this kind cannot go on with an expression. -/
def EndsExpression (kind : Token.Kind) : Prop :=
  kind ≠ .symbol .equal ∧ Precedence.or.Ends kind

theorem Precedence.endsOperand_of_node? {p : Precedence} {kind : Token.Kind}
    {build : Nat → Expr → Expr → Expr} (h : p.node? kind = some build) : p.EndsOperand kind := by
  unfold node? at h
  split at h <;> cases h
  all_goals exact ⟨⟨by simp, by simp⟩, by simp [tighter, node?]⟩

/-! ## Rules before tokens of their own -/

variable {expression : Rule Expr} {e : Expr} {n n' : NodeId} {ts rest : List Token} {fuel : Nat}

/-- The rule for what the operators of a level join. -/
def Precedence.operandRule (expression : Rule Expr) (fuel : Nat) (p : Precedence) : Rule Expr :=
  p.tighter.foldr (fun q operand => leftAssoc q.operators operand fuel) (unary expression fuel)

/-- The rule for a level of operators. -/
def Precedence.rule (expression : Rule Expr) (fuel : Nat) (p : Precedence) : Rule Expr :=
  leftAssoc p.operators (p.operandRule expression fuel) fuel

theorem sign?_eq_some {k : Token.Kind} {op : UnaryOp} (h : sign? k = some op) :
    k = .symbol .bang ∧ op = .not ∨ k = .symbol .minus ∧ op = .negate := by
  unfold sign? at h
  split at h
  · cases h
    exact .inl ⟨rfl, rfl⟩
  · cases h
    exact .inr ⟨rfl, rfl⟩
  · cases h

theorem builds_unary_signed {op : UnaryOp} {sign : Token} (hsign : sign? sign.kind = some op)
    (h : Builds (unary expression fuel) e n ts n' rest) :
    Builds (unary expression (fuel + 1)) (.unary op sign.line e) n (sign :: ts) n' rest := by
  refine builds_peek ?_
  rcases sign?_eq_some hsign with ⟨hk, rfl⟩ | ⟨hk, rfl⟩
  · simp only [hk]
    exact builds_advance (h.map _)
  · simp only [hk]
    exact builds_advance (h.map _)

theorem builds_unary_unsigned {t : Token} (ht : startsPrimary t.kind)
    (h : Builds (primary expression >>= suffixes expression fuel) e n (t :: ts) n' rest) :
    Builds (unary expression (fuel + 1)) e n (t :: ts) n' rest := by
  have hsign := sign?_of_startsPrimary ht
  refine builds_peek ?_
  split
  · next hk => rw [hk] at hsign; cases hsign
  · next hk => rw [hk] at hsign; cases hsign
  · exact h

theorem builds_suffixes_end {object : Expr} (hnext : EndsCall (nextKind .eof rest)) :
    Builds (suffixes expression (fuel + 1) object) object n [] n rest := by
  refine builds_peek_kind fun token htoken => ?_
  rw [List.nil_append] at htoken
  split
  · next hk => exact absurd (htoken ▸ hk) hnext.1
  · next hk => exact absurd (htoken ▸ hk) hnext.2
  · exact builds_pure _ _ _

theorem builds_constant {t : Token} {value : Literal} (h : constant? t.kind = some value) :
    Builds (primary expression) (.literal value) n [t] n rest := by
  refine builds_peek ?_
  have hconstant : Builds (Rule.constant value) (.literal value) n [t] n rest :=
    builds_advance (builds_pure _ _ _)
  unfold constant? at h
  split at h
  case h_6 => cases h
  all_goals
    next hk =>
    cases h
    simp only [hk]
    exact hconstant

/-! ## Derivations -/

/-- What the rule of a phrase builds behind its derivation. -/
def Completes : Phrase → NodeId → List Token → NodeId → Prop
  | .expression e, n, ts, n' => ∀ fuel rest, ts.length + 1 < fuel →
      EndsExpression (nextKind .eof rest) → Builds (Rule.expression fuel) e n ts n' rest
  | .level p e, n, ts, n' => ∀ fuel rest, ts.length < fuel → p.Ends (nextKind .eof rest) →
      Builds (p.rule (Rule.expression fuel) fuel) e n ts n' rest
  | .tail p left e, n, ts, n' => ∀ fuel bound rest, ts.length < fuel → ts.length < bound →
      p.Ends (nextKind .eof rest) →
      Builds (chain p.operators (p.operandRule (Rule.expression fuel) fuel) bound left) e n ts n' rest
  | .unary e, n, ts, n' => ∀ fuel bound rest, ts.length < fuel → ts.length < bound →
      EndsCall (nextKind .eof rest) → Builds (unary (Rule.expression fuel) bound) e n ts n' rest
  | .call e, n, ts, n' => ∃ used < ts.length, ∀ fuel bound, ts.length < fuel →
      ts.length ≤ bound + used → ∀ b ts' n'' rest,
      Builds (suffixes (Rule.expression fuel) bound e) b n' ts' n'' rest →
      Builds (primary (Rule.expression fuel) >>= suffixes (Rule.expression fuel) (bound + used)) b n
        (ts ++ ts') n'' rest
  | .suffixes object e, n, ts, n' => ∃ used ≤ ts.length, ∀ fuel bound, ts.length < fuel →
      ts.length < bound + used → ∀ b ts' n'' rest,
      Builds (suffixes (Rule.expression fuel) bound e) b n' ts' n'' rest →
      Builds (suffixes (Rule.expression fuel) (bound + used) object) b n (ts ++ ts') n'' rest
  | .primary e, n, ts, n' => ∀ fuel rest, ts.length < fuel →
      Builds (primary (Rule.expression fuel)) e n ts n' rest
  | .arguments args, n, ts, n' => ∀ fuel bound count rest, ts.length + 1 < fuel →
      ts.length < bound → count + args.length ≤ maxItems →
      nextKind .eof rest = .symbol .rightParen →
      Builds (arguments (Rule.expression fuel) bound count) args n ts n' rest
  | .given args, n, ts, n' => ∀ fuel bound rest, ts.length + 1 < fuel → ts.length < bound →
      nextKind .eof rest = .symbol .rightParen →
      Builds (listUnless (.symbol .rightParen) (arguments (Rule.expression fuel) bound 0)) args n ts
        n' rest

theorem endsExpression_of {kind : Token.Kind}
    (h : kind = .symbol .rightParen ∨ kind = .symbol .comma ∨ kind = .symbol .semicolon) :
    EndsExpression kind := by
  rcases h with rfl | rfl | rfl <;>
    exact ⟨by simp, rfl, ⟨by simp, by simp⟩, by simp [Precedence.tighter, Precedence.node?]⟩

theorem builds_chain_end {p : Precedence} {operand : Rule Expr}
    (hnext : p.node? (nextKind .eof rest) = none) :
    Builds (chain p.operators operand (fuel + 1) e) e n [] n rest := by
  refine builds_peek_kind fun token htoken => ?_
  rw [p.operators_eq, htoken, List.nil_append, hnext]
  exact builds_pure _ _ _

theorem builds_leftAssoc {p : Precedence} {operand : Rule Expr}
    (h : Builds operand e n ts n' rest) (hnext : p.node? (nextKind .eof rest) = none)
    (hfuel : 0 < fuel) : Builds (leftAssoc p.operators operand fuel) e n ts n' rest := by
  obtain ⟨fuel, rfl⟩ : ∃ k, fuel = k + 1 := ⟨fuel - 1, by omega⟩
  exact h.last (builds_chain_end hnext)

theorem builds_levels (h : Builds (unary expression fuel) e n ts n' rest) (hfuel : 0 < fuel) :
    ∀ levels : List Precedence, (∀ q ∈ levels, q.node? (nextKind .eof rest) = none) →
      Builds (levels.foldr (fun q operand => leftAssoc q.operators operand fuel)
        (unary expression fuel)) e n ts n' rest
  | [], _ => h
  | q :: levels, hnext =>
    builds_leftAssoc
      (builds_levels h hfuel levels fun r hr => hnext r (List.mem_cons_of_mem q hr))
      (hnext q List.mem_cons_self) hfuel

theorem builds_unary_of_call {bound : Nat} (h : Completes (.call e) n ts n')
    (hstarts : (Phrase.call e).Starts ts) (hfuel : ts.length < fuel) (hbound : ts.length < bound)
    (hnext : EndsCall (nextKind .eof rest)) :
    Builds (unary (Rule.expression fuel) bound) e n ts n' rest := by
  obtain ⟨used, hused, h⟩ := h
  obtain ⟨t, ts', rfl, ht⟩ := hstarts
  obtain ⟨b, rfl⟩ : ∃ b, bound = (b + 1) + used + 1 := ⟨bound - used - 2, by omega⟩
  refine builds_unary_unsigned ht ?_
  simpa using h fuel (b + 1) hfuel (by omega) e [] n' rest (builds_suffixes_end hnext)

/-- What stands before an equals sign is read as a chain of operators. -/
theorem builds_operators_of_call (h : Completes (.call e) n ts n')
    (hstarts : (Phrase.call e).Starts ts) (hfuel : ts.length < fuel)
    (hnext : Precedence.or.Ends (nextKind .eof rest)) :
    Builds (operators (Rule.expression fuel) fuel) e n ts n' rest := by
  have hunary := builds_unary_of_call h hstarts hfuel hfuel hnext.2.1
  refine builds_levels hunary (by omega) (.or :: Precedence.or.tighter) fun q hq => ?_
  rcases List.mem_cons.mp hq with rfl | hq
  · exact hnext.1
  · exact hnext.2.2 q hq

theorem completes_var {name : Token} (hname : name.kind = .identifier) :
    Completes (.primary (.var ⟨n, nameOf name⟩)) n [name] (n + 1) := by
  intro fuel rest _
  refine builds_peek ?_
  simp only [hname]
  exact builds_advance (builds_reference (builds_pure _ _ _))

theorem completes_suffixesEnd : Completes (.suffixes e e) n [] n :=
  ⟨0, Nat.le_refl _, fun _ _ _ _ _ _ _ _ hb => hb⟩

theorem completes_call {first : Expr} {ts₁ ts₂ : List Token} {n₁ : NodeId}
    (hstarts : (Phrase.primary first).Starts ts₁) (hfirst : Completes (.primary first) n ts₁ n₁)
    (hmore : Completes (.suffixes first e) n₁ ts₂ n') : Completes (.call e) n (ts₁ ++ ts₂) n' := by
  obtain ⟨t, ts', rfl, -⟩ := hstarts
  obtain ⟨used, hused, hmore⟩ := hmore
  refine ⟨used, by simp; omega, fun fuel bound hfuel hbound b ts' n'' rest hb => ?_⟩
  simp only [List.length_append, List.length_cons] at hfuel hbound
  rw [List.append_assoc]
  exact (hfirst fuel _ (by simp; omega)).step
    (hmore fuel bound (by omega) (by omega) b ts' n'' rest hb)

theorem builds_suffixes_get {dot name : Token} {object b : Expr} (hdot : dot.kind = .symbol .dot)
    (hname : name.kind = .identifier)
    (h : Builds (suffixes expression fuel (.get object (nameOf name))) b n ts n' rest) :
    Builds (suffixes expression (fuel + 1) object) b n (dot :: name :: ts) n' rest := by
  refine builds_peek ?_
  simp only [hdot]
  exact builds_advance (builds_expectName hname h)

theorem completes_get {dot name : Token} (hdot : dot.kind = .symbol .dot)
    (hname : name.kind = .identifier) (h : Completes (.call e) n ts n') :
    Completes (.call (.get e (nameOf name))) n (ts ++ [dot, name]) n' := by
  obtain ⟨used, hused, h⟩ := h
  refine ⟨used + 1, by simp; omega, fun fuel bound hfuel hbound b ts' n'' rest hb => ?_⟩
  simp only [List.length_append, List.length_cons, List.length_nil] at hfuel hbound
  have hget := builds_suffixes_get hdot hname hb
  have hcall := h fuel (bound + 1) (by omega) (by omega) b _ n'' rest hget
  rw [show bound + (used + 1) = bound + 1 + used by omega]
  simpa using hcall

theorem builds_finishCall {bound : Nat} {callee : Expr} {args : List Expr} {close : Token}
    (hargs : Completes (.given args) n ts n') (hfuel : ts.length + 1 < fuel)
    (hbound : ts.length < bound) (hclose : close.kind = .symbol .rightParen) :
    Builds (finishCall (Rule.expression fuel) bound callee) (.call callee close.line args) n
      (ts ++ [close]) n' rest :=
  (hargs fuel bound ([close] ++ rest) hfuel hbound hclose).step
    (builds_expect hclose (builds_pure _ _ _))

theorem ends_equal : Precedence.or.Ends (.symbol .equal) :=
  ⟨rfl, ⟨by simp, by simp⟩, by simp [Precedence.tighter, Precedence.node?]⟩

/-- An assignment, if what stands before the equals sign is a call. -/
theorem builds_assignment {target value : Expr} {equals : Token} {ts₁ ts₂ : List Token} {m m' : NodeId}
    (htarget : Completes (.call target) n ts₁ m) (hstarts : (Phrase.call target).Starts ts₁)
    (hequals : equals.kind = .symbol .equal) (hvalue : Completes (.expression value) m ts₂ m')
    (hassign : Builds (assignTo target equals value) e m' [] n' rest)
    (hfuel : ts₁.length + ts₂.length + 2 < fuel) (hnext : EndsExpression (nextKind .eof rest)) :
    Builds (Rule.expression fuel) e n (ts₁ ++ equals :: ts₂) n' rest := by
  obtain ⟨fuel, rfl⟩ : ∃ k, fuel = k + 1 := ⟨fuel - 1, by omega⟩
  have hoperators : Builds (operators (Rule.expression fuel) fuel) target n ts₁ m
      (equals :: ts₂ ++ rest) :=
    builds_operators_of_call htarget hstarts (by omega) (by simpa [nextKind, hequals] using ends_equal)
  refine hoperators.step (builds_accept hequals ?_)
  exact (hvalue fuel rest (by omega) hnext).last hassign

theorem builds_operand : ∀ {p : Precedence}, Completes (.operand p e) n ts n' →
    p.EndsOperand (nextKind .eof rest) → ts.length < fuel →
    Builds (p.operandRule (Rule.expression fuel) fuel) e n ts n' rest
  | .factor, h, hnext, hfuel => h fuel fuel rest hfuel hfuel hnext.1
  | .or, h, ⟨hcall, hnext⟩, hfuel | .and, h, ⟨hcall, hnext⟩, hfuel
  | .equality, h, ⟨hcall, hnext⟩, hfuel | .comparison, h, ⟨hcall, hnext⟩, hfuel
  | .term, h, ⟨hcall, hnext⟩, hfuel =>
    h fuel rest hfuel ⟨hnext _ List.mem_cons_self, hcall, fun q hq =>
      hnext q (List.mem_cons_of_mem _ hq)⟩

/-- The operators behind an operand end it. -/
theorem endsOperand_of_tail {p : Precedence} {left : Expr}
    (h : (Phrase.tail p left e).Derives n ts n') (hnext : p.Ends (nextKind .eof rest)) :
    p.EndsOperand (nextKind .eof (ts ++ rest)) := by
  cases h with
  | tailEnd => exact hnext.2
  | tailMore hop => exact Precedence.endsOperand_of_node? hop

/-- **Derived expressions are read**, as far as the rule of each phrase goes. -/
theorem Phrase.Derives.completes {phrase : Phrase} (h : phrase.Derives n ts n') :
    Completes phrase n ts n' := by
  induction h with
  | @assign name equals value ts n n' hname hequals _ ih =>
    intro fuel rest hfuel hnext
    have htarget : Completes (.call (.var ⟨n, nameOf name⟩)) n [name] (n + 1) :=
      completes_call ⟨_, _, rfl, by rw [hname]; rfl⟩ (completes_var hname) completes_suffixesEnd
    refine builds_assignment htarget ⟨_, _, rfl, by rw [hname]; rfl⟩ hequals ih ?_ ?_ hnext
    · exact builds_reference (builds_pure _ _ _)
    · simp only [List.length_cons, List.length_nil] at hfuel ⊢
      omega
  | @set dot name equals object value ts₁ ts₂ n n₁ n' hobject hdot hname hequals _ ihobject ih =>
    intro fuel rest hfuel hnext
    have htarget := completes_get hdot hname ihobject
    have hstarts : (Phrase.call (.get object (nameOf name))).Starts (ts₁ ++ [dot, name]) := by
      obtain ⟨t, ts', rfl, ht⟩ := hobject.starts
      exact ⟨t, _, rfl, ht⟩
    simp only [List.length_append, List.length_cons] at hfuel
    rw [show ts₁ ++ dot :: name :: equals :: ts₂ = ts₁ ++ [dot, name] ++ equals :: ts₂ by simp]
    exact builds_assignment htarget hstarts hequals ih (builds_pure _ _ _) (by simp; omega) hnext
  | operators _ ih =>
    intro fuel rest hfuel hnext
    obtain ⟨fuel, rfl⟩ : ∃ k, fuel = k + 1 := ⟨fuel - 1, by omega⟩
    have hoperators := ih fuel rest (by omega) hnext.2
    exact hoperators.last (builds_accept_none hnext.1 (builds_pure _ _ _))
  | level _ htail ihfirst ihtail =>
    intro fuel rest hfuel hnext
    rw [List.length_append] at hfuel
    exact (builds_operand ihfirst (endsOperand_of_tail htail hnext) (by omega)).step
      (ihtail fuel fuel rest (by omega) (by omega) hnext)
  | tailEnd =>
    intro fuel bound rest _ hbound hnext
    obtain ⟨bound, rfl⟩ : ∃ k, bound = k + 1 := ⟨bound - 1, by omega⟩
    exact builds_chain_end hnext.1
  | @tailMore p build op left right e ts₁ ts₂ n n₁ n' hop _ hmore ihright ihmore =>
    intro fuel bound rest hfuel hbound hnext
    obtain ⟨bound, rfl⟩ : ∃ k, bound = k + 1 := ⟨bound - 1, by omega⟩
    simp only [List.length_cons, List.length_append] at hfuel hbound
    refine builds_peek ?_
    rw [p.operators_eq, hop, ← p.operators_eq]
    refine builds_advance ?_
    exact (builds_operand ihright (endsOperand_of_tail hmore hnext) (by omega)).step
      (ihmore fuel bound rest (by omega) (by omega) hnext)
  | signed hsign _ ih =>
    intro fuel bound rest hfuel hbound hnext
    obtain ⟨bound, rfl⟩ : ∃ k, bound = k + 1 := ⟨bound - 1, by omega⟩
    simp only [List.length_cons] at hfuel hbound
    exact builds_unary_signed hsign (ih fuel bound rest (by omega) (by omega) hnext)
  | unsigned h ih =>
    intro fuel bound rest hfuel hbound hnext
    exact builds_unary_of_call ih h.starts hfuel hbound hnext
  | call hfirst _ ihfirst ihmore => exact completes_call hfirst.starts ihfirst ihmore
  | suffixesEnd => exact completes_suffixesEnd
  | @suffixesCall start close object e args ts₁ ts₂ n n₁ n' hstart hargs hclose _ ihargs ihmore =>
    obtain ⟨used, hused, ih⟩ := ihmore
    refine ⟨used + 1, by simp; omega, fun fuel bound hfuel hbound b ts' n'' rest hb => ?_⟩
    simp only [List.length_append, List.length_cons] at hfuel hbound
    refine builds_peek ?_
    simp only [hstart]
    have hmore := ih fuel bound (by omega) (by omega) b ts' n'' rest hb
    have hcall : Builds (finishCall (Rule.expression fuel) (bound + used) object)
        (.call object close.line args) n (ts₁ ++ [close]) n₁ (ts₂ ++ ts' ++ rest) :=
      builds_finishCall ihargs (by omega) (by omega) hclose
    exact builds_advance (by simpa using hcall.step hmore)
  | @suffixesGet dot name object e ts n n' hdot hname _ ih =>
    obtain ⟨used, hused, ih⟩ := ih
    refine ⟨used + 1, by simp; omega, fun fuel bound hfuel hbound b ts' n'' rest hb => ?_⟩
    simp only [List.length_cons] at hfuel hbound
    exact builds_suffixes_get hdot hname (ih fuel bound (by omega) (by omega) b ts' n'' rest hb)
  | constant h => exact fun fuel rest _ => builds_constant h
  | this h =>
    intro fuel rest _
    refine builds_peek ?_
    simp only [h]
    exact builds_advance (builds_reference (builds_pure _ _ _))
  | super h hdot hmethod =>
    intro fuel rest _
    refine builds_peek ?_
    simp only [h]
    exact builds_advance (builds_expect hdot (builds_expectName hmethod
      (builds_reference (builds_pure _ _ _))))
  | var h => exact completes_var h
  | @group start close inner ts n n' hstart _ hclose ih =>
    intro fuel rest hfuel
    simp only [List.length_cons, List.length_append, List.length_nil] at hfuel
    refine builds_peek ?_
    simp only [hstart]
    refine builds_advance ?_
    have hinner := ih fuel ([close] ++ rest) (by omega) (endsExpression_of (.inl hclose))
    exact hinner.step (builds_expect hclose (builds_pure _ _ _))
  | argumentsOne _ ih =>
    intro fuel bound count rest hfuel hbound hmax hnext
    obtain ⟨bound, rfl⟩ : ∃ k, bound = k + 1 := ⟨bound - 1, by omega⟩
    refine builds_limit hmax ?_
    have hfirst := ih fuel rest hfuel (endsExpression_of (.inl hnext))
    exact hfirst.last (builds_accept_none (by rw [List.nil_append, hnext]; simp)
      (builds_pure _ _ _))
  | @argumentsMore comma e args ts₁ ts₂ n n₁ n' _ hcomma _ ih ihmore =>
    intro fuel bound count rest hfuel hbound hmax hnext
    obtain ⟨bound, rfl⟩ : ∃ k, bound = k + 1 := ⟨bound - 1, by omega⟩
    simp only [List.length_append, List.length_cons] at hfuel hbound hmax
    refine builds_limit (by simp only [maxItems, maxArguments] at *; omega) ?_
    have hfirst := ih fuel (comma :: ts₂ ++ rest) (by omega) (endsExpression_of (.inr (.inl hcomma)))
    have hmore := ihmore fuel bound (count + 1) rest (by omega) (by omega) (by omega) hnext
    exact hfirst.step (builds_accept hcomma (hmore.map _))
  | givenNone => exact fun fuel bound rest _ _ hnext => builds_listUnless_nil hnext
  | givenSome h hmax ih =>
    intro fuel bound rest hfuel hbound hnext
    obtain ⟨t, ts', rfl, ht⟩ := h.starts
    refine builds_listUnless ?_ (ih fuel bound 0 rest hfuel hbound (by omega) hnext)
    intro hk
    rw [show t.kind = .symbol .rightParen from hk] at ht
    cases ht

end Lox.Grammar
