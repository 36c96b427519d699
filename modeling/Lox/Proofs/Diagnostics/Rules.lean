import Lox.Syntax.Program
import Lox.Proofs.Steps
import Lox.Proofs.Diagnostics.Trees
import Mathlib.Data.List.TakeWhile

/-!
# Reading what is there

A cursor over some tokens holds no other tokens, neither those that are still to be read nor the end
marker nor those of its reports.  A rule `Draws` on the tokens if from such a cursor it leaves one
behind, stops at none but one of the tokens, and builds only what is of them.  So do all rules of the
grammar (`draws_declaration`), by one lemma for each, and so does the reader of whole programs, which
goes on behind each fault: its faults are at tokens and its statements of tokens that it was given
(`Program.ofTokens_of`).
-/

namespace Lox.Syntax

/-- Whether a cursor holds no tokens but these. -/
structure Cursor.Over (tokens : List Token) (c : Cursor) : Prop where
  rest : ∀ token ∈ c.rest, token ∈ tokens
  last : c.last ∈ tokens
  reports : ∀ fault ∈ c.reports, fault.token ∈ tokens

/-- Whether a rule stops at one of these tokens, if it stops at a fault. -/
def Stop.At (tokens : List Token) (stop : Stop) : Prop :=
  ∀ fault, stop = .fault fault → fault.token ∈ tokens

/-- **Whether a rule draws on some tokens** only, and what it builds has a property. -/
structure Rule.Draws {α : Type} (tokens : List Token) (x : Rule α) (Q : α → Prop) : Prop where
  ok : ∀ c a c', c.Over tokens → x c = .ok a c' → Q a ∧ c'.Over tokens
  error : ∀ c stop c', c.Over tokens → x c = .error stop c' → stop.At tokens ∧ c'.Over tokens

namespace Cursor.Over

variable {tokens : List Token} {c : Cursor}

theorem peek (h : c.Over tokens) : c.peek ∈ tokens := by
  unfold Cursor.peek
  cases hrest : c.rest with
  | nil => exact h.last
  | cons token rest => exact h.rest token (by simp [hrest])

theorem advance (h : c.Over tokens) : c.advance.Over tokens :=
  ⟨fun token htoken => h.rest token (List.mem_of_mem_tail htoken), h.last, h.reports⟩

theorem report (h : c.Over tokens) {fault : Fault} (hfault : fault.token ∈ tokens) :
    (c.report fault).Over tokens :=
  ⟨h.rest, h.last, List.forall_mem_append.mpr
    ⟨h.reports, List.forall_mem_singleton.mpr hfault⟩⟩

theorem mem_of_mem_boundary {token : Token} : ∀ {rest : List Token} {before : Token},
    token ∈ boundary before rest → token ∈ rest
  | [], _, h => h
  | first :: rest, before, h => by
    unfold boundary at h
    split at h
    · exact h
    · exact List.mem_cons_of_mem first (mem_of_mem_boundary h)

theorem recover (h : c.Over tokens) : c.recover.Over tokens := by
  unfold Cursor.recover
  split
  · exact h
  · next first rest hrest =>
    refine ⟨fun token htoken => h.rest token ?_, h.last, h.reports⟩
    rw [hrest]
    exact List.mem_cons_of_mem first (mem_of_mem_boundary htoken)

end Cursor.Over

namespace Rule

variable {tokens : List Token} {fuel : Nat}

/-! ## Rows of rules -/

namespace Draws

variable {α β : Type} {x : Rule α} {f : α → Rule β} {Q : α → Prop} {R : β → Prop}

theorem pure {a : α} (h : Q a) : Draws tokens (Pure.pure a) Q where
  ok c _ _ hc hx := by
    cases hx
    exact ⟨h, hc⟩
  error _ _ _ _ hx := by cases hx

theorem outOfFuel : Draws tokens (Rule.outOfFuel : Rule α) Q where
  ok _ _ _ _ hx := by cases hx
  error c _ _ hc hx := by
    cases hx
    exact ⟨fun _ hfault => (by cases hfault), hc⟩

/-- **Rules in a row** draw on what each of them does. -/
theorem bind (hx : Draws tokens x Q) (hf : ∀ a, Q a → Draws tokens (f a) R) :
    Draws tokens (x >>= f) R where
  ok c b c' hc h := by
    obtain ⟨a, c₁, hxc, hfc⟩ := Steps.bind_eq_ok.mp h
    obtain ⟨ha, hc₁⟩ := hx.ok c a c₁ hc hxc
    exact (hf a ha).ok c₁ b c' hc₁ hfc
  error c stop c' hc h := by
    cases hxc : x c with
    | ok a c₁ =>
      obtain ⟨ha, hc₁⟩ := hx.ok c a c₁ hc hxc
      rw [Steps.bind_of_ok hxc] at h
      exact (hf a ha).error c₁ stop c' hc₁ h
    | error stop₁ c₁ =>
      rw [Steps.bind_of_error hxc] at h
      cases h
      exact hx.error c stop c' hc hxc

theorem ite {x' : Rule α} {q : Prop} [Decidable q] (h : Draws tokens x Q)
    (h' : Draws tokens x' Q) : Draws tokens (if q then x else x') Q := by
  split
  · exact h
  · exact h'

end Draws

/-! ## Single steps -/

theorem draws_peek : Draws tokens peek (· ∈ tokens) where
  ok c token c' hc h := by
    cases h
    exact ⟨hc.peek, hc⟩
  error _ _ _ _ h := by cases h

theorem draws_advance : Draws tokens advance fun _ => True where
  ok c _ c' hc h := by
    cases h
    exact ⟨trivial, hc.advance⟩
  error _ _ _ _ h := by cases h

theorem draws_fail {α : Type} {Q : α → Prop} (cause : Cause) : Draws tokens (fail cause) Q where
  ok _ _ _ _ h := by cases h
  error c stop c' hc h := by
    cases h
    refine ⟨fun fault hfault => ?_, hc⟩
    cases hfault
    exact hc.peek

theorem draws_report {token : Token} (htoken : token ∈ tokens) (cause : Cause) :
    Draws tokens (report token cause) fun _ => True where
  ok c _ c' hc h := by
    cases h
    exact ⟨trivial, hc.report htoken⟩
  error _ _ _ _ h := by cases h

theorem draws_accept? (kind : Token.Kind) :
    Draws tokens (accept? kind) fun found => ∀ token ∈ found, token ∈ tokens :=
  draws_peek.bind fun token htoken => .ite
    (draws_advance.bind fun _ _ => .pure fun found hfound => by
      cases hfound
      exact htoken)
    (.pure nofun)

theorem draws_expect (kind : Token.Kind) (cause : Cause) :
    Draws tokens (expect kind cause) (· ∈ tokens) := by
  refine (draws_accept? kind).bind fun found hfound => ?_
  cases found with
  | none => exact draws_fail cause
  | some token => exact .pure (hfound token rfl)

theorem draws_expectName (cause : Cause) : Draws tokens (expectName cause) (Name.Of tokens) :=
  (draws_expect .identifier cause).bind fun _ htoken => .pure (.of_mem htoken)

theorem draws_reference {name : Name} (hname : name.Of tokens) :
    Draws tokens (reference name) fun r => r.name.Of tokens where
  ok c r c' hc h := by
    cases h
    exact ⟨hname, hc.rest, hc.last, hc.reports⟩
  error _ _ _ _ h := by cases h

theorem draws_limit (count : Nat) (cause : Cause) :
    Draws tokens (limit count cause) fun _ => True :=
  .ite (draws_peek.bind fun _ htoken => draws_report htoken cause) (.pure trivial)

theorem draws_listUnless {α : Type} {Q : α → Prop} (stop : Token.Kind) {items : Rule (List α)}
    (h : Draws tokens items fun as => ∀ a ∈ as, Q a) :
    Draws tokens (listUnless stop items) fun as => ∀ a ∈ as, Q a :=
  draws_peek.bind fun _ _ => .ite (.pure nofun) h

/-! ## Expressions -/

section Expressions

variable {expression operand : Rule Expr}

/-- Whether the operators of a level build what is of some tokens from what is. -/
def Level.Builds (tokens : List Token) (level : Level) : Prop :=
  ∀ kind build, level kind = some build → ∀ line left right, Token.OnLine tokens line →
    Expr.Of tokens left → Expr.Of tokens right → Expr.Of tokens (build line left right)

theorem builds_orLevel : Level.Builds tokens orLevel := by
  intro kind build h line left right _ hleft hright
  unfold orLevel at h
  split at h <;> cases h
  exact .logical _ hleft hright

theorem builds_andLevel : Level.Builds tokens andLevel := by
  intro kind build h line left right _ hleft hright
  unfold andLevel at h
  split at h <;> cases h
  exact .logical _ hleft hright

theorem builds_equalityLevel : Level.Builds tokens equalityLevel := by
  intro kind build h line left right hline hleft hright
  unfold equalityLevel at h
  split at h <;> cases h <;> exact .binary _ hline hleft hright

theorem builds_comparisonLevel : Level.Builds tokens comparisonLevel := by
  intro kind build h line left right hline hleft hright
  unfold comparisonLevel at h
  split at h <;> cases h <;> exact .binary _ hline hleft hright

theorem builds_termLevel : Level.Builds tokens termLevel := by
  intro kind build h line left right hline hleft hright
  unfold termLevel at h
  split at h <;> cases h <;> exact .binary _ hline hleft hright

theorem builds_factorLevel : Level.Builds tokens factorLevel := by
  intro kind build h line left right hline hleft hright
  unfold factorLevel at h
  split at h <;> cases h <;> exact .binary _ hline hleft hright

theorem draws_chain {level : Level} (hlevel : level.Builds tokens)
    (h : Draws tokens operand (Expr.Of tokens)) : ∀ (fuel : Nat) {left : Expr}, left.Of tokens →
      Draws tokens (chain level operand fuel left) (Expr.Of tokens)
  | 0, _, _ => .outOfFuel
  | fuel + 1, left, hleft => by
    refine draws_peek.bind fun token htoken => ?_
    cases hop : level token.kind with
    | none => exact .pure hleft
    | some build =>
      refine draws_advance.bind fun _ _ => h.bind fun right hright => ?_
      exact draws_chain hlevel h fuel
        (hlevel _ _ hop token.line left right ⟨token, htoken, rfl⟩ hleft hright)

theorem draws_leftAssoc {level : Level} (hlevel : level.Builds tokens)
    (h : Draws tokens operand (Expr.Of tokens)) :
    Draws tokens (leftAssoc level operand fuel) (Expr.Of tokens) :=
  h.bind fun _ hfirst => draws_chain hlevel h fuel hfirst

theorem draws_arguments (h : Draws tokens expression (Expr.Of tokens)) : ∀ fuel count : Nat,
    Draws tokens (arguments expression fuel count) fun args => ∀ arg ∈ args, arg.Of tokens
  | 0, _ => .outOfFuel
  | fuel + 1, count => by
    refine (draws_limit count _).bind fun _ _ => h.bind fun first hfirst =>
      (draws_accept? _).bind fun found _ => ?_
    cases found with
    | none => exact .pure (List.forall_mem_singleton.mpr hfirst)
    | some comma =>
      exact (draws_arguments h fuel (count + 1)).bind fun others hothers =>
        .pure (List.forall_mem_cons.mpr ⟨hfirst, hothers⟩)

theorem draws_finishCall (h : Draws tokens expression (Expr.Of tokens)) {callee : Expr}
    (hcallee : callee.Of tokens) : Draws tokens (finishCall expression fuel callee)
      (Expr.Of tokens) :=
  (draws_listUnless _ (draws_arguments h fuel 0)).bind fun _ hargs =>
    (draws_expect _ _).bind fun close hclose => .pure (.call ⟨close, hclose, rfl⟩ hcallee hargs)

theorem draws_suffixes (h : Draws tokens expression (Expr.Of tokens)) : ∀ (fuel : Nat)
    {object : Expr}, object.Of tokens →
      Draws tokens (suffixes expression fuel object) (Expr.Of tokens)
  | 0, _, _ => .outOfFuel
  | fuel + 1, object, hobject => by
    refine draws_peek.bind fun token htoken => ?_
    split
    · exact draws_advance.bind fun _ _ => (draws_finishCall h hobject).bind fun _ hcall =>
        draws_suffixes h fuel hcall
    · exact draws_advance.bind fun _ _ => (draws_expectName _).bind fun _ hname =>
        draws_suffixes h fuel (.get hname.onLine hobject)
    · exact .pure hobject

theorem draws_constant (value : Literal) : Draws tokens (constant value) (Expr.Of tokens) :=
  draws_advance.bind fun _ _ => .pure (.literal value)

theorem draws_primary (h : Draws tokens expression (Expr.Of tokens)) :
    Draws tokens (primary expression) (Expr.Of tokens) := by
  refine draws_peek.bind fun token htoken => ?_
  have hname : Name.Of tokens ⟨token.lexeme, token.line⟩ := .of_mem htoken
  split
  iterate 5 exact draws_constant _
  · exact draws_advance.bind fun _ _ => (draws_reference hname).bind fun _ hr => .pure (.this hr)
  · exact draws_advance.bind fun _ _ => (draws_expect _ _).bind fun _ _ =>
      (draws_expectName _).bind fun _ hmethod => (draws_reference hname).bind fun _ hr =>
        .pure (.super hr hmethod)
  · exact draws_advance.bind fun _ _ => (draws_reference hname).bind fun _ hr => .pure (.var hr)
  · exact draws_advance.bind fun _ _ => h.bind fun _ hinner => (draws_expect _ _).bind fun _ _ =>
      .pure (.group hinner)
  · exact draws_fail _

theorem draws_unary (h : Draws tokens expression (Expr.Of tokens)) : ∀ fuel : Nat,
    Draws tokens (unary expression fuel) (Expr.Of tokens)
  | 0 => .outOfFuel
  | fuel + 1 => by
    refine draws_peek.bind fun token htoken => ?_
    have hline : Token.OnLine tokens token.line := ⟨token, htoken, rfl⟩
    split
    · exact draws_advance.bind fun _ _ => (draws_unary h fuel).bind fun _ he =>
        .pure (.unary _ hline he)
    · exact draws_advance.bind fun _ _ => (draws_unary h fuel).bind fun _ he =>
        .pure (.unary _ hline he)
    · exact (draws_primary h).bind fun _ hfirst => draws_suffixes h fuel hfirst

theorem draws_operators (h : Draws tokens expression (Expr.Of tokens)) :
    Draws tokens (operators expression fuel) (Expr.Of tokens) :=
  have factor := draws_leftAssoc builds_factorLevel (draws_unary h fuel)
  have term := draws_leftAssoc builds_termLevel factor
  have comparison := draws_leftAssoc builds_comparisonLevel term
  have equality := draws_leftAssoc builds_equalityLevel comparison
  have and := draws_leftAssoc builds_andLevel equality
  draws_leftAssoc builds_orLevel and

theorem draws_assignTo {target value : Expr} {equals : Token} (htarget : target.Of tokens)
    (hequals : equals ∈ tokens) (hvalue : value.Of tokens) :
    Draws tokens (assignTo target equals value) (Expr.Of tokens) := by
  unfold assignTo
  split
  · next place =>
    have hname : place.name.Of tokens := htarget.names [] none _ List.mem_cons_self
    exact (draws_reference hname).bind fun _ hr => .pure (.assign hr hvalue)
  · obtain ⟨hline, hlines⟩ := List.forall_mem_cons.mp htarget.lines
    exact .pure (.set hline ⟨htarget.names, hlines⟩ hvalue)
  · exact (draws_report hequals _).bind fun _ _ => .pure htarget

theorem draws_assignment (h : Draws tokens expression (Expr.Of tokens)) :
    Draws tokens (assignment expression fuel) (Expr.Of tokens) := by
  refine (draws_operators h).bind fun target htarget => (draws_accept? _).bind fun found hfound => ?_
  cases found with
  | none => exact .pure htarget
  | some equals => exact h.bind fun _ hvalue => draws_assignTo htarget (hfound equals rfl) hvalue

/-- **Expressions** draw on what is there, by induction on the fuel. -/
theorem draws_expression : ∀ fuel : Nat, Draws tokens (Rule.expression fuel) (Expr.Of tokens)
  | 0 => .outOfFuel
  | fuel + 1 => draws_assignment (draws_expression fuel)

end Expressions

/-! ## Statements -/

theorem draws_expressionUnless (stop : Token.Kind) (fuel : Nat) :
    Draws tokens (expressionUnless stop fuel) fun e => ∀ value ∈ e, value.Of tokens :=
  draws_peek.bind fun _ _ => .ite (.pure nofun) ((draws_expression fuel).bind fun e he =>
    .pure fun value hvalue => by
      cases hvalue
      exact he)

theorem draws_variableDeclaration (fuel : Nat) :
    Draws tokens (variableDeclaration fuel) (Stmt.Of tokens) := by
  refine (draws_expectName _).bind fun name hname => (draws_accept? _).bind fun found _ => ?_
  cases found with
  | none => exact (draws_expect _ _).bind fun _ _ => .pure (.var hname nofun)
  | some equals =>
    refine (draws_expression fuel).bind fun e he => (draws_expect _ _).bind fun _ _ =>
      .pure (.var hname fun value hvalue => ?_)
    cases hvalue
    exact he

theorem draws_terminated (fuel : Nat) (missing : Cause) :
    Draws tokens (terminated fuel missing) (Expr.Of tokens) :=
  (draws_expression fuel).bind fun _ he => (draws_expect _ _).bind fun _ _ => .pure he

theorem draws_expressionStatement (fuel : Nat) :
    Draws tokens (expressionStatement fuel) (Stmt.Of tokens) :=
  (draws_terminated fuel _).bind fun _ he => .pure (.expr he)

theorem draws_forInitializer (fuel : Nat) :
    Draws tokens (forInitializer fuel) fun s => ∀ first ∈ s, first.Of tokens := by
  have some {x : Rule Stmt} (h : Draws tokens x (Stmt.Of tokens)) :
      Draws tokens (x >>= fun s => Pure.pure (some s)) fun s => ∀ first ∈ s, first.Of tokens :=
    h.bind fun s hs => .pure fun first hfirst => by
      cases hfirst
      exact hs
  refine draws_peek.bind fun token _ => ?_
  split
  · exact draws_advance.bind fun _ _ => .pure nofun
  · exact draws_advance.bind fun _ _ => some (draws_variableDeclaration fuel)
  · exact some (draws_expressionStatement fuel)

theorem draws_parenthesized (fuel : Nat) (noStart noEnd : Cause) :
    Draws tokens (parenthesized fuel noStart noEnd) (Expr.Of tokens) :=
  (draws_expect _ _).bind fun _ _ => (draws_expression fuel).bind fun _ he =>
    (draws_expect _ _).bind fun _ _ => .pure he

theorem draws_parameters : ∀ fuel count : Nat,
    Draws tokens (parameters fuel count) fun params => ∀ param ∈ params, param.Of tokens
  | 0, _ => .outOfFuel
  | fuel + 1, count => by
    refine (draws_limit count _).bind fun _ _ => (draws_expectName _).bind fun first hfirst =>
      (draws_accept? _).bind fun found _ => ?_
    cases found with
    | none => exact .pure (List.forall_mem_singleton.mpr hfirst)
    | some comma =>
      exact (draws_parameters fuel (count + 1)).bind fun others hothers =>
        .pure (List.forall_mem_cons.mpr ⟨hfirst, hothers⟩)

theorem draws_superclass :
    Draws tokens superclass fun parent => ∀ r ∈ parent, r.name.Of tokens := by
  refine (draws_accept? _).bind fun found _ => ?_
  cases found with
  | none => exact .pure nofun
  | some less =>
    refine (draws_expectName _).bind fun _ hname => (draws_reference hname).bind fun reference hr =>
      .pure fun r hmem => ?_
    cases hmem
    exact hr

theorem draws_untilBrace {α : Type} {Q : α → Prop} {item : Rule α} (h : Draws tokens item Q) :
    ∀ fuel : Nat, Draws tokens (untilBrace item fuel) fun items => ∀ a ∈ items, Q a
  | 0 => .outOfFuel
  | fuel + 1 => draws_peek.bind fun _ _ => .ite (.pure nofun) (h.bind fun _ hfirst =>
      (draws_untilBrace h fuel).bind fun _ hothers =>
        .pure (List.forall_mem_cons.mpr ⟨hfirst, hothers⟩))

theorem draws_blockOf {declaration : Rule Stmt} (h : Draws tokens declaration (Stmt.Of tokens)) :
    Draws tokens (blockOf declaration fuel) fun body => ∀ s ∈ body, s.Of tokens :=
  (draws_untilBrace h fuel).bind fun _ hbody => (draws_expect _ _).bind fun _ _ => .pure hbody

section Statements

variable {statement : Rule Stmt} {block : Rule (List Stmt)}

theorem draws_forStatement (h : Draws tokens statement (Stmt.Of tokens)) :
    Draws tokens (forStatement statement fuel) (Stmt.Of tokens) :=
  (draws_expect _ _).bind fun _ _ => (draws_forInitializer fuel).bind fun _ hinitializer =>
    (draws_expressionUnless _ fuel).bind fun _ hcondition => (draws_expect _ _).bind fun _ _ =>
      (draws_expressionUnless _ fuel).bind fun _ hincrement => (draws_expect _ _).bind fun _ _ =>
        h.bind fun _ hbody => .pure (.forLoop hinitializer hcondition hincrement hbody)

theorem draws_ifStatement (h : Draws tokens statement (Stmt.Of tokens)) :
    Draws tokens (ifStatement statement fuel) (Stmt.Of tokens) := by
  refine (draws_parenthesized fuel _ _).bind fun _ hcondition => h.bind fun _ hthen =>
    (draws_accept? _).bind fun found _ => ?_
  cases found with
  | none => exact .pure (.ifElse hcondition hthen nofun)
  | some _ =>
    refine h.bind fun _ helse => .pure (.ifElse hcondition hthen fun s hs => ?_)
    cases hs
    exact helse

theorem draws_whileStatement (h : Draws tokens statement (Stmt.Of tokens)) :
    Draws tokens (whileStatement statement fuel) (Stmt.Of tokens) :=
  (draws_parenthesized fuel _ _).bind fun _ hcondition => h.bind fun _ hbody =>
    .pure (.whileDo hcondition hbody)

theorem draws_returnStatement {keyword : Token} (hkeyword : keyword ∈ tokens) (fuel : Nat) :
    Draws tokens (returnStatement keyword fuel) (Stmt.Of tokens) :=
  (draws_expressionUnless _ fuel).bind fun _ hvalue => (draws_expect _ _).bind fun _ _ =>
    .pure (.ret (.of_mem hkeyword) hvalue)

/-- **Statements** draw on what is there if blocks do, by induction on the fuel. -/
theorem draws_statement (h : Draws tokens block fun body => ∀ s ∈ body, s.Of tokens) :
    ∀ fuel : Nat, Draws tokens (Rule.statement block fuel) (Stmt.Of tokens)
  | 0 => .outOfFuel
  | fuel + 1 => by
    refine draws_peek.bind fun token htoken => ?_
    split
    · exact draws_advance.bind fun _ _ => draws_forStatement (draws_statement h fuel)
    · exact draws_advance.bind fun _ _ => draws_ifStatement (draws_statement h fuel)
    · exact draws_advance.bind fun _ _ => draws_whileStatement (draws_statement h fuel)
    · exact draws_advance.bind fun _ _ => draws_returnStatement htoken fuel
    · exact draws_advance.bind fun _ _ => h.bind fun _ hbody => .pure (.block hbody)
    · exact draws_advance.bind fun _ _ => (draws_terminated fuel _).bind fun _ he =>
        .pure (.print he)
    · exact draws_expressionStatement fuel

theorem draws_subroutine (h : Draws tokens block fun body => ∀ s ∈ body, s.Of tokens)
    (kind : Subroutine) (fuel : Nat) :
    Draws tokens (subroutine block kind fuel) (FunctionDecl.Of tokens) :=
  (draws_expectName _).bind fun _ hname => (draws_expect _ _).bind fun _ _ =>
    (draws_listUnless _ (draws_parameters fuel 0)).bind fun _ hparams =>
      (draws_expect _ _).bind fun _ _ => (draws_expect _ _).bind fun _ _ =>
        h.bind fun _ hbody => .pure (.of_parts hname hparams hbody)

theorem draws_classDeclaration (h : Draws tokens block fun body => ∀ s ∈ body, s.Of tokens)
    (fuel : Nat) : Draws tokens (classDeclaration block fuel) (Stmt.Of tokens) :=
  (draws_expectName _).bind fun _ hname => draws_superclass.bind fun _ hsuperclass =>
    (draws_expect _ _).bind fun _ _ =>
      (draws_untilBrace (draws_subroutine h .method fuel) fuel).bind fun _ hmethods =>
        (draws_expect _ _).bind fun _ _ => .pure (.classDecl hname hsuperclass hmethods)

/-- **Declarations** draw on what is there, by induction on the fuel. -/
theorem draws_declaration : ∀ fuel : Nat, Draws tokens (declaration fuel) (Stmt.Of tokens)
  | 0 => .outOfFuel
  | fuel + 1 => by
    have block : Draws tokens (blockOf (declaration fuel) fuel)
        fun body => ∀ s ∈ body, s.Of tokens :=
      draws_blockOf (draws_declaration fuel)
    refine draws_peek.bind fun token _ => ?_
    split
    · exact draws_advance.bind fun _ _ => draws_classDeclaration block fuel
    · exact draws_advance.bind fun _ _ => (draws_subroutine block .function fuel).bind fun _ hf =>
        .pure (.function hf)
    · exact draws_advance.bind fun _ _ => draws_variableDeclaration fuel
    · exact draws_statement block fuel

end Statements

end Rule

end Lox.Syntax

/-! ## Programs -/

namespace Lox.Program

open Syntax

variable {tokens : List Token} {c : Cursor}

/-- **Declarations one after the other** are of the tokens of their cursor, with all reports, also
behind those that were given up. -/
theorem declarations_of (fuel : Nat) : ∀ (rounds : Nat) {c : Cursor}, c.Over tokens →
    (∀ s ∈ (declarations fuel rounds c).1, s.Of tokens) ∧ (declarations fuel rounds c).2.Over tokens
  | 0, _, hc => ⟨nofun, hc⟩
  | rounds + 1, c, hc => by
    unfold declarations
    split
    · exact ⟨nofun, hc⟩
    · split
      · next first behind hread =>
        obtain ⟨hfirst, hbehind⟩ := (Rule.draws_declaration fuel).ok c first behind hc hread
        obtain ⟨hothers, hfinal⟩ := declarations_of fuel rounds hbehind
        exact ⟨List.forall_mem_cons.mpr ⟨hfirst, hothers⟩, hfinal⟩
      · next fault behind hread =>
        obtain ⟨hat, hbehind⟩ := (Rule.draws_declaration fuel).error c _ behind hc hread
        exact declarations_of fuel rounds (hbehind.report (hat fault rfl)).recover
      · next behind hread =>
        exact ⟨nofun, ((Rule.draws_declaration fuel).error c _ behind hc hread).2⟩

theorem over_ofTokens (hend : ∃ token ∈ tokens, token.kind = .eof) (n : NodeId) :
    (Cursor.ofTokens tokens n).Over tokens where
  rest _ htoken := (List.takeWhile_sublist _).subset htoken
  last := by
    show (tokens.dropWhile (·.kind != .eof)).headD Cursor.implicitEnd ∈ tokens
    cases hbehind : tokens.dropWhile (·.kind != .eof) with
    | nil =>
      obtain ⟨token, hmem, hkind⟩ := hend
      have hnot := List.dropWhile_eq_nil_iff.mp hbehind token hmem
      simp [hkind] at hnot
    | cons token rest =>
      have hmem : token ∈ tokens.dropWhile (·.kind != .eof) := hbehind ▸ List.mem_cons_self
      exact (List.dropWhile_sublist _).subset hmem
  reports _ hfault := absurd hfault List.not_mem_nil

/-- **What reading tokens comes to** is of these tokens, if one of them marks their end: each fault is
at one of them, or the program is of them. -/
theorem ofTokens_of (hend : ∃ token ∈ tokens, token.kind = .eof) (n : NodeId) :
    (∀ faults n', ofTokens tokens n = (.error faults, n') →
      ∀ fault ∈ faults, fault.token ∈ tokens) ∧
      ∀ program n', ofTokens tokens n = (.ok program, n') → ∀ s ∈ program, s.Of tokens := by
  have hstart := over_ofTokens hend n
  obtain ⟨hprogram, hfinal⟩ := declarations_of ((Cursor.ofTokens tokens n).rest.length + 4)
    ((Cursor.ofTokens tokens n).rest.length + 1) hstart
  constructor
  · intro faults n' h
    unfold ofTokens at h
    dsimp only at h
    split at h <;> cases h
    exact hfinal.reports
  · intro program n' h
    unfold ofTokens at h
    dsimp only at h
    split at h <;> cases h
    exact hprogram

end Lox.Program
