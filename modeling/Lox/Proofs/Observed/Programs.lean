import Lox.Proofs.Observed.Declarations
import Lox.Proofs.Operators

/-!
# Programs keep a state sound

Every form of expression and statement keeps a state sound if its parts do (`keeps_evaluateWith`,
`keeps_executeWith`), so all expressions and statements do, by induction on the fuel (`evaluates`,
`executes`), and so does a whole program that the walk has come by (`keeps_runProgram`).
-/

namespace Lox.Observed

open Machine (Flow)

/-- **Whether expressions keep a state sound** wherever the walk came by them. -/
def Evaluates (bound : NodeId) (evaluate : Position → Expr → Run Value) : Prop :=
  ∀ {s : State} {position : Position} {e : Expr}, Sound bound s → At s.machine position →
    e.sites position.around position.scopes ⊆ s.sites →
    Keeps bound s (evaluate position e) ValueOk

variable {bound : NodeId} {s : State} {position : Position}
  {evaluate : Position → Expr → Run Value} {execute : Position → Stmt → Run Flow}

theorem valueOk_ofLiteral (value : Literal) : ValueOk s (Value.ofLiteral value) := by
  cases value <;> trivial

theorem keeps_ofExcept {line : Nat} {r : Except Machine.Fault Value} (h : Sound bound s)
    (hr : Machine.Computed line r) : Keeps bound s (lift (Machine.Run.ofExcept r)) ValueOk := by
  cases hr with
  | bool | number | string => exact .step rfl (.refl h) trivial
  | _ => exact .fail h

/-! ## Expressions -/

theorem keeps_evaluateAll (he : Evaluates bound evaluate) : ∀ {es : List Expr} {s : State},
    Sound bound s → At s.machine position →
    Expr.allSites position.around position.scopes es ⊆ s.sites →
    Keeps bound s (evaluateAll (evaluate position) es) fun s' vs => ∀ v ∈ vs, ValueOk s' v
  | [], _, h, _, _ => .pure h nofun
  | first :: others, s, h, ha, hsites => by
    obtain ⟨hfirst, hothers⟩ := List.append_subset.mp hsites
    refine (he h ha hfirst).bind fun v s₁ hs₁ hv => ?_
    rw [← hs₁.sites] at hothers
    refine (keeps_evaluateAll he hs₁.sound (ha.becomes hs₁) hothers).bind fun vs s₂ hs₂ hvs => ?_
    exact .pure hs₂.sound (List.forall_mem_cons.mpr ⟨hv.mono hs₂.grows, hvs⟩)

/-- **One step into an expression** keeps a state sound. -/
theorem keeps_evaluateWith (he : Evaluates bound evaluate) (hx : Executes bound execute) :
    ∀ {e : Expr}, Sound bound s → At s.machine position →
      e.sites position.around position.scopes ⊆ s.sites →
      Keeps bound s (evaluateWith (evaluate position) execute e) ValueOk
  | .literal value, h, _, _ => .pure h (valueOk_ofLiteral value)
  | .group inner, h, ha, hsites => he (e := inner) h ha (List.cons_subset.mp hsites).2
  | .unary op line operand, h, ha, hsites =>
    (he (e := operand) h ha (List.cons_subset.mp hsites).2).bind fun v _ hs₁ _ =>
      keeps_ofExcept hs₁.sound (Machine.computed_applyUnary op line v)
  | .binary left op line right, h, ha, hsites => by
    obtain ⟨hleft, hright⟩ := List.append_subset.mp (List.cons_subset.mp hsites).2
    refine (he h ha hleft).bind fun a s₁ hs₁ _ => ?_
    rw [← hs₁.sites] at hright
    refine (he hs₁.sound (ha.becomes hs₁) hright).bind fun b s₂ hs₂ _ => ?_
    exact keeps_ofExcept hs₂.sound (Machine.computed_applyBinary op line a b)
  | .logical left op right, h, ha, hsites => by
    obtain ⟨hleft, hright⟩ := List.append_subset.mp (List.cons_subset.mp hsites).2
    refine (he h ha hleft).bind fun a s₁ hs₁ hv => ?_
    rw [← hs₁.sites] at hright
    by_cases hsettles : Machine.settles op a = true
    · rw [if_pos hsettles]
      exact .pure hs₁.sound hv
    · rw [if_neg hsettles]
      exact he hs₁.sound (ha.becomes hs₁) hright
  | .var _, h, _, _ | .this _, h, _, _ => (keeps_lookUp h).mono fun _ _ _ hv => hv.2
  | .assign target value, h, ha, hsites => by
    obtain ⟨hsite, hvalue⟩ := List.cons_subset.mp hsites
    obtain ⟨_, -, htarget⟩ := h.recorded _ hsite
    refine (he h ha hvalue).bind fun v s₁ hs₁ hv => ?_
    refine (keeps_store hs₁.sound htarget.1 hv).bind fun _ s₂ hs₂ _ => ?_
    exact .pure hs₂.sound (hv.mono hs₂.grows)
  | .call callee line args, h, ha, hsites => by
    obtain ⟨hcallee, hargs⟩ := List.append_subset.mp (List.cons_subset.mp hsites).2
    refine (he h ha hcallee).bind fun f s₁ hs₁ hf => ?_
    rw [← hs₁.sites] at hargs
    refine (keeps_evaluateAll he hs₁.sound (ha.becomes hs₁) hargs).bind fun vs s₂ hs₂ hvs => ?_
    exact keeps_callValue hx hs₂.sound (hf.mono hs₂.grows) hvs
  | .get object name, h, ha, hsites => by
    refine (he (e := object) h ha (List.cons_subset.mp hsites).2).bind fun v s₁ hs₁ _ => ?_
    cases v with
    | inst id => exact keeps_property hs₁.sound
    | _ => exact .fail hs₁.sound
  | .set object name value, h, ha, hsites => by
    obtain ⟨hobject, hvalue⟩ := List.append_subset.mp (List.cons_subset.mp hsites).2
    refine (he h ha hobject).bind fun v s₁ hs₁ _ => ?_
    rw [← hs₁.sites] at hvalue
    cases v with
    | inst id =>
      refine (he hs₁.sound (ha.becomes hs₁) hvalue).bind fun u s₂ hs₂ hu => ?_
      refine (keeps_setField hs₂.sound hu).bind fun _ s₃ hs₃ _ => ?_
      exact .pure hs₃.sound (hu.mono hs₃.grows)
    | _ => exact .fail hs₁.sound
  | .super _ _, h, _, _ => keeps_superMethod h

theorem keeps_evaluate? (he : Evaluates bound evaluate) {e : Option Expr} (h : Sound bound s)
    (ha : At s.machine position) (hsites : Expr.sites? position.around position.scopes e ⊆ s.sites) :
    Keeps bound s (evaluate? (evaluate position) e) ValueOk := by
  cases e with
  | none => exact .pure h trivial
  | some e => exact he h ha hsites

/-! ## Statements -/

theorem keeps_loop {condition : Run Value} {body : Run Flow}
    (hc : ∀ {s'}, Becomes bound s s' → Keeps bound s' condition ValueOk)
    (hb : ∀ {s'}, Becomes bound s s' → Keeps bound s' body FlowOk) :
    ∀ (rounds : Nat) {s' : State}, Becomes bound s s' →
      Keeps bound s' (loop condition body rounds) FlowOk
  | 0, _, hs => .outOfFuel hs.sound
  | rounds + 1, s', hs => by
    refine (hc hs).bind fun v s₁ hs₁ _ => ?_
    by_cases htruthy : v.isTruthy = true
    · rw [if_pos htruthy]
      refine (hb (hs.trans hs₁)).bind fun flow s₂ hs₂ hflow => ?_
      cases flow with
      | normal => exact keeps_loop hc hb rounds ((hs.trans hs₁).trans hs₂)
      | returned u => exact .pure hs₂.sound hflow
    · rw [if_neg htruthy]
      exact .pure hs₁.sound trivial

/-- **A block** runs in a new frame. -/
theorem keeps_runBlock (hx : Executes bound execute) {body : List Stmt} (h : Sound bound s)
    (ha : At s.machine position)
    (hsites : Stmt.allSites position.around position.scopes.enter body ⊆ s.sites) :
    Keeps bound s (runBlock execute position body) FlowOk := by
  refine Keeps.get ((keeps_newFrame h fun _ _ hv => by cases hv).bind
    fun frame s₁ hs₁ ⟨hsame, hframe⟩ => ?_)
  subst hsame hframe
  refine (Keeps.withFrame (keeps_runAll hx (hs₁.sound.moveTo _) ha.inside hsites)).mono
    fun flow s₂ _ hflow => ?_
  exact hflow.mono (.of_moveTo s₂ _)

/-- **One step into a statement** keeps a state sound. -/
theorem keeps_executeWith (he : Evaluates bound evaluate) (hx : Executes bound execute)
    (rounds : Nat) : ∀ {stmt : Stmt}, Sound bound s → At s.machine position →
      stmt.sites position.around position.scopes ⊆ s.sites →
      Keeps bound s (executeWith evaluate execute rounds position stmt) fun s' flow =>
        FlowOk s' flow ∧ At s'.machine (position.behind stmt)
  | .expr value, h, ha, hsites =>
    (he (e := value) h ha (List.cons_subset.mp hsites).2).bind fun _ _ hs₁ _ =>
      .pure hs₁.sound ⟨trivial, ha.becomes hs₁⟩
  | .print value, h, ha, hsites =>
    (he (e := value) h ha (List.cons_subset.mp hsites).2).bind fun _ _ hs₁ _ =>
      Keeps.getHeap ((keeps_writeLine hs₁.sound).bind fun _ _ hs₂ _ =>
        .pure hs₂.sound ⟨trivial, ha.becomes (hs₁.trans hs₂)⟩)
  | .var name initializer, h, ha, hsites => by
    obtain ⟨hsite, hinitializer⟩ := List.cons_subset.mp hsites
    obtain ⟨hname, hfresh, -⟩ := h.recorded _ hsite
    refine (keeps_evaluate? he h (ha.declaring hfresh) hinitializer).bind fun v s₁ hs₁ hv => ?_
    refine (keeps_define hs₁.sound hname (hv.mono (.define _ v hname))).bind
      fun _ s₂ hs₂ hsame => ?_
    refine .pure hs₂.sound ⟨trivial, ?_⟩
    rw [hsame]
    exact (ha.becomes hs₁).declared hname
  | .block body, h, ha, hsites => by
    have hbody := (List.cons_subset.mp hsites).2
    exact (keeps_runBlock hx h ha hbody).mono fun _ _ hs₁ hflow => ⟨hflow, ha.becomes hs₁⟩
  | .ifElse condition thenBranch none, h, ha, hsites => by
    obtain ⟨hsite, hparts⟩ := List.cons_subset.mp hsites
    obtain ⟨hcondition, hthen⟩ := List.append_subset.mp hparts
    have hresolved := h.recorded _ hsite
    rw [Position.behind_eq hresolved rfl]
    obtain ⟨-, hdeclared, hbranch⟩ := hresolved
    refine (he h ha hcondition).bind fun v s₁ hs₁ _ => ?_
    rw [← hs₁.sites] at hthen
    have ha₁ := ha.becomes hs₁
    by_cases htruthy : v.isTruthy = true
    · rw [if_pos htruthy]
      have hrun := hx hs₁.sound ha₁ hthen
      rw [Position.behind_eq hbranch hdeclared] at hrun
      exact hrun
    · rw [if_neg htruthy]
      exact .pure hs₁.sound ⟨trivial, ha₁⟩
  | .ifElse condition thenBranch (some elseBranch), h, ha, hsites => by
    obtain ⟨hsite, hparts⟩ := List.cons_subset.mp hsites
    obtain ⟨hparts, helse⟩ := List.append_subset.mp hparts
    obtain ⟨hcondition, hthen⟩ := List.append_subset.mp hparts
    have hresolved := h.recorded _ hsite
    rw [Position.behind_eq hresolved rfl]
    obtain ⟨-, hdeclared, hbranch, hdeclared', hbranch'⟩ := hresolved
    have hbehind : position.behind thenBranch = position := Position.behind_eq hbranch hdeclared
    refine (he h ha hcondition).bind fun v s₁ hs₁ _ => ?_
    rw [← hs₁.sites] at hthen helse
    have ha₁ := ha.becomes hs₁
    by_cases htruthy : v.isTruthy = true
    · rw [if_pos htruthy]
      have hrun := hx hs₁.sound ha₁ hthen
      rw [hbehind] at hrun
      exact hrun
    · rw [if_neg htruthy]
      have hbetween : At s₁.machine (position.behind thenBranch) := by rwa [hbehind]
      have hrun := hx hs₁.sound hbetween helse
      rw [hbehind, Position.behind_eq hbranch' hdeclared'] at hrun
      simp only [hbehind]
      exact hrun
  | .whileDo condition body, h, ha, hsites => by
    obtain ⟨hsite, hparts⟩ := List.cons_subset.mp hsites
    obtain ⟨hcondition, hbody⟩ := List.append_subset.mp hparts
    have hresolved := h.recorded _ hsite
    rw [Position.behind_eq hresolved rfl]
    refine (keeps_loop (fun hs₁ => ?_) (fun hs₁ => ?_) rounds (.refl h)).mono
      fun _ _ hs₁ hflow => ⟨hflow, ha.becomes hs₁⟩
    · rw [← hs₁.sites] at hcondition
      exact he hs₁.sound (ha.becomes hs₁) hcondition
    · rw [← hs₁.sites] at hbody
      exact (hx hs₁.sound (ha.becomes hs₁) hbody).mono fun _ _ _ hflow => hflow.1
  | .function declaration, h, ha, hsites => by
    obtain ⟨hsite, hbody⟩ := List.cons_subset.mp hsites
    exact (keeps_declareFunction h ha hsite hbody).bind fun _ _ hs₁ ha₁ =>
      .pure hs₁.sound ⟨trivial, ha₁⟩
  | .ret keyword value, h, ha, hsites =>
    (keeps_evaluate? he (e := value) h ha (List.cons_subset.mp hsites).2).bind fun _ _ hs₁ hv =>
      .pure hs₁.sound ⟨hv, ha.becomes hs₁⟩
  | .classDecl name superclass methods, h, ha, hsites =>
    (keeps_declareClass h ha hsites).bind fun _ _ hs₁ ha₁ => .pure hs₁.sound ⟨trivial, ha₁⟩

/-! ## Any amount of fuel -/

mutual

/-- **All expressions keep a state sound.** -/
theorem evaluates : ∀ fuel : Nat, Evaluates bound (Observed.evaluate fuel)
  | 0, _, _, _, h, _, _ => .outOfFuel h
  | fuel + 1, _, position, e, h, ha, hsites => by
    have hsite := hsites (e.mem_sites position.around position.scopes)
    refine (keeps_visit h hsite ha).bind fun _ s₁ hs₁ _ => ?_
    rw [← hs₁.sites] at hsites
    exact keeps_evaluateWith (evaluates fuel) (executes fuel) hs₁.sound (ha.becomes hs₁) hsites

/-- **All statements keep a state sound.** -/
theorem executes : ∀ fuel : Nat, Executes bound (Observed.execute fuel)
  | 0, _, _, _, h, _, _ => .outOfFuel h
  | fuel + 1, _, position, stmt, h, ha, hsites => by
    have hsite := hsites (stmt.mem_sites position.around position.scopes)
    refine (keeps_visit h hsite ha).bind fun _ s₁ hs₁ _ => ?_
    rw [← hs₁.sites] at hsites
    exact keeps_executeWith (evaluates fuel) (executes fuel) fuel hs₁.sound (ha.becomes hs₁) hsites

end

/-- **Programs keep a state sound** that the walk came by. -/
theorem keeps_runProgram (fuel : Nat) : ∀ {program : Program} {s : State} {position : Position},
    Sound bound s → At s.machine position →
    Stmt.allSites position.around position.scopes program ⊆ s.sites →
    Keeps bound s (runProgram fuel position program) fun _ _ => True
  | [], _, _, h, _, _ => .pure h trivial
  | first :: others, s, position, h, ha, hsites => by
    obtain ⟨hfirst, hothers⟩ := List.append_subset.mp hsites
    refine (executes fuel h ha hfirst).bind fun _ s₁ hs₁ ⟨_, ha₁⟩ => ?_
    rw [← hs₁.sites] at hothers
    exact keeps_runProgram fuel hs₁.sound ha₁ hothers

end Lox.Observed
