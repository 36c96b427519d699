import Lox.Proofs.Interpret
import Lox.Proofs.Jobs.Basic

/-!
# The parts of a job are all that it comes to

What a job comes to is settled by its parts: whoever runs expressions and statements in any way that
agrees with the machine on the parts of a job does what the machine does for the job
(`Job.complete`).  So no run is missing among the parts.  An expression comes to expressions and
calls (`Job.of_mem_ofExpr`), a statement to expressions and statements (`Job.of_mem_ofStmt`), and a
call to the statements of a body (`Job.stmt_of_mem_ofBody`).
-/

namespace Lox

theorem Stmt.mem_own (s : Stmt) : s ∈ s.own := by
  cases s with
  | ifElse condition thenBranch elseBranch => cases elseBranch <;> exact List.mem_cons_self
  | _ => exact List.mem_cons_self

theorem Stmt.mem_allOwn {s t : Stmt} (ht : t ∈ s.own) : ∀ {body : List Stmt}, s ∈ body →
    t ∈ Stmt.allOwn body
  | _ :: _, hs => by
    rcases List.mem_cons.mp hs with rfl | hs
    · exact List.mem_append_left _ ht
    · exact List.mem_append_right _ (mem_allOwn ht hs)

namespace Machine

open Run

section
variable {α : Type} {job : Job}

theorem mem_followedBy {x : Run α} {m : Machine} {next : α → Machine → List Job} :
    job ∈ x.followedBy m next ↔ ∃ a m', x m = .ok a m' ∧ job ∈ next a m' := by
  unfold Run.followedBy
  cases x m with
  | ok a m' =>
    constructor
    · exact fun h => ⟨a, m', rfl, h⟩
    · rintro ⟨_, _, ⟨⟩, h⟩
      exact h
  | error stop m' =>
    constructor
    · exact fun h => absurd h List.not_mem_nil
    · rintro ⟨_, _, ⟨⟩, _⟩

theorem mem_continuedBy {x : Run Flow} {m : Machine} {next : Machine → List Job} :
    job ∈ x.continuedBy m next ↔ ∃ m', x m = .ok .normal m' ∧ job ∈ next m' := by
  unfold Run.continuedBy
  rw [mem_followedBy]
  constructor
  · rintro ⟨flow, m', hx, h⟩
    split at h
    · next hflow => exact ⟨m', hflow ▸ hx, h⟩
    · exact absurd h List.not_mem_nil
  · rintro ⟨m', hx, h⟩
    exact ⟨.normal, m', hx, by rwa [if_pos rfl]⟩

end

/-! ## Inside another frame -/

section
variable {α : Type} {x : Run α} {frame : FrameId} {m m' : Machine}

theorem withFrame_eq_ok {a : α} : withFrame frame x m = .ok a m' ↔
    ∃ m₁, x { m with environment := frame } = .ok a m₁ ∧
      m' = { m₁ with environment := m.environment } := by
  unfold withFrame
  cases x { m with environment := frame } with
  | ok b m₁ =>
    constructor
    · rintro ⟨⟩
      exact ⟨m₁, rfl, rfl⟩
    · rintro ⟨_, ⟨⟩, rfl⟩
      rfl
  | error stop m₁ => exact ⟨nofun, nofun⟩

theorem withFrame_of_error {stop : Stop} (h : x { m with environment := frame } = .error stop m') :
    withFrame frame x m = .error stop { m' with environment := m.environment } := by
  unfold withFrame
  rw [h]

variable {id : FunctionId} {args : List Value} {execute : Stmt → Run Flow}

/-- **A call runs the body** in a new frame, and comes back from there. -/
theorem callFunction_inCall : callFunction execute id args m =
    (withFrame (m.inCall id args).environment
        (runAll execute (m.heap.function id).declaration.body) >>= fun flow =>
      if (m.heap.function id).isInitializer then getAt (m.heap.function id).closure 0 thisName
      else pure flow.result) { m.inCall id args with environment := m.environment } := rfl

theorem callFunction_of_error {stop : Stop}
    (h : runAll execute (m.heap.function id).declaration.body (m.inCall id args) =
      .error stop m') :
    callFunction execute id args m = .error stop { m' with environment := m.environment } := by
  rw [callFunction_inCall]
  exact Steps.bind_of_error (withFrame_of_error h)

theorem callFunction_of_ok {flow : Flow}
    (h : runAll execute (m.heap.function id).declaration.body (m.inCall id args) =
      .ok flow m') :
    callFunction execute id args m =
      (if (m.heap.function id).isInitializer then
        getAt (m.heap.function id).closure 0 thisName
      else pure flow.result) { m' with environment := m.environment } := by
  rw [callFunction_inCall]
  exact Steps.bind_of_ok (withFrame_eq_ok.mpr ⟨m', h, rfl⟩)

end

namespace Job

variable {fuel : Nat} {m : Machine} {job : Job}

/-! ## What parts are -/

theorem expr_of_mem_ofExprs : ∀ {es : List Expr} {m : Machine}, job ∈ ofExprs fuel es m →
    ∃ e m', job = ⟨fuel, .expr e, m'⟩
  | e :: _, m, h => by
    rcases List.mem_cons.mp h with rfl | h
    · exact ⟨e, m, rfl⟩
    · obtain ⟨_, _, -, h⟩ := mem_followedBy.mp h
      exact expr_of_mem_ofExprs h

theorem stmt_of_mem_ofBody : ∀ {body : List Stmt} {m : Machine}, job ∈ ofBody fuel body m →
    ∃ s m', s ∈ body ∧ job = ⟨fuel, .stmt s, m'⟩
  | s :: ss, m, h => by
    rcases List.mem_cons.mp h with rfl | h
    · exact ⟨s, m, List.mem_cons_self, rfl⟩
    · obtain ⟨_, -, h⟩ := mem_continuedBy.mp h
      obtain ⟨t, m', ht, hjob⟩ := stmt_of_mem_ofBody h
      exact ⟨t, m', List.mem_cons_of_mem _ ht, hjob⟩

/-- **The jobs of a program** are its statements, each behind those before it. -/
theorem mem_ofProgram : ∀ {program : Program} {m : Machine}, job ∈ ofProgram fuel program m ↔
    ∃ before s later m', program = before ++ s :: later ∧ runProgram fuel before m = .ok () m' ∧
      job = ⟨fuel, .stmt s, m'⟩
  | [], m => ⟨fun h => absurd h List.not_mem_nil, fun ⟨before, _, _, _, h, _⟩ =>
      absurd h.symm (List.append_ne_nil_of_right_ne_nil before (List.cons_ne_nil _ _))⟩
  | s :: others, m => by
    constructor
    · intro h
      rcases List.mem_cons.mp h with rfl | h
      · exact ⟨[], s, others, m, rfl, rfl, rfl⟩
      · obtain ⟨flow, m₁, hs, h⟩ := mem_followedBy.mp h
        obtain ⟨before, t, later, m', rfl, hbefore, hjob⟩ := mem_ofProgram.mp h
        exact ⟨s :: before, t, later, m', rfl, (runProgram_cons_of_ok hs).trans hbefore, hjob⟩
    · rintro ⟨before, t, later, m', hprogram, hbefore, hjob⟩
      cases before with
      | nil =>
        cases hprogram
        cases hbefore
        exact List.mem_cons.mpr (.inl hjob)
      | cons first before =>
        cases hprogram
        obtain ⟨flow, m₁, hs, hbefore⟩ := Steps.bind_eq_ok.mp hbefore
        have hothers := mem_ofProgram.mpr ⟨before, t, later, m', rfl, hbefore, hjob⟩
        exact List.mem_cons_of_mem _ (mem_followedBy.mpr ⟨flow, m₁, hs, hothers⟩)

theorem of_mem_ofLoop {condition : Expr} {body : Stmt} : ∀ {rounds : Nat} {m : Machine},
    job ∈ ofLoop fuel condition body rounds m →
    ∃ m', job = ⟨fuel, .expr condition, m'⟩ ∨ job = ⟨fuel, .stmt body, m'⟩
  | rounds + 1, m, h => by
    rcases List.mem_cons.mp h with rfl | h
    · exact ⟨m, .inl rfl⟩
    · obtain ⟨_, m₁, -, h⟩ := mem_followedBy.mp h
      split at h
      · rcases List.mem_cons.mp h with rfl | h
        · exact ⟨m₁, .inr rfl⟩
        · obtain ⟨_, -, h⟩ := mem_continuedBy.mp h
          exact of_mem_ofLoop h
      · exact absurd h List.not_mem_nil

theorem call_of_mem_ofCall {callee : Value} {args : List Value}
    (h : job ∈ ofCall fuel callee args m) : ∃ id m', job = ⟨fuel, .call id args, m'⟩ := by
  unfold ofCall at h
  split at h
  · exact absurd h List.not_mem_nil
  · next target _ =>
    split at h
    · cases target with
      | native f => exact absurd h List.not_mem_nil
      | function id => exact ⟨id, m, List.mem_singleton.mp h⟩
      | cls id =>
        obtain ⟨init, -, rfl⟩ := List.mem_map.mp h
        exact ⟨_, _, rfl⟩
    · exact absurd h List.not_mem_nil

/-- **An expression** comes to expressions, and if it is a call, then to what the call of a value
comes to behind its arguments. -/
theorem of_mem_ofExpr {e : Expr} (h : job ∈ ofExpr fuel m e) :
    (∃ e' m', job = ⟨fuel, .expr e', m'⟩) ∨
      ∃ callee line es f m₁ args m₂, e = .call callee line es ∧ evaluate fuel callee m = .ok f m₁ ∧
        evaluateAll (evaluate fuel) es m₁ = .ok args m₂ ∧ job ∈ ofCall fuel f args m₂ := by
  cases e with
  | literal _ | var _ | this _ | super _ _ => exact absurd h List.not_mem_nil
  | group _ | unary _ _ _ | assign _ _ | get _ _ => exact .inl ⟨_, _, List.mem_singleton.mp h⟩
  | binary left _ _ right => exact .inl (expr_of_mem_ofExprs h)
  | logical left op right =>
    rcases List.mem_cons.mp h with rfl | h
    · exact .inl ⟨_, _, rfl⟩
    · obtain ⟨_, _, -, h⟩ := mem_followedBy.mp h
      split at h
      · exact absurd h List.not_mem_nil
      · exact .inl ⟨_, _, List.mem_singleton.mp h⟩
  | call callee line es =>
    rcases List.mem_cons.mp h with rfl | h
    · exact .inl ⟨_, _, rfl⟩
    · obtain ⟨f, m₁, hf, h⟩ := mem_followedBy.mp h
      rcases List.mem_append.mp h with h | h
      · exact .inl (expr_of_mem_ofExprs h)
      · obtain ⟨args, m₂, hargs, h⟩ := mem_followedBy.mp h
        exact .inr ⟨callee, line, es, f, m₁, args, m₂, rfl, hf, hargs, h⟩
  | set object name value =>
    rcases List.mem_cons.mp h with rfl | h
    · exact .inl ⟨_, _, rfl⟩
    · obtain ⟨_, _, -, h⟩ := mem_followedBy.mp h
      split at h
      · exact .inl ⟨_, _, List.mem_singleton.mp h⟩
      · exact absurd h List.not_mem_nil

/-- **A statement** comes to expressions, and to statements inside it. -/
theorem of_mem_ofStmt {s : Stmt} (h : job ∈ ofStmt fuel m s) :
    (∃ e m', job = ⟨fuel, .expr e, m'⟩) ∨
      ∃ t m', job = ⟨fuel, .stmt t, m'⟩ ∧ ∀ u ∈ t.own, u ∈ s.own := by
  cases s with
  | function _ | classDecl _ _ _ => exact absurd h List.not_mem_nil
  | expr _ | print _ => exact .inl ⟨_, _, List.mem_singleton.mp h⟩
  | var _ value | ret _ value =>
    obtain ⟨e, -, rfl⟩ := List.mem_map.mp h
    exact .inl ⟨e, m, rfl⟩
  | block body =>
    obtain ⟨t, m', ht, rfl⟩ := stmt_of_mem_ofBody h
    exact .inr ⟨t, m', rfl, fun u hu => List.mem_cons_of_mem _ (Stmt.mem_allOwn hu ht)⟩
  | whileDo condition body =>
    obtain ⟨m', rfl | rfl⟩ := of_mem_ofLoop h
    · exact .inl ⟨condition, m', rfl⟩
    · exact .inr ⟨body, m', rfl, fun u hu => List.mem_cons_of_mem _ hu⟩
  | ifElse condition thenBranch elseBranch =>
    rcases List.mem_cons.mp h with rfl | h
    · exact .inl ⟨condition, m, rfl⟩
    · obtain ⟨_, m', -, h⟩ := mem_followedBy.mp h
      split at h
      · refine .inr ⟨thenBranch, m', List.mem_singleton.mp h, fun u hu => ?_⟩
        cases elseBranch with
        | none => exact List.mem_cons_of_mem _ hu
        | some _ => exact List.mem_cons_of_mem _ (List.mem_append_left _ hu)
      · obtain ⟨branch, hbranch, rfl⟩ := List.mem_map.mp h
        cases Option.mem_toList.mp hbranch
        exact .inr ⟨branch, m', rfl, fun u hu => List.mem_cons_of_mem _ (List.mem_append_right _ hu)⟩

/-- **Parts are parts** of an expression or a statement, one unit of fuel later, or of a call. -/
theorem parts_cases {part : Job} (h : part ∈ job.parts) :
    (∃ fuel e m, job = ⟨fuel + 1, .expr e, m⟩ ∧ part ∈ ofExpr fuel m e) ∨
      (∃ fuel s m, job = ⟨fuel + 1, .stmt s, m⟩ ∧ part ∈ ofStmt fuel m s) ∨
      ∃ fuel id args m, job = ⟨fuel, .call id args, m⟩ ∧
        part ∈ ofBody fuel (m.heap.function id).declaration.body (m.inCall id args) := by
  obtain ⟨fuel, work, m⟩ := job
  cases work with
  | call id args => exact .inr (.inr ⟨fuel, id, args, m, rfl, h⟩)
  | expr e =>
    cases fuel with
    | zero => exact absurd h List.not_mem_nil
    | succ fuel => exact .inl ⟨fuel, e, m, rfl, h⟩
  | stmt s =>
    cases fuel with
    | zero => exact absurd h List.not_mem_nil
    | succ fuel => exact .inr (.inl ⟨fuel, s, m, rfl, h⟩)

/-! ## No part is missing -/

section
variable (evaluate' : Expr → Run Value) (execute' : Stmt → Run Flow)

/-- Whether other runs of expressions and statements do what the machine does for a job. -/
def DoneBy (job : Job) : Prop :=
  match job.work with
  | .expr e => evaluate' e job.machine = evaluate job.fuel e job.machine
  | .stmt s => execute' s job.machine = execute job.fuel s job.machine
  | .call id args => callFunction execute' id args job.machine =
      callFunction (execute job.fuel) id args job.machine

variable {evaluate' execute'}

theorem evaluateAll_eq : ∀ {es : List Expr} {m : Machine},
    (∀ job ∈ ofExprs fuel es m, job.DoneBy evaluate' execute') →
    evaluateAll evaluate' es m = evaluateAll (evaluate fuel) es m
  | [], _, _ => rfl
  | e :: es, m, h => by
    obtain ⟨hfirst, hothers⟩ := List.forall_mem_cons.mp h
    refine Steps.bind_eq_bind hfirst fun v m₁ hv => ?_
    have hothers := evaluateAll_eq fun job hjob =>
      hothers job (mem_followedBy.mpr ⟨v, m₁, hv, hjob⟩)
    exact Steps.bind_eq_bind hothers fun _ _ _ => rfl

theorem runAll_eq : ∀ {body : List Stmt} {m : Machine},
    (∀ job ∈ ofBody fuel body m, job.DoneBy evaluate' execute') →
    runAll execute' body m = runAll (execute fuel) body m
  | [], _, _ => rfl
  | s :: ss, m, h => by
    obtain ⟨hfirst, hothers⟩ := List.forall_mem_cons.mp h
    refine Steps.bind_eq_bind hfirst fun flow m₁ hflow => ?_
    cases flow with
    | returned v => rfl
    | normal =>
      exact runAll_eq fun job hjob => hothers job (mem_continuedBy.mpr ⟨m₁, hflow, hjob⟩)

theorem loop_eq {condition : Expr} {body : Stmt} : ∀ {rounds : Nat} {m : Machine},
    (∀ job ∈ ofLoop fuel condition body rounds m, job.DoneBy evaluate' execute') →
    loop (evaluate' condition) (execute' body) rounds m =
      loop (evaluate fuel condition) (execute fuel body) rounds m
  | 0, _, _ => rfl
  | rounds + 1, m, h => by
    obtain ⟨hcondition, hround⟩ := List.forall_mem_cons.mp h
    refine Steps.bind_eq_bind hcondition fun v m₁ hv => ?_
    cases htruthy : v.isTruthy with
    | false => rfl
    | true =>
      have hbody := fun job hjob => hround job (mem_followedBy.mpr ⟨v, m₁, hv, hjob⟩)
      rw [if_pos htruthy] at hbody
      obtain ⟨hbody, hrounds⟩ := List.forall_mem_cons.mp hbody
      refine Steps.bind_eq_bind hbody fun flow m₂ hflow => ?_
      cases flow with
      | returned v => rfl
      | normal => exact loop_eq fun job hjob => hrounds job (mem_continuedBy.mpr ⟨m₂, hflow, hjob⟩)

theorem withFrame_eq {α : Type} {x y : Run α} {frame : FrameId}
    (h : x { m with environment := frame } = y { m with environment := frame }) :
    withFrame frame x m = withFrame frame y m := by
  simp only [withFrame, h]

/-- **The body of a function** is all that its call comes to. -/
theorem callFunction_eq {id : FunctionId} {args : List Value}
    (h : ∀ job ∈ ofBody fuel (m.heap.function id).declaration.body (m.inCall id args),
      job.DoneBy evaluate' execute') :
    callFunction execute' id args m = callFunction (execute fuel) id args m := by
  have hbody := runAll_eq h
  refine Steps.bind_eq_bind rfl fun _ _ hheap => ?_
  cases hheap
  refine Steps.bind_eq_bind rfl fun frame m₁ hnew => ?_
  cases hnew
  exact Steps.bind_eq_bind (withFrame_eq hbody) fun _ _ _ => rfl

theorem call_eq {callee : Callable} {args : List Value}
    (h : ∀ job ∈ ofCallable fuel callee args m, job.DoneBy evaluate' execute') :
    call execute' callee args m = call (execute fuel) callee args m := by
  cases callee with
  | native f => rfl
  | function id => exact h _ (List.mem_singleton_self _)
  | cls id =>
    let receiver := m.heap.newInstance id
    let m₁ : Machine := { m with heap := receiver.2 }
    have hheap : getHeap m₁ = .ok m₁.heap m₁ := rfl
    have hnew : allocate (·.newInstance id) m = .ok receiver.1 m₁ := rfl
    show construct execute' id args m = construct (execute fuel) id args m
    rw [construct, construct, Steps.bind_of_ok hnew, Steps.bind_of_ok hnew,
      Steps.bind_of_ok hheap, Steps.bind_of_ok hheap]
    cases hfound : m₁.heap.findMethod? id initializerName with
    | none => rfl
    | some init =>
      have hcall := h ⟨fuel, .call (m₁.heap.bind init receiver.1).1 args,
        { m₁ with heap := (m₁.heap.bind init receiver.1).2 }⟩ (by
          show _ ∈ (m₁.heap.findMethod? id initializerName).toList.map _
          rw [hfound]
          exact List.mem_singleton_self _)
      refine Steps.bind_eq_bind rfl fun bound m₂ hbound => ?_
      cases hbound
      exact Steps.bind_eq_bind hcall fun _ _ _ => rfl

theorem callValue_eq {callee : Value} {line : Nat} {args : List Value}
    (h : ∀ job ∈ ofCall fuel callee args m, job.DoneBy evaluate' execute') :
    callValue execute' line callee args m = callValue (execute fuel) line callee args m := by
  unfold ofCall at h
  unfold callValue
  cases hcallee : callee.callable? with
  | none => rfl
  | some target =>
    simp only [hcallee] at h
    refine Steps.bind_eq_bind rfl fun heap m₁ hheap => ?_
    cases hheap
    by_cases hlength : args.length = m.heap.arity target
    · rw [if_pos hlength, if_pos hlength]
      rw [if_pos hlength] at h
      exact call_eq h
    · rw [if_neg hlength, if_neg hlength]

/-- **The parts of an expression** are all that it comes to. -/
theorem evaluateWith_eq {e : Expr} (h : ∀ job ∈ ofExpr fuel m e, job.DoneBy evaluate' execute') :
    evaluateWith evaluate' execute' e m = evaluate (fuel + 1) e m := by
  cases e with
  | literal _ => rfl
  | var _ => rfl
  | this _ => rfl
  | super _ _ => rfl
  | group inner => exact h _ (List.mem_singleton_self _)
  | unary op line operand =>
    exact Steps.bind_eq_bind (h _ (List.mem_singleton_self _)) fun _ _ _ => rfl
  | assign target value =>
    exact Steps.bind_eq_bind (h _ (List.mem_singleton_self _)) fun _ _ _ => rfl
  | get object name =>
    exact Steps.bind_eq_bind (h _ (List.mem_singleton_self _)) fun _ _ _ => rfl
  | binary left op line right =>
    obtain ⟨hleft, hright⟩ := List.forall_mem_cons.mp h
    refine Steps.bind_eq_bind hleft fun a m₁ ha => ?_
    have hright := hright _ (mem_followedBy.mpr ⟨a, m₁, ha, List.mem_cons_self⟩)
    exact Steps.bind_eq_bind hright fun _ _ _ => rfl
  | logical left op right =>
    obtain ⟨hleft, hright⟩ := List.forall_mem_cons.mp h
    refine Steps.bind_eq_bind hleft fun a m₁ ha => ?_
    have hright := fun job hjob => hright job (mem_followedBy.mpr ⟨a, m₁, ha, hjob⟩)
    cases hsettles : settles op a with
    | true => rfl
    | false =>
      simp only [hsettles] at hright
      exact hright _ (List.mem_singleton_self _)
  | call callee line args =>
    obtain ⟨hcallee, hbehind⟩ := List.forall_mem_cons.mp h
    refine Steps.bind_eq_bind hcallee fun f m₁ hf => ?_
    have hbehind := fun job hjob => hbehind job (mem_followedBy.mpr ⟨f, m₁, hf, hjob⟩)
    obtain ⟨hargs, hcall⟩ := List.forall_mem_append.mp hbehind
    refine Steps.bind_eq_bind (evaluateAll_eq hargs) fun values m₂ hvalues => ?_
    exact callValue_eq fun job hjob => hcall job (mem_followedBy.mpr ⟨values, m₂, hvalues, hjob⟩)
  | set object name value =>
    obtain ⟨hobject, hvalue⟩ := List.forall_mem_cons.mp h
    refine Steps.bind_eq_bind hobject fun target m₁ htarget => ?_
    have hvalue := fun job hjob => hvalue job (mem_followedBy.mpr ⟨target, m₁, htarget, hjob⟩)
    cases target with
    | inst id =>
      exact Steps.bind_eq_bind (hvalue _ (List.mem_singleton_self _)) fun _ _ _ => rfl
    | _ => rfl

theorem evaluate?_eq {value : Option Expr}
    (h : ∀ job ∈ value.toList.map fun value => (⟨fuel, .expr value, m⟩ : Job),
      job.DoneBy evaluate' execute') :
    evaluate? evaluate' value m = evaluate? (evaluate fuel) value m := by
  cases value with
  | none => rfl
  | some value => exact h _ (List.mem_singleton_self _)

/-- **The parts of a statement** are all that it comes to. -/
theorem executeWith_eq {s : Stmt} (h : ∀ job ∈ ofStmt fuel m s, job.DoneBy evaluate' execute') :
    executeWith evaluate' execute' fuel s m = execute (fuel + 1) s m := by
  cases s with
  | function _ => rfl
  | classDecl _ _ _ => rfl
  | expr value => exact Steps.bind_eq_bind (h _ (List.mem_singleton_self _)) fun _ _ _ => rfl
  | print value => exact Steps.bind_eq_bind (h _ (List.mem_singleton_self _)) fun _ _ _ => rfl
  | var name value => exact Steps.bind_eq_bind (evaluate?_eq h) fun _ _ _ => rfl
  | ret keyword value => exact Steps.bind_eq_bind (evaluate?_eq h) fun _ _ _ => rfl
  | block body =>
    have hbody := runAll_eq h
    refine Steps.bind_eq_bind rfl fun _ _ hget => ?_
    cases hget
    refine Steps.bind_eq_bind rfl fun frame m₁ hnew => ?_
    cases hnew
    exact withFrame_eq hbody
  | ifElse condition thenBranch elseBranch =>
    obtain ⟨hcondition, hbranch⟩ := List.forall_mem_cons.mp h
    refine Steps.bind_eq_bind hcondition fun v m₁ hv => ?_
    have hbranch := fun job hjob => hbranch job (mem_followedBy.mpr ⟨v, m₁, hv, hjob⟩)
    cases htruthy : v.isTruthy with
    | true =>
      simp only [htruthy] at hbranch
      exact hbranch _ (List.mem_singleton_self _)
    | false =>
      simp only [htruthy] at hbranch
      cases elseBranch with
      | none => rfl
      | some branch => exact hbranch _ (List.mem_singleton_self _)
  | whileDo condition body => exact loop_eq h

/-- One step further, other runs do what the machine does for a job. -/
def BegunBy (evaluate' : Expr → Run Value) (execute' : Stmt → Run Flow) (job : Job) : Prop :=
  match job.work, job.fuel with
  | .expr _, 0 | .stmt _, 0 => True
  | .expr e, fuel + 1 =>
    evaluateWith evaluate' execute' e job.machine = evaluate (fuel + 1) e job.machine
  | .stmt s, fuel + 1 =>
    executeWith evaluate' execute' fuel s job.machine = execute (fuel + 1) s job.machine
  | .call id args, fuel => callFunction execute' id args job.machine =
      callFunction (execute fuel) id args job.machine

/-- **Whether the parts of a job are all that it comes to:** other runs that do what the machine does
for these do so for the job. -/
def Complete (job : Job) : Prop :=
  ∀ evaluate' execute', (∀ part ∈ job.parts, part.DoneBy evaluate' execute') →
    job.BegunBy evaluate' execute'

/-- **No run is missing** among the parts of a job. -/
theorem complete (job : Job) : job.Complete := by
  intro evaluate' execute' h
  obtain ⟨fuel, work, m⟩ := job
  cases work with
  | call id args => exact callFunction_eq h
  | expr e =>
    cases fuel with
    | zero => trivial
    | succ fuel => exact evaluateWith_eq h
  | stmt s =>
    cases fuel with
    | zero => trivial
    | succ fuel => exact executeWith_eq h

end

end Job

end Machine

end Lox
