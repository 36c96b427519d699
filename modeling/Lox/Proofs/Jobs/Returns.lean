import Lox.Proofs.Jobs.Sessions
import Lox.Proofs.Renaming.Findings

/-!
# Where returns end up

A statement that ends on the way out of a function makes the statement around it end so too, with the
same value and at the same machine but for the current frame (`Job.Returns.outwards`).  So a return
goes outwards from statement to statement, up to the call that these are run for, and this call yields
its value, or the receiver if it is the call of an initializer (`Job.Returns.yields`).

Outside all calls there is none that ends so: it would have a return inside it
(`Machine.traced_execute`), and that is a violation (`Stmt.violation_of_mem_own`).  For all that a
session runs this is put together in `Session.returns_caught`.
-/

namespace Lox

namespace Machine

open Run (withFrame)

namespace Job

variable {fuel : Nat} {m m' : Machine} {v : Value} {job part : Job}

/-- **Whether a job is a statement** that ends on the way out of a function with a value. -/
def Returns (job : Job) (v : Value) (m : Machine) : Prop :=
  ∃ s, job.work = .stmt s ∧ execute job.fuel s job.machine = .ok (.returned v) m

/-! ## Outwards -/

theorem Returns.ofBody (h : part.Returns v m') : ∀ {body : List Stmt} {m : Machine},
    part ∈ ofBody fuel body m → runAll (execute fuel) body m = .ok (.returned v) m'
  | s :: _, m, hpart => by
    rcases List.mem_cons.mp hpart with rfl | hpart
    · obtain ⟨_, ⟨⟩, hs⟩ := h
      exact Steps.bind_of_ok hs
    · obtain ⟨m₁, hs, hpart⟩ := mem_continuedBy.mp hpart
      exact (Steps.bind_of_ok hs).trans (h.ofBody hpart)

theorem Returns.ofLoop {condition : Expr} {body : Stmt} (h : part.Returns v m') :
    ∀ {rounds : Nat} {m : Machine}, part ∈ ofLoop fuel condition body rounds m →
      loop (evaluate fuel condition) (execute fuel body) rounds m = .ok (.returned v) m'
  | rounds + 1, m, hpart => by
    obtain ⟨s, hs, hreturned⟩ := h
    rcases List.mem_cons.mp hpart with rfl | hpart
    · cases hs
    · obtain ⟨c, m₁, hc, hpart⟩ := mem_followedBy.mp hpart
      refine (Steps.bind_of_ok hc).trans ?_
      split at hpart
      · next htruthy =>
        rw [if_pos htruthy]
        rcases List.mem_cons.mp hpart with rfl | hpart
        · cases hs
          exact Steps.bind_of_ok hreturned
        · obtain ⟨m₂, hbody, hpart⟩ := mem_continuedBy.mp hpart
          exact (Steps.bind_of_ok hbody).trans (Returns.ofLoop ⟨s, hs, hreturned⟩ hpart)
      · exact absurd hpart List.not_mem_nil

/-- **A statement ends** as the one inside it does that is on the way out. -/
theorem Returns.outwards {t : Stmt} (h : part.Returns v m') (hpart : part ∈ ofStmt fuel m t) :
    ∃ environment, execute (fuel + 1) t m = .ok (.returned v) { m' with environment } := by
  have hexpr : ∀ {e : Expr} {m : Machine}, part ≠ ⟨fuel, .expr e, m⟩ := by
    rintro e m rfl
    obtain ⟨_, ⟨⟩, _⟩ := h
  cases t with
  | function _ | classDecl _ _ _ => exact absurd hpart List.not_mem_nil
  | expr _ | print _ => exact absurd (List.mem_singleton.mp hpart) hexpr
  | var _ value | ret _ value =>
    obtain ⟨e, -, heq⟩ := List.mem_map.mp hpart
    exact absurd heq.symm hexpr
  | block body =>
    have hbody := h.ofBody hpart
    exact ⟨m.environment, withFrame_eq_ok.mpr ⟨m', hbody, rfl⟩⟩
  | whileDo condition body => exact ⟨m'.environment, h.ofLoop hpart⟩
  | ifElse condition thenBranch elseBranch =>
    refine ⟨m'.environment, ?_⟩
    rcases List.mem_cons.mp hpart with heq | hpart
    · exact absurd heq hexpr
    · obtain ⟨c, m₁, hc, hpart⟩ := mem_followedBy.mp hpart
      obtain ⟨s, hs, hreturned⟩ := h
      refine (Steps.bind_of_ok hc).trans ?_
      split at hpart
      · next htruthy =>
        rw [if_pos htruthy]
        cases List.mem_singleton.mp hpart
        cases hs
        exact hreturned
      · next htruthy =>
        rw [if_neg htruthy]
        obtain ⟨branch, hbranch, rfl⟩ := List.mem_map.mp hpart
        cases Option.mem_toList.mp hbranch
        cases hs
        exact hreturned

/-! ## Calls -/

/-- **Whether a call yields** what its body hands out: the value itself, or the receiver if it is the
call of an initializer.  It leaves the machine behind that the body leaves behind, in the frame of
the caller. -/
structure Yields (fuel : Nat) (m : Machine) (id : FunctionId) (args : List Value) (v : Value)
    (m' : Machine) : Prop where
  ordinary : (m.heap.function id).isInitializer = false →
    callFunction (execute fuel) id args m = .ok v { m' with environment := m.environment }
  initializer : (m.heap.function id).isInitializer = true → ∃ receiver,
    m.heap.BoundTo id receiver ∧ callFunction (execute fuel) id args m =
      .ok (.inst receiver) { m' with environment := m.environment }

/-- The frame that is current in the end makes no difference. -/
theorem Yields.of_environment {id : FunctionId} {args : List Value} {environment : FrameId}
    (h : Yields fuel m id args v { m' with environment }) : Yields fuel m id args v m' :=
  ⟨h.ordinary, h.initializer⟩

/-- **A call yields** what a statement of its body is on the way out with. -/
theorem Returns.yields {bound : NodeId} {id : FunctionId} {args : List Value}
    (h : part.Returns v m') (hjob : Job.Fit bound ⟨fuel, .call id args, m⟩)
    (hpart : part ∈ Job.ofBody fuel (m.heap.function id).declaration.body (m.inCall id args)) :
    Yields fuel m id args v m' := by
  obtain ⟨hm, hid, hargs⟩ := hjob
  have hbody := h.ofBody hpart
  constructor
  · intro hinit
    rw [callFunction_of_ok hbody, hinit]
    rfl
  · intro hinit
    obtain ⟨receiver, hbound⟩ := hid.bound hinit
    have hframe : callOn (execute fuel) receiver id args m =
        (withFrame (m.inCall id args).environment
            (runAll (execute fuel) (m.heap.function id).declaration.body) >>=
          fun _ => pure (.inst receiver)) { m.inCall id args with environment := m.environment } := rfl
    refine ⟨receiver, hbound, ?_⟩
    rw [hm.formed.callFunction_eq hbound hinit hargs, hframe]
    exact Steps.bind_of_ok (withFrame_eq_ok.mpr ⟨m', hbody, rfl⟩)

/-! ## Up to the call -/

/-- **Whether a call catches** what a job is on the way out with: no other call begins between the
two, the statement of the job is inside the body of the function that is called, and the call
yields the value. -/
structure Catches (call : Job) (id : FunctionId) (args : List Value) (inner : Job) (s : Stmt)
    (v : Value) (m : Machine) : Prop where
  work : call.work = .call id args
  encloses : call.Encloses inner
  inside : s ∈ Stmt.allOwn (call.machine.heap.function id).declaration.body
  yields : Yields call.fuel call.machine id args v m

/-- **A return goes outwards** to a call, or it makes the outermost job end so. -/
theorem Returns.caught {bound : NodeId} {job inner : Job} (hjob : job.Fit bound)
    (hinner : job.Includes inner) : ∀ {s : Stmt} {v : Value} {m : Machine}, inner.work = .stmt s →
    inner.Returns v m →
      (∃ call id args, job.Includes call ∧ call.Catches id args inner s v m ∧
        ∀ t ∈ s.own, t ∈ Stmt.allOwn (call.machine.heap.function id).declaration.body) ∨
        ∃ m', job.Returns v m' := by
  induction hinner with
  | refl => exact fun _ h => .inr ⟨_, h⟩
  | tail houter hmem ih =>
    intro s v m hs h
    rcases parts_cases hmem with
      ⟨fuel, e, m₀, rfl, hpart⟩ | ⟨fuel, t, m₀, rfl, hpart⟩ | ⟨fuel, id, args, m₀, rfl, hpart⟩
    · rcases of_mem_ofExpr hpart with ⟨_, _, rfl⟩ | ⟨_, _, _, _, _, _, _, -, -, -, hpart⟩
      · cases hs
      · obtain ⟨_, _, rfl⟩ := call_of_mem_ofCall hpart
        cases hs
    · obtain ⟨environment, hreturned⟩ := h.outwards hpart
      obtain ⟨_, _, rfl⟩ | ⟨_, m₁, rfl, hown⟩ := of_mem_ofStmt hpart <;> cases hs
      rcases ih rfl ⟨t, rfl, hreturned⟩ with ⟨call, id, args, hcall, hcatches, hinside⟩ | hends
      · have hinside := fun u hu => hinside u (hown u hu)
        exact .inl ⟨call, id, args, hcall, ⟨hcatches.work, hcatches.encloses.tail ⟨hmem, s, rfl⟩,
          hinside s (Stmt.mem_own s), hcatches.yields.of_environment⟩, hinside⟩
      · exact .inr hends
    · obtain ⟨t, m₁, ht, rfl⟩ := stmt_of_mem_ofBody hpart
      cases hs
      have hinside : ∀ u ∈ s.own, u ∈ Stmt.allOwn (m₀.heap.function id).declaration.body :=
        fun u hu => Stmt.mem_allOwn hu ht
      have hyields := h.yields (hjob.includes houter) hpart
      exact .inl ⟨_, id, args, houter, ⟨rfl, .single ⟨hmem, s, rfl⟩, hinside s (Stmt.mem_own s),
        hyields⟩, hinside⟩

end Job

/-! ## Outside all calls -/

section
variable {m m' : Machine} {v : Value}

/-- Whether a return is inside each statement that ends on the way out of a function. -/
def Traced (execute : Stmt → Run Flow) (s : Stmt) : Prop :=
  ∀ m v m', execute s m = .ok (.returned v) m' → ∃ keyword value, .ret keyword value ∈ s.own

theorem exists_ret_of_runAll {execute : Stmt → Run Flow} (hexecute : ∀ s, Traced execute s) :
    ∀ {body : List Stmt} {m : Machine}, runAll execute body m = .ok (.returned v) m' →
      ∃ keyword value, .ret keyword value ∈ Stmt.allOwn body
  | [], _, h => by cases h
  | s :: ss, m, h => by
    obtain ⟨flow, m₁, hs, h⟩ := Steps.bind_eq_ok.mp h
    cases flow with
    | returned u =>
      obtain ⟨keyword, value, hmem⟩ := hexecute s m u m₁ hs
      exact ⟨keyword, value, List.mem_append_left _ hmem⟩
    | normal =>
      obtain ⟨keyword, value, hmem⟩ := exists_ret_of_runAll hexecute h
      exact ⟨keyword, value, List.mem_append_right _ hmem⟩

theorem exists_ret_of_loop {condition : Run Value} {execute : Stmt → Run Flow} {body : Stmt}
    (hbody : Traced execute body) : ∀ {rounds : Nat} {m : Machine},
      loop condition (execute body) rounds m = .ok (.returned v) m' →
        ∃ keyword value, .ret keyword value ∈ body.own
  | 0, _, h => by cases h
  | rounds + 1, m, h => by
    obtain ⟨c, m₁, -, h⟩ := Steps.bind_eq_ok.mp h
    split at h
    · obtain ⟨flow, m₂, hround, h⟩ := Steps.bind_eq_ok.mp h
      cases flow with
      | returned u => exact hbody m₁ u m₂ hround
      | normal => exact exists_ret_of_loop hbody h
    · cases h

/-- **What ends on the way out of a function** has a return inside it. -/
theorem traced_execute : ∀ (fuel : Nat) (s : Stmt), Traced (execute fuel) s
  | 0, _, _, _, _, h => by cases h
  | fuel + 1, s, m, v, m', h => by
    cases s with
    | ret keyword value => exact ⟨keyword, value, Stmt.mem_own _⟩
    | expr _ | classDecl _ _ _ =>
      obtain ⟨_, _, -, h⟩ := Steps.bind_eq_ok.mp h
      cases h
    | var _ _ =>
      obtain ⟨_, _, -, h⟩ := Steps.bind_eq_ok.mp h
      obtain ⟨_, _, -, h⟩ := Steps.bind_eq_ok.mp h
      cases h
    | print _ | function _ =>
      obtain ⟨_, _, -, h⟩ := Steps.bind_eq_ok.mp h
      obtain ⟨_, _, -, h⟩ := Steps.bind_eq_ok.mp h
      obtain ⟨_, _, -, h⟩ := Steps.bind_eq_ok.mp h
      cases h
    | block body =>
      obtain ⟨_, _, -, h⟩ := Steps.bind_eq_ok.mp h
      obtain ⟨_, _, -, h⟩ := Steps.bind_eq_ok.mp h
      obtain ⟨_, hbody, -⟩ := withFrame_eq_ok.mp h
      obtain ⟨keyword, value, hmem⟩ := exists_ret_of_runAll (traced_execute fuel) hbody
      exact ⟨keyword, value, List.mem_cons_of_mem _ hmem⟩
    | whileDo condition body =>
      obtain ⟨keyword, value, hmem⟩ := exists_ret_of_loop (traced_execute fuel body) h
      exact ⟨keyword, value, List.mem_cons_of_mem _ hmem⟩
    | ifElse condition thenBranch elseBranch =>
      obtain ⟨c, m₁, -, h⟩ := Steps.bind_eq_ok.mp h
      split at h
      · obtain ⟨keyword, value, hmem⟩ := traced_execute fuel thenBranch m₁ v m' h
        refine ⟨keyword, value, ?_⟩
        cases elseBranch with
        | none => exact List.mem_cons_of_mem _ hmem
        | some _ => exact List.mem_cons_of_mem _ (List.mem_append_left _ hmem)
      · cases elseBranch with
        | none => cases h
        | some branch =>
          obtain ⟨keyword, value, hmem⟩ := traced_execute fuel branch m₁ v m' h
          exact ⟨keyword, value, List.mem_cons_of_mem _ (List.mem_append_right _ hmem)⟩

end

end Machine

mutual

/-- **A return outside all functions** is a violation. -/
theorem Stmt.violation_of_mem_own {around : Surroundings} (haround : around.inFunction = .none)
    {keyword : Name} {value : Option Expr} : ∀ {s : Stmt} {scopes : Scopes},
    .ret keyword value ∈ s.own →
    .violation keyword .returnOutsideFunction ∈ (s.walk around scopes).2
  | .block body, scopes, h => by
    rcases List.mem_cons.mp h with heq | h
    · cases heq
    · exact violation_of_mem_allOwn haround h
  | .ifElse _ thenBranch none, scopes, h => by
    rcases List.mem_cons.mp h with heq | h
    · cases heq
    · exact List.mem_append_right _ (violation_of_mem_own haround h)
  | .ifElse _ thenBranch (some elseBranch), scopes, h => by
    rcases List.mem_cons.mp h with heq | h
    · cases heq
    · rcases List.mem_append.mp h with h | h
      · exact List.mem_append_left _ (List.mem_append_right _ (violation_of_mem_own haround h))
      · exact List.mem_append_right _ (violation_of_mem_own haround h)
  | .whileDo _ body, scopes, h => by
    rcases List.mem_cons.mp h with heq | h
    · cases heq
    · exact List.mem_append_right _ (violation_of_mem_own haround h)
  | .ret _ _, scopes, h => by
    cases List.mem_singleton.mp h
    refine List.mem_append_left _ (List.mem_append_left _ ?_)
    rw [if_pos haround]
    exact List.mem_singleton_self _
  | .expr _, _, h | .print _, _, h | .var _ _, _, h | .function _, _, h | .classDecl _ _ _, _, h =>
    nomatch List.mem_singleton.mp h

theorem Stmt.violation_of_mem_allOwn {around : Surroundings} (haround : around.inFunction = .none)
    {keyword : Name} {value : Option Expr} : ∀ {ss : List Stmt} {scopes : Scopes},
    .ret keyword value ∈ Stmt.allOwn ss →
    .violation keyword .returnOutsideFunction ∈ (Stmt.walkAll around scopes ss).2
  | [], _, h => absurd h List.not_mem_nil
  | s :: ss, scopes, h => by
    rcases List.mem_append.mp h with h | h
    · exact List.mem_append_left _ (violation_of_mem_own haround h)
    · exact List.mem_append_right _ (violation_of_mem_allOwn haround h)

end

/-- **An accepted program** has no statement that ends on the way out of a function. -/
theorem Session.ne_returned_of_check {text : List Char} {n n' : NodeId} {program : Program}
    {distances : Distances} (hcheck : check text n = (.ok (program, distances), n')) {s : Stmt}
    (hs : s ∈ program) (fuel : Nat) (m : Machine) (v : Value) (m' : Machine) :
    Machine.execute fuel s m ≠ .ok (.returned v) m' := by
  intro hreturned
  obtain ⟨keyword, value, hret⟩ := Machine.traced_execute fuel s m v m' hreturned
  obtain ⟨-, -, hviolations, hdistances⟩ := check_eq_ok hcheck
  have hsilent : Silent program.findings :=
    Program.silent_findings (Program.resolve_eq_ok.mpr ⟨hviolations, hdistances⟩)
  exact hsilent keyword .returnOutsideFunction
    (Stmt.violation_of_mem_allOwn rfl (Stmt.mem_allOwn hret hs))

/-- **Returns are caught.**  The statements that a text of a session begins with are run in order, and
each of them ends normally or stops.  Of all that is run for its sake, whatever statement is on the
way out of a function is run for a call of the function in whose body it is written, by way of
statements alone; and this call yields the value that the statement is on the way out with, or the
receiver if it is the call of an initializer. -/
theorem Session.returns_caught (sink : Sink) (clock : Clock) (texts : List (Nat × List Char))
    (fuel : Nat) (text : List Char) :
    let session := (initial sink clock).after texts
    session.Begins fuel text (session.jobs fuel text) ∧ ∀ job ∈ session.jobs fuel text,
      (∃ s, job.work = .stmt s ∧
        ((∃ m, Machine.execute job.fuel s job.machine = .ok .normal m) ∨
          ∃ stop m, Machine.execute job.fuel s job.machine = .error stop m)) ∧
      ∀ inner, job.Includes inner → inner.Complete ∧ ∀ s v m, inner.work = .stmt s →
        Machine.execute inner.fuel s inner.machine = .ok (.returned v) m →
        ∃ call id args, job.Includes call ∧ call.Catches id args inner s v m := by
  refine ⟨begins_jobs _ fuel text, fun job hjob => ?_⟩
  obtain ⟨bound, hfit⟩ := fit_of_mem_jobs sink clock texts fuel text
  obtain ⟨program, distances, n', hcheck, s, m, hs, heq⟩ := stmt_of_mem_jobs hjob
  have hends := ne_returned_of_check hcheck hs fuel m
  constructor
  · subst heq
    refine ⟨s, rfl, ?_⟩
    cases hrun : Machine.execute fuel s m with
    | error stop m' => exact .inr ⟨stop, m', rfl⟩
    | ok flow m' =>
      cases flow with
      | normal => exact .inl ⟨m', rfl⟩
      | returned v => exact absurd hrun (hends v m')
  · refine fun inner hinner => ⟨inner.complete, fun t v m' ht hreturned => ?_⟩
    rcases Machine.Job.Returns.caught (hfit job hjob) hinner ht ⟨t, ht, hreturned⟩ with
      ⟨call, id, args, hcall, hcatches, -⟩ | ⟨m'', hescapes⟩
    · exact ⟨call, id, args, hcall, hcatches⟩
    · subst heq
      obtain ⟨_, ⟨⟩, hrun⟩ := hescapes
      exact absurd hrun (hends v m'')

/-- Whether a job is a statement on the way out of a function with just this value. -/
def Machine.Job.returnsWith (value : Value) (job : Job) : Bool :=
  match job.work with
  | .stmt s =>
    match execute job.fuel s job.machine with
    | .ok (.returned v) _ => v == value
    | _ => false
  | _ => false

theorem Machine.Job.returns_of_returnsWith {value : Value} {job : Job}
    (h : job.returnsWith value = true) : ∃ s m, job.work = .stmt s ∧
      execute job.fuel s job.machine = .ok (.returned value) m := by
  unfold returnsWith at h
  split at h
  · next s hs =>
    split at h
    · next v m hrun =>
      obtain rfl := eq_of_beq h
      exact ⟨s, m, hs, hrun⟩
    · cases h
  · cases h

/-- A return in a loop is caught by the call of the function around the loop. -/
theorem Session.returns_caught_loop :
    ∃ job ∈ ((initial .unbounded (.constant 0)).after []).jobs 9
        "fun f() \x7b while (true) \x7b return nil; \x7d \x7d f();".toList,
      ∃ inner, job.Includes inner ∧ ∃ s m, inner.work = .stmt s ∧
        Machine.execute inner.fuel s inner.machine = .ok (.returned .nil) m ∧
        ∃ call id args, job.Includes call ∧ call.Catches id args inner s .nil m := by
  have hreturns : ∃ job ∈ ((initial .unbounded (.constant 0)).after []).jobs 9
        "fun f() \x7b while (true) \x7b return nil; \x7d \x7d f();".toList,
      ∃ value ∈ job.parts, ∃ call ∈ value.parts, ∃ loop ∈ call.parts, ∃ block ∈ loop.parts,
        ∃ inner ∈ block.parts, inner.returnsWith .nil = true := by decide +kernel
  obtain ⟨job, hjob, _, hvalue, _, hcall, _, hloop, _, hblock, inner, hinner, h⟩ := hreturns
  have hincludes : job.Includes inner :=
    ((((Relation.ReflTransGen.single hvalue).tail hcall).tail hloop).tail hblock).tail hinner
  obtain ⟨s, m, hs, hreturned⟩ := Machine.Job.returns_of_returnsWith h
  obtain ⟨-, hcaught⟩ := (returns_caught .unbounded (.constant 0) [] 9 _).2 job hjob
  exact ⟨job, hjob, inner, hincludes, s, m, hs, hreturned,
    (hcaught inner hincludes).2 s _ m hs hreturned⟩

end Lox
