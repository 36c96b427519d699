import Lox.Proofs.Heap
import Lox.Proofs.Jobs.Sessions

/-!
# Arguments and parameters

Whether there are as many arguments as parameters is asked where a value is called, while the
parameters are bound where the body of the function begins; and for a class the function is looked up
twice, before and behind the making of the instance.  A call begins only behind the question
(`Job.length_of_mem_parts`), both look-ups find the same (`Job.ofCallable_cls`), and no two parameters
of an accepted program have one name.

So whenever a call begins in a session, its body is run in a frame that binds just the parameters to
the arguments, in order (`Machine.BindsAll`); and whatever is called with another number of arguments
fails with that before anything else happens (`Machine.Counted`).  `Session.arguments_matched` puts
the two together.
-/

namespace Lox

namespace Machine

/-! ## Parameters with different names -/

/-- **Parameters with different names** are bound to the arguments in order. -/
theorem bindParams_eq_zip {params : List Name} (args : List Value)
    (h : (params.map Name.text).Nodup) :
    bindParams params args = ⟨(params.map Name.text).zip args⟩ := by
  -- what was bound before is in front of the rest and has other names
  have hbehind : ∀ (params : List Name) (args : List Value) (table : Table Value),
      (table.names ++ params.map Name.text).Nodup →
      (params.zip args).foldl (fun table entry => table.put entry.1.text entry.2) table =
        ⟨table.entries ++ (params.map Name.text).zip args⟩ := by
    intro params
    induction params with
    | nil => exact fun _ table _ => congrArg Table.mk (List.append_nil _).symm
    | cons param params ih =>
      rintro (_ | ⟨arg, args⟩) table hnodup
      · exact congrArg Table.mk (List.append_nil _).symm
      · have hnew : param.text ∉ table.names := fun hmem =>
          (List.nodup_append.mp hnodup).2.2 _ hmem _ List.mem_cons_self rfl
        rw [List.zip_cons_cons, List.foldl_cons, Table.put_of_notMem hnew, ih]
        · rw [List.append_assoc]
          rfl
        · rwa [Table.names, List.map_append, List.append_assoc]
  exact hbehind params args .empty h

theorem frame?_inCall (m : Machine) (id : FunctionId) (args : List Value) :
    (m.inCall id args).heap.frames.frame? (m.inCall id args).environment =
      some ⟨bindParams (m.heap.function id).declaration.params args,
        some (m.heap.function id).closure⟩ :=
  Frames.frame?_push_self _ _

/-- **Whether a call binds all its arguments:** there is one for each parameter, no two parameters
have one name, and the body is run in a frame that binds just these names to the arguments, in
order, inside the closure of the function. -/
structure BindsAll (m : Machine) (id : FunctionId) (args : List Value) : Prop where
  length : args.length = (m.heap.function id).declaration.params.length
  distinct : ((m.heap.function id).declaration.params.map Name.text).Nodup
  frame : (m.inCall id args).heap.frames.frame? (m.inCall id args).environment =
    some ⟨⟨((m.heap.function id).declaration.params.map Name.text).zip args⟩,
      some (m.heap.function id).closure⟩
  /-- However statements are run, the call stops where the body stops that is run in this frame; -/
  stops : ∀ (execute : Stmt → Run Flow) stop m',
    runAll execute (m.heap.function id).declaration.body (m.inCall id args) = .error stop m' →
    callFunction execute id args m = .error stop { m' with environment := m.environment }
  /-- and if the body ends, then the call hands out what that came to, or its receiver. -/
  ends : ∀ (execute : Stmt → Run Flow) flow m',
    runAll execute (m.heap.function id).declaration.body (m.inCall id args) = .ok flow m' →
    callFunction execute id args m =
      (if (m.heap.function id).isInitializer then
        Run.getAt (m.heap.function id).closure 0 thisName
      else pure flow.result) { m' with environment := m.environment }

/-! ## The call of a value -/

theorem length_of_evaluateAll {evaluate : Expr → Run Value} : ∀ {es : List Expr} {m m' : Machine}
    {args : List Value}, evaluateAll evaluate es m = .ok args m' → args.length = es.length
  | [], _, _, _, h => by
    cases h
    rfl
  | e :: es, _, _, _, h => by
    obtain ⟨v, m₁, -, h⟩ := Steps.bind_eq_ok.mp h
    obtain ⟨others, m₂, hothers, h⟩ := Steps.bind_eq_ok.mp h
    cases h
    exact congrArg (· + 1) (length_of_evaluateAll hothers)

namespace Job

variable {fuel : Nat} {m : Machine} {job : Job}

/-- The initializer that the call of a class begins is the one under which its arguments were counted,
bound to the new instance. -/
theorem ofCallable_cls (id : ClassId) (args : List Value) :
    ofCallable fuel (.cls id) args m = (m.heap.findMethod? id initializerName).toList.map fun init =>
      ⟨fuel, .call ((m.heap.newInstance id).2.bind init (m.heap.newInstance id).1).1 args,
        { m with heap := ((m.heap.newInstance id).2.bind init (m.heap.newInstance id).1).2 }⟩ := by
  have hclasses : (m.heap.newInstance id).2.classes = m.heap.classes := rfl
  show ((m.heap.newInstance id).2.findMethod? id initializerName).toList.map _ = _
  rw [Heap.findMethod?_congr hclasses]
  rfl

/-- **The call that the call of a value comes to** has an argument for each parameter. -/
theorem length_of_mem_ofCall {callee : Value} {args : List Value}
    (h : job ∈ ofCall fuel callee args m) : ∃ id, job.work = .call id args ∧
      args.length = (job.machine.heap.function id).declaration.params.length := by
  unfold ofCall at h
  split at h
  · exact absurd h List.not_mem_nil
  · next target _ =>
    split at h
    · next hcount =>
      cases target with
      | native f => exact absurd h List.not_mem_nil
      | function id =>
        cases List.mem_singleton.mp h
        exact ⟨id, rfl, hcount⟩
      | cls id =>
        rw [ofCallable_cls] at h
        obtain ⟨init, hinit, rfl⟩ := List.mem_map.mp h
        refine ⟨_, rfl, ?_⟩
        rw [Heap.declaration_bind]
        rwa [Heap.arity, Option.mem_toList.mp hinit] at hcount
    · exact absurd h List.not_mem_nil

/-- **A call begins** only as what the call of a value comes to. -/
theorem ofCall_of_mem_ofExpr {e : Expr} {id : FunctionId} {args : List Value}
    (h : job ∈ ofExpr fuel m e) (hcall : job.work = .call id args) :
    ∃ callee line es f m₁ m₂, e = .call callee line es ∧ evaluate fuel callee m = .ok f m₁ ∧
      evaluateAll (evaluate fuel) es m₁ = .ok args m₂ ∧ job ∈ ofCall fuel f args m₂ := by
  rcases of_mem_ofExpr h with ⟨_, _, rfl⟩ | ⟨callee, line, es, f, m₁, values, m₂, he, hf, hargs, h⟩
  · cases hcall
  · obtain ⟨_, _, rfl⟩ := call_of_mem_ofCall h
    cases hcall
    exact ⟨callee, line, es, f, m₁, m₂, he, hf, hargs, h⟩

/-- **A call that is a part** has an argument for each parameter. -/
theorem length_of_mem_parts {part : Job} (h : part ∈ job.parts) {id : FunctionId}
    {args : List Value} (hcall : part.work = .call id args) :
    args.length = (part.machine.heap.function id).declaration.params.length := by
  rcases parts_cases h with ⟨fuel, e, m, rfl, h⟩ | ⟨fuel, s, m, rfl, h⟩ | ⟨fuel, _, _, m, rfl, h⟩
  · obtain ⟨_, _, _, _, _, _, -, -, -, hpart⟩ := ofCall_of_mem_ofExpr h hcall
    obtain ⟨id', hwork, hlength⟩ := length_of_mem_ofCall hpart
    cases hcall.symm.trans hwork
    exact hlength
  · obtain ⟨_, _, rfl⟩ | ⟨_, _, rfl, -⟩ := of_mem_ofStmt h <;> cases hcall
  · obtain ⟨_, _, -, rfl⟩ := stmt_of_mem_ofBody h
    cases hcall

end Job

section
variable {m : Machine} {args : List Value} {execute : Stmt → Run Flow}

theorem construct_of_none {id : ClassId} (h : m.heap.findMethod? id initializerName = none) :
    construct execute id args m =
      .ok (.inst ⟨m.heap.instances.size⟩) { m with heap := (m.heap.newInstance id).2 } := by
  let m₁ : Machine := { m with heap := (m.heap.newInstance id).2 }
  have hnew : Run.allocate (·.newInstance id) m = .ok ⟨m.heap.instances.size⟩ m₁ := rfl
  have hheap : Run.getHeap m₁ = .ok m₁.heap m₁ := rfl
  have hclasses : m₁.heap.classes = m.heap.classes := rfl
  rw [construct, Steps.bind_of_ok hnew, Steps.bind_of_ok hheap, Heap.findMethod?_congr hclasses, h]
  rfl

theorem construct_of_some {id : ClassId} {init : FunctionId}
    (h : m.heap.findMethod? id initializerName = some init) :
    construct execute id args m =
      (callFunction execute ((m.heap.newInstance id).2.bind init ⟨m.heap.instances.size⟩).1 args
          >>= fun _ => pure (.inst ⟨m.heap.instances.size⟩))
        { m with heap := ((m.heap.newInstance id).2.bind init ⟨m.heap.instances.size⟩).2 } := by
  let m₁ : Machine := { m with heap := (m.heap.newInstance id).2 }
  have hnew : Run.allocate (·.newInstance id) m = .ok ⟨m.heap.instances.size⟩ m₁ := rfl
  have hheap : Run.getHeap m₁ = .ok m₁.heap m₁ := rfl
  have hclasses : m₁.heap.classes = m.heap.classes := rfl
  rw [construct, Steps.bind_of_ok hnew, Steps.bind_of_ok hheap, Heap.findMethod?_congr hclasses, h]
  rfl

end

/-- **Whether arguments are counted** where a value is called, at the machine behind them, however
statements are run. -/
structure Counted (fuel line : Nat) (callee : Value) (target : Callable) (args : List Value)
    (m : Machine) : Prop where
  /-- With more or fewer arguments than it takes the call fails with just that.  No function begins,
  and the machine stays as it is. -/
  refused : args.length ≠ m.heap.arity target →
    (∀ execute, callValue execute line callee args m =
        .error (.fault (.argumentCount line (m.heap.arity target) args.length)) m) ∧
      Job.ofCall fuel callee args m = []
  /-- A native function runs no function of a program. -/
  native : ∀ f, target = .native f → Job.ofCall fuel callee args m = [] ∧
    (args.length = m.heap.arity target →
      ∀ execute, callValue execute line callee args m = callNative f m)
  /-- A function takes as many as it has parameters, and its call is called with just these
  arguments. -/
  function : ∀ id, target = .function id →
    m.heap.arity target = (m.heap.function id).declaration.params.length ∧
      (args.length = m.heap.arity target →
        Job.ofCall fuel callee args m = [⟨fuel, .call id args, m⟩] ∧
          ∀ execute, callValue execute line callee args m = callFunction execute id args m)
  /-- A class without an initializer takes none.  No function begins, and an instance is made. -/
  plain : ∀ id, target = .cls id → m.heap.findMethod? id initializerName = none →
    m.heap.arity target = 0 ∧ Job.ofCall fuel callee args m = [] ∧
      (args.length = m.heap.arity target → ∀ execute, callValue execute line callee args m =
        .ok (.inst ⟨m.heap.instances.size⟩) { m with heap := (m.heap.newInstance id).2 })
  /-- A class with an initializer, of its own or inherited, takes as many as that has parameters.
  It is what begins with just these arguments, bound to the new instance. -/
  initializer : ∀ id init, target = .cls id → m.heap.findMethod? id initializerName = some init →
    m.heap.arity target = (m.heap.function init).declaration.params.length ∧
      (args.length = m.heap.arity target → ∃ bound m',
        Job.ofCall fuel callee args m = [⟨fuel, .call bound args, m'⟩] ∧
          m'.heap.BoundTo bound ⟨m.heap.instances.size⟩ ∧
          (m'.heap.function bound).declaration = (m.heap.function init).declaration ∧
          ∀ execute, callValue execute line callee args m =
            (callFunction execute bound args >>= fun _ => pure (.inst ⟨m.heap.instances.size⟩)) m')

/-- **Arguments are counted** at every machine. -/
theorem counted {fuel line : Nat} {callee : Value} {target : Callable} {args : List Value}
    {m : Machine} (htarget : callee.callable? = some target) :
    Counted fuel line callee target args m := by
  have hjobs : args.length = m.heap.arity target →
      Job.ofCall fuel callee args m = Job.ofCallable fuel target args m := fun hcount => by
    simp only [Job.ofCall, htarget, if_pos hcount]
  have hnone : args.length ≠ m.heap.arity target → Job.ofCall fuel callee args m = [] :=
    fun hcount => by simp only [Job.ofCall, htarget, if_neg hcount]
  have hcall : args.length = m.heap.arity target → ∀ execute,
      callValue execute line callee args m = call execute target args m := fun hcount execute => by
    rw [callValue_eq htarget, if_pos hcount]
  have hempty : Job.ofCallable fuel target args m = [] → Job.ofCall fuel callee args m = [] := by
    intro h
    by_cases hcount : args.length = m.heap.arity target
    · exact (hjobs hcount).trans h
    · exact hnone hcount
  refine ⟨fun hcount => ⟨fun execute => ?_, hnone hcount⟩, ?_, ?_, ?_, ?_⟩
  · rw [callValue_eq htarget, if_neg hcount]
    rfl
  · rintro f rfl
    exact ⟨hempty rfl, hcall⟩
  · rintro id rfl
    exact ⟨rfl, fun hcount => ⟨hjobs hcount, hcall hcount⟩⟩
  · rintro id rfl hfound
    have harity : m.heap.arity (.cls id) = 0 := by rw [Heap.arity, hfound]
    refine ⟨harity, hempty ?_, fun hcount execute =>
      (hcall hcount execute).trans (construct_of_none hfound)⟩
    rw [Job.ofCallable_cls, hfound]
    rfl
  · rintro id init rfl hfound
    refine ⟨by rw [Heap.arity, hfound]; rfl, fun hcount => ?_⟩
    let receiver := m.heap.newInstance id
    let bound := receiver.2.bind init receiver.1
    refine ⟨bound.1, { m with heap := bound.2 }, ?_, Heap.boundTo_bind receiver.2 init receiver.1,
      Heap.declaration_bind receiver.2 init receiver.1, fun execute =>
        (hcall hcount execute).trans (construct_of_some hfound)⟩
    rw [hjobs hcount, Job.ofCallable_cls, hfound]
    rfl

namespace Job

variable {bound : NodeId} {job : Job}

/-- **Whether a job neither loses nor misses arguments.** -/
structure Matches (job : Job) : Prop where
  /-- The parts of the job are all that it comes to. -/
  complete : job.Complete
  /-- If it is a call, then this binds all its arguments. -/
  binds : ∀ id args, job.work = .call id args → job.machine.BindsAll id args
  /-- If it is the call of a value that can be called, then there is an argument for each of its
  expressions, they are counted at the machine behind them, and no function begins but for that. -/
  counts : ∀ callee line es fuel f m₁ args m₂ target, job.work = .expr (.call callee line es) →
    job.fuel = fuel + 1 → evaluate fuel callee job.machine = .ok f m₁ →
    evaluateAll (evaluate fuel) es m₁ = .ok args m₂ → f.callable? = some target →
    args.length = es.length ∧ evaluate job.fuel (.call callee line es) job.machine =
        callValue (execute fuel) line f args m₂ ∧
      (∀ part ∈ job.parts, ∀ id args', part.work = .call id args' → part ∈ ofCall fuel f args m₂) ∧
      Counted fuel line f target args m₂

/-- **A fit job** neither loses nor misses arguments, if there are enough of them. -/
theorem Fit.matches (hjob : job.Fit bound) (hlength : ∀ id args, job.work = .call id args →
    args.length = (job.machine.heap.function id).declaration.params.length) : job.Matches where
  complete := job.complete
  binds id args hcall := by
    obtain ⟨hm, hwork⟩ := hjob
    rw [hcall] at hwork
    have hdistinct : ((job.machine.heap.function id).declaration.params.map Name.text).Nodup :=
      (hm.function hwork.1.lt).function
    exact ⟨hlength id args hcall, hdistinct, by rw [frame?_inCall, bindParams_eq_zip args hdistinct],
      fun _ _ _ => callFunction_of_error, fun _ _ _ => callFunction_of_ok⟩
  counts callee line es fuel f m₁ args m₂ target hwork hfuel hf hargs htarget := by
    obtain ⟨k, work, m⟩ := job
    obtain rfl : k = fuel + 1 := hfuel
    obtain rfl : work = .expr (.call callee line es) := hwork
    refine ⟨length_of_evaluateAll hargs, (Steps.bind_of_ok hf).trans (Steps.bind_of_ok hargs),
      fun part hpart id args' hcall => ?_, counted htarget⟩
    have hpart : part ∈ Job.ofExpr fuel m (.call callee line es) := hpart
    obtain ⟨_, _, _, f', m₁', m₂', he, hf', hargs', hpart⟩ := ofCall_of_mem_ofExpr hpart hcall
    cases he
    cases hf.symm.trans hf'
    cases hargs.symm.trans hargs'
    exact hpart

end Job

end Machine

/-- **No call loses or misses an argument.**  The statements that a text begins with are run in order.
Whenever the call of a function begins for the sake of one of them, be it called by its name, as a
method, by a class or by `super`, each parameter gets its argument, in the frame in which the body is
run.  If the number of arguments is not what the callee takes, which for a class is
what the initializer takes that it would begin, then the call fails with just that behind its
arguments, and neither does a function begin nor is an instance made. -/
theorem Session.arguments_matched (sink : Sink) (clock : Clock) (texts : List (Nat × List Char))
    (fuel : Nat) (text : List Char) :
    let session := (initial sink clock).after texts
    session.Begins fuel text (session.jobs fuel text) ∧
      ∀ job ∈ session.jobs fuel text, ∀ inner, job.Includes inner → inner.Matches := by
  refine ⟨begins_jobs _ fuel text, fun job hjob inner hinner => ?_⟩
  obtain ⟨bound, hfit⟩ := fit_of_mem_jobs sink clock texts fuel text
  refine ((hfit job hjob).includes hinner).matches fun id args hcall => ?_
  cases hinner with
  | refl =>
    obtain ⟨_, _, _, -, s, m, -, rfl⟩ := stmt_of_mem_jobs hjob
    cases hcall
  | tail _ hpart => exact Machine.Job.length_of_mem_parts hpart hcall

/-- Whether work is the call of a function with just these arguments. -/
def Machine.Work.callsWith (args : List Value) : Work → Bool
  | .call _ args' => args' == args
  | _ => false

/-- An inherited initializer begins with the arguments of the subclass. -/
theorem Session.arguments_matched_inherited :
    ∃ job ∈ ((initial .unbounded (.constant 0)).after []).jobs 9
        "class A \x7b init(x, y) \x7b \x7d \x7d class B < A \x7b \x7d B(true, nil);".toList,
      ∃ part ∈ job.parts, ∃ inner ∈ part.parts, ∃ id,
        inner.work = .call id [.bool true, .nil] ∧
          inner.machine.BindsAll id [.bool true, .nil] := by
  have hcall : ∃ job ∈ ((initial .unbounded (.constant 0)).after []).jobs 9
        "class A \x7b init(x, y) \x7b \x7d \x7d class B < A \x7b \x7d B(true, nil);".toList,
      ∃ part ∈ job.parts, ∃ inner ∈ part.parts,
        inner.work.callsWith [.bool true, .nil] = true := by decide +kernel
  obtain ⟨job, hjob, part, hpart, inner, hinner, hcalls⟩ := hcall
  have hmatches := (arguments_matched .unbounded (.constant 0) [] 9 _).2 job hjob inner
    ((Relation.ReflTransGen.single hpart).tail hinner)
  cases hwork : inner.work with
  | expr e | stmt s =>
    rw [hwork] at hcalls
    cases hcalls
  | call id args =>
    rw [hwork] at hcalls
    obtain rfl : args = [.bool true, .nil] := eq_of_beq hcalls
    exact ⟨job, hjob, part, hpart, inner, hinner, id, hwork, hmatches.binds id _ hwork⟩

end Lox
