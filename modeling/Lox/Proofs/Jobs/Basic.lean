import Lox.Session
import Mathlib.Logic.Relation

/-!
# Jobs

A job is a run at the moment when it begins: the expression, the statement or the call of a function
that is run, the fuel that there is for it, and the machine.  Its parts are the jobs that it comes to
by itself, in their order (`Job.parts`), each at the machine that the parts before it leave behind, so
the jobs inside a job (`Job.Includes`) are all that is run for its sake.  A call has the statements of
the function's body as its parts, and a call of a value has the call of a function as a part only if
it comes to one.  The jobs that a text begins with are its statements on the outermost level
(`Session.jobs`).
-/

namespace Lox

namespace Machine

/-- What can be run: an expression, a statement, or the call of a function. -/
inductive Work
  | expr (e : Expr)
  | stmt (s : Stmt)
  | call (id : FunctionId) (args : List Value)

/-- A run when it begins: what is run, how much fuel there is for it, and the machine. -/
structure Job where
  fuel : Nat
  work : Work
  machine : Machine

/-- The jobs behind a run that ends well.  Behind one that stops there are none. -/
def Run.followedBy {α : Type} (x : Run α) (m : Machine) (next : α → Machine → List Job) :
    List Job :=
  match x m with
  | .ok a m => next a m
  | .error _ _ => []

/-- The jobs behind a run that ends normally. -/
def Run.continuedBy (x : Run Flow) (m : Machine) (next : Machine → List Job) : List Job :=
  x.followedBy m fun flow m => if flow = .normal then next m else []

/-- The machine in a new frame with these bindings. -/
def inFrame (m : Machine) (outer : FrameId) (bindings : Table Value) : Machine :=
  let (frame, heap) := m.heap.newFrame (some outer) bindings
  { m with heap, environment := frame }

/-- The machine at the beginning of a function's body. -/
def inCall (m : Machine) (id : FunctionId) (args : List Value) : Machine :=
  let object := m.heap.function id
  m.inFrame object.closure (bindParams object.declaration.params args)

namespace Job

section
variable (fuel : Nat)

/-- The jobs of expressions that are evaluated in order. -/
def ofExprs : List Expr → Machine → List Job
  | [], _ => []
  | first :: others, m =>
    ⟨fuel, .expr first, m⟩ :: (evaluate fuel first).followedBy m fun _ m => ofExprs others m

/-- The jobs of statements that are run in order. -/
def ofBody : List Stmt → Machine → List Job
  | [], _ => []
  | first :: others, m =>
    ⟨fuel, .stmt first, m⟩ :: (execute fuel first).continuedBy m fun m => ofBody others m

/-- The jobs of a loop, for at most so many rounds. -/
def ofLoop (condition : Expr) (body : Stmt) : Nat → Machine → List Job
  | 0, _ => []
  | rounds + 1, m =>
    ⟨fuel, .expr condition, m⟩ :: (evaluate fuel condition).followedBy m fun value m =>
      if value.isTruthy then
        ⟨fuel, .stmt body, m⟩ :: (execute fuel body).continuedBy m fun m =>
          ofLoop condition body rounds m
      else []

/-- The call of a function that a call comes to.  A class makes an instance and calls its
initializer, if it has one, bound to the instance. -/
def ofCallable (callee : Callable) (args : List Value) (m : Machine) : List Job :=
  match callee with
  | .native _ => []
  | .function id => [⟨fuel, .call id args, m⟩]
  | .cls id =>
    let (receiver, heap) := m.heap.newInstance id
    (heap.findMethod? id initializerName).toList.map fun init =>
      let (bound, heap) := heap.bind init receiver
      ⟨fuel, .call bound args, { m with heap }⟩

/-- The call of a function that the call of a value comes to: none if the value cannot be called, or
not with so many arguments. -/
def ofCall (callee : Value) (args : List Value) (m : Machine) : List Job :=
  match callee.callable? with
  | none => []
  | some target => if args.length = m.heap.arity target then ofCallable fuel target args m else []

/-- The jobs that an expression comes to. -/
def ofExpr (m : Machine) : Expr → List Job
  | .literal _ | .var _ | .this _ | .super _ _ => []
  | .group part | .unary _ _ part | .assign _ part | .get part _ => [⟨fuel, .expr part, m⟩]
  | .binary left _ _ right => ofExprs fuel [left, right] m
  | .logical left op right =>
    ⟨fuel, .expr left, m⟩ :: (evaluate fuel left).followedBy m fun value m =>
      if settles op value then [] else [⟨fuel, .expr right, m⟩]
  | .call callee _ args =>
    ⟨fuel, .expr callee, m⟩ :: (evaluate fuel callee).followedBy m fun f m =>
      ofExprs fuel args m ++ (evaluateAll (evaluate fuel) args).followedBy m fun values m =>
        ofCall fuel f values m
  | .set object _ value =>
    ⟨fuel, .expr object, m⟩ :: (evaluate fuel object).followedBy m fun target m =>
      match target with
      | .inst _ => [⟨fuel, .expr value, m⟩]
      | _ => []

/-- The jobs that a statement comes to. -/
def ofStmt (m : Machine) : Stmt → List Job
  | .expr value | .print value => [⟨fuel, .expr value, m⟩]
  | .var _ value | .ret _ value => value.toList.map fun value => ⟨fuel, .expr value, m⟩
  | .block body => ofBody fuel body (m.inFrame m.environment .empty)
  | .ifElse condition thenBranch elseBranch =>
    ⟨fuel, .expr condition, m⟩ :: (evaluate fuel condition).followedBy m fun value m =>
      if value.isTruthy then [⟨fuel, .stmt thenBranch, m⟩]
      else elseBranch.toList.map fun branch => ⟨fuel, .stmt branch, m⟩
  | .whileDo condition body => ofLoop fuel condition body fuel m
  | .function _ | .classDecl _ _ _ => []

/-- The jobs of the statements of a program. -/
def ofProgram : Program → Machine → List Job
  | [], _ => []
  | first :: others, m =>
    ⟨fuel, .stmt first, m⟩ :: (execute fuel first).followedBy m fun _ m => ofProgram others m

end

/-- **The parts of a job:** the jobs that it comes to by itself, in their order. -/
def parts (job : Job) : List Job :=
  match job.work, job.fuel with
  | .expr _, 0 | .stmt _, 0 => []
  | .expr e, fuel + 1 => ofExpr fuel job.machine e
  | .stmt s, fuel + 1 => ofStmt fuel job.machine s
  | .call id args, fuel =>
    ofBody fuel (job.machine.heap.function id).declaration.body (job.machine.inCall id args)

/-- **Whether a job is run for the sake of another**, or is that job. -/
def Includes : Job → Job → Prop :=
  Relation.ReflTransGen fun job part => part ∈ job.parts

/-- **Whether a statement is run for the sake of a job by way of statements alone**, so that no call
begins in between. -/
def Encloses : Job → Job → Prop :=
  Relation.TransGen fun job part => part ∈ job.parts ∧ ∃ s, part.work = .stmt s

end Job

end Machine

/-- The statements that a text begins with on the outermost level, each when its run begins.  A text
that is not accepted runs none. -/
def Session.jobs (session : Session) (fuel : Nat) (text : List Char) : List Machine.Job :=
  match check text session.nextId with
  | (.error _, _) => []
  | (.ok (program, distances), _) =>
    Machine.Job.ofProgram fuel program
      { session.machine with distances := session.machine.distances.merge distances }

mutual

/-- A statement and the statements inside it, but not those of functions that are declared in it. -/
def Stmt.own : Stmt → List Stmt
  | .block body => .block body :: Stmt.allOwn body
  | .ifElse condition thenBranch none => .ifElse condition thenBranch none :: thenBranch.own
  | .ifElse condition thenBranch (some elseBranch) =>
    .ifElse condition thenBranch (some elseBranch) :: (thenBranch.own ++ elseBranch.own)
  | .whileDo condition body => .whileDo condition body :: body.own
  | .expr value => [.expr value]
  | .print value => [.print value]
  | .var name initializer => [.var name initializer]
  | .function declaration => [.function declaration]
  | .ret keyword value => [.ret keyword value]
  | .classDecl name superclass methods => [.classDecl name superclass methods]

/-- Several statements and those inside them. -/
def Stmt.allOwn : List Stmt → List Stmt
  | [] => []
  | first :: others => first.own ++ Stmt.allOwn others

end

end Lox
