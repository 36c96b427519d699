import Lox.Proofs.Renaming.Findings
import Lox.Proofs.Trails.Basic

/-!
# Scopes along a trail

The scopes that the walk keeps can be run along a trail: a rib is put in front where a scope is opened
and taken away where it is left, and a declaration adds a name to the innermost one (`Ribs.along`).
The walk over a tree comes to the scopes that its trail leads to, and the distances it finds are those
of the references on the trail, each in the ribs it is reached with (`Stmt.leads`).
-/

namespace Lox

namespace Ribs

/-- The ribs behind a step. -/
def step (ribs : Ribs) : Trail.Step → Ribs
  | .enter => .none :: ribs
  | .leave => ribs.tail
  | .declare name => ribs.extend name
  | .refer _ _ => ribs

/-- The ribs behind a walk. -/
def along (ribs : Ribs) (trail : Trail) : Ribs :=
  trail.foldl step ribs

/-- The distance of a reference, under its identity; nothing at the other steps. -/
def entry? (ribs : Ribs) : Trail.Step → Option (NodeId × Nat)
  | .refer id name => (ribs.distance? name).map (Prod.mk id)
  | .enter | .leave | .declare _ => none

/-- The distances of the references of a walk, each in the ribs that it is reached with. -/
def bound (ribs : Ribs) : Trail → Distances
  | [] => []
  | step :: trail => (ribs.entry? step).toList ++ bound (ribs.step step) trail

theorem along_append (ribs : Ribs) (a b : Trail) :
    ribs.along (a ++ b) = (ribs.along a).along b :=
  List.foldl_append

theorem bound_append : ∀ (a b : Trail) (ribs : Ribs),
    ribs.bound (a ++ b) = ribs.bound a ++ (ribs.along a).bound b
  | [], _, _ => rfl
  | step :: a, b, ribs => by
    rw [List.cons_append, bound, bound, bound_append a b, List.append_assoc]
    rfl

end Ribs

namespace Scopes

/-- The names of each scope, ready or not. -/
def known (scopes : Scopes) : Ribs :=
  scopes.map fun scope name => scope.contains name

theorem distance?_known (scopes : Scopes) (name : String) :
    scopes.known.distance? name = scopes.distance? name :=
  List.findIdx?_map

theorem contains_put (scope : Table Bool) (name : String) (ready : Bool) :
    (fun x => (scope.put name ready).contains x) = Rib.add scope.contains name := by
  funext x
  unfold Rib.add Table.contains
  by_cases hx : x = name
  · simp [hx]
  · rw [Table.get?_put_of_ne scope ready hx]
    simp [hx]

theorem known_declare (scopes : Scopes) (name : Name) :
    (scopes.declare name).1.known = scopes.known.extend name.text := by
  cases scopes with
  | nil => rfl
  | cons scope outer => exact congrArg (· :: known outer) (contains_put scope name.text false)

/-- Whether a name is ready does not matter to what is known. -/
theorem known_ready (scopes : Scopes) (name : Name) :
    ((scopes.declare name).1.ready name).known = (scopes.declare name).1.known := by
  cases scopes with
  | nil => rfl
  | cons scope outer =>
    refine congrArg (· :: known outer) ?_
    rw [Table.put_put]
    exact (contains_put scope name.text true).trans (contains_put scope name.text false).symm

theorem tail_declareReady (scopes : Scopes) (name : Name) :
    (scopes.declareReady name).1.tail = scopes.tail := by
  cases scopes <;> rfl

theorem tail_declareAll : ∀ (names : List Name) (scopes : Scopes),
    (scopes.declareAll names).1.tail = scopes.tail
  | [], _ => rfl
  | name :: names, scopes =>
    (tail_declareAll names (scopes.declareReady name).1).trans (scopes.tail_declareReady name)

/-! ## What a trail leads to -/

/-- **Whether a trail leads from scopes to those behind it**, and to what is found on the way: if no
violation is found, the distances found are those of the references on the trail. -/
structure Leads (scopes : Scopes) (trail : Trail) (behind : Scopes) (found : List Finding) :
    Prop where
  known : scopes.known.along trail = behind.known
  distances : Silent found → scopes.known.bound trail = found.filterMap Finding.distance?

namespace Leads

variable {scopes between behind : Scopes} {a b : Trail} {first others : List Finding}

theorem nil (scopes : Scopes) (h : first.filterMap Finding.distance? = []) :
    scopes.Leads [] scopes first :=
  ⟨rfl, fun _ => h.symm⟩

theorem append (ha : scopes.Leads a between first) (hb : between.Leads b behind others) :
    scopes.Leads (a ++ b) behind (first ++ others) where
  known := by rw [Ribs.along_append, ha.known, hb.known]
  distances h := by
    rw [Ribs.bound_append, ha.known, List.filterMap_append, ha.distances h.append.1,
      hb.distances h.append.2]

theorem congr (h : scopes.Leads a between first) (hknown : behind.known = between.known) :
    scopes.Leads a behind first :=
  ⟨h.known.trans hknown.symm, h.distances⟩

theorem refer (scopes : Scopes) (id : NodeId) (name : String) :
    scopes.Leads [.refer id name] scopes (scopes.bind id name) := by
  refine ⟨rfl, fun _ => ?_⟩
  have hentry : scopes.known.bound [.refer id name] =
      ((scopes.distance? name).map (Prod.mk id)).toList ++ [] := by
    rw [← distance?_known]
    rfl
  rw [hentry]
  unfold Scopes.bind
  cases scopes.distance? name <;> rfl

theorem declare (scopes : Scopes) (name : Name) :
    scopes.Leads [.declare name.text] (scopes.declare name).1 (scopes.declare name).2 := by
  refine ⟨(scopes.known_declare name).symm, fun _ => ?_⟩
  cases scopes with
  | nil => rfl
  | cons scope outer =>
    unfold Scopes.declare
    dsimp only
    split <;> rfl

theorem declareReady (scopes : Scopes) (name : Name) :
    scopes.Leads [.declare name.text] (scopes.declareReady name).1 (scopes.declareReady name).2 :=
  (declare scopes name).congr (scopes.known_ready name)

theorem declareAll : ∀ (names : List Name) (scopes : Scopes),
    scopes.Leads (.ofNames names) (scopes.declareAll names).1 (scopes.declareAll names).2
  | [], scopes => .nil scopes rfl
  | name :: names, scopes =>
    (declareReady scopes name).append (declareAll names (scopes.declareReady name).1)

/-- What is walked in a scope of its own leads back to the scopes around it. -/
theorem scope (h : scopes.enter.Leads a behind first) (htail : behind.tail = scopes) :
    scopes.Leads (.scope a) scopes first := by
  have hleave : behind.Leads [.leave] scopes [] :=
    ⟨by rw [← htail]; exact List.map_tail.symm, fun _ => rfl⟩
  have henter : scopes.Leads [.enter] scopes.enter [] := ⟨rfl, fun _ => rfl⟩
  have hscope := henter.append (h.append hleave)
  rw [List.append_nil] at hscope
  exact hscope

theorem scope_single {name : String}
    (h : Leads (.single name true :: scopes) a (.single name true :: scopes) first) :
    scopes.Leads (.scope (.declare name :: a)) scopes first := by
  have hdeclare : scopes.enter.Leads [.declare name] (.single name true :: scopes) [] :=
    ⟨congrArg (· :: scopes.known) (contains_put .empty name true).symm, fun _ => rfl⟩
  exact scope (hdeclare.append h) rfl

end Leads

end Scopes

/-! ## Expressions -/

section
variable (context : ClassContext) (scopes : Scopes)

theorem Scopes.leads_read (reference : Reference) :
    scopes.Leads [.refer reference.id reference.name.text] scopes (scopes.read reference) := by
  refine Scopes.Leads.append (.nil scopes ?_) (.refer scopes _ _)
  split <;> rfl

mutual

theorem Expr.leads : ∀ e : Expr, scopes.Leads e.trail scopes (e.findings context scopes)
  | .literal _ => .nil scopes rfl
  | .group inner => Expr.leads inner
  | .unary _ _ operand => Expr.leads operand
  | .get object _ => Expr.leads object
  | .binary left _ _ right | .logical left _ right | .set left _ right =>
    (Expr.leads left).append (Expr.leads right)
  | .var reference => scopes.leads_read reference
  | .assign target value => (Expr.leads value).append (.refer scopes target.id target.name.text)
  | .call callee _ args => (Expr.leads callee).append (Expr.allLeads args)
  | .this keyword => by
    unfold Expr.findings
    split
    · exact ⟨rfl, fun h => absurd (List.mem_singleton_self _) (h _ _)⟩
    · exact .refer scopes keyword.id thisName
  | .super keyword _ => by
    refine Scopes.Leads.append (.nil scopes ?_) (.refer scopes keyword.id superName)
    split <;> rfl

theorem Expr.allLeads : ∀ es : List Expr,
    scopes.Leads (Expr.allTrail es) scopes (Expr.allFindings context scopes es)
  | [] => .nil scopes rfl
  | first :: others => (Expr.leads first).append (Expr.allLeads others)

end

theorem Expr.leads? : ∀ e : Option Expr,
    scopes.Leads (Expr.trail? e) scopes (Expr.findings? context scopes e)
  | some e => e.leads context scopes
  | none => .nil scopes rfl

end

/-! ## Statements -/

mutual

theorem Stmt.tail_walk : ∀ (s : Stmt) (around : Surroundings) (scopes : Scopes),
    (s.walk around scopes).1.tail = scopes.tail
  | .expr _, _, _ | .print _, _, _ | .block _, _, _ | .ret _ _, _, _ => rfl
  | .var name _, _, scopes => scopes.tail_declareReady name
  | .ifElse _ thenBranch none, around, scopes => Stmt.tail_walk thenBranch around scopes
  | .ifElse _ thenBranch (some elseBranch), around, scopes =>
    (Stmt.tail_walk elseBranch around _).trans (Stmt.tail_walk thenBranch around scopes)
  | .whileDo _ body, around, scopes => Stmt.tail_walk body around scopes
  | .function declaration, _, scopes => scopes.tail_declareReady declaration.name
  | .classDecl name _ _, _, scopes => scopes.tail_declareReady name

theorem Stmt.tail_walkAll : ∀ (ss : List Stmt) (around : Surroundings) (scopes : Scopes),
    (Stmt.walkAll around scopes ss).1.tail = scopes.tail
  | [], _, _ => rfl
  | first :: others, around, scopes =>
    (Stmt.tail_walkAll others around _).trans (Stmt.tail_walk first around scopes)

end

theorem FunctionContext.leads_return (context : FunctionContext) (keyword : Name)
    (hasValue : Bool) (scopes : Scopes) :
    scopes.Leads [] scopes (context.returnFindings keyword hasValue) := by
  refine .nil scopes ?_
  unfold FunctionContext.returnFindings
  split <;> split <;> rfl

theorem Scopes.leads_superclass (scopes : Scopes) (name : Name) (superclass : Reference) :
    scopes.Leads [.refer superclass.id superclass.name.text] scopes
      (scopes.superclassFindings name (some superclass)) := by
  refine Scopes.Leads.append (.nil scopes ?_) (scopes.leads_read superclass)
  split <;> rfl

theorem Scopes.leads_class {scopes : Scopes} {methods : Trail} {found : List Finding} (name : Name) :
    ∀ superclass : Option Reference,
      (scopes.enterClass superclass).Leads methods (scopes.enterClass superclass) found →
      scopes.Leads (.ofClass methods superclass) scopes
        (scopes.superclassFindings name superclass ++ found)
  | none, h => h.scope_single
  | some superclass, h =>
    (scopes.leads_superclass name superclass).append h.scope_single.scope_single

mutual

/-- **The walk over a statement** follows its trail. -/
theorem Stmt.leads : ∀ (s : Stmt) (around : Surroundings) (scopes : Scopes),
    scopes.Leads s.trail (s.walk around scopes).1 (s.walk around scopes).2
  | .expr value, around, scopes | .print value, around, scopes => value.leads around.inClass scopes
  | .var name initializer, around, scopes =>
    ((Scopes.Leads.declare scopes name).append
      (Expr.leads? around.inClass (scopes.declare name).1 initializer)).congr
      (scopes.known_ready name)
  | .block body, around, scopes =>
    (Stmt.allLeads body around scopes.enter).scope (Stmt.tail_walkAll body around scopes.enter)
  | .ifElse condition thenBranch none, around, scopes =>
    (condition.leads around.inClass scopes).append (Stmt.leads thenBranch around scopes)
  | .ifElse condition thenBranch (some elseBranch), around, scopes =>
    ((condition.leads around.inClass scopes).append (Stmt.leads thenBranch around scopes)).append
      (Stmt.leads elseBranch around _)
  | .whileDo condition body, around, scopes =>
    (condition.leads around.inClass scopes).append (Stmt.leads body around scopes)
  | .function declaration, around, scopes =>
    (Scopes.Leads.declareReady scopes declaration.name).append
      (FunctionDecl.leads declaration ⟨.function, around.inClass⟩ _)
  | .ret keyword value, around, scopes =>
    (around.inFunction.leads_return keyword value.isSome scopes).append
      (Expr.leads? around.inClass scopes value)
  | .classDecl name superclass methods, around, scopes => by
    have hmethods := FunctionDecl.allLeads methods (.ofSuperclass superclass)
      ((scopes.declareReady name).1.enterClass superclass)
    have hclass := (Scopes.Leads.declareReady scopes name).append
      (Scopes.leads_class name superclass hmethods)
    rw [← List.append_assoc] at hclass
    exact hclass

theorem FunctionDecl.leads : ∀ (f : FunctionDecl) (inside : Surroundings) (scopes : Scopes),
    scopes.Leads f.trail scopes (f.findings inside scopes)
  | ⟨_, params, body⟩, inside, scopes => by
    have hbody := (Scopes.Leads.declareAll params scopes.enter).append
      (Stmt.allLeads body inside (scopes.enter.declareAll params).1)
    exact hbody.scope ((Stmt.tail_walkAll body inside _).trans (Scopes.tail_declareAll params _))

theorem FunctionDecl.allLeads : ∀ (fs : List FunctionDecl) (context : ClassContext)
    (scopes : Scopes),
    scopes.Leads (FunctionDecl.allTrail fs) scopes (FunctionDecl.allFindings context scopes fs)
  | [], _, scopes => .nil scopes rfl
  | method :: others, context, scopes =>
    (FunctionDecl.leads method ⟨.ofMethod method, context⟩ scopes).append
      (FunctionDecl.allLeads others context scopes)

theorem Stmt.allLeads : ∀ (ss : List Stmt) (around : Surroundings) (scopes : Scopes),
    scopes.Leads (Stmt.allTrail ss) (Stmt.walkAll around scopes ss).1
      (Stmt.walkAll around scopes ss).2
  | [], _, scopes => .nil scopes rfl
  | first :: others, around, scopes =>
    (Stmt.leads first around scopes).append (Stmt.allLeads others around _)

end

end Lox
