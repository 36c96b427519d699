import Lox.Proofs.Initializers.Calls
import Lox.Proofs.Jobs.Parts
import Lox.Proofs.Joining.Statements

/-!
# Jobs of accepted programs

In a session of accepted programs every job begins at a machine that is formed and whose functions
have parameters with different names, and what it runs is written in one of the programs, or is a
call of a function that is there (`Job.Fit`).  The parts of such a job are such jobs
(`Job.Fit.of_mem_parts`), and so is all that is run for its sake (`Job.Fit.includes`).
-/

namespace Lox

/-- What comes from a program in which the parameters of each function have different names. -/
def Origin.distinct : Origin :=
  ⟨fun _ => True, fun _ => True, fun f => (f.params.map Name.text).Nodup⟩

theorem Expr.from_distinct (e : Expr) : e.From .distinct :=
  (e.from_iff _).mpr ⟨fun _ _ => trivial, fun _ _ => trivial⟩

theorem Expr.allFrom_distinct (es : List Expr) : Expr.AllFrom .distinct es :=
  (Expr.allFrom_iff _ es).mpr ⟨fun _ _ => trivial, fun _ _ => trivial⟩

namespace Machine

open Joining (Fits Setting Follows)
open Observed (Written Moves Erases)

/-- **Whether a machine is formed**, with functions that are written below a bound and whose
parameters have different names. -/
structure Fit (bound : NodeId) (m : Machine) : Prop where
  formed : m.Formed (Written bound)
  distinct : ∀ (i : Nat) f, m.heap.functions[i]? = some f → f.declaration.From .distinct

/-- Whether work is written below a bound, in a program whose parameters have different names, or is
a call of what is there. -/
def Work.Fit (bound : NodeId) (heap : Heap) : Work → Prop
  | .expr e => e.Within 0 bound
  | .stmt s => s.Within 0 bound ∧ s.From .distinct
  | .call id args => heap.Held id ∧ ∀ v ∈ args, v.In heap

/-- **Whether a job can begin** in a session of accepted programs. -/
structure Job.Fit (bound : NodeId) (job : Job) : Prop where
  machine : job.machine.Fit bound
  work : job.work.Fit bound job.machine.heap

namespace Fit

variable {α : Type} {bound : NodeId} {m m' : Machine} {fuel : Nat}

/-! ## Runs from fit machines -/

/-- What a machine with these functions runs. -/
def setting (m : Machine) : Setting :=
  ⟨m.distances, fun _ => .distinct, m.sink.flushFails⟩

theorem fits (h : m.Fit bound) :
    Fits (setting m) m (List.replicate m.heap.functions.size false) where
  held := ⟨List.length_replicate, h.distinct, fun i c hc x id hid =>
    (h.formed.heap.methods i c x id hc hid).lt⟩
  distances := rfl
  flushes := rfl

theorem of_follows {x : Run α} {y : Joining.Variation (setting m) → Run α} {marks : List Bool}
    (hfollows : Follows (setting m) m marks x y) {a : α} (hx : x m = .ok a m') :
    ∀ (i : Nat) f, m'.heap.functions[i]? = some f → f.declaration.From .distinct := by
  obtain ⟨m₁, marks₁, hfits, -, ⟨b, hb, -⟩ | ⟨stop, new, hstop, -⟩⟩ := hfollows
  · rw [hx] at hb
    cases hb
    exact hfits.held.known
  · rw [hx] at hstop
    cases hstop

theorem of_evaluate (h : m.Fit bound) {e : Expr} (he : e.Within 0 bound) {v : Value}
    (hv : evaluate fuel e m = .ok v m') :
    m'.Fit bound ∧ m.heap.Grows m'.heap ∧ v.In m'.heap := by
  obtain ⟨hformed, hcontinues, hin⟩ := h.formed.of_evaluate he hv
  have hfrom : e.From ((setting m).origin false) := e.from_distinct
  have hfollows := (Joining.evaluate_execute_follows (setting m) fuel).1 hfrom h.fits
  exact ⟨⟨hformed, of_follows hfollows hv⟩, hcontinues.heap, hin⟩

theorem of_evaluateAll (h : m.Fit bound) {es : List Expr} (hes : Expr.AllWithin es 0 bound)
    {values : List Value} (hvalues : evaluateAll (evaluate fuel) es m = .ok values m') :
    m'.Fit bound ∧ m.heap.Grows m'.heap ∧ ∀ v ∈ values, v.In m'.heap := by
  obtain ⟨hformed, hcontinues, hin⟩ := h.formed.of_evaluateAll hes hvalues
  have hfrom : Expr.AllFrom ((setting m).origin false) es := Expr.allFrom_distinct es
  have hfollows := Joining.evaluateAll_follows
    (Joining.evaluate_execute_follows (setting m) fuel).1 hfrom h.fits
  exact ⟨⟨hformed, of_follows hfollows hvalues⟩, hcontinues.heap, hin⟩

theorem of_execute (h : m.Fit bound) {s : Stmt} (hs : s.Within 0 bound) (hfrom : s.From .distinct)
    {flow : Flow} (hflow : execute fuel s m = .ok flow m') : m'.Fit bound := by
  obtain ⟨hformed, -, -⟩ := h.formed.of_moves (Observed.erases_execute fuel .outermost s)
    (Observed.executing fuel h.formed hs) hflow
  have hfrom : s.From ((setting m).origin false) := hfrom
  have hfollows := Joining.execute_follows (setting m) fuel hfrom h.fits
  exact ⟨hformed, of_follows hfollows hflow⟩

/-- **A new frame** for names of the program's own. -/
theorem inFrame (h : m.Fit bound) {outer : FrameId} {bindings : Table Value}
    (houter : outer.index < m.heap.frames.all.size)
    (hplain : ∀ x, (bindings.get? x).isSome → Plain x)
    (hin : ∀ x v, bindings.get? x = some v → v.In m.heap) : (m.inFrame outer bindings).Fit bound := by
  have hnew : Run.allocate (·.newFrame (some outer) bindings) m =
    .ok (m.heap.newFrame (some outer) bindings).1
      { m with heap := (m.heap.newFrame (some outer) bindings).2 } := rfl
  obtain ⟨hformed, -, hopen⟩ := h.formed.of_moves (.lift _)
    (Observed.moves_newFrame (s := m.unobserved) houter hplain hin) hnew
  exact ⟨⟨hformed.heap, hopen⟩, h.distinct⟩

theorem inBlock (h : m.Fit bound) : (m.inFrame m.environment .empty).Fit bound := by
  obtain ⟨frame, hframe, -⟩ := h.formed.environment
  exact h.inFrame (Frames.lt_of_frame? hframe) nofun nofun

theorem function (h : m.Fit bound) {id : FunctionId} (hid : id.index < m.heap.functions.size) :
    (m.heap.function id).declaration.From .distinct := by
  have hf := Array.getElem?_eq_getElem hid
  rw [Heap.function_eq hf]
  exact h.distinct id.index _ hf

/-- **The frame of a call** binds the parameters inside the closure of the function. -/
theorem inCall (h : m.Fit bound) {id : FunctionId} {args : List Value} (hid : m.heap.Held id)
    (hargs : ∀ v ∈ args, v.In m.heap) : (m.inCall id args).Fit bound := by
  obtain ⟨hwritten, hclosure⟩ := Observed.State.Formed.function (s := m.unobserved) h.formed hid.lt
  exact h.inFrame hclosure (fun x hx => plain_of_bindParams hwritten.body.1 hx)
    fun x v hv => hargs v (mem_of_bindParams hv)

/-- **A method that is bound** may be called. -/
theorem bind (h : m.Fit bound) {method : FunctionId} {receiver : InstanceId}
    (hmethod : method.index < m.heap.functions.size)
    (hreceiver : receiver.index < m.heap.instances.size) :
    Machine.Fit bound { m with heap := (m.heap.bind method receiver).2 } ∧
      m.heap.Grows (m.heap.bind method receiver).2 := by
  have hbind : Run.allocate (·.bind method receiver) m =
    .ok (m.heap.bind method receiver).1 { m with heap := (m.heap.bind method receiver).2 } := rfl
  obtain ⟨hformed, hcontinues, -⟩ := h.formed.of_moves (.bindMethod method receiver)
    (Observed.moves_bind (s := m.unobserved) h.formed hmethod hreceiver) hbind
  exact ⟨⟨hformed, of_follows (.bindMethod h.fits hmethod receiver) hbind⟩, hcontinues.heap⟩

theorem newInstance (h : m.Fit bound) {id : ClassId} (hid : id.index < m.heap.classes.size) :
    Machine.Fit bound { m with heap := (m.heap.newInstance id).2 } ∧
      m.heap.Grows (m.heap.newInstance id).2 ∧
      (m.heap.newInstance id).1.index < (m.heap.newInstance id).2.instances.size := by
  have hnew : Run.allocate (·.newInstance id) m =
    .ok (m.heap.newInstance id).1 { m with heap := (m.heap.newInstance id).2 } := rfl
  obtain ⟨hformed, hcontinues, -, hof⟩ := h.formed.of_moves (.lift _)
    (Observed.moves_newInstance (s := m.unobserved) hid) hnew
  exact ⟨⟨hformed, h.distinct⟩, hcontinues.heap, hof.lt⟩

end Fit

/-! ## Parts of fit jobs -/

namespace Job

variable {bound : NodeId} {fuel : Nat} {m : Machine} {job part : Job}

theorem Fit.ofExprs : ∀ {es : List Expr} {m : Machine}, m.Fit bound → Expr.AllWithin es 0 bound →
    job ∈ ofExprs fuel es m → job.Fit bound
  | e :: _, m, hm, hes, h => by
    obtain ⟨hfirst, hothers⟩ := hes.cons
    rcases List.mem_cons.mp h with rfl | h
    · exact ⟨hm, hfirst⟩
    · obtain ⟨v, m₁, hv, h⟩ := mem_followedBy.mp h
      exact Fit.ofExprs (hm.of_evaluate hfirst hv).1 hothers h

theorem Fit.ofBody : ∀ {body : List Stmt} {m : Machine}, m.Fit bound → Stmt.AllWithin body 0 bound →
    Stmt.AllFrom .distinct body → job ∈ ofBody fuel body m → job.Fit bound
  | s :: _, m, hm, hbody, hfrom, h => by
    obtain ⟨hfirst, hothers⟩ := hbody.cons
    rcases List.mem_cons.mp h with rfl | h
    · exact ⟨hm, hfirst, hfrom.1⟩
    · obtain ⟨m₁, hflow, h⟩ := mem_continuedBy.mp h
      exact Fit.ofBody (hm.of_execute hfirst hfrom.1 hflow) hothers hfrom.2 h

theorem Fit.ofProgram : ∀ {program : Program} {m : Machine}, m.Fit bound →
    Stmt.AllWithin program 0 bound → Stmt.AllFrom .distinct program →
    job ∈ ofProgram fuel program m → job.Fit bound
  | s :: _, m, hm, hbody, hfrom, h => by
    obtain ⟨hfirst, hothers⟩ := hbody.cons
    rcases List.mem_cons.mp h with rfl | h
    · exact ⟨hm, hfirst, hfrom.1⟩
    · obtain ⟨flow, m₁, hflow, h⟩ := mem_followedBy.mp h
      exact Fit.ofProgram (hm.of_execute hfirst hfrom.1 hflow) hothers hfrom.2 h

theorem Fit.ofLoop {condition : Expr} {body : Stmt} (hcondition : condition.Within 0 bound)
    (hbody : body.Within 0 bound) (hfrom : body.From .distinct) : ∀ {rounds : Nat} {m : Machine},
    m.Fit bound → job ∈ ofLoop fuel condition body rounds m → job.Fit bound
  | rounds + 1, m, hm, h => by
    rcases List.mem_cons.mp h with rfl | h
    · exact ⟨hm, hcondition⟩
    · obtain ⟨v, m₁, hv, h⟩ := mem_followedBy.mp h
      have hm₁ := (hm.of_evaluate hcondition hv).1
      split at h
      · rcases List.mem_cons.mp h with rfl | h
        · exact ⟨hm₁, hbody, hfrom⟩
        · obtain ⟨m₂, hflow, h⟩ := mem_continuedBy.mp h
          exact Fit.ofLoop hcondition hbody hfrom (hm₁.of_execute hbody hfrom hflow) h
      · exact absurd h List.not_mem_nil

/-- **The call that the call of a value comes to** is one of what is there. -/
theorem Fit.ofCall {callee : Value} {args : List Value} (hm : m.Fit bound)
    (hcallee : callee.In m.heap) (hargs : ∀ v ∈ args, v.In m.heap)
    (h : job ∈ ofCall fuel callee args m) : job.Fit bound := by
  unfold Job.ofCall at h
  split at h
  · exact absurd h List.not_mem_nil
  · next target htarget =>
    split at h
    · cases callee with
      | native f => cases htarget; exact absurd h List.not_mem_nil
      | function id =>
        cases htarget
        cases List.mem_singleton.mp h
        exact ⟨hm, hcallee, hargs⟩
      | cls id =>
        cases htarget
        obtain ⟨init, hinit, rfl⟩ := List.mem_map.mp h
        have hfound := Option.mem_toList.mp hinit
        obtain ⟨hm₁, hgrows₁, hreceiver⟩ := hm.newInstance hcallee
        have hmethod := hm₁.formed.methodUnder hfound
        obtain ⟨hm₂, hgrows₂⟩ := hm₁.bind hmethod.lt hreceiver
        exact ⟨hm₂, (Heap.boundTo_bind _ init _).held, fun v hv =>
          ((hargs v hv).mono hgrows₁).mono hgrows₂⟩
      | _ => cases htarget
    · exact absurd h List.not_mem_nil

theorem Fit.ofExpr {e : Expr} (hm : m.Fit bound) (he : e.Within 0 bound)
    (h : job ∈ ofExpr fuel m e) : job.Fit bound := by
  cases e with
  | literal _ | var _ | this _ | super _ _ => exact absurd h List.not_mem_nil
  | group inner => cases List.mem_singleton.mp h; exact ⟨hm, he⟩
  | unary _ _ operand => cases List.mem_singleton.mp h; exact ⟨hm, he⟩
  | get object _ => cases List.mem_singleton.mp h; exact ⟨hm, he⟩
  | assign target value =>
    cases List.mem_singleton.mp h
    obtain ⟨k, hvalue, htarget⟩ := he
    exact ⟨hm, hvalue.mono (Nat.le_refl _) (Nat.le_trans htarget.2.1 (Nat.le_of_lt htarget.2.2))⟩
  | binary left op line right =>
    obtain ⟨k, hleft, hright⟩ := he
    have hparts : Expr.AllWithin [left, right] 0 bound :=
      ⟨k, hleft, bound, hright, Nat.le_refl bound⟩
    exact Fit.ofExprs hm hparts h
  | logical left op right =>
    obtain ⟨hleft, hright⟩ := Expr.Within.both he
    rcases List.mem_cons.mp h with rfl | h
    · exact ⟨hm, hleft⟩
    · obtain ⟨v, m₁, hv, h⟩ := mem_followedBy.mp h
      split at h
      · exact absurd h List.not_mem_nil
      · cases List.mem_singleton.mp h
        exact ⟨(hm.of_evaluate hleft hv).1, hright⟩
  | call callee line args =>
    obtain ⟨hcallee, hargs⟩ := Expr.Within.of_call he
    rcases List.mem_cons.mp h with rfl | h
    · exact ⟨hm, hcallee⟩
    · obtain ⟨f, m₁, hf, h⟩ := mem_followedBy.mp h
      obtain ⟨hm₁, -, hin⟩ := hm.of_evaluate hcallee hf
      rcases List.mem_append.mp h with h | h
      · exact Fit.ofExprs hm₁ hargs h
      · obtain ⟨values, m₂, hvalues, h⟩ := mem_followedBy.mp h
        obtain ⟨hm₂, hgrows, hvaluesIn⟩ := hm₁.of_evaluateAll hargs hvalues
        exact Fit.ofCall hm₂ (hin.mono hgrows) hvaluesIn h
  | set object name value =>
    obtain ⟨hobject, hvalue⟩ := Expr.Within.both he
    rcases List.mem_cons.mp h with rfl | h
    · exact ⟨hm, hobject⟩
    · obtain ⟨target, m₁, htarget, h⟩ := mem_followedBy.mp h
      split at h
      · cases List.mem_singleton.mp h
        exact ⟨(hm.of_evaluate hobject htarget).1, hvalue⟩
      · exact absurd h List.not_mem_nil

theorem Fit.ofOptional {value : Option Expr} (hm : m.Fit bound) (hvalue : Expr.Within? value 0 bound)
    (h : job ∈ value.toList.map fun value => (⟨fuel, .expr value, m⟩ : Job)) : job.Fit bound := by
  cases value with
  | none => exact absurd h List.not_mem_nil
  | some value => cases List.mem_singleton.mp h; exact ⟨hm, hvalue⟩

theorem Fit.ofStmt {s : Stmt} (hm : m.Fit bound) (hs : s.Within 0 bound) (hfrom : s.From .distinct)
    (h : job ∈ ofStmt fuel m s) : job.Fit bound := by
  cases s with
  | function _ | classDecl _ _ _ => exact absurd h List.not_mem_nil
  | expr value => cases List.mem_singleton.mp h; exact ⟨hm, hs⟩
  | print value => cases List.mem_singleton.mp h; exact ⟨hm, hs⟩
  | var name value => exact Fit.ofOptional hm hs.2 h
  | ret keyword value => exact Fit.ofOptional hm hs h
  | block body => exact Fit.ofBody hm.inBlock hs hfrom h
  | whileDo condition body =>
    obtain ⟨-, k, hcondition, hbody⟩ := hs
    exact Fit.ofLoop (hcondition.mono (Nat.le_refl _) hbody.le)
      (hbody.mono (Nat.zero_le _) (Nat.le_refl _)) hfrom.2 hm h
  | ifElse condition thenBranch elseBranch =>
    have hparts : condition.Within 0 bound ∧ (thenBranch.Within 0 bound ∧ thenBranch.From .distinct) ∧
        ∀ branch ∈ elseBranch, branch.Within 0 bound ∧ branch.From .distinct := by
      cases elseBranch with
      | none =>
        obtain ⟨-, k, hcondition, hthen⟩ := hs
        exact ⟨hcondition.mono (Nat.le_refl _) hthen.le,
          ⟨hthen.mono (Nat.zero_le _) (Nat.le_refl _), hfrom.2⟩, nofun⟩
      | some branch =>
        obtain ⟨-, -, k, k', hcondition, hthen, helse⟩ := hs
        refine ⟨hcondition.mono (Nat.le_refl _) (Nat.le_trans hthen.le helse.le),
          ⟨hthen.mono (Nat.zero_le _) helse.le, hfrom.2.1⟩, ?_⟩
        rintro _ ⟨⟩
        exact ⟨helse.mono (Nat.zero_le _) (Nat.le_refl _), hfrom.2.2⟩
    obtain ⟨hcondition, hthen, helse⟩ := hparts
    rcases List.mem_cons.mp h with rfl | h
    · exact ⟨hm, hcondition⟩
    · obtain ⟨v, m₁, hv, h⟩ := mem_followedBy.mp h
      have hm₁ := (hm.of_evaluate hcondition hv).1
      split at h
      · cases List.mem_singleton.mp h
        exact ⟨hm₁, hthen⟩
      · obtain ⟨branch, hbranch, rfl⟩ := List.mem_map.mp h
        exact ⟨hm₁, helse branch (Option.mem_toList.mp hbranch)⟩

/-- **The parts of a fit job** are fit. -/
theorem Fit.of_mem_parts (hjob : job.Fit bound) (h : part ∈ job.parts) : part.Fit bound := by
  obtain ⟨hm, hwork⟩ := hjob
  rcases parts_cases h with ⟨fuel, e, m, rfl, h⟩ | ⟨fuel, s, m, rfl, h⟩ | ⟨fuel, id, args, m, rfl, h⟩
  · exact Fit.ofExpr hm hwork h
  · exact Fit.ofStmt hm hwork.1 hwork.2 h
  · obtain ⟨hid, hargs⟩ := hwork
    obtain ⟨hwritten, -⟩ := Observed.State.Formed.function (s := m.unobserved) hm.formed hid.lt
    exact Fit.ofBody (hm.inCall hid hargs) hwritten.body.2 (hm.function hid.lt).body h

/-- **All that is run for the sake of a fit job** is fit. -/
theorem Fit.includes (hjob : job.Fit bound) {inner : Job} (h : job.Includes inner) :
    inner.Fit bound := by
  induction h with
  | refl => exact hjob
  | tail _ hpart ih => exact ih.of_mem_parts hpart

end Job

end Machine

end Lox
