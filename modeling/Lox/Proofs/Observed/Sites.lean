import Lox.Proofs.Frames
import Lox.Proofs.Scoping.Check

/-!
# What the walk over a program comes by

The walk visits every expression, every statement and every superclass clause of a program, each
with the scopes and the surroundings that it has at that moment (`Program.sites`).  What it finds
there is part of what it finds in the program (`Program.findsAt_sites`).  If a program is
resolved, then so is what stands at each site by the ribs of the site's own scopes
(`Stmt.recorded_allSites`), so whoever comes to a site later needs to know no more of the program
than the site.
-/

namespace Lox

/-- What can be visited: an expression, a statement, or the name in a superclass clause. -/
inductive Node
  | expr (e : Expr)
  | stmt (s : Stmt)
  | superclass (reference : Reference)

/-- A visit of the walk: what it comes by, and what it knows there. -/
structure Site where
  node : Node
  around : Surroundings
  scopes : Scopes

mutual

/-- The sites of an expression. -/
def Expr.sites (around : Surroundings) (scopes : Scopes) : Expr → List Site
  | .literal value => [⟨.expr (.literal value), around, scopes⟩]
  | .group inner => ⟨.expr (.group inner), around, scopes⟩ :: inner.sites around scopes
  | .unary op line operand =>
    ⟨.expr (.unary op line operand), around, scopes⟩ :: operand.sites around scopes
  | .binary left op line right => ⟨.expr (.binary left op line right), around, scopes⟩ ::
      (left.sites around scopes ++ right.sites around scopes)
  | .logical left op right => ⟨.expr (.logical left op right), around, scopes⟩ ::
      (left.sites around scopes ++ right.sites around scopes)
  | .var reference => [⟨.expr (.var reference), around, scopes⟩]
  | .assign target value =>
    ⟨.expr (.assign target value), around, scopes⟩ :: value.sites around scopes
  | .call callee line args => ⟨.expr (.call callee line args), around, scopes⟩ ::
      (callee.sites around scopes ++ Expr.allSites around scopes args)
  | .get object name => ⟨.expr (.get object name), around, scopes⟩ :: object.sites around scopes
  | .set object name value => ⟨.expr (.set object name value), around, scopes⟩ ::
      (object.sites around scopes ++ value.sites around scopes)
  | .this keyword => [⟨.expr (.this keyword), around, scopes⟩]
  | .super keyword method => [⟨.expr (.super keyword method), around, scopes⟩]

/-- The sites of several expressions. -/
def Expr.allSites (around : Surroundings) (scopes : Scopes) : List Expr → List Site
  | [] => []
  | first :: others => first.sites around scopes ++ Expr.allSites around scopes others

end

/-- The sites of an expression that may be absent. -/
def Expr.sites? (around : Surroundings) (scopes : Scopes) : Option Expr → List Site
  | some e => e.sites around scopes
  | none => []

/-- The site of a superclass clause. -/
def Reference.sites? (around : Surroundings) (scopes : Scopes) : Option Reference → List Site
  | some reference => [⟨.superclass reference, around, scopes⟩]
  | none => []

mutual

/-- The sites of a statement.  The scopes for its parts are those of the walk. -/
def Stmt.sites (around : Surroundings) (scopes : Scopes) : Stmt → List Site
  | .expr value => ⟨.stmt (.expr value), around, scopes⟩ :: value.sites around scopes
  | .print value => ⟨.stmt (.print value), around, scopes⟩ :: value.sites around scopes
  | .var name initializer => ⟨.stmt (.var name initializer), around, scopes⟩ ::
      Expr.sites? around (scopes.declare name).1 initializer
  | .block body =>
    ⟨.stmt (.block body), around, scopes⟩ :: Stmt.allSites around scopes.enter body
  | .ifElse condition thenBranch none =>
    ⟨.stmt (.ifElse condition thenBranch none), around, scopes⟩ ::
      (condition.sites around scopes ++ thenBranch.sites around scopes)
  | .ifElse condition thenBranch (some elseBranch) =>
    ⟨.stmt (.ifElse condition thenBranch (some elseBranch)), around, scopes⟩ ::
      (condition.sites around scopes ++ thenBranch.sites around scopes ++
        elseBranch.sites around (thenBranch.walk around scopes).1)
  | .whileDo condition body => ⟨.stmt (.whileDo condition body), around, scopes⟩ ::
      (condition.sites around scopes ++ body.sites around scopes)
  | .function declaration => ⟨.stmt (.function declaration), around, scopes⟩ ::
      declaration.sites ⟨.function, around.inClass⟩ (scopes.declareReady declaration.name).1
  | .ret keyword value =>
    ⟨.stmt (.ret keyword value), around, scopes⟩ :: Expr.sites? around scopes value
  | .classDecl name superclass methods =>
    ⟨.stmt (.classDecl name superclass methods), around, scopes⟩ ::
      (Reference.sites? around (scopes.declareReady name).1 superclass ++
        FunctionDecl.allSites (.ofSuperclass superclass)
          ((scopes.declareReady name).1.enterClass superclass) methods)

/-- The sites of a function. -/
def FunctionDecl.sites (inside : Surroundings) (scopes : Scopes) : FunctionDecl → List Site
  | ⟨_, params, body⟩ => Stmt.allSites inside (scopes.enter.declareAll params).1 body

/-- The sites of the methods of a class. -/
def FunctionDecl.allSites (context : ClassContext) (scopes : Scopes) :
    List FunctionDecl → List Site
  | [] => []
  | method :: others => method.sites ⟨.ofMethod method, context⟩ scopes ++
      FunctionDecl.allSites context scopes others

/-- The sites of several statements. -/
def Stmt.allSites (around : Surroundings) (scopes : Scopes) : List Stmt → List Site
  | [] => []
  | first :: others => first.sites around scopes ++
      Stmt.allSites around (first.walk around scopes).1 others

end

/-- The sites of a program. -/
def Program.sites (program : Program) : List Site :=
  Stmt.allSites .none [] program

theorem Expr.mem_sites (around : Surroundings) (scopes : Scopes) (e : Expr) :
    ⟨.expr e, around, scopes⟩ ∈ e.sites around scopes := by
  cases e <;> exact List.mem_cons_self

theorem Stmt.mem_sites (around : Surroundings) (scopes : Scopes) (s : Stmt) :
    ⟨.stmt s, around, scopes⟩ ∈ s.sites around scopes := by
  cases s with
  | ifElse _ _ elseBranch => cases elseBranch <;> exact List.mem_cons_self
  | _ => exact List.mem_cons_self

theorem FunctionDecl.sites_eq (inside : Surroundings) (scopes : Scopes) (f : FunctionDecl) :
    f.sites inside scopes =
      Stmt.allSites inside (scopes.enter.declareAll f.params).1 f.body := by
  cases f
  rfl

/-! ## Findings at sites -/

/-- What the walk finds when it is at a site. -/
def Site.findings (site : Site) : List Finding :=
  match site.node with
  | .expr e => e.findings site.around.inClass site.scopes
  | .stmt s => (s.walk site.around site.scopes).2
  | .superclass reference => site.scopes.read reference

/-- Whether what the walk finds at each of these sites is part of what it finds, without a gap. -/
def FindsAt (sites : List Site) (findings : List Finding) : Prop :=
  ∀ site ∈ sites, site.findings <:+: findings

namespace FindsAt

variable {sites sites' : List Site} {first others : List Finding} {site : Site}

theorem nil : FindsAt [] first := nofun

theorem left (h : FindsAt sites first) : FindsAt sites (first ++ others) := fun site hsite =>
  List.infix_append_of_infix_left (h site hsite)

theorem right (h : FindsAt sites others) : FindsAt sites (first ++ others) := fun site hsite =>
  List.infix_append_of_infix_right (h site hsite)

theorem append (h : FindsAt sites first) (h' : FindsAt sites' others) :
    FindsAt (sites ++ sites') (first ++ others) :=
  List.forall_mem_append.mpr ⟨h.left, h'.right⟩

theorem cons (h : site.findings = first) (h' : FindsAt sites first) :
    FindsAt (site :: sites) first :=
  List.forall_mem_cons.mpr ⟨h ▸ List.infix_rfl, h'⟩

end FindsAt

mutual

theorem Expr.findsAt_sites (around : Surroundings) (scopes : Scopes) : ∀ e : Expr,
    FindsAt (e.sites around scopes) (e.findings around.inClass scopes)
  | .literal _ | .var _ | .this _ | .super _ _ => .cons rfl .nil
  | .group inner => .cons rfl (Expr.findsAt_sites around scopes inner)
  | .unary _ _ operand => .cons rfl (Expr.findsAt_sites around scopes operand)
  | .get object _ => .cons rfl (Expr.findsAt_sites around scopes object)
  | .assign _ value => .cons rfl (Expr.findsAt_sites around scopes value).left
  | .binary left _ _ right | .logical left _ right | .set left _ right =>
    .cons rfl ((Expr.findsAt_sites around scopes left).append (Expr.findsAt_sites around scopes right))
  | .call callee _ args => .cons rfl
      ((Expr.findsAt_sites around scopes callee).append (Expr.findsAt_allSites around scopes args))

theorem Expr.findsAt_allSites (around : Surroundings) (scopes : Scopes) : ∀ es : List Expr,
    FindsAt (Expr.allSites around scopes es) (Expr.allFindings around.inClass scopes es)
  | [] => .nil
  | first :: others =>
    (Expr.findsAt_sites around scopes first).append (Expr.findsAt_allSites around scopes others)

end

theorem Expr.findsAt_sites? (around : Surroundings) (scopes : Scopes) : ∀ e : Option Expr,
    FindsAt (Expr.sites? around scopes e) (Expr.findings? around.inClass scopes e)
  | none => .nil
  | some e => e.findsAt_sites around scopes

theorem Reference.findsAt_sites? (around : Surroundings) (scopes : Scopes) (name : Name) :
    ∀ superclass : Option Reference, FindsAt (Reference.sites? around scopes superclass)
      (scopes.superclassFindings name superclass)
  | none => .nil
  | some _ => .right (.cons rfl .nil)

mutual

theorem Stmt.findsAt_sites : ∀ (s : Stmt) (around : Surroundings) (scopes : Scopes),
    FindsAt (s.sites around scopes) (s.walk around scopes).2
  | .expr value, around, scopes | .print value, around, scopes =>
    .cons rfl (value.findsAt_sites around scopes)
  | .var _ initializer, around, _ => .cons rfl (Expr.findsAt_sites? around _ initializer).right
  | .block body, around, scopes => .cons rfl (Stmt.findsAt_allSites body around scopes.enter)
  | .ifElse condition thenBranch none, around, scopes => .cons rfl
      ((condition.findsAt_sites around scopes).append (thenBranch.findsAt_sites around scopes))
  | .ifElse condition thenBranch (some elseBranch), around, scopes => .cons rfl
      (((condition.findsAt_sites around scopes).append
        (thenBranch.findsAt_sites around scopes)).append (elseBranch.findsAt_sites around _))
  | .whileDo condition body, around, scopes => .cons rfl
      ((condition.findsAt_sites around scopes).append (body.findsAt_sites around scopes))
  | .function declaration, _, _ => .cons rfl (FunctionDecl.findsAt_sites declaration _ _).right
  | .ret _ value, around, scopes => .cons rfl (Expr.findsAt_sites? around scopes value).right
  | .classDecl name superclass methods, around, _ => .cons rfl
      ((Reference.findsAt_sites? around _ name superclass).right.append
        (FunctionDecl.findsAt_allSites methods _ _))

theorem FunctionDecl.findsAt_sites : ∀ (f : FunctionDecl) (inside : Surroundings)
    (scopes : Scopes), FindsAt (f.sites inside scopes) (f.findings inside scopes)
  | ⟨_, _, body⟩, inside, _ => (Stmt.findsAt_allSites body inside _).right

theorem FunctionDecl.findsAt_allSites : ∀ (fs : List FunctionDecl) (context : ClassContext)
    (scopes : Scopes), FindsAt (FunctionDecl.allSites context scopes fs)
      (FunctionDecl.allFindings context scopes fs)
  | [], _, _ => .nil
  | first :: others, context, scopes => (FunctionDecl.findsAt_sites first _ scopes).append
      (FunctionDecl.findsAt_allSites others context scopes)

theorem Stmt.findsAt_allSites : ∀ (ss : List Stmt) (around : Surroundings) (scopes : Scopes),
    FindsAt (Stmt.allSites around scopes ss) (Stmt.walkAll around scopes ss).2
  | [], _, _ => .nil
  | first :: others, around, scopes => (first.findsAt_sites around scopes).append
      (Stmt.findsAt_allSites others around _)

end

/-- **What the walk finds at a site of a program is part of what it finds.** -/
theorem Program.findsAt_sites (program : Program) : FindsAt program.sites program.findings :=
  Stmt.findsAt_allSites program .none []

/-! ## Behind resolved statements -/

section
variable {distances : Distances} {bound : NodeId}

/-- Behind a resolved statement the walk has the scopes before it, but for the name that it
declares. -/
theorem Stmt.Resolved.walk_fst (around : Surroundings) (scopes : Scopes) : ∀ {s : Stmt} {ribs : Ribs},
    s.Resolved distances bound ribs → (s.walk around scopes).1 =
      match s.declared? with
      | some name => (scopes.declareReady name).1
      | none => scopes
  | .expr _, _, _ | .print _, _, _ | .block _, _, _ | .ret _ _, _, _ | .var _ _, _, _
  | .function _, _, _ | .classDecl _ _ _, _, _ => rfl
  | .ifElse _ thenBranch none, _, ⟨_, hd, ht⟩ => by
    have hthen := Stmt.Resolved.walk_fst around scopes (s := thenBranch) ht
    rw [hd] at hthen
    exact hthen
  | .whileDo _ body, _, ⟨_, hd, hb⟩ => by
    have hbody := Stmt.Resolved.walk_fst around scopes (s := body) hb
    rw [hd] at hbody
    exact hbody
  | .ifElse _ thenBranch (some elseBranch), _, ⟨_, hd, ht, hd', he⟩ => by
    have hthen := Stmt.Resolved.walk_fst around scopes (s := thenBranch) ht
    have helse := Stmt.Resolved.walk_fst around scopes (s := elseBranch) he
    rw [hd] at hthen
    rw [hd'] at helse
    show (elseBranch.walk around (thenBranch.walk around scopes).1).1 = scopes
    rw [hthen, helse]

theorem Stmt.Resolved.ribs_walk {around : Surroundings} {scopes : Scopes} {s : Stmt}
    (h : s.Resolved distances bound scopes.ribs) :
    (s.walk around scopes).1.ribs = s.behind scopes.ribs := by
  rw [h.walk_fst around scopes, Stmt.behind]
  cases s.declared? with
  | none => rfl
  | some name => exact scopes.ribs_declareReady name

end

/-! ## Sites of resolved programs -/

/-- Whether what stands at a site is resolved by the ribs of the site's scopes. -/
def Site.Recorded (distances : Distances) (bound : NodeId) (site : Site) : Prop :=
  match site.node with
  | .expr e => ∃ own, e.Resolved distances bound site.scopes.ribs own
  | .stmt s => s.Resolved distances bound site.scopes.ribs
  | .superclass reference => reference.Resolved distances bound site.scopes.ribs

/-- The identity under which the name that an expression or a clause reads is on record, and the
name. -/
def Node.read? : Node → Option (NodeId × String)
  | .expr (.var reference) | .expr (.this reference) | .superclass reference =>
    some (reference.id, reference.name.text)
  | .expr (.super keyword _) => some (keyword.id, superName)
  | _ => none

section
variable {distances distances' : Distances} {bound bound' : NodeId}

/-- A name that is read has the distance on record that it has in the ribs of its site. -/
theorem Site.Recorded.get?_eq {site : Site} {id : NodeId} {x : String}
    (h : site.Recorded distances bound) (hread : site.node.read? = some (id, x)) :
    distances.get? id = site.scopes.ribs.distance? x := by
  obtain ⟨node, around, scopes⟩ := site
  cases node with
  | stmt s => cases hread
  | superclass reference =>
    cases hread
    exact h.2.2
  | expr e =>
    obtain ⟨own, h⟩ := h
    cases e with
    | var reference =>
      cases hread
      exact h.2.2
    | this keyword =>
      cases hread
      obtain ⟨hname, -, d, hd, hrecord⟩ := h
      rw [hname, hd, hrecord]
    | super keyword method =>
      cases hread
      obtain ⟨-, d, -, hd, hrecord⟩ := h
      rw [hd, hrecord]
    | _ => cases hread

theorem Site.Recorded.mono {site : Site} (h : site.Recorded distances bound)
    (he : distances.Extends bound distances' bound') : site.Recorded distances' bound' := by
  unfold Site.Recorded at h ⊢
  cases hnode : site.node with
  | expr e =>
    rw [hnode] at h
    obtain ⟨own, hown⟩ := h
    exact ⟨own, hown.mono he⟩
  | stmt s =>
    rw [hnode] at h
    exact Stmt.Resolved.mono he h
  | superclass reference =>
    rw [hnode] at h
    exact Reference.Resolved.mono h he

section
variable {around : Surroundings} {scopes : Scopes} {own : Option String}

mutual

theorem Expr.recorded_sites : ∀ {e : Expr}, e.Resolved distances bound scopes.ribs own →
    ∀ site ∈ e.sites around scopes, site.Recorded distances bound
  | .literal _, h => List.forall_mem_singleton.mpr ⟨own, h⟩
  | .var _, h => List.forall_mem_singleton.mpr ⟨own, h⟩
  | .this _, h => List.forall_mem_singleton.mpr ⟨own, h⟩
  | .super _ _, h => List.forall_mem_singleton.mpr ⟨own, h⟩
  | .group inner, h => List.forall_mem_cons.mpr ⟨⟨own, h⟩, Expr.recorded_sites (e := inner) h⟩
  | .unary _ _ operand, h =>
    List.forall_mem_cons.mpr ⟨⟨own, h⟩, Expr.recorded_sites (e := operand) h⟩
  | .get object _, h => List.forall_mem_cons.mpr ⟨⟨own, h⟩, Expr.recorded_sites (e := object) h⟩
  | .assign _ value, h =>
    List.forall_mem_cons.mpr ⟨⟨own, h⟩, Expr.recorded_sites (e := value) h.1⟩
  | .binary left _ _ right, h => List.forall_mem_cons.mpr ⟨⟨own, h⟩,
      List.forall_mem_append.mpr ⟨Expr.recorded_sites (e := left) h.1,
        Expr.recorded_sites (e := right) h.2⟩⟩
  | .logical left _ right, h => List.forall_mem_cons.mpr ⟨⟨own, h⟩,
      List.forall_mem_append.mpr ⟨Expr.recorded_sites (e := left) h.1,
        Expr.recorded_sites (e := right) h.2⟩⟩
  | .set object _ value, h => List.forall_mem_cons.mpr ⟨⟨own, h⟩,
      List.forall_mem_append.mpr ⟨Expr.recorded_sites (e := object) h.1,
        Expr.recorded_sites (e := value) h.2⟩⟩
  | .call callee _ _, h => List.forall_mem_cons.mpr ⟨⟨own, h⟩,
      List.forall_mem_append.mpr ⟨Expr.recorded_sites (e := callee) h.1,
        Expr.recorded_allSites h.2⟩⟩

theorem Expr.recorded_allSites : ∀ {es : List Expr},
    Expr.AllResolved distances bound scopes.ribs own es →
    ∀ site ∈ Expr.allSites around scopes es, site.Recorded distances bound
  | [], _ => nofun
  | _ :: _, ⟨h, hs⟩ => List.forall_mem_append.mpr ⟨Expr.recorded_sites h, Expr.recorded_allSites hs⟩

end

theorem Expr.recorded_sites? : ∀ {e : Option Expr},
    Expr.Resolved? distances bound scopes.ribs own e →
    ∀ site ∈ Expr.sites? around scopes e, site.Recorded distances bound
  | none, _ => nofun
  | some e, h => Expr.recorded_sites (e := e) h

theorem Reference.recorded_sites? : ∀ {r : Option Reference},
    Reference.Resolved? distances bound scopes.ribs r →
    ∀ site ∈ Reference.sites? around scopes r, site.Recorded distances bound
  | none, _ => nofun
  | some _, h => List.forall_mem_singleton.mpr h

end

mutual

/-- **What stands at the sites of a statement is resolved** if the statement is. -/
theorem Stmt.recorded_sites : ∀ {s : Stmt} {around : Surroundings} {scopes : Scopes},
    s.Resolved distances bound scopes.ribs →
    ∀ site ∈ s.sites around scopes, site.Recorded distances bound
  | .expr value, _, _, h => List.forall_mem_cons.mpr ⟨h, Expr.recorded_sites (e := value) h⟩
  | .print value, _, _, h => List.forall_mem_cons.mpr ⟨h, Expr.recorded_sites (e := value) h⟩
  | .ret _ value, _, _, h => List.forall_mem_cons.mpr ⟨h, Expr.recorded_sites? (e := value) h⟩
  | .var name initializer, _, scopes, h => by
    refine List.forall_mem_cons.mpr ⟨h, ?_⟩
    obtain ⟨-, hfresh, hinitializer⟩ := h
    rw [← Scopes.ribs_declare hfresh] at hinitializer
    exact Expr.recorded_sites? hinitializer
  | .block body, _, scopes, h => by
    refine List.forall_mem_cons.mpr ⟨h, ?_⟩
    have h : Stmt.AllResolved distances bound scopes.enter.ribs body := h
    exact Stmt.recorded_allSites h
  | .ifElse _ _ none, _, _, h => by
    refine List.forall_mem_cons.mpr ⟨h, ?_⟩
    obtain ⟨hc, -, ht⟩ := h
    exact List.forall_mem_append.mpr ⟨Expr.recorded_sites hc, Stmt.recorded_sites ht⟩
  | .ifElse _ thenBranch (some _), around, scopes, h => by
    refine List.forall_mem_cons.mpr ⟨h, ?_⟩
    obtain ⟨hc, hd, ht, -, he⟩ := h
    have hbetween : (thenBranch.walk around scopes).1 = scopes := by
      rw [ht.walk_fst around scopes, hd]
    rw [hbetween]
    exact List.forall_mem_append.mpr ⟨List.forall_mem_append.mpr
      ⟨Expr.recorded_sites hc, Stmt.recorded_sites ht⟩, Stmt.recorded_sites he⟩
  | .whileDo _ _, _, _, h => by
    refine List.forall_mem_cons.mpr ⟨h, ?_⟩
    obtain ⟨hc, -, hb⟩ := h
    exact List.forall_mem_append.mpr ⟨Expr.recorded_sites hc, Stmt.recorded_sites hb⟩
  | .function declaration, _, scopes, h => by
    refine List.forall_mem_cons.mpr ⟨h, ?_⟩
    obtain ⟨-, -, hdeclaration⟩ := h
    rw [← scopes.ribs_declareReady] at hdeclaration
    exact FunctionDecl.recorded_sites hdeclaration
  | .classDecl name superclass _, _, scopes, h => by
    refine List.forall_mem_cons.mpr ⟨h, ?_⟩
    obtain ⟨-, -, hsuperclass, hmethods⟩ := h
    rw [← scopes.ribs_declareReady] at hsuperclass hmethods
    rw [← Scopes.ribs_enterClass] at hmethods
    exact List.forall_mem_append.mpr
      ⟨Reference.recorded_sites? hsuperclass, FunctionDecl.recorded_allSites hmethods⟩

theorem FunctionDecl.recorded_sites : ∀ {f : FunctionDecl} {inside : Surroundings}
    {scopes : Scopes}, f.Resolved distances bound scopes.ribs →
    ∀ site ∈ f.sites inside scopes, site.Recorded distances bound
  | ⟨_, params, _⟩, _, scopes, ⟨_, _, hbody⟩ => by
    have hribs := Scopes.ribs_declareAll params scopes.enter
    have henter : scopes.enter.ribs = .none :: scopes.ribs := rfl
    rw [henter] at hribs
    rw [← hribs] at hbody
    exact Stmt.recorded_allSites hbody

theorem FunctionDecl.recorded_allSites : ∀ {fs : List FunctionDecl} {context : ClassContext}
    {scopes : Scopes}, FunctionDecl.AllResolved distances bound scopes.ribs fs →
    ∀ site ∈ FunctionDecl.allSites context scopes fs, site.Recorded distances bound
  | [], _, _, _ => nofun
  | _ :: _, _, _, ⟨h, hs⟩ => List.forall_mem_append.mpr
      ⟨FunctionDecl.recorded_sites h, FunctionDecl.recorded_allSites hs⟩

theorem Stmt.recorded_allSites : ∀ {ss : List Stmt} {around : Surroundings} {scopes : Scopes},
    Stmt.AllResolved distances bound scopes.ribs ss →
    ∀ site ∈ Stmt.allSites around scopes ss, site.Recorded distances bound
  | [], _, _, _ => nofun
  | first :: _, around, scopes, ⟨h, hs⟩ => by
    have hbehind : (first.walk around scopes).1.ribs = first.behind scopes.ribs := h.ribs_walk
    rw [← hbehind] at hs
    exact List.forall_mem_append.mpr ⟨Stmt.recorded_sites h, Stmt.recorded_allSites hs⟩

end

end

end Lox
