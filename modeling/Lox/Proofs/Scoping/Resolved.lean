import Lox.Proofs.Scoping.Written
import Lox.Scope.Findings

/-!
# Resolved trees

What the distances recorded for a tree have to be so that it can run.  Around a place lie ribs: the
names of each scope that are bound when the place is reached.  `Resolved` says of a tree that every
reference in it has the distance of its name in these ribs on record.  One kind of reference is
different.  While a local variable's initializer is evaluated, the variable is the *own* name of the
place: it is bound by no rib yet, but an assignment to it is on record as if it were bound by the
innermost one.
-/

namespace Lox

/-- Whether a scope binds a name. -/
abbrev Rib := String → Bool

/-- The scopes around a place, the innermost first. -/
abbrev Ribs := List Rib

/-- A scope that binds nothing. -/
def Rib.none : Rib := fun _ => false

/-- A scope that binds one name. -/
def Rib.single (name : String) : Rib := fun x => x == name

/-- A scope that binds one name more. -/
def Rib.add (rib : Rib) (name : String) : Rib := fun x => x == name || rib x

namespace Ribs

/-- How far out the innermost scope is that binds a name. -/
def distance? (ribs : Ribs) (name : String) : Option Nat :=
  ribs.findIdx? (· name)

/-- The scopes behind the declaration of a name. -/
def extend (ribs : Ribs) (name : String) : Ribs :=
  match ribs with
  | [] => []
  | rib :: outer => rib.add name :: outer

/-- The scopes behind the declarations of several names. -/
def extendAll (ribs : Ribs) (names : List Name) : Ribs :=
  names.foldl (fun ribs name => ribs.extend name.text) ribs

/-- Whether the innermost scope does not bind a name yet. -/
def Fresh (ribs : Ribs) (name : String) : Prop :=
  ∀ rib ∈ ribs.head?, rib name = false

/-- The own name of the place where a variable is initialized; none on the outermost level. -/
def own (ribs : Ribs) (name : String) : Option String :=
  match ribs with
  | [] => .none
  | _ :: _ => some name

/-- The scopes around the methods of a class. -/
def enterClass (ribs : Ribs) : Option Reference → Ribs
  | some _ => .single thisName :: .single superName :: ribs
  | .none => .single thisName :: ribs

theorem distance?_cons (rib : Rib) (ribs : Ribs) (name : String) :
    distance? (rib :: ribs) name = if rib name then some 0 else (ribs.distance? name).map (· + 1) := by
  simp only [distance?, List.findIdx?_cons]

end Ribs

/-- The scopes behind a statement. -/
def Stmt.behind (ribs : Ribs) (s : Stmt) : Ribs :=
  match s.declared? with
  | some name => ribs.extend name.text
  | none => ribs

/-! ## Expressions -/

section
variable (distances : Distances) (bound : NodeId)

/-- Whether a reference to a variable has the distance of its name on record. -/
def Reference.Resolved (ribs : Ribs) (reference : Reference) : Prop :=
  Plain reference.name.text ∧ reference.id < bound ∧
    distances.get? reference.id = ribs.distance? reference.name.text

/-- Whether the target of an assignment is on record as what it is at a place with this own name. -/
def Reference.ResolvedTarget (ribs : Ribs) (own : Option String) (target : Reference) : Prop :=
  Plain target.name.text ∧ target.id < bound ∧
    distances.get? target.id =
      if own = some target.name.text then some 0 else ribs.distance? target.name.text

mutual

/-- Whether the references of an expression have their distances on record. -/
def Expr.Resolved (ribs : Ribs) (own : Option String) : Expr → Prop
  | .literal _ => True
  | .group inner => inner.Resolved ribs own
  | .unary _ _ operand => operand.Resolved ribs own
  | .binary left _ _ right => left.Resolved ribs own ∧ right.Resolved ribs own
  | .logical left _ right => left.Resolved ribs own ∧ right.Resolved ribs own
  | .var reference => reference.Resolved distances bound ribs
  | .assign target value =>
    value.Resolved ribs own ∧ target.ResolvedTarget distances bound ribs own
  | .call callee _ args => callee.Resolved ribs own ∧ Expr.AllResolved ribs own args
  | .get object _ => object.Resolved ribs own
  | .set object _ value => object.Resolved ribs own ∧ value.Resolved ribs own
  | .this keyword => keyword.name.text = thisName ∧ keyword.id < bound ∧
      ∃ d, ribs.distance? thisName = some d ∧ distances.get? keyword.id = some d
  | .super keyword _ => keyword.id < bound ∧ ∃ d, ribs.distance? thisName = some d ∧
      ribs.distance? superName = some (d + 1) ∧ distances.get? keyword.id = some (d + 1)

/-- Whether the references of several expressions have their distances on record. -/
def Expr.AllResolved (ribs : Ribs) (own : Option String) : List Expr → Prop
  | [] => True
  | first :: others => first.Resolved ribs own ∧ Expr.AllResolved ribs own others

end

/-- Whether the references of an expression that may be absent have their distances on record. -/
def Expr.Resolved? (ribs : Ribs) (own : Option String) : Option Expr → Prop
  | none => True
  | some e => e.Resolved distances bound ribs own

/-! ## Statements -/

/-- Whether a superclass clause has the distance of its name on record. -/
def Reference.Resolved? (ribs : Ribs) : Option Reference → Prop
  | none => True
  | some r => r.Resolved distances bound ribs

mutual

/-- Whether the references of a statement have their distances on record, and the names that it
declares are new. -/
def Stmt.Resolved : Ribs → Stmt → Prop
  | ribs, .expr value => value.Resolved distances bound ribs none
  | ribs, .print value => value.Resolved distances bound ribs none
  | ribs, .var name initializer => Plain name.text ∧ ribs.Fresh name.text ∧
      Expr.Resolved? distances bound ribs (ribs.own name.text) initializer
  | ribs, .block body => Stmt.AllResolved (.none :: ribs) body
  | ribs, .ifElse condition thenBranch none => condition.Resolved distances bound ribs none ∧
      thenBranch.declared? = none ∧ thenBranch.Resolved ribs
  | ribs, .ifElse condition thenBranch (some elseBranch) =>
      condition.Resolved distances bound ribs none ∧
      thenBranch.declared? = none ∧ thenBranch.Resolved ribs ∧
      elseBranch.declared? = none ∧ elseBranch.Resolved ribs
  | ribs, .whileDo condition body => condition.Resolved distances bound ribs none ∧
      body.declared? = none ∧ body.Resolved ribs
  | ribs, .function declaration => Plain declaration.name.text ∧ ribs.Fresh declaration.name.text ∧
      declaration.Resolved (ribs.extend declaration.name.text)
  | ribs, .ret _ value => Expr.Resolved? distances bound ribs none value
  | ribs, .classDecl name superclass methods => Plain name.text ∧ ribs.Fresh name.text ∧
      Reference.Resolved? distances bound (ribs.extend name.text) superclass ∧
      FunctionDecl.AllResolved ((ribs.extend name.text).enterClass superclass) methods

/-- Whether the references of a function have their distances on record. -/
def FunctionDecl.Resolved : Ribs → FunctionDecl → Prop
  | ribs, ⟨_, params, body⟩ => (∀ param ∈ params, Plain param.text) ∧
      (params.map Name.text).Nodup ∧ Stmt.AllResolved (Ribs.extendAll (.none :: ribs) params) body

/-- Whether the references of several functions have their distances on record. -/
def FunctionDecl.AllResolved : Ribs → List FunctionDecl → Prop
  | _, [] => True
  | ribs, first :: others => first.Resolved ribs ∧ FunctionDecl.AllResolved ribs others

/-- Whether the references of several statements have their distances on record. -/
def Stmt.AllResolved : Ribs → List Stmt → Prop
  | _, [] => True
  | ribs, first :: others => first.Resolved ribs ∧ Stmt.AllResolved (first.behind ribs) others

end

end

/-! ## More distances -/

section
variable {distances distances' : Distances} {bound bound' : NodeId}

/-- Whether a record with a greater bound says the same of all identities below the smaller one. -/
def Distances.Extends (distances : Distances) (bound : NodeId) (distances' : Distances)
    (bound' : NodeId) : Prop :=
  bound ≤ bound' ∧ ∀ id < bound, distances'.get? id = distances.get? id

theorem Reference.Resolved.mono {ribs : Ribs} {r : Reference} (h : r.Resolved distances bound ribs)
    (he : distances.Extends bound distances' bound') : r.Resolved distances' bound' ribs :=
  ⟨h.1, Nat.lt_of_lt_of_le h.2.1 he.1, (he.2 _ h.2.1).trans h.2.2⟩

theorem Reference.ResolvedTarget.mono {ribs : Ribs} {own : Option String} {r : Reference}
    (h : r.ResolvedTarget distances bound ribs own)
    (he : distances.Extends bound distances' bound') :
    r.ResolvedTarget distances' bound' ribs own :=
  ⟨h.1, Nat.lt_of_lt_of_le h.2.1 he.1, (he.2 _ h.2.1).trans h.2.2⟩

mutual

theorem Expr.Resolved.mono {ribs : Ribs} {own : Option String}
    (he : distances.Extends bound distances' bound') :
    ∀ {e : Expr}, e.Resolved distances bound ribs own → e.Resolved distances' bound' ribs own
  | .literal _, _ => trivial
  | .group inner, h => Expr.Resolved.mono he (e := inner) h
  | .unary _ _ operand, h => Expr.Resolved.mono he (e := operand) h
  | .get object _, h => Expr.Resolved.mono he (e := object) h
  | .binary _ _ _ _, ⟨hl, hr⟩ | .logical _ _ _, ⟨hl, hr⟩ | .set _ _ _, ⟨hl, hr⟩ =>
    ⟨hl.mono he, hr.mono he⟩
  | .var _, h => Reference.Resolved.mono h he
  | .assign _ _, ⟨hv, ht⟩ => ⟨hv.mono he, ht.mono he⟩
  | .call _ _ _, ⟨hc, ha⟩ => ⟨hc.mono he, ha.mono he⟩
  | .this _, ⟨hname, hid, d, hd, hget⟩ =>
    ⟨hname, Nat.lt_of_lt_of_le hid he.1, d, hd, (he.2 _ hid).trans hget⟩
  | .super _ _, ⟨hid, d, hd, hd', hget⟩ =>
    ⟨Nat.lt_of_lt_of_le hid he.1, d, hd, hd', (he.2 _ hid).trans hget⟩

theorem Expr.AllResolved.mono {ribs : Ribs} {own : Option String}
    (he : distances.Extends bound distances' bound') :
    ∀ {es : List Expr}, Expr.AllResolved distances bound ribs own es →
      Expr.AllResolved distances' bound' ribs own es
  | [], _ => trivial
  | _ :: _, ⟨h, hs⟩ => ⟨h.mono he, hs.mono he⟩

end

theorem Expr.Resolved?.mono {ribs : Ribs} {own : Option String}
    (he : distances.Extends bound distances' bound') :
    ∀ {e : Option Expr}, Expr.Resolved? distances bound ribs own e →
      Expr.Resolved? distances' bound' ribs own e
  | none, _ => trivial
  | some e, h => Expr.Resolved.mono he (e := e) h

theorem Reference.Resolved?.mono {ribs : Ribs} (he : distances.Extends bound distances' bound') :
    ∀ {r : Option Reference}, Reference.Resolved? distances bound ribs r →
      Reference.Resolved? distances' bound' ribs r
  | none, _ => trivial
  | some _, h => Reference.Resolved.mono h he

mutual

theorem Stmt.Resolved.mono (he : distances.Extends bound distances' bound') :
    ∀ {s : Stmt} {ribs : Ribs}, s.Resolved distances bound ribs → s.Resolved distances' bound' ribs
  | .expr _, _, h | .print _, _, h => Expr.Resolved.mono he h
  | .var _ _, _, ⟨hplain, hfresh, h⟩ => ⟨hplain, hfresh, h.mono he⟩
  | .block _, _, h => Stmt.AllResolved.mono he h
  | .ifElse _ _ none, _, ⟨hc, hd, ht⟩ => ⟨hc.mono he, hd, ht.mono he⟩
  | .ifElse _ _ (some _), _, ⟨hc, hd, ht, hd', he'⟩ => ⟨hc.mono he, hd, ht.mono he, hd', he'.mono he⟩
  | .whileDo _ _, _, ⟨hc, hd, hb⟩ => ⟨hc.mono he, hd, hb.mono he⟩
  | .function _, _, ⟨hplain, hfresh, h⟩ => ⟨hplain, hfresh, h.mono he⟩
  | .ret _ _, _, h => Expr.Resolved?.mono he h
  | .classDecl _ _ _, _, ⟨hplain, hfresh, hs, hm⟩ => ⟨hplain, hfresh, hs.mono he, hm.mono he⟩

theorem FunctionDecl.Resolved.mono (he : distances.Extends bound distances' bound') :
    ∀ {f : FunctionDecl} {ribs : Ribs}, f.Resolved distances bound ribs →
      f.Resolved distances' bound' ribs
  | ⟨_, _, _⟩, _, ⟨hplain, hnodup, hbody⟩ => ⟨hplain, hnodup, hbody.mono he⟩

theorem FunctionDecl.AllResolved.mono (he : distances.Extends bound distances' bound') :
    ∀ {fs : List FunctionDecl} {ribs : Ribs}, FunctionDecl.AllResolved distances bound ribs fs →
      FunctionDecl.AllResolved distances' bound' ribs fs
  | [], _, _ => trivial
  | _ :: _, _, ⟨h, hs⟩ => ⟨h.mono he, hs.mono he⟩

theorem Stmt.AllResolved.mono (he : distances.Extends bound distances' bound') :
    ∀ {ss : List Stmt} {ribs : Ribs}, Stmt.AllResolved distances bound ribs ss →
      Stmt.AllResolved distances' bound' ribs ss
  | [], _, _ => trivial
  | _ :: _, _, ⟨h, hs⟩ => ⟨h.mono he, hs.mono he⟩

end

end

end Lox
