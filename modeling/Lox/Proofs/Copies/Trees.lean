import Lox.Proofs.Joining.Origins
import Lox.Proofs.Joining.Moved

/-!
# Trees with other identities

The identities of the references in a tree only serve to tell references apart.  `renumbered` is the
same tree with other identities.  It depends on the new identities of the tree's own references alone
(`Stmt.renumbered_congr`), and a tree whose identities come later than those of another is this one
renumbered (`Stmt.renumbered_moved`).
-/

namespace Lox

def Reference.renumbered (ids : NodeId → NodeId) (r : Reference) : Reference :=
  ⟨ids r.id, r.name⟩

mutual

/-- An expression with other identities. -/
def Expr.renumbered (ids : NodeId → NodeId) : Expr → Expr
  | .literal value => .literal value
  | .group inner => .group (inner.renumbered ids)
  | .unary op line operand => .unary op line (operand.renumbered ids)
  | .binary left op line right => .binary (left.renumbered ids) op line (right.renumbered ids)
  | .logical left op right => .logical (left.renumbered ids) op (right.renumbered ids)
  | .var r => .var (r.renumbered ids)
  | .assign target value => .assign (target.renumbered ids) (value.renumbered ids)
  | .call callee line args => .call (callee.renumbered ids) line (Expr.allRenumbered ids args)
  | .get object name => .get (object.renumbered ids) name
  | .set object name value => .set (object.renumbered ids) name (value.renumbered ids)
  | .this keyword => .this (keyword.renumbered ids)
  | .super keyword method => .super (keyword.renumbered ids) method

/-- Several expressions with other identities. -/
def Expr.allRenumbered (ids : NodeId → NodeId) : List Expr → List Expr
  | [] => []
  | first :: others => first.renumbered ids :: Expr.allRenumbered ids others

end

mutual

/-- A statement with other identities. -/
def Stmt.renumbered (ids : NodeId → NodeId) : Stmt → Stmt
  | .expr value => .expr (value.renumbered ids)
  | .print value => .print (value.renumbered ids)
  | .var name initializer => .var name (initializer.map (Expr.renumbered ids))
  | .block body => .block (Stmt.allRenumbered ids body)
  | .ifElse condition thenBranch none =>
    .ifElse (condition.renumbered ids) (thenBranch.renumbered ids) none
  | .ifElse condition thenBranch (some elseBranch) =>
    .ifElse (condition.renumbered ids) (thenBranch.renumbered ids)
      (some (elseBranch.renumbered ids))
  | .whileDo condition body => .whileDo (condition.renumbered ids) (body.renumbered ids)
  | .function declaration => .function (declaration.renumbered ids)
  | .ret keyword value => .ret keyword (value.map (Expr.renumbered ids))
  | .classDecl name superclass methods =>
    .classDecl name (superclass.map (Reference.renumbered ids))
      (FunctionDecl.allRenumbered ids methods)

/-- A function with other identities. -/
def FunctionDecl.renumbered (ids : NodeId → NodeId) : FunctionDecl → FunctionDecl
  | ⟨name, params, body⟩ => ⟨name, params, Stmt.allRenumbered ids body⟩

/-- Several functions with other identities. -/
def FunctionDecl.allRenumbered (ids : NodeId → NodeId) : List FunctionDecl → List FunctionDecl
  | [] => []
  | first :: others => first.renumbered ids :: FunctionDecl.allRenumbered ids others

/-- Several statements with other identities. -/
def Stmt.allRenumbered (ids : NodeId → NodeId) : List Stmt → List Stmt
  | [] => []
  | first :: others => first.renumbered ids :: Stmt.allRenumbered ids others

end

/-! ## What renumbering keeps -/

section Keeps

variable (ids : NodeId → NodeId) (f : FunctionDecl)

@[simp] theorem Reference.renumbered_name (r : Reference) : (r.renumbered ids).name = r.name := rfl

theorem FunctionDecl.renumbered_name : (f.renumbered ids).name = f.name := by
  cases f
  rfl

theorem FunctionDecl.renumbered_params : (f.renumbered ids).params = f.params := by
  cases f
  rfl

theorem FunctionDecl.renumbered_body :
    (f.renumbered ids).body = Stmt.allRenumbered ids f.body := by
  cases f
  rfl

theorem FunctionDecl.renumbered_isInitializer :
    (f.renumbered ids).isInitializer = f.isInitializer := by
  cases f
  rfl

end Keeps

/-! ## Only the tree's own identities matter -/

section Congr

variable {ids ids' : NodeId → NodeId} {o : Origin}

/-- Whether two numberings agree on the identities of an origin. -/
def Origin.Agrees (o : Origin) (ids ids' : NodeId → NodeId) : Prop :=
  ∀ id, o.id id → ids id = ids' id

theorem Reference.renumbered_congr (h : o.Agrees ids ids') {r : Reference} (hr : r.From o) :
    r.renumbered ids = r.renumbered ids' := by
  rw [renumbered, renumbered, h r.id hr.1]

mutual

theorem Expr.renumbered_congr (h : o.Agrees ids ids') : ∀ {e : Expr}, e.From o →
    e.renumbered ids = e.renumbered ids'
  | .literal _, _ => rfl
  | .group _, he => congrArg Expr.group (Expr.renumbered_congr h he)
  | .unary _ _ _, ⟨_, he⟩ => congrArg (Expr.unary _ _) (Expr.renumbered_congr h he)
  | .binary _ _ _ _, ⟨_, hl, hr⟩ | .logical _ _ _, ⟨hl, hr⟩ | .set _ _ _, ⟨_, hl, hr⟩ => by
    simp only [Expr.renumbered, Expr.renumbered_congr h hl, Expr.renumbered_congr h hr]
  | .var _, hr => congrArg Expr.var (Reference.renumbered_congr h hr)
  | .assign _ _, ⟨hr, hv⟩ => by
    simp only [Expr.renumbered, Reference.renumbered_congr h hr, Expr.renumbered_congr h hv]
  | .call _ _ _, ⟨_, hc, ha⟩ => by
    simp only [Expr.renumbered, Expr.renumbered_congr h hc, Expr.allRenumbered_congr h ha]
  | .get _ _, ⟨_, he⟩ => by simp only [Expr.renumbered, Expr.renumbered_congr h he]
  | .this _, hr => congrArg Expr.this (Reference.renumbered_congr h hr)
  | .super _ _, ⟨hr, _⟩ => by simp only [Expr.renumbered, Reference.renumbered_congr h hr]

theorem Expr.allRenumbered_congr (h : o.Agrees ids ids') : ∀ {es : List Expr}, Expr.AllFrom o es →
    Expr.allRenumbered ids es = Expr.allRenumbered ids' es
  | [], _ => rfl
  | _ :: _, ⟨he, hes⟩ => by
    simp only [Expr.allRenumbered, Expr.renumbered_congr h he, Expr.allRenumbered_congr h hes]

end

theorem Expr.map_renumbered_congr (h : o.Agrees ids ids') {e : Option Expr} (he : Expr.From? o e) :
    e.map (Expr.renumbered ids) = e.map (Expr.renumbered ids') := by
  cases e with
  | none => rfl
  | some e => exact congrArg some (Expr.renumbered_congr h he)

theorem Reference.map_renumbered_congr (h : o.Agrees ids ids') {r : Option Reference}
    (hr : Reference.From? o r) :
    r.map (Reference.renumbered ids) = r.map (Reference.renumbered ids') := by
  cases r with
  | none => rfl
  | some r => exact congrArg some (Reference.renumbered_congr h hr)

mutual

/-- **A statement is renumbered alike** by what gives its own references the same identities. -/
theorem Stmt.renumbered_congr (h : o.Agrees ids ids') : ∀ {s : Stmt}, s.From o →
    s.renumbered ids = s.renumbered ids'
  | .expr _, he => congrArg Stmt.expr (Expr.renumbered_congr h he)
  | .print _, he => congrArg Stmt.print (Expr.renumbered_congr h he)
  | .var _ _, he => congrArg (Stmt.var _) (Expr.map_renumbered_congr h he)
  | .block _, hb => congrArg Stmt.block (Stmt.allRenumbered_congr h hb)
  | .ifElse _ _ none, ⟨hc, ht⟩ | .whileDo _ _, ⟨hc, ht⟩ => by
    simp only [Stmt.renumbered, Expr.renumbered_congr h hc, Stmt.renumbered_congr h ht]
  | .ifElse _ _ (some _), ⟨hc, ht, he⟩ => by
    simp only [Stmt.renumbered, Expr.renumbered_congr h hc, Stmt.renumbered_congr h ht,
      Stmt.renumbered_congr h he]
  | .function _, hf => congrArg Stmt.function (FunctionDecl.renumbered_congr h hf)
  | .ret _ _, he => congrArg (Stmt.ret _) (Expr.map_renumbered_congr h he)
  | .classDecl _ _ _, ⟨_, hr, hm⟩ => by
    simp only [Stmt.renumbered, Reference.map_renumbered_congr h hr,
      FunctionDecl.allRenumbered_congr h hm]

theorem FunctionDecl.renumbered_congr (h : o.Agrees ids ids') : ∀ {f : FunctionDecl}, f.From o →
    f.renumbered ids = f.renumbered ids'
  | ⟨_, _, _⟩, ⟨_, hb⟩ => congrArg (FunctionDecl.mk _ _) (Stmt.allRenumbered_congr h hb)

theorem FunctionDecl.allRenumbered_congr (h : o.Agrees ids ids') :
    ∀ {fs : List FunctionDecl}, FunctionDecl.AllFrom o fs →
    FunctionDecl.allRenumbered ids fs = FunctionDecl.allRenumbered ids' fs
  | [], _ => rfl
  | _ :: _, ⟨hf, hfs⟩ => by
    simp only [FunctionDecl.allRenumbered, FunctionDecl.renumbered_congr h hf,
      FunctionDecl.allRenumbered_congr h hfs]

theorem Stmt.allRenumbered_congr (h : o.Agrees ids ids') : ∀ {ss : List Stmt}, Stmt.AllFrom o ss →
    Stmt.allRenumbered ids ss = Stmt.allRenumbered ids' ss
  | [], _ => rfl
  | _ :: _, ⟨hs, hss⟩ => by
    simp only [Stmt.allRenumbered, Stmt.renumbered_congr h hs, Stmt.allRenumbered_congr h hss]

end

end Congr

/-! ## Later identities -/

section Later

variable {ids : NodeId → NodeId} {n n' : NodeId}

/-- Whether a numbering takes the identities from `n` on to those from `n'` on. -/
def TakesTo (ids : NodeId → NodeId) (n n' : NodeId) : Prop :=
  ∀ id, ids (n + id) = n' + id

theorem Reference.renumbered_moved (h : TakesTo ids n n') (r : Reference) :
    (r.moved ⟨n, 0⟩).renumbered ids = r.moved ⟨n', 0⟩ :=
  congrArg (Reference.mk · _) (h r.id)

mutual

theorem Expr.renumbered_moved (h : TakesTo ids n n') : ∀ e : Expr,
    (e.moved ⟨n, 0⟩).renumbered ids = e.moved ⟨n', 0⟩
  | .literal _ => rfl
  | .group inner => congrArg Expr.group (Expr.renumbered_moved h inner)
  | .unary _ _ operand => congrArg (Expr.unary _ _) (Expr.renumbered_moved h operand)
  | .binary left _ _ right | .logical left _ right => by
    simp only [Expr.moved, Expr.renumbered, Expr.renumbered_moved h left,
      Expr.renumbered_moved h right]
  | .set left _ right => by
    simp only [Expr.moved, Expr.renumbered, Expr.renumbered_moved h left,
      Expr.renumbered_moved h right]
    rfl
  | .var r => congrArg Expr.var (Reference.renumbered_moved h r)
  | .assign r value => by
    simp only [Expr.moved, Expr.renumbered, Reference.renumbered_moved h r,
      Expr.renumbered_moved h value]
  | .call callee _ args => by
    simp only [Expr.moved, Expr.renumbered, Expr.renumbered_moved h callee,
      Expr.allRenumbered_moved h args]
  | .get object _ => by
    simp only [Expr.moved, Expr.renumbered, Expr.renumbered_moved h object]
    rfl
  | .this r => congrArg Expr.this (Reference.renumbered_moved h r)
  | .super r _ => by
    simp only [Expr.moved, Expr.renumbered, Reference.renumbered_moved h r]
    rfl

theorem Expr.allRenumbered_moved (h : TakesTo ids n n') : ∀ es : List Expr,
    Expr.allRenumbered ids (Expr.allMoved ⟨n, 0⟩ es) = Expr.allMoved ⟨n', 0⟩ es
  | [] => rfl
  | e :: es => by
    simp only [Expr.allMoved, Expr.allRenumbered, Expr.renumbered_moved h e,
      Expr.allRenumbered_moved h es]

end

theorem Expr.map_renumbered_moved (h : TakesTo ids n n') (e : Option Expr) :
    (e.map (Expr.moved ⟨n, 0⟩)).map (Expr.renumbered ids) = e.map (Expr.moved ⟨n', 0⟩) := by
  cases e with
  | none => rfl
  | some e => exact congrArg some (Expr.renumbered_moved h e)

theorem Reference.map_renumbered_moved (h : TakesTo ids n n') (r : Option Reference) :
    (r.map (Reference.moved ⟨n, 0⟩)).map (Reference.renumbered ids) =
      r.map (Reference.moved ⟨n', 0⟩) := by
  cases r with
  | none => rfl
  | some r => exact congrArg some (Reference.renumbered_moved h r)

mutual

/-- **A statement with later identities** is the one with other later identities, renumbered. -/
theorem Stmt.renumbered_moved (h : TakesTo ids n n') : ∀ s : Stmt,
    (s.moved ⟨n, 0⟩).renumbered ids = s.moved ⟨n', 0⟩
  | .expr value => congrArg Stmt.expr (Expr.renumbered_moved h value)
  | .print value => congrArg Stmt.print (Expr.renumbered_moved h value)
  | .var _ value => congrArg (Stmt.var _) (Expr.map_renumbered_moved h value)
  | .block body => congrArg Stmt.block (Stmt.allRenumbered_moved h body)
  | .ifElse c t none | .whileDo c t => by
    simp only [Stmt.moved, Stmt.renumbered, Expr.renumbered_moved h c, Stmt.renumbered_moved h t]
  | .ifElse c t (some e) => by
    simp only [Stmt.moved, Stmt.renumbered, Expr.renumbered_moved h c, Stmt.renumbered_moved h t,
      Stmt.renumbered_moved h e]
  | .function f => congrArg Stmt.function (FunctionDecl.renumbered_moved h f)
  | .ret _ value => congrArg (Stmt.ret _) (Expr.map_renumbered_moved h value)
  | .classDecl _ r methods => by
    simp only [Stmt.moved, Stmt.renumbered, Reference.map_renumbered_moved h r,
      FunctionDecl.allRenumbered_moved h methods]
    rfl

theorem FunctionDecl.renumbered_moved (h : TakesTo ids n n') : ∀ f : FunctionDecl,
    (f.moved ⟨n, 0⟩).renumbered ids = f.moved ⟨n', 0⟩
  | ⟨_, _, body⟩ => congrArg (FunctionDecl.mk _ _) (Stmt.allRenumbered_moved h body)

theorem FunctionDecl.allRenumbered_moved (h : TakesTo ids n n') : ∀ fs : List FunctionDecl,
    FunctionDecl.allRenumbered ids (FunctionDecl.allMoved ⟨n, 0⟩ fs) =
      FunctionDecl.allMoved ⟨n', 0⟩ fs
  | [] => rfl
  | f :: fs => by
    simp only [FunctionDecl.allMoved, FunctionDecl.allRenumbered, FunctionDecl.renumbered_moved h f,
      FunctionDecl.allRenumbered_moved h fs]

theorem Stmt.allRenumbered_moved (h : TakesTo ids n n') : ∀ ss : List Stmt,
    Stmt.allRenumbered ids (Stmt.allMoved ⟨n, 0⟩ ss) = Stmt.allMoved ⟨n', 0⟩ ss
  | [] => rfl
  | s :: ss => by
    simp only [Stmt.allMoved, Stmt.allRenumbered, Stmt.renumbered_moved h s,
      Stmt.allRenumbered_moved h ss]

end

end Later

theorem FunctionDecl.renumbered_id (f : FunctionDecl) : f.renumbered id = f := by
  have hmoved : (f.moved .zero).renumbered id = f.moved .zero :=
    FunctionDecl.renumbered_moved (fun _ => rfl) f
  rwa [f.moved_zero] at hmoved

end Lox
