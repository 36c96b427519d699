import Lox.Proofs.Joining.Origins
import Lox.Proofs.Occurrences.Basic
import Lox.Token.Basic

/-!
# Trees of tokens

A tree is *of* some tokens if each name that it mentions is the lexeme of one of them, on the line of
that token, and each line with which a fault in it can be reported is the line of one of them.  A
tree is of some tokens if its parts are.
-/

namespace Lox

/-- Whether a line is that of one of some tokens. -/
def Token.OnLine (tokens : List Token) (line : Nat) : Prop :=
  ∃ token ∈ tokens, token.line = line

/-- Whether a name is that of one of some tokens: its lexeme, on its line. -/
def Name.Of (tokens : List Token) (name : Name) : Prop :=
  ∃ token ∈ tokens, name = ⟨token.lexeme, token.line⟩

/-- **Whether an expression is of some tokens.** -/
structure Expr.Of (tokens : List Token) (e : Expr) : Prop where
  names : ∀ place own, ∀ o ∈ e.occurrences place own, o.name.Of tokens
  lines : ∀ line ∈ e.lines, Token.OnLine tokens line

/-- **Whether a statement is of some tokens.** -/
structure Stmt.Of (tokens : List Token) (s : Stmt) : Prop where
  names : ∀ place, ∀ o ∈ s.occurrences place, o.name.Of tokens
  lines : ∀ line ∈ s.lines, Token.OnLine tokens line

/-- **Whether a function is of some tokens**, with its name. -/
structure FunctionDecl.Of (tokens : List Token) (f : FunctionDecl) : Prop where
  name : f.name.Of tokens
  names : ∀ enclosure place, ∀ o ∈ f.occurrences enclosure place, o.name.Of tokens
  lines : ∀ line ∈ f.lines, Token.OnLine tokens line

section
variable {tokens : List Token}

theorem Name.Of.of_mem {token : Token} (h : token ∈ tokens) :
    Name.Of tokens ⟨token.lexeme, token.line⟩ :=
  ⟨token, h, rfl⟩

theorem Name.Of.onLine {name : Name} (h : name.Of tokens) : Token.OnLine tokens name.line := by
  obtain ⟨token, hmem, rfl⟩ := h
  exact ⟨token, hmem, rfl⟩

/-! ## Expressions -/

namespace Expr.Of

variable {e left right : Expr} {line : Nat} {name : Name} {r : Reference}

theorem literal (value : Literal) : (Expr.literal value).Of tokens :=
  ⟨fun _ _ => nofun, nofun⟩

theorem group (h : e.Of tokens) : (Expr.group e).Of tokens :=
  ⟨h.names, h.lines⟩

theorem unary (op : UnaryOp) (hline : Token.OnLine tokens line) (h : e.Of tokens) :
    (Expr.unary op line e).Of tokens :=
  ⟨h.names, List.forall_mem_cons.mpr ⟨hline, h.lines⟩⟩

theorem binary (op : BinaryOp) (hline : Token.OnLine tokens line) (hleft : left.Of tokens)
    (hright : right.Of tokens) : (Expr.binary left op line right).Of tokens where
  names place own := List.forall_mem_append.mpr ⟨hleft.names place own, hright.names place own⟩
  lines := List.forall_mem_cons.mpr
    ⟨hline, List.forall_mem_append.mpr ⟨hleft.lines, hright.lines⟩⟩

theorem logical (op : LogicalOp) (hleft : left.Of tokens) (hright : right.Of tokens) :
    (Expr.logical left op right).Of tokens where
  names place own := List.forall_mem_append.mpr ⟨hleft.names place own, hright.names place own⟩
  lines := List.forall_mem_append.mpr ⟨hleft.lines, hright.lines⟩

theorem var (h : r.name.Of tokens) : (Expr.var r).Of tokens :=
  ⟨fun _ _ => List.forall_mem_singleton.mpr h, List.forall_mem_singleton.mpr h.onLine⟩

theorem assign (h : r.name.Of tokens) (hvalue : e.Of tokens) : (Expr.assign r e).Of tokens where
  names place own :=
    List.forall_mem_append.mpr ⟨hvalue.names place own, List.forall_mem_singleton.mpr h⟩
  lines := List.forall_mem_cons.mpr ⟨h.onLine, hvalue.lines⟩

theorem all {es : List Expr} (h : ∀ e ∈ es, e.Of tokens) :
    (∀ place own, ∀ o ∈ Expr.allOccurrences place own es, o.name.Of tokens) ∧
      ∀ line ∈ Expr.allLines es, Token.OnLine tokens line := by
  induction es with
  | nil => exact ⟨fun _ _ => nofun, nofun⟩
  | cons e es ih =>
    obtain ⟨he, hes⟩ := List.forall_mem_cons.mp h
    obtain ⟨hnames, hlines⟩ := ih hes
    exact ⟨fun place own => List.forall_mem_append.mpr ⟨he.names place own, hnames place own⟩,
      List.forall_mem_append.mpr ⟨he.lines, hlines⟩⟩

theorem call {args : List Expr} (hline : Token.OnLine tokens line) (hcallee : e.Of tokens)
    (hargs : ∀ arg ∈ args, arg.Of tokens) : (Expr.call e line args).Of tokens where
  names place own := List.forall_mem_append.mpr ⟨hcallee.names place own, (all hargs).1 place own⟩
  lines := List.forall_mem_cons.mpr
    ⟨hline, List.forall_mem_append.mpr ⟨hcallee.lines, (all hargs).2⟩⟩

theorem get (hline : Token.OnLine tokens name.line) (h : e.Of tokens) :
    (Expr.get e name).Of tokens :=
  ⟨h.names, List.forall_mem_cons.mpr ⟨hline, h.lines⟩⟩

theorem set (hline : Token.OnLine tokens name.line) (hleft : left.Of tokens)
    (hright : right.Of tokens) : (Expr.set left name right).Of tokens where
  names place own := List.forall_mem_append.mpr ⟨hleft.names place own, hright.names place own⟩
  lines := List.forall_mem_cons.mpr
    ⟨hline, List.forall_mem_append.mpr ⟨hleft.lines, hright.lines⟩⟩

theorem this (h : r.name.Of tokens) : (Expr.this r).Of tokens :=
  ⟨fun _ _ => List.forall_mem_singleton.mpr h, List.forall_mem_singleton.mpr h.onLine⟩

theorem super (h : r.name.Of tokens) (hmethod : name.Of tokens) :
    (Expr.super r name).Of tokens where
  names _ _ := List.forall_mem_singleton.mpr h
  lines := List.forall_mem_cons.mpr ⟨h.onLine, List.forall_mem_singleton.mpr hmethod.onLine⟩

theorem optional {e : Option Expr} (h : ∀ value ∈ e, value.Of tokens) :
    (∀ place own, ∀ o ∈ Expr.occurrences? place own e, o.name.Of tokens) ∧
      ∀ line ∈ Expr.lines? e, Token.OnLine tokens line := by
  cases e with
  | none => exact ⟨fun _ _ => nofun, nofun⟩
  | some e => exact ⟨(h e rfl).names, (h e rfl).lines⟩

end Expr.Of

/-! ## Statements -/

namespace Stmt.Of

variable {e : Expr} {s : Stmt} {name : Name}

theorem expr (h : e.Of tokens) : (Stmt.expr e).Of tokens :=
  ⟨fun place => h.names place none, h.lines⟩

theorem print (h : e.Of tokens) : (Stmt.print e).Of tokens :=
  ⟨fun place => h.names place none, h.lines⟩

theorem var {initializer : Option Expr} (hname : name.Of tokens)
    (h : ∀ value ∈ initializer, value.Of tokens) : (Stmt.var name initializer).Of tokens where
  names _ := List.forall_mem_cons.mpr ⟨hname, (Expr.Of.optional h).1 _ _⟩
  lines := (Expr.Of.optional h).2

theorem all {ss : List Stmt} (h : ∀ s ∈ ss, s.Of tokens) :
    (∀ place, ∀ o ∈ Stmt.allOccurrences place ss, o.name.Of tokens) ∧
      ∀ line ∈ Stmt.allLines ss, Token.OnLine tokens line := by
  induction ss with
  | nil => exact ⟨fun _ => nofun, nofun⟩
  | cons s ss ih =>
    obtain ⟨hs, hss⟩ := List.forall_mem_cons.mp h
    obtain ⟨hnames, hlines⟩ := ih hss
    exact ⟨fun _ => List.forall_mem_append.mpr ⟨hs.names _, hnames _⟩,
      List.forall_mem_append.mpr ⟨hs.lines, hlines⟩⟩

theorem block {body : List Stmt} (h : ∀ s ∈ body, s.Of tokens) : (Stmt.block body).Of tokens :=
  ⟨fun _ => (all h).1 _, (all h).2⟩

theorem ifElse {thenBranch : Stmt} {elseBranch : Option Stmt} (hcondition : e.Of tokens)
    (hthen : thenBranch.Of tokens) (helse : ∀ s ∈ elseBranch, s.Of tokens) :
    (Stmt.ifElse e thenBranch elseBranch).Of tokens := by
  cases elseBranch with
  | none =>
    exact ⟨fun place => List.forall_mem_append.mpr ⟨hcondition.names place none, hthen.names place⟩,
      List.forall_mem_append.mpr ⟨hcondition.lines, hthen.lines⟩⟩
  | some s =>
    have hs := helse s rfl
    exact ⟨fun place => List.forall_mem_append.mpr
        ⟨List.forall_mem_append.mpr ⟨hcondition.names place none, hthen.names place⟩, hs.names _⟩,
      List.forall_mem_append.mpr
        ⟨List.forall_mem_append.mpr ⟨hcondition.lines, hthen.lines⟩, hs.lines⟩⟩

theorem whileDo (hcondition : e.Of tokens) (h : s.Of tokens) : (Stmt.whileDo e s).Of tokens where
  names place := List.forall_mem_append.mpr ⟨hcondition.names place none, h.names place⟩
  lines := List.forall_mem_append.mpr ⟨hcondition.lines, h.lines⟩

theorem forLoop {initializer : Option Stmt} {condition increment : Option Expr}
    (hinitializer : ∀ s ∈ initializer, s.Of tokens) (hcondition : ∀ e ∈ condition, e.Of tokens)
    (hincrement : ∀ e ∈ increment, e.Of tokens) (hbody : s.Of tokens) :
    (Stmt.forLoop initializer condition increment s).Of tokens := by
  have hrepeated : (condition.getD (.literal (.bool true))).Of tokens := by
    cases condition with
    | none => exact .literal _
    | some e => exact hcondition e rfl
  have hloop : ∀ body : Stmt, body.Of tokens →
      (Stmt.whileDo (condition.getD (.literal (.bool true))) body).Of tokens :=
    fun _ h => .whileDo hrepeated h
  have hstep : ∀ body : Stmt, body.Of tokens → (Stmt.forLoop initializer condition none body).Of
      tokens := by
    intro body h
    cases initializer with
    | none => exact hloop body h
    | some first =>
      exact .block (List.forall_mem_cons.mpr
        ⟨hinitializer first rfl, List.forall_mem_singleton.mpr (hloop body h)⟩)
  cases increment with
  | none => exact hstep s hbody
  | some step =>
    exact hstep (.block [s, .expr step]) (.block (List.forall_mem_cons.mpr
      ⟨hbody, List.forall_mem_singleton.mpr (.expr (hincrement step rfl))⟩))

theorem function {f : FunctionDecl} (h : f.Of tokens) : (Stmt.function f).Of tokens :=
  ⟨fun _ => List.forall_mem_cons.mpr ⟨h.name, h.names _ _⟩, h.lines⟩

theorem ret {value : Option Expr} (hname : name.Of tokens) (h : ∀ e ∈ value, e.Of tokens) :
    (Stmt.ret name value).Of tokens where
  names _ := List.forall_mem_cons.mpr ⟨hname, (Expr.Of.optional h).1 _ _⟩
  lines := (Expr.Of.optional h).2

end Stmt.Of

/-! ## Functions and classes -/

namespace FunctionDecl.Of

theorem parameters {params : List Name} (h : ∀ param ∈ params, param.Of tokens) :
    ∀ place : Place, ∀ o ∈ place.parameters params, o.name.Of tokens := by
  induction params with
  | nil => exact fun _ => nofun
  | cons param params ih =>
    obtain ⟨hparam, hparams⟩ := List.forall_mem_cons.mp h
    exact fun _ => List.forall_mem_cons.mpr ⟨hparam, ih hparams _⟩

theorem of_parts {name : Name} {params : List Name} {body : List Stmt} (hname : name.Of tokens)
    (hparams : ∀ param ∈ params, param.Of tokens) (hbody : ∀ s ∈ body, s.Of tokens) :
    FunctionDecl.Of tokens ⟨name, params, body⟩ where
  name := hname
  names _ _ := List.forall_mem_append.mpr ⟨parameters hparams _, (Stmt.Of.all hbody).1 _⟩
  lines := (Stmt.Of.all hbody).2

theorem all {fs : List FunctionDecl} (h : ∀ f ∈ fs, f.Of tokens) :
    (∀ superclass place, ∀ o ∈ FunctionDecl.allOccurrences superclass place fs,
      o.name.Of tokens) ∧ ∀ line ∈ FunctionDecl.allLines fs, Token.OnLine tokens line := by
  induction fs with
  | nil => exact ⟨fun _ _ => nofun, nofun⟩
  | cons f fs ih =>
    obtain ⟨hf, hfs⟩ := List.forall_mem_cons.mp h
    obtain ⟨hnames, hlines⟩ := ih hfs
    exact ⟨fun superclass place =>
        List.forall_mem_append.mpr ⟨hf.names _ place, hnames superclass place⟩,
      List.forall_mem_append.mpr ⟨hf.lines, hlines⟩⟩

end FunctionDecl.Of

theorem Stmt.Of.classDecl {name : Name} {superclass : Option Reference}
    {methods : List FunctionDecl} (hname : name.Of tokens)
    (hsuperclass : ∀ r ∈ superclass, r.name.Of tokens) (h : ∀ f ∈ methods, f.Of tokens) :
    (Stmt.classDecl name superclass methods).Of tokens := by
  obtain ⟨hnames, hlines⟩ := FunctionDecl.Of.all h
  cases superclass with
  | none =>
    exact ⟨fun _ => List.forall_mem_cons.mpr ⟨hname, hnames none _⟩,
      List.forall_mem_cons.mpr ⟨hname.onLine, hlines⟩⟩
  | some r =>
    have hr := hsuperclass r rfl
    exact ⟨fun _ => List.forall_mem_cons.mpr
        ⟨hname, List.forall_mem_cons.mpr ⟨hr, List.forall_mem_cons.mpr ⟨hr, hnames _ _⟩⟩⟩,
      List.forall_mem_cons.mpr ⟨hname.onLine, List.forall_mem_cons.mpr ⟨hr.onLine, hlines⟩⟩⟩

end

end Lox
