import Lox.Proofs.Grammar.Phrase
import Lox.Proofs.Joining.Moved

/-!
# Derivations of moved tokens

The grammar knows neither lines nor identities: tokens on later lines derive the tree on later lines,
from any later identity (`Sentence.Derives.moved`).  Declarations behind declarations are
declarations (`Sentence.Derives.append`).
-/

namespace Lox.Grammar

variable (shift : Shift)

theorem later {shift : Shift} {t : Token} {kind : Token.Kind} (h : t.kind = kind) :
    (t.moved shift).kind = kind := h

/-- Tokens on later lines. -/
def allMoved (ts : List Token) : List Token := ts.map (Token.moved shift)

@[simp] theorem allMoved_nil : allMoved shift [] = [] := rfl

@[simp] theorem allMoved_cons (t : Token) (ts : List Token) :
    allMoved shift (t :: ts) = t.moved shift :: allMoved shift ts := rfl

@[simp] theorem allMoved_append (ts ts' : List Token) :
    allMoved shift (ts ++ ts') = allMoved shift ts ++ allMoved shift ts' :=
  List.map_append

/-! ## Expressions -/

/-- The phrase with its trees on later lines. -/
def Phrase.moved : Phrase → Phrase
  | expression e => expression (e.moved shift)
  | level p e => level p (e.moved shift)
  | tail p left e => tail p (left.moved shift) (e.moved shift)
  | unary e => unary (e.moved shift)
  | call e => call (e.moved shift)
  | suffixes object e => suffixes (object.moved shift) (e.moved shift)
  | primary e => primary (e.moved shift)
  | arguments args => arguments (Expr.allMoved shift args)
  | given args => given (Expr.allMoved shift args)

theorem Phrase.operand_moved (p : Precedence) (e : Expr) :
    (operand p e).moved shift = operand p (e.moved shift) := by
  cases p <;> rfl

theorem Precedence.node_moved {p : Precedence} {kind : Token.Kind}
    {build : Nat → Expr → Expr → Expr} (h : p.node? kind = some build) (line : Nat)
    (left right : Expr) : (build line left right).moved shift =
      build (line + shift.lines) (left.moved shift) (right.moved shift) := by
  unfold Precedence.node? at h
  split at h <;> cases h <;> rfl

/-- **Expressions are derived anywhere** as they are in one place. -/
theorem Phrase.Derives.moved {phrase : Phrase} {ts : List Token} {n n' : NodeId}
    (h : phrase.Derives n ts n') :
    (phrase.moved shift).Derives (shift.ids + n) (allMoved shift ts) (shift.ids + n') := by
  induction h with
  | assign hname hequals _ ih => exact .assign (later hname) (later hequals) ih
  | set _ hdot hname hequals _ ihobject ihvalue =>
    rw [allMoved_append]
    exact .set ihobject (later hdot) (later hname) (later hequals) ihvalue
  | operators _ ih => exact .operators ih
  | level _ _ ihfirst ihtail =>
    rw [allMoved_append]
    rw [operand_moved] at ihfirst
    exact .level ihfirst ihtail
  | tailEnd => exact .tailEnd
  | @tailMore p build op _ _ _ _ _ _ _ _ hop _ _ ihright ihmore =>
    have hop' : p.node? (op.moved shift).kind = some build := hop
    rw [allMoved_cons, allMoved_append]
    rw [operand_moved] at ihright
    rw [Phrase.moved, Precedence.node_moved shift hop] at ihmore
    exact .tailMore hop' ihright ihmore
  | @signed sign op _ _ _ _ hsign _ ih =>
    have hsign' : sign? (sign.moved shift).kind = some op := hsign
    exact .signed hsign' ih
  | unsigned _ ih => exact .unsigned ih
  | call _ _ ihfirst ihmore =>
    rw [allMoved_append]
    exact .call ihfirst ihmore
  | suffixesEnd => exact .suffixesEnd
  | suffixesCall hstart _ hclose _ ihargs ihmore =>
    rw [allMoved_cons, allMoved_append]
    exact .suffixesCall (later hstart) ihargs (later hclose) ihmore
  | suffixesGet hdot hname _ ih => exact .suffixesGet (later hdot) (later hname) ih
  | @constant token value _ h =>
    have h' : constant? (token.moved shift).kind = some value := h
    exact .constant h'
  | this h => exact .this (later h)
  | super h hdot hmethod => exact .super (later h) (later hdot) (later hmethod)
  | var h => exact .var (later h)
  | group hstart _ hclose ih =>
    rw [allMoved_cons, allMoved_append]
    exact .group (later hstart) ih (later hclose)
  | argumentsOne _ ih => exact .argumentsOne ih
  | argumentsMore _ hcomma _ ih ihmore =>
    rw [allMoved_append]
    exact .argumentsMore ih (later hcomma) ihmore
  | givenNone => exact .givenNone
  | givenSome _ hmax ih =>
    refine .givenSome ih ?_
    rw [Expr.allMoved_length]
    exact hmax

theorem DerivesOptional.moved {e : Option Expr} {ts : List Token} {n n' : NodeId}
    (h : DerivesOptional e n ts n') : DerivesOptional (e.map (Expr.moved shift)) (shift.ids + n)
      (allMoved shift ts) (shift.ids + n') := by
  cases h with
  | absent => exact .absent
  | present h => exact .present (h.moved shift)

/-! ## Statements -/

theorem DerivesParameters.moved {params : List Name} {ts : List Token}
    (h : DerivesParameters params ts) :
    DerivesParameters (params.map (Name.moved shift)) (allMoved shift ts) := by
  induction h with
  | one h => exact .one (later h)
  | more h hcomma _ ih => exact .more (later h) (later hcomma) ih

theorem DerivesFormals.moved {params : List Name} {ts : List Token} (h : DerivesFormals params ts) :
    DerivesFormals (params.map (Name.moved shift)) (allMoved shift ts) := by
  cases h with
  | none => exact .none
  | some h hmax => exact .some (h.moved shift) (by rw [List.length_map]; exact hmax)

theorem DerivesSuperclass.moved {r : Option Reference} {ts : List Token} {n n' : NodeId}
    (h : DerivesSuperclass r n ts n') : DerivesSuperclass (r.map (Reference.moved shift))
      (shift.ids + n) (allMoved shift ts) (shift.ids + n') := by
  cases h with
  | absent => exact .absent
  | present hless hname => exact .present (later hless) (later hname)

theorem DerivesVariable.moved {s : Stmt} {ts : List Token} {n n' : NodeId}
    (h : DerivesVariable s n ts n') :
    DerivesVariable (s.moved shift) (shift.ids + n) (allMoved shift ts) (shift.ids + n') := by
  cases h with
  | plain hname hclose => exact .plain (later hname) (later hclose)
  | initialized hname hequals hvalue hclose =>
    rw [allMoved_cons, allMoved_cons, allMoved_append]
    exact .initialized (later hname) (later hequals) (hvalue.moved shift) (later hclose)

theorem DerivesInitializer.moved {s : Option Stmt} {ts : List Token} {n n' : NodeId}
    (h : DerivesInitializer s n ts n') : DerivesInitializer (s.map (Stmt.moved shift))
      (shift.ids + n) (allMoved shift ts) (shift.ids + n') := by
  cases h with
  | absent hclose => exact .absent (later hclose)
  | var hkeyword h => exact .var (later hkeyword) (h.moved shift)
  | expression h hclose =>
    rw [allMoved_append]
    exact .expression (h.moved shift) (later hclose)

/-- The sentence with its trees on later lines. -/
def Sentence.moved : Sentence → Sentence
  | declarations ss => declarations (Stmt.allMoved shift ss)
  | declaration s => declaration (s.moved shift)
  | statement s isOpen => statement (s.moved shift) isOpen
  | body ss => body (Stmt.allMoved shift ss)
  | subroutine f => subroutine (f.moved shift)
  | subroutines fs => subroutines (FunctionDecl.allMoved shift fs)

theorem forLoop_moved (initializer : Option Stmt) (condition increment : Option Expr) (body : Stmt) :
    (Stmt.forLoop initializer condition increment body).moved shift =
      Stmt.forLoop (initializer.map (Stmt.moved shift)) (condition.map (Expr.moved shift))
        (increment.map (Expr.moved shift)) (body.moved shift) := by
  cases initializer <;> cases condition <;> cases increment <;> rfl

/-- **Statements are derived anywhere** as they are in one place. -/
theorem Sentence.Derives.moved {sentence : Sentence} {ts : List Token} {n n' : NodeId}
    (h : sentence.Derives n ts n') :
    (sentence.moved shift).Derives (shift.ids + n) (allMoved shift ts) (shift.ids + n') := by
  induction h with
  | declarationsEnd => exact .declarationsEnd
  | declarationsMore _ _ ih ihmore =>
    rw [allMoved_append]
    exact .declarationsMore ih ihmore
  | classDecl hkeyword hname hparent hstart _ hclose ih =>
    simp only [allMoved_cons, allMoved_append, allMoved_nil]
    exact .classDecl (later hkeyword) (later hname) (hparent.moved shift) (later hstart) ih
      (later hclose)
  | function hkeyword _ ih => exact .function (later hkeyword) ih
  | var hkeyword h => exact .var (later hkeyword) (h.moved shift)
  | statement _ ih => exact .statement ih
  | expr h hclose =>
    rw [allMoved_append]
    exact .expr (h.moved shift) (later hclose)
  | forLoop hkeyword hstart hinitializer hcondition hmiddle hincrement hclose _ ih =>
    simp only [allMoved_cons, allMoved_append, Sentence.moved, forLoop_moved]
    exact .forLoop (later hkeyword) (later hstart) (hinitializer.moved shift)
      (hcondition.moved shift) (later hmiddle)
      (hincrement.moved shift) (later hclose) ih
  | ifThen hkeyword hstart hcondition hclose _ ih =>
    simp only [allMoved_cons, allMoved_append]
    exact .ifThen (later hkeyword) (later hstart) (hcondition.moved shift) (later hclose) ih
  | ifElse hkeyword hstart hcondition hclose _ hother _ ihthen ihelse =>
    simp only [allMoved_cons, allMoved_append]
    exact .ifElse (later hkeyword) (later hstart) (hcondition.moved shift) (later hclose) ihthen
      (later hother) ihelse
  | print hkeyword h hclose =>
    rw [allMoved_cons, allMoved_append]
    exact .print (later hkeyword) (h.moved shift) (later hclose)
  | ret hkeyword h hclose =>
    rw [allMoved_cons, allMoved_append]
    exact .ret (later hkeyword) (h.moved shift) (later hclose)
  | whileDo hkeyword hstart hcondition hclose _ ih =>
    simp only [allMoved_cons, allMoved_append]
    exact .whileDo (later hkeyword) (later hstart) (hcondition.moved shift) (later hclose) ih
  | block hstart _ ih => exact .block (later hstart) ih
  | body _ hclose ih =>
    rw [allMoved_append]
    exact .body ih (later hclose)
  | subroutine hname hstart hparams hclose hbrace _ ih =>
    simp only [allMoved_cons, allMoved_append]
    exact .subroutine (later hname) (later hstart) (hparams.moved shift) (later hclose)
      (later hbrace) ih
  | subroutinesEnd => exact .subroutinesEnd
  | subroutinesMore _ _ ih ihmore =>
    rw [allMoved_append]
    exact .subroutinesMore ih ihmore

/-! ## Declarations in a row -/

/-- **Declarations behind declarations** are declarations. -/
theorem Sentence.Derives.append {body : List Stmt} : ∀ {ts : List Token} {n n₁ : NodeId},
    (Sentence.declarations body).Derives n ts n₁ → ∀ {body' : List Stmt} {ts' : List Token}
    {n' : NodeId}, (Sentence.declarations body').Derives n₁ ts' n' →
    (Sentence.declarations (body ++ body')).Derives n (ts ++ ts') n' := by
  induction body with
  | nil =>
    intro ts n n₁ h body' ts' n' h'
    cases h
    exact h'
  | cons s body ih =>
    intro ts n n₁ h body' ts' n' h'
    cases h with
    | declarationsMore hfirst hmore =>
      rw [List.append_assoc]
      exact .declarationsMore hfirst (ih hmore h')

end Lox.Grammar
