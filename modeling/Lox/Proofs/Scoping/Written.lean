import Lox.Proofs.Tokens
import Lox.Proofs.Grammar.Phrase

/-!
# Trees as they are written

What every tree that is derived from the tokens of a text has in common, whatever its text.
`Within` says it of each form: the identities of references are found between two bounds, and no two
references have the same one, since the parts of a form lie in ranges that do not overlap; names are
no reserved words; and the branches of a choice and the body of a loop declare nothing themselves.
That derived trees are so (`Derives.within`) is an induction on derivations.
-/

namespace Lox

/-- The name that a statement declares in the scope around it. -/
def Stmt.declared? : Stmt → Option Name
  | .var name _ => some name
  | .function declaration => some declaration.name
  | .classDecl name _ _ => some name
  | _ => none

/-! ## Expressions -/

/-- Whether a reference to a variable takes its identity between two bounds. -/
def Reference.Within (reference : Reference) (n n' : NodeId) : Prop :=
  Plain reference.name.text ∧ n ≤ reference.id ∧ reference.id < n'

mutual

/-- Whether an expression takes its identities between two bounds, each once. -/
def Expr.Within : Expr → NodeId → NodeId → Prop
  | .literal _, n, n' => n ≤ n'
  | .group inner, n, n' => inner.Within n n'
  | .unary _ _ operand, n, n' => operand.Within n n'
  | .binary left _ _ right, n, n' => ∃ m, left.Within n m ∧ right.Within m n'
  | .logical left _ right, n, n' => ∃ m, left.Within n m ∧ right.Within m n'
  | .var reference, n, n' => reference.Within n n'
  | .assign target value, n, n' => ∃ m, value.Within n m ∧ target.Within m n'
  | .call callee _ args, n, n' => ∃ m, callee.Within n m ∧ Expr.AllWithin args m n'
  | .get object _, n, n' => object.Within n n'
  | .set object _ value, n, n' => ∃ m, object.Within n m ∧ value.Within m n'
  | .this keyword, n, n' => keyword.name.text = thisName ∧ n ≤ keyword.id ∧ keyword.id < n'
  | .super keyword _, n, n' => n ≤ keyword.id ∧ keyword.id < n'

/-- Whether several expressions take their identities between two bounds, each once. -/
def Expr.AllWithin : List Expr → NodeId → NodeId → Prop
  | [], n, n' => n ≤ n'
  | first :: others, n, n' => ∃ m, first.Within n m ∧ Expr.AllWithin others m n'

end

mutual

theorem Expr.Within.le : ∀ {e : Expr} {n n' : NodeId}, e.Within n n' → n ≤ n'
  | .literal _, _, _, h => h
  | .group inner, _, _, h => Expr.Within.le (e := inner) h
  | .unary _ _ operand, _, _, h => Expr.Within.le (e := operand) h
  | .get object _, _, _, h => Expr.Within.le (e := object) h
  | .binary _ _ _ _, _, _, ⟨_, hl, hr⟩ | .logical _ _ _, _, _, ⟨_, hl, hr⟩
  | .set _ _ _, _, _, ⟨_, hl, hr⟩ => Nat.le_trans hl.le hr.le
  | .var _, _, _, ⟨_, h, h'⟩ | .this _, _, _, ⟨_, h, h'⟩ | .super _ _, _, _, ⟨h, h'⟩ =>
    Nat.le_trans h (Nat.le_of_lt h')
  | .assign _ _, _, _, ⟨_, hv, _, h, h'⟩ => Nat.le_trans hv.le (Nat.le_trans h (Nat.le_of_lt h'))
  | .call _ _ _, _, _, ⟨_, hc, ha⟩ => Nat.le_trans hc.le ha.le

theorem Expr.AllWithin.le : ∀ {es : List Expr} {n n' : NodeId}, Expr.AllWithin es n n' → n ≤ n'
  | [], _, _, h => h
  | _ :: _, _, _, ⟨_, h, hs⟩ => Nat.le_trans h.le hs.le

end

theorem Reference.Within.mono {r : Reference} {n n' m m' : NodeId} (h : r.Within n n')
    (hm : m ≤ n) (hm' : n' ≤ m') : r.Within m m' :=
  ⟨h.1, Nat.le_trans hm h.2.1, Nat.lt_of_lt_of_le h.2.2 hm'⟩

mutual

theorem Expr.Within.mono : ∀ {e : Expr} {n n' m m' : NodeId}, e.Within n n' → m ≤ n → n' ≤ m' →
    e.Within m m'
  | .literal _, _, _, _, _, h, hm, hm' => Nat.le_trans hm (Nat.le_trans h hm')
  | .group inner, _, _, _, _, h, hm, hm' => Expr.Within.mono (e := inner) h hm hm'
  | .unary _ _ operand, _, _, _, _, h, hm, hm' => Expr.Within.mono (e := operand) h hm hm'
  | .get object _, _, _, _, _, h, hm, hm' => Expr.Within.mono (e := object) h hm hm'
  | .binary _ _ _ _, _, _, _, _, ⟨k, hl, hr⟩, hm, hm'
  | .logical _ _ _, _, _, _, _, ⟨k, hl, hr⟩, hm, hm'
  | .set _ _ _, _, _, _, _, ⟨k, hl, hr⟩, hm, hm' =>
    ⟨k, hl.mono hm (Nat.le_refl k), hr.mono (Nat.le_refl k) hm'⟩
  | .var _, _, _, _, _, ⟨hp, h, h'⟩, hm, hm' | .this _, _, _, _, _, ⟨hp, h, h'⟩, hm, hm' =>
    ⟨hp, Nat.le_trans hm h, Nat.lt_of_lt_of_le h' hm'⟩
  | .super _ _, _, _, _, _, ⟨h, h'⟩, hm, hm' => ⟨Nat.le_trans hm h, Nat.lt_of_lt_of_le h' hm'⟩
  | .assign _ _, _, _, _, _, ⟨k, hv, ht⟩, hm, hm' =>
    ⟨k, hv.mono hm (Nat.le_refl k), ht.mono (Nat.le_refl k) hm'⟩
  | .call _ _ _, _, _, _, _, ⟨k, hc, ha⟩, hm, hm' =>
    ⟨k, hc.mono hm (Nat.le_refl k), ha.mono (Nat.le_refl k) hm'⟩

theorem Expr.AllWithin.mono : ∀ {es : List Expr} {n n' m m' : NodeId}, Expr.AllWithin es n n' →
    m ≤ n → n' ≤ m' → Expr.AllWithin es m m'
  | [], _, _, _, _, h, hm, hm' => Nat.le_trans hm (Nat.le_trans h hm')
  | _ :: _, _, _, _, _, ⟨k, h, hs⟩, hm, hm' =>
    ⟨k, h.mono hm (Nat.le_refl k), hs.mono (Nat.le_refl k) hm'⟩

end

/-- Whether an expression that may be absent takes its identities between two bounds. -/
def Expr.Within? : Option Expr → NodeId → NodeId → Prop
  | none, n, n' => n ≤ n'
  | some e, n, n' => e.Within n n'

/-! ## Statements -/

/-- Whether a superclass clause takes its identity between two bounds. -/
def Reference.Within? : Option Reference → NodeId → NodeId → Prop
  | none, n, n' => n ≤ n'
  | some r, n, n' => r.Within n n'

mutual

/-- Whether a statement takes its identities between two bounds, each once. -/
def Stmt.Within : Stmt → NodeId → NodeId → Prop
  | .expr value, n, n' => value.Within n n'
  | .print value, n, n' => value.Within n n'
  | .var name initializer, n, n' => Plain name.text ∧ Expr.Within? initializer n n'
  | .block body, n, n' => Stmt.AllWithin body n n'
  | .ifElse condition thenBranch none, n, n' => thenBranch.declared? = none ∧
      ∃ m, condition.Within n m ∧ thenBranch.Within m n'
  | .ifElse condition thenBranch (some elseBranch), n, n' =>
      thenBranch.declared? = none ∧ elseBranch.declared? = none ∧
      ∃ m m', condition.Within n m ∧ thenBranch.Within m m' ∧ elseBranch.Within m' n'
  | .whileDo condition body, n, n' => body.declared? = none ∧
      ∃ m, condition.Within n m ∧ body.Within m n'
  | .function declaration, n, n' => Plain declaration.name.text ∧ declaration.Within n n'
  | .ret _ value, n, n' => Expr.Within? value n n'
  | .classDecl name superclass methods, n, n' => Plain name.text ∧
      ∃ m, Reference.Within? superclass n m ∧ FunctionDecl.AllWithin methods m n'

/-- Whether a function takes its identities between two bounds, each once. -/
def FunctionDecl.Within : FunctionDecl → NodeId → NodeId → Prop
  | ⟨_, params, body⟩, n, n' => (∀ param ∈ params, Plain param.text) ∧ Stmt.AllWithin body n n'

/-- Whether several functions take their identities between two bounds, each once. -/
def FunctionDecl.AllWithin : List FunctionDecl → NodeId → NodeId → Prop
  | [], n, n' => n ≤ n'
  | first :: others, n, n' => ∃ m, first.Within n m ∧ FunctionDecl.AllWithin others m n'

/-- Whether several statements take their identities between two bounds, each once.  The increment
of a counting loop is written before the body and stands behind it. -/
def Stmt.AllWithin : List Stmt → NodeId → NodeId → Prop
  | [], n, n' => n ≤ n'
  | first :: others, n, n' => ∃ m, first.Within n m ∧ Stmt.AllWithin others m n' ∨
      first.Within m n' ∧ Stmt.AllWithin others n m

end

/-! ## Derivations -/

namespace Grammar

/-- What a derivation says of the tree of its phrase, if its tokens are spelled as in a text.  What
follows an operand says it of the tree that it makes of any operand before it. -/
def Phrase.TreeWithin : Phrase → NodeId → NodeId → Prop
  | .expression e, n, n' | .level _ e, n, n' | .unary e, n, n' | .call e, n, n'
  | .primary e, n, n' => e.Within n n'
  | .tail _ left e, n, n' => ∀ n₀, left.Within n₀ n → e.Within n₀ n'
  | .suffixes object e, n, n' => ∀ n₀, object.Within n₀ n → e.Within n₀ n'
  | .arguments args, n, n' | .given args, n, n' => Expr.AllWithin args n n'

theorem within_node {p : Precedence} {kind : Token.Kind} {build : Nat → Expr → Expr → Expr}
    (h : p.node? kind = some build) {line : Nat} {left right : Expr} {n m n' : NodeId}
    (hleft : left.Within n m) (hright : right.Within m n') :
    (build line left right).Within n n' := by
  unfold Precedence.node? at h
  split at h <;> cases h <;> exact ⟨m, hleft, hright⟩

theorem operand_treeWithin {p : Precedence} {e : Expr} {n n' : NodeId}
    (h : (Phrase.operand p e).TreeWithin n n') : e.Within n n' := by
  cases p <;> exact h

/-- **Derived expressions are as they are written.** -/
theorem Phrase.Derives.within {phrase : Phrase} {ts : List Token} {n n' : NodeId}
    (h : phrase.Derives n ts n') (hts : ∀ t ∈ ts, t.WellSpelled) : phrase.TreeWithin n n' := by
  induction h with
  | @assign name _ _ _ n n' hname _ _ ih =>
    have hvalue := ih fun t ht => hts t (by simp [ht])
    exact ⟨n', Expr.Within.mono hvalue (Nat.le_succ _) (Nat.le_refl _),
      (hts name (by simp)).1 hname, Nat.le_refl _, Nat.lt_succ_self _⟩
  | set _ _ _ _ _ ihobject ihvalue =>
    exact ⟨_, ihobject fun t ht => hts t (by simp [ht]), ihvalue fun t ht => hts t (by simp [ht])⟩
  | operators _ ih => exact ih hts
  | level _ _ ihfirst ihtail =>
    exact ihtail (fun t ht => hts t (by simp [ht])) _
      (operand_treeWithin (ihfirst fun t ht => hts t (by simp [ht])))
  | tailEnd => exact fun _ h => h
  | tailMore hop _ _ ihright ihmore =>
    intro n₀ hleft
    have hright := operand_treeWithin (ihright fun t ht => hts t (by simp [ht]))
    exact ihmore (fun t ht => hts t (by simp [ht])) n₀ (within_node hop hleft hright)
  | signed _ _ ih => exact ih fun t ht => hts t (by simp [ht])
  | unsigned _ ih => exact ih hts
  | call _ _ ihfirst ihmore =>
    exact ihmore (fun t ht => hts t (by simp [ht])) _ (ihfirst fun t ht => hts t (by simp [ht]))
  | suffixesEnd => exact fun _ h => h
  | suffixesCall _ _ _ _ ihargs ihmore =>
    intro n₀ hobject
    exact ihmore (fun t ht => hts t (by simp [ht])) n₀
      ⟨_, hobject, ihargs fun t ht => hts t (by simp [ht])⟩
  | suffixesGet _ _ _ ih => exact fun n₀ hobject => ih (fun t ht => hts t (by simp [ht])) n₀ hobject
  | constant => exact Nat.le_refl _
  | @this keyword _ h =>
    exact ⟨(hts keyword (by simp)).2 h, Nat.le_refl _, Nat.lt_succ_self _⟩
  | super => exact ⟨Nat.le_refl _, Nat.lt_succ_self _⟩
  | @var name _ h => exact ⟨(hts name (by simp)).1 h, Nat.le_refl _, Nat.lt_succ_self _⟩
  | group _ _ _ ih => exact ih fun t ht => hts t (by simp [ht])
  | argumentsOne _ ih => exact ⟨_, ih hts, Nat.le_refl _⟩
  | argumentsMore _ _ _ ih ihmore =>
    exact ⟨_, ih fun t ht => hts t (by simp [ht]), ihmore fun t ht => hts t (by simp [ht])⟩
  | givenNone => exact Nat.le_refl _
  | givenSome _ _ ih => exact ih hts

theorem DerivesOptional.within {e : Option Expr} {ts : List Token} {n n' : NodeId}
    (h : DerivesOptional e n ts n') (hts : ∀ t ∈ ts, t.WellSpelled) : Expr.Within? e n n' := by
  cases h with
  | absent => exact Nat.le_refl _
  | present h => exact h.within hts

theorem DerivesVariable.within {s : Stmt} {ts : List Token} {n n' : NodeId}
    (h : DerivesVariable s n ts n') (hts : ∀ t ∈ ts, t.WellSpelled) : s.Within n n' := by
  cases h with
  | @plain name _ _ hname => exact ⟨(hts name (by simp)).1 hname, Nat.le_refl _⟩
  | @initialized name _ _ _ _ _ _ hname _ hvalue =>
    exact ⟨(hts name (by simp)).1 hname, hvalue.within fun t ht => hts t (by simp [ht])⟩

theorem DerivesSuperclass.within {r : Option Reference} {ts : List Token} {n n' : NodeId}
    (h : DerivesSuperclass r n ts n') (hts : ∀ t ∈ ts, t.WellSpelled) :
    Reference.Within? r n n' := by
  cases h with
  | absent => exact Nat.le_refl _
  | @present _ name _ _ hname =>
    exact ⟨(hts name (by simp)).1 hname, Nat.le_refl _, Nat.lt_succ_self _⟩

theorem DerivesParameters.plain {params : List Name} {ts : List Token}
    (h : DerivesParameters params ts) (hts : ∀ t ∈ ts, t.WellSpelled) :
    ∀ param ∈ params, Plain param.text := by
  induction h with
  | @one name hname =>
    intro param hparam
    rw [List.mem_singleton.mp hparam]
    exact (hts name (by simp)).1 hname
  | @more name _ _ _ hname _ _ ih =>
    intro param hparam
    rcases List.mem_cons.mp hparam with rfl | hparam
    · exact (hts name (by simp)).1 hname
    · exact ih (fun t ht => hts t (by simp [ht])) param hparam

theorem DerivesFormals.plain {params : List Name} {ts : List Token}
    (h : DerivesFormals params ts) (hts : ∀ t ∈ ts, t.WellSpelled) :
    ∀ param ∈ params, Plain param.text := by
  cases h with
  | none => exact nofun
  | some h => exact h.plain hts

/-- The statement that a counting loop begins with, if there is one. -/
def InitializerWithin : Option Stmt → NodeId → NodeId → Prop
  | none, n, n' => n ≤ n'
  | some s, n, n' => s.Within n n'

theorem DerivesInitializer.within {s : Option Stmt} {ts : List Token} {n n' : NodeId}
    (h : DerivesInitializer s n ts n') (hts : ∀ t ∈ ts, t.WellSpelled) :
    InitializerWithin s n n' := by
  cases h with
  | absent => exact Nat.le_refl _
  | var _ h => exact h.within fun t ht => hts t (by simp [ht])
  | expression h => exact h.within fun t ht => hts t (by simp [ht])

theorem declared?_forLoop (initializer : Option Stmt) (condition increment : Option Expr)
    (body : Stmt) : (Stmt.forLoop initializer condition increment body).declared? = none := by
  cases initializer <;> rfl

/-- What a counting loop stands for has the parts of the loop, the increment behind the body. -/
theorem within_forLoop {initializer : Option Stmt} {condition increment : Option Expr} {body : Stmt}
    {n n₁ n₂ n₃ n' : NodeId} (hinitializer : InitializerWithin initializer n n₁)
    (hcondition : Expr.Within? condition n₁ n₂) (hincrement : Expr.Within? increment n₂ n₃)
    (hdeclared : body.declared? = none) (hbody : body.Within n₃ n') :
    (Stmt.forLoop initializer condition increment body).Within n n' := by
  have hloop : ∀ m, m ≤ n₁ → (Stmt.forLoop none condition increment body).Within m n' := by
    intro m hm
    have hcondition : (condition.getD (.literal (.bool true))).Within m n₂ := by
      cases condition with
      | none => exact Nat.le_trans hm hcondition
      | some e => exact Expr.Within.mono hcondition hm (Nat.le_refl _)
    cases increment with
    | none => exact ⟨hdeclared, n₃, hcondition.mono (Nat.le_refl _) hincrement, hbody⟩
    | some step => exact ⟨rfl, n₂, hcondition, n₃, .inr ⟨hbody, n₃, .inl ⟨hincrement, Nat.le_refl _⟩⟩⟩
  cases initializer with
  | none => exact hloop n hinitializer
  | some s => exact ⟨n₁, .inl ⟨hinitializer, n', .inl ⟨hloop n₁ (Nat.le_refl _), Nat.le_refl _⟩⟩⟩

/-- What a derivation says of the tree of its sentence, if its tokens are spelled as in a text. -/
def Sentence.TreeWithin : Sentence → NodeId → NodeId → Prop
  | .declarations ss, n, n' | .body ss, n, n' => Stmt.AllWithin ss n n'
  | .declaration s, n, n' => s.Within n n'
  | .statement s _, n, n' => s.declared? = none ∧ s.Within n n'
  | .subroutine f, n, n' => f.Within n n'
  | .subroutines fs, n, n' => FunctionDecl.AllWithin fs n n'

/-- **Derived statements are as they are written.** -/
theorem Sentence.Derives.within {sentence : Sentence} {ts : List Token} {n n' : NodeId}
    (h : sentence.Derives n ts n') (hts : ∀ t ∈ ts, t.WellSpelled) : sentence.TreeWithin n n' := by
  induction h with
  | declarationsEnd => exact Nat.le_refl _
  | declarationsMore _ _ ih ihmore =>
    exact ⟨_, .inl ⟨ih fun t ht => hts t (by simp [ht]), ihmore fun t ht => hts t (by simp [ht])⟩⟩
  | @classDecl _ name _ _ _ _ _ _ _ _ _ _ hname hparent _ _ _ ih =>
    exact ⟨(hts name (by simp)).1 hname, _, hparent.within fun t ht => hts t (by simp [ht]),
      ih fun t ht => hts t (by simp [ht])⟩
  | function _ h ih =>
    have hf := ih fun t ht => hts t (by simp [ht])
    cases h with
    | @subroutine name _ _ _ _ _ _ _ _ _ hname =>
      exact ⟨(hts name (by simp)).1 hname, hf⟩
  | var _ h => exact h.within fun t ht => hts t (by simp [ht])
  | statement _ ih => exact (ih hts).2
  | expr h => exact ⟨rfl, h.within fun t ht => hts t (by simp [ht])⟩
  | forLoop _ _ hinitializer hcondition _ hincrement _ _ ih =>
    obtain ⟨hdeclared, hbody⟩ := ih fun t ht => hts t (by simp [ht])
    exact ⟨declared?_forLoop .., within_forLoop (hinitializer.within fun t ht => hts t (by simp [ht]))
      (hcondition.within fun t ht => hts t (by simp [ht]))
      (hincrement.within fun t ht => hts t (by simp [ht])) hdeclared hbody⟩
  | ifThen _ _ hcondition _ _ ih =>
    obtain ⟨hdeclared, hthen⟩ := ih fun t ht => hts t (by simp [ht])
    exact ⟨rfl, hdeclared, _, hcondition.within fun t ht => hts t (by simp [ht]), hthen⟩
  | ifElse _ _ hcondition _ _ _ _ ihthen ihelse =>
    obtain ⟨hdeclared, hthen⟩ := ihthen fun t ht => hts t (by simp [ht])
    obtain ⟨hdeclared', helse⟩ := ihelse fun t ht => hts t (by simp [ht])
    exact ⟨rfl, hdeclared, hdeclared', _, _, hcondition.within fun t ht => hts t (by simp [ht]), hthen,
      helse⟩
  | print _ h => exact ⟨rfl, h.within fun t ht => hts t (by simp [ht])⟩
  | ret _ h => exact ⟨rfl, h.within fun t ht => hts t (by simp [ht])⟩
  | whileDo _ _ hcondition _ _ ih =>
    obtain ⟨hdeclared, hbody⟩ := ih fun t ht => hts t (by simp [ht])
    exact ⟨rfl, hdeclared, _, hcondition.within fun t ht => hts t (by simp [ht]), hbody⟩
  | block _ _ ih => exact ⟨rfl, ih fun t ht => hts t (by simp [ht])⟩
  | body _ _ ih => exact ih fun t ht => hts t (by simp [ht])
  | subroutine _ _ hparams _ _ _ ih =>
    exact ⟨hparams.plain fun t ht => hts t (by simp [ht]), ih fun t ht => hts t (by simp [ht])⟩
  | subroutinesEnd => exact Nat.le_refl _
  | subroutinesMore _ _ ih ihmore =>
    exact ⟨_, ih fun t ht => hts t (by simp [ht]), ihmore fun t ht => hts t (by simp [ht])⟩

end Grammar

end Lox
