import Lox.Proofs.Grammar.Phrase
import Lox.Proofs.Renaming.Tokens

/-!
# Derivations of alike trees

If a tree is derived from some tokens, then an alike tree is derived from tokens that differ in
names only (`Sentence.Derives.alike`), by induction on derivations.  What follows an operand is
derived for any operand that is alike the one before it, since the whole tree determines it.
-/

namespace Lox

theorem Expr.AllAlike.length_eq {ρ : Renaming} {pairing : Pairing}
    {own : Option (String × String)} : ∀ {args args' : List Expr},
      Expr.AllAlike ρ pairing own args args' → args'.length = args.length
  | _, _, .nil => rfl
  | _, _, .cons _ h => congrArg (· + 1) h.length_eq

namespace Grammar

variable {ρ : Renaming}

/-! ## Names -/

/-- A name that may be called otherwise is spelled by a token that may be. -/
theorem exists_token_of_twins {token : Token} {name' : Name} (hkind : token.kind = .identifier)
    (h : (nameOf token).Twins ρ name') :
    ∃ token' : Token, token.Called ρ token' ∧ token'.kind = .identifier ∧
      nameOf token' = name' := by
  obtain ⟨text', line'⟩ := name'
  obtain ⟨kind, lexeme, line⟩ := token
  obtain ⟨hcalls, hline⟩ := h
  have hline : line' = line := hline
  have hkind : kind = .identifier := hkind
  subst hline hkind
  rcases hcalls.kept_or_new with hkept | ⟨-, hnew⟩
  · have hkept : text' = lexeme := hkept
    subst hkept
    exact ⟨_, .inl rfl, rfl, rfl⟩
  · have hnew : text' = ρ.new := hnew
    subst hnew
    exact ⟨_, .inr ⟨rfl, rfl⟩, rfl, rfl⟩

theorem exists_token_of_reference {token : Token} {n : NodeId} {r' : Reference}
    (hkind : token.kind = .identifier) (h : Reference.Twins ρ ⟨n, nameOf token⟩ r') :
    ∃ token' : Token, token.Called ρ token' ∧ token'.kind = .identifier ∧
      ⟨n, nameOf token'⟩ = r' := by
  obtain ⟨token', hcalled, hkind', hname⟩ := exists_token_of_twins hkind h.name
  obtain ⟨id', name'⟩ := r'
  have hid : id' = n := h.id
  exact ⟨token', hcalled, hkind', by rw [hname, hid]⟩

/-! ## Expressions -/

section
variable {pairing : Pairing} {own : Option (String × String)}

/-- Whether a phrase is derived from tokens that may be called like these. -/
def Phrase.Spells (ρ : Renaming) (ts : List Token) (n n' : NodeId) (phrase : Phrase) : Prop :=
  ∃ ts', List.Forall₂ (Token.Called ρ) ts ts' ∧ phrase.Derives n ts' n'

/-- What a derivation says of trees that are alike its tree. -/
def Phrase.AlikeSpelled (ρ : Renaming) (pairing : Pairing) (own : Option (String × String))
    (ts : List Token) (n n' : NodeId) : Phrase → Prop
  | .expression e => ∀ e', e.Alike ρ pairing own e' → (Phrase.expression e').Spells ρ ts n n'
  | .level p e => ∀ e', e.Alike ρ pairing own e' → (Phrase.level p e').Spells ρ ts n n'
  | .tail p left e => ∀ e', e.Alike ρ pairing own e' →
      ∃ left', left.Alike ρ pairing own left' ∧ (Phrase.tail p left' e').Spells ρ ts n n'
  | .unary e => ∀ e', e.Alike ρ pairing own e' → (Phrase.unary e').Spells ρ ts n n'
  | .call e => ∀ e', e.Alike ρ pairing own e' → (Phrase.call e').Spells ρ ts n n'
  | .suffixes object e => ∀ e', e.Alike ρ pairing own e' →
      ∃ object', object.Alike ρ pairing own object' ∧ (Phrase.suffixes object' e').Spells ρ ts n n'
  | .primary e => ∀ e', e.Alike ρ pairing own e' → (Phrase.primary e').Spells ρ ts n n'
  | .arguments args => ∀ args', Expr.AllAlike ρ pairing own args args' →
      (Phrase.arguments args').Spells ρ ts n n'
  | .given args => ∀ args', Expr.AllAlike ρ pairing own args args' →
      (Phrase.given args').Spells ρ ts n n'

theorem Phrase.AlikeSpelled.operand {ts : List Token} {n n' : NodeId} {p : Precedence} {e e' : Expr}
    (h : (Phrase.operand p e).AlikeSpelled ρ pairing own ts n n')
    (halike : e.Alike ρ pairing own e') : (Phrase.operand p e').Spells ρ ts n n' := by
  cases p <;> exact h e' halike

theorem node_alike {p : Precedence} {kind : Token.Kind} {build : Nat → Expr → Expr → Expr}
    (h : p.node? kind = some build) {line : Nat} {left right e' : Expr}
    (halike : (build line left right).Alike ρ pairing own e') :
    ∃ left' right', e' = build line left' right' ∧ left.Alike ρ pairing own left' ∧
      right.Alike ρ pairing own right' := by
  unfold Precedence.node? at h
  split at h <;> cases h <;> cases halike <;> exact ⟨_, _, rfl, ‹_›, ‹_›⟩

/-- **Alike expressions are derived** from tokens that differ in names only. -/
theorem Phrase.Derives.alike {phrase : Phrase} {ts : List Token} {n n' : NodeId}
    (h : phrase.Derives n ts n') : phrase.AlikeSpelled ρ pairing own ts n n' := by
  induction h with
  | assign hname hequals _ ih =>
    intro _ halike
    cases halike with
    | assign htarget hvalue =>
      obtain ⟨ts', hts, hderives⟩ := ih _ hvalue
      obtain ⟨name', hcalled, hkind, rfl⟩ := exists_token_of_reference hname htarget.twins
      exact ⟨_, .cons hcalled (.cons (.inl rfl) hts), .assign hkind hequals hderives⟩
  | set _ hdot hname hequals _ ihobject ihvalue =>
    intro _ halike
    cases halike with
    | set hobject hvalue =>
      obtain ⟨ts₁', hts₁, hderives₁⟩ := ihobject _ hobject
      obtain ⟨ts₂', hts₂, hderives₂⟩ := ihvalue _ hvalue
      exact ⟨_, List.rel_append hts₁ (.cons (.inl rfl) (.cons (.inl rfl) (.cons (.inl rfl) hts₂))),
        .set hderives₁ hdot hname hequals hderives₂⟩
  | operators _ ih =>
    intro e' halike
    obtain ⟨ts', hts, hderives⟩ := ih e' halike
    exact ⟨ts', hts, .operators hderives⟩
  | level _ _ ihfirst ihtail =>
    intro e' halike
    obtain ⟨first', hfirst, ts₂', hts₂, hderives₂⟩ := ihtail e' halike
    obtain ⟨ts₁', hts₁, hderives₁⟩ := ihfirst.operand hfirst
    exact ⟨_, List.rel_append hts₁ hts₂, .level hderives₁ hderives₂⟩
  | tailEnd => exact fun e' halike => ⟨e', halike, [], .nil, .tailEnd⟩
  | tailMore hop _ _ ihright ihmore =>
    intro e' halike
    obtain ⟨_, hnode, ts₂', hts₂, hderives₂⟩ := ihmore e' halike
    obtain ⟨left', right', rfl, hleft, hright⟩ := node_alike hop hnode
    obtain ⟨ts₁', hts₁, hderives₁⟩ := ihright.operand hright
    exact ⟨left', hleft, _, .cons (.inl rfl) (List.rel_append hts₁ hts₂),
      .tailMore hop hderives₁ hderives₂⟩
  | signed hsign _ ih =>
    intro _ halike
    cases halike with
    | unary h =>
      obtain ⟨ts', hts, hderives⟩ := ih _ h
      exact ⟨_, .cons (.inl rfl) hts, .signed hsign hderives⟩
  | unsigned _ ih =>
    intro e' halike
    obtain ⟨ts', hts, hderives⟩ := ih e' halike
    exact ⟨ts', hts, .unsigned hderives⟩
  | call _ _ ihfirst ihmore =>
    intro e' halike
    obtain ⟨first', hfirst, ts₂', hts₂, hderives₂⟩ := ihmore e' halike
    obtain ⟨ts₁', hts₁, hderives₁⟩ := ihfirst first' hfirst
    exact ⟨_, List.rel_append hts₁ hts₂, .call hderives₁ hderives₂⟩
  | suffixesEnd => exact fun e' halike => ⟨e', halike, [], .nil, .suffixesEnd⟩
  | suffixesCall hstart _ hclose _ ihargs ihmore =>
    intro e' halike
    obtain ⟨_, hcall, ts₂', hts₂, hderives₂⟩ := ihmore e' halike
    cases hcall with
    | call hcallee hargs =>
      obtain ⟨ts₁', hts₁, hderives₁⟩ := ihargs _ hargs
      exact ⟨_, hcallee, _, .cons (.inl rfl) (List.rel_append hts₁ (.cons (.inl rfl) hts₂)),
        .suffixesCall hstart hderives₁ hclose hderives₂⟩
  | suffixesGet hdot hname _ ih =>
    intro e' halike
    obtain ⟨_, hget, ts', hts, hderives⟩ := ih e' halike
    cases hget with
    | get hobject =>
      exact ⟨_, hobject, _, .cons (.inl rfl) (.cons (.inl rfl) hts),
        .suffixesGet hdot hname hderives⟩
  | constant h =>
    rintro _ ⟨⟩
    exact ⟨_, .cons (.inl rfl) .nil, .constant h⟩
  | this h =>
    intro _ halike
    cases halike
    exact ⟨_, .cons (.inl rfl) .nil, .this h⟩
  | super h hdot hmethod =>
    intro _ halike
    cases halike
    exact ⟨_, .cons (.inl rfl) (.cons (.inl rfl) (.cons (.inl rfl) .nil)), .super h hdot hmethod⟩
  | var hname =>
    intro _ halike
    cases halike with
    | var h =>
      obtain ⟨name', hcalled, hkind, rfl⟩ := exists_token_of_reference hname h.twins
      exact ⟨_, .cons hcalled .nil, .var hkind⟩
  | group hstart _ hclose ih =>
    intro _ halike
    cases halike with
    | group h =>
      obtain ⟨ts', hts, hderives⟩ := ih _ h
      exact ⟨_, .cons (.inl rfl) (List.rel_append hts (.cons (.inl rfl) .nil)),
        .group hstart hderives hclose⟩
  | argumentsOne _ ih =>
    rintro _ (_ | ⟨h, ⟨⟩⟩)
    obtain ⟨ts', hts, hderives⟩ := ih _ h
    exact ⟨ts', hts, .argumentsOne hderives⟩
  | argumentsMore _ hcomma _ ih ihmore =>
    rintro _ (_ | ⟨h, hothers⟩)
    obtain ⟨ts₁', hts₁, hderives₁⟩ := ih _ h
    obtain ⟨ts₂', hts₂, hderives₂⟩ := ihmore _ hothers
    exact ⟨_, List.rel_append hts₁ (.cons (.inl rfl) hts₂),
      .argumentsMore hderives₁ hcomma hderives₂⟩
  | givenNone =>
    rintro _ ⟨⟩
    exact ⟨[], .nil, .givenNone⟩
  | givenSome _ hmax ih =>
    intro args' halike
    obtain ⟨ts', hts, hderives⟩ := ih args' halike
    exact ⟨ts', hts, .givenSome hderives (halike.length_eq ▸ hmax)⟩

theorem DerivesOptional.alike {e e' : Option Expr} {ts : List Token} {n n' : NodeId}
    (h : DerivesOptional e n ts n') (halike : Expr.Alike? ρ pairing own e e') :
    ∃ ts', List.Forall₂ (Token.Called ρ) ts ts' ∧ DerivesOptional e' n ts' n' := by
  cases h with
  | absent =>
    cases halike
    exact ⟨[], .nil, .absent⟩
  | present h =>
    cases halike with
    | some halike =>
      obtain ⟨ts', hts, hderives⟩ := h.alike _ halike
      exact ⟨ts', hts, .present hderives⟩

end

/-! ## Statements -/

section
variable {pairing behind : Pairing} {n n' : NodeId} {ts : List Token}

theorem DerivesParameters.alike {params params' : List Name} (h : DerivesParameters params ts)
    (halike : pairing.Declares ρ params params' behind) :
    ∃ ts', List.Forall₂ (Token.Called ρ) ts ts' ∧ DerivesParameters params' ts' := by
  induction h generalizing pairing params' with
  | one hname =>
    cases halike with
    | cons htwins _ h =>
      cases h
      obtain ⟨name', hcalled, hkind, rfl⟩ := exists_token_of_twins hname htwins
      exact ⟨_, .cons hcalled .nil, .one hkind⟩
  | more hname hcomma _ ih =>
    cases halike with
    | cons htwins _ h =>
      obtain ⟨name', hcalled, hkind, rfl⟩ := exists_token_of_twins hname htwins
      obtain ⟨ts', hts, hderives⟩ := ih h
      exact ⟨_, .cons hcalled (.cons (.inl rfl) hts), .more hkind hcomma hderives⟩

theorem DerivesFormals.alike {params params' : List Name} (h : DerivesFormals params ts)
    (halike : pairing.Declares ρ params params' behind) :
    ∃ ts', List.Forall₂ (Token.Called ρ) ts ts' ∧ DerivesFormals params' ts' := by
  cases h with
  | none =>
    cases halike
    exact ⟨[], .nil, .none⟩
  | some h hmax =>
    obtain ⟨ts', hts, hderives⟩ := h.alike halike
    exact ⟨ts', hts, .some hderives (halike.length_eq ▸ hmax)⟩

theorem DerivesSuperclass.alike {r r' : Option Reference} (h : DerivesSuperclass r n ts n')
    (halike : Reference.Alike? ρ pairing r r') :
    ∃ ts', List.Forall₂ (Token.Called ρ) ts ts' ∧ DerivesSuperclass r' n ts' n' := by
  cases h with
  | absent =>
    cases halike
    exact ⟨[], .nil, .absent⟩
  | present hless hname =>
    cases halike with
    | some halike =>
      obtain ⟨name', hcalled, hkind, rfl⟩ := exists_token_of_reference hname halike.twins
      exact ⟨_, .cons (.inl rfl) (.cons hcalled .nil), .present hless hkind⟩

theorem DerivesVariable.alike {s s' : Stmt} (h : DerivesVariable s n ts n')
    (halike : s.Alike ρ pairing s' behind) :
    ∃ ts', List.Forall₂ (Token.Called ρ) ts ts' ∧ DerivesVariable s' n ts' n' := by
  cases h with
  | plain hname hclose =>
    cases halike with
    | var htwins _ hvalue =>
      cases hvalue
      obtain ⟨name', hcalled, hkind, rfl⟩ := exists_token_of_twins hname htwins
      exact ⟨_, .cons hcalled (.cons (.inl rfl) .nil), .plain hkind hclose⟩
  | initialized hname hequals hvalue hclose =>
    cases halike with
    | var htwins _ halike =>
      cases halike with
      | some halike =>
        obtain ⟨name', hcalled, hkind, rfl⟩ := exists_token_of_twins hname htwins
        obtain ⟨ts', hts, hderives⟩ := hvalue.alike _ halike
        exact ⟨_, .cons hcalled (.cons (.inl rfl) (List.rel_append hts (.cons (.inl rfl) .nil))),
          .initialized hkind hequals hderives hclose⟩

/-- Whether what two counting loops begin with is alike. -/
def InitializerAlike (ρ : Renaming) : Option Stmt → Option Stmt → Prop
  | none, none => True
  | some s, some s' => ∃ pairing behind, s.Alike ρ pairing s' behind
  | _, _ => False

/-- Whether parts of two counting loops are alike that may be absent. -/
def PartAlike (ρ : Renaming) (e e' : Option Expr) : Prop :=
  ∃ pairing own, Expr.Alike? ρ pairing own e e'

theorem DerivesInitializer.alike {s s' : Option Stmt} (h : DerivesInitializer s n ts n')
    (halike : InitializerAlike ρ s s') :
    ∃ ts', List.Forall₂ (Token.Called ρ) ts ts' ∧ DerivesInitializer s' n ts' n' := by
  cases s' with
  | none =>
    cases h with
    | absent hclose => exact ⟨_, .cons (.inl rfl) .nil, .absent hclose⟩
    | _ => cases halike
  | some s' =>
    cases h with
    | absent => cases halike
    | var hkeyword h =>
      obtain ⟨pairing, behind, halike⟩ := halike
      obtain ⟨ts', hts, hderives⟩ := h.alike halike
      exact ⟨_, .cons (.inl rfl) hts, .var hkeyword hderives⟩
    | expression h hclose =>
      obtain ⟨pairing, behind, halike⟩ := halike
      cases halike with
      | expr halike =>
        obtain ⟨ts', hts, hderives⟩ := h.alike _ halike
        exact ⟨_, List.rel_append hts (.cons (.inl rfl) .nil), .expression hderives hclose⟩

theorem stepped_alike {body s' : Stmt} : ∀ {increment : Option Expr},
    (match increment with
      | some step => Stmt.block [body, .expr step]
      | none => body).Alike ρ pairing s' pairing →
      ∃ increment' body', s' = (match increment' with
          | some step => Stmt.block [body', .expr step]
          | none => body') ∧
        PartAlike ρ increment increment' ∧ ∃ inner behind', body.Alike ρ inner body' behind'
  | none, h => ⟨none, s', rfl, ⟨pairing, none, .none⟩, pairing, pairing, h⟩
  | some step, h => by
    cases h with
    | block h =>
      cases h with
      | cons hbody h =>
        cases h with
        | cons h hnil =>
          cases hnil
          cases h with
          | expr h => exact ⟨some _, _, rfl, ⟨_, _, .some h⟩, _, _, hbody⟩

theorem loop_alike {condition increment : Option Expr} {body s' : Stmt}
    (h : (Stmt.forLoop none condition increment body).Alike ρ pairing s' behind) :
    ∃ condition' increment' body', s' = Stmt.forLoop none condition' increment' body' ∧
      PartAlike ρ condition condition' ∧ PartAlike ρ increment increment' ∧
        ∃ inner behind', body.Alike ρ inner body' behind' := by
  cases h with
  | whileDo hcondition hbody =>
    obtain ⟨increment', body', rfl, hparts⟩ := stepped_alike hbody
    cases condition with
    | none =>
      cases hcondition
      exact ⟨none, increment', body', rfl, ⟨pairing, none, .none⟩, hparts⟩
    | some condition => exact ⟨some _, increment', body', rfl, ⟨_, _, .some hcondition⟩, hparts⟩

theorem forLoop_alike {initializer : Option Stmt} {condition increment : Option Expr}
    {body s' : Stmt}
    (h : (Stmt.forLoop initializer condition increment body).Alike ρ pairing s' behind) :
    ∃ initializer' condition' increment' body',
      s' = Stmt.forLoop initializer' condition' increment' body' ∧
        InitializerAlike ρ initializer initializer' ∧ PartAlike ρ condition condition' ∧
        PartAlike ρ increment increment' ∧
        ∃ inner behind', body.Alike ρ inner body' behind' := by
  cases initializer with
  | none =>
    obtain ⟨condition', increment', body', rfl, hparts⟩ := loop_alike h
    exact ⟨none, condition', increment', body', rfl, trivial, hparts⟩
  | some first =>
    change (Stmt.block [first, .forLoop none condition increment body]).Alike
      ρ pairing s' behind at h
    cases h with
    | block h =>
      cases h with
      | cons hfirst h =>
        cases h with
        | cons h hnil =>
          cases hnil
          obtain ⟨condition', increment', body', rfl, hparts⟩ := loop_alike h
          exact ⟨some _, condition', increment', body', rfl, ⟨_, _, hfirst⟩, hparts⟩

/-- Whether a sentence is derived from tokens that may be called like these. -/
def Sentence.Spells (ρ : Renaming) (ts : List Token) (n n' : NodeId) (sentence : Sentence) : Prop :=
  ∃ ts', List.Forall₂ (Token.Called ρ) ts ts' ∧ sentence.Derives n ts' n'

/-- What a derivation says of trees that are alike its tree. -/
def Sentence.AlikeSpelled (ρ : Renaming) (ts : List Token) (n n' : NodeId) : Sentence → Prop
  | .declarations ss => ∀ {pairing behind : Pairing} {ss' : List Stmt},
      Stmt.AllAlike ρ pairing ss ss' behind → (Sentence.declarations ss').Spells ρ ts n n'
  | .declaration s => ∀ {pairing behind : Pairing} {s' : Stmt},
      s.Alike ρ pairing s' behind → (Sentence.declaration s').Spells ρ ts n n'
  | .statement s isOpen => ∀ {pairing behind : Pairing} {s' : Stmt},
      s.Alike ρ pairing s' behind → (Sentence.statement s' isOpen).Spells ρ ts n n'
  | .body ss => ∀ {pairing behind : Pairing} {ss' : List Stmt},
      Stmt.AllAlike ρ pairing ss ss' behind → (Sentence.body ss').Spells ρ ts n n'
  | .subroutine f => ∀ {pairing : Pairing} {f' : FunctionDecl},
      f.Alike ρ pairing f' → (Sentence.subroutine f').Spells ρ ts n n'
  | .subroutines fs => ∀ {pairing : Pairing} {fs' : List FunctionDecl},
      FunctionDecl.AllAlike ρ pairing fs fs' → (Sentence.subroutines fs').Spells ρ ts n n'

/-- **Alike statements are derived** from tokens that differ in names only. -/
theorem Sentence.Derives.alike {sentence : Sentence} {ts : List Token} {n n' : NodeId}
    (h : sentence.Derives n ts n') : sentence.AlikeSpelled ρ ts n n' := by
  induction h with
  | declarationsEnd =>
    rintro _ _ _ ⟨⟩
    exact ⟨[], .nil, .declarationsEnd⟩
  | declarationsMore _ _ ih ihmore =>
    intro _ _ _ halike
    cases halike with
    | cons h hothers =>
      obtain ⟨ts₁', hts₁, hderives₁⟩ := ih h
      obtain ⟨ts₂', hts₂, hderives₂⟩ := ihmore hothers
      exact ⟨_, List.rel_append hts₁ hts₂, .declarationsMore hderives₁ hderives₂⟩
  | classDecl hkeyword hname hparent hstart _ hclose ih =>
    intro _ _ _ halike
    cases halike with
    | classDecl _ _ hsuperclass hmethods =>
      obtain ⟨ts₁', hts₁, hderives₁⟩ := hparent.alike hsuperclass
      obtain ⟨ts₂', hts₂, hderives₂⟩ := ih hmethods
      exact ⟨_, .cons (.inl rfl) (.cons (.inl rfl) (List.rel_append hts₁ (.cons (.inl rfl)
        (List.rel_append hts₂ (.cons (.inl rfl) .nil))))),
        .classDecl hkeyword hname hderives₁ hstart hderives₂ hclose⟩
  | function hkeyword _ ih =>
    intro _ _ _ halike
    cases halike with
    | function _ _ h =>
      obtain ⟨ts', hts, hderives⟩ := ih h
      exact ⟨_, .cons (.inl rfl) hts, .function hkeyword hderives⟩
  | var hkeyword h =>
    intro _ _ _ halike
    obtain ⟨ts', hts, hderives⟩ := h.alike halike
    exact ⟨_, .cons (.inl rfl) hts, .var hkeyword hderives⟩
  | statement _ ih =>
    intro _ _ _ halike
    obtain ⟨ts', hts, hderives⟩ := ih halike
    exact ⟨ts', hts, .statement hderives⟩
  | expr h hclose =>
    intro _ _ _ halike
    cases halike with
    | expr halike =>
      obtain ⟨ts', hts, hderives⟩ := h.alike _ halike
      exact ⟨_, List.rel_append hts (.cons (.inl rfl) .nil), .expr hderives hclose⟩
  | forLoop hkeyword hstart hinitializer hcondition hmiddle hincrement hclose _ ih =>
    intro _ _ _ halike
    obtain ⟨initializer', condition', increment', body', rfl, halike₁, ⟨_, _, halike₂⟩,
      ⟨_, _, halike₃⟩, _, _, halike₄⟩ := forLoop_alike halike
    obtain ⟨ts₁', hts₁, hderives₁⟩ := hinitializer.alike halike₁
    obtain ⟨ts₂', hts₂, hderives₂⟩ := hcondition.alike halike₂
    obtain ⟨ts₃', hts₃, hderives₃⟩ := hincrement.alike halike₃
    obtain ⟨ts₄', hts₄, hderives₄⟩ := ih halike₄
    exact ⟨_, .cons (.inl rfl) (.cons (.inl rfl) (List.rel_append hts₁ (List.rel_append hts₂
      (.cons (.inl rfl) (List.rel_append hts₃ (.cons (.inl rfl) hts₄)))))),
      .forLoop hkeyword hstart hderives₁ hderives₂ hmiddle hderives₃ hclose hderives₄⟩
  | ifThen hkeyword hstart hcondition hclose _ ih =>
    intro _ _ _ halike
    cases halike with
    | ifThen halike hthen =>
      obtain ⟨ts₁', hts₁, hderives₁⟩ := hcondition.alike _ halike
      obtain ⟨ts₂', hts₂, hderives₂⟩ := ih hthen
      exact ⟨_, .cons (.inl rfl) (.cons (.inl rfl) (List.rel_append hts₁ (.cons (.inl rfl) hts₂))),
        .ifThen hkeyword hstart hderives₁ hclose hderives₂⟩
  | ifElse hkeyword hstart hcondition hclose _ hother _ ihthen ihelse =>
    intro _ _ _ halike
    cases halike with
    | ifElse halike hthen helse =>
      obtain ⟨ts₁', hts₁, hderives₁⟩ := hcondition.alike _ halike
      obtain ⟨ts₂', hts₂, hderives₂⟩ := ihthen hthen
      obtain ⟨ts₃', hts₃, hderives₃⟩ := ihelse helse
      exact ⟨_, .cons (.inl rfl) (.cons (.inl rfl) (List.rel_append hts₁ (.cons (.inl rfl)
        (List.rel_append hts₂ (.cons (.inl rfl) hts₃))))),
        .ifElse hkeyword hstart hderives₁ hclose hderives₂ hother hderives₃⟩
  | print hkeyword h hclose =>
    intro _ _ _ halike
    cases halike with
    | print halike =>
      obtain ⟨ts', hts, hderives⟩ := h.alike _ halike
      exact ⟨_, .cons (.inl rfl) (List.rel_append hts (.cons (.inl rfl) .nil)),
        .print hkeyword hderives hclose⟩
  | ret hkeyword h hclose =>
    intro _ _ _ halike
    cases halike with
    | ret halike =>
      obtain ⟨ts', hts, hderives⟩ := h.alike halike
      exact ⟨_, .cons (.inl rfl) (List.rel_append hts (.cons (.inl rfl) .nil)),
        .ret hkeyword hderives hclose⟩
  | whileDo hkeyword hstart hcondition hclose _ ih =>
    intro _ _ _ halike
    cases halike with
    | whileDo halike hbody =>
      obtain ⟨ts₁', hts₁, hderives₁⟩ := hcondition.alike _ halike
      obtain ⟨ts₂', hts₂, hderives₂⟩ := ih hbody
      exact ⟨_, .cons (.inl rfl) (.cons (.inl rfl) (List.rel_append hts₁ (.cons (.inl rfl) hts₂))),
        .whileDo hkeyword hstart hderives₁ hclose hderives₂⟩
  | block hstart _ ih =>
    intro _ _ _ halike
    cases halike with
    | block h =>
      obtain ⟨ts', hts, hderives⟩ := ih h
      exact ⟨_, .cons (.inl rfl) hts, .block hstart hderives⟩
  | body _ hclose ih =>
    intro _ _ _ halike
    obtain ⟨ts', hts, hderives⟩ := ih halike
    exact ⟨_, List.rel_append hts (.cons (.inl rfl) .nil), .body hderives hclose⟩
  | subroutine hname hstart hparams hclose hbrace _ ih =>
    intro _ _ halike
    cases halike with
    | mk halike hbody =>
      obtain ⟨ts₁', hts₁, hderives₁⟩ := hparams.alike halike
      obtain ⟨ts₂', hts₂, hderives₂⟩ := ih hbody
      exact ⟨_, .cons (.inl rfl) (.cons (.inl rfl) (List.rel_append hts₁ (.cons (.inl rfl)
        (.cons (.inl rfl) hts₂)))), .subroutine hname hstart hderives₁ hclose hbrace hderives₂⟩
  | subroutinesEnd =>
    rintro _ _ ⟨⟩
    exact ⟨[], .nil, .subroutinesEnd⟩
  | subroutinesMore _ _ ih ihmore =>
    intro _ _ halike
    cases halike with
    | cons h hothers =>
      obtain ⟨ts₁', hts₁, hderives₁⟩ := ih h
      obtain ⟨ts₂', hts₂, hderives₂⟩ := ihmore hothers
      exact ⟨_, List.rel_append hts₁ hts₂, .subroutinesMore hderives₁ hderives₂⟩

end

end Grammar

end Lox
