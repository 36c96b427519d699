import Lox.Syntax.Outline
import Lox.Proofs.Grammar.Program

/-!
# Identities of references

A reader gives out identities in order, and never one again: not for a name that it has read as the
target of an assignment, not when it moves the increment of a counting loop behind the body, and not
when it gives up what it was reading.  So the references of a tree have identities between the
reader's first unused one before the tree and the one behind it, each once (`Spans`), by induction on
the derivation of the tree.  Trees that are read one after the other have no identity in common
(`nodup_references_trees`).
-/

namespace Lox

/-! ## Lists of identities -/

/-- **Whether a list has identities between two bounds**, each once. -/
structure Spans (ids : List NodeId) (n n' : NodeId) : Prop where
  le : n ≤ n'
  nodup : ids.Nodup
  between : ∀ id ∈ ids, n ≤ id ∧ id < n'

namespace Spans

variable {a b : List NodeId} {n m n' : NodeId}

theorem nil (h : n ≤ n') : Spans [] n n' := ⟨h, .nil, nofun⟩

theorem single (n : NodeId) : Spans [n] n (n + 1) :=
  ⟨Nat.le_succ n, List.pairwise_singleton _ n, fun _ hid => by
    cases List.mem_singleton.mp hid
    exact ⟨Nat.le_refl _, Nat.lt_succ_self _⟩⟩

theorem append (h : Spans a n m) (h' : Spans b m n') : Spans (a ++ b) n n' where
  le := Nat.le_trans h.le h'.le
  nodup := List.nodup_append.mpr ⟨h.nodup, h'.nodup, fun id hid other hother =>
    Nat.ne_of_lt (Nat.lt_of_lt_of_le (h.between id hid).2 (h'.between other hother).1)⟩
  between id hid := by
    rcases List.mem_append.mp hid with hid | hid
    · exact ⟨(h.between id hid).1, Nat.lt_of_lt_of_le (h.between id hid).2 h'.le⟩
    · exact ⟨Nat.le_trans h.le (h'.between id hid).1, (h'.between id hid).2⟩

/-- The order does not matter. -/
theorem perm (h : Spans a n n') (hp : a.Perm b) : Spans b n n' :=
  ⟨h.le, hp.nodup_iff.mp h.nodup, fun id hid => h.between id (hp.mem_iff.mpr hid)⟩

theorem mono (h : Spans a m n') (hle : n ≤ m) : Spans a n n' :=
  ⟨Nat.le_trans hle h.le, h.nodup, fun id hid =>
    ⟨Nat.le_trans hle (h.between id hid).1, (h.between id hid).2⟩⟩

end Spans

namespace Grammar

/-! ## Expressions -/

/-- What a derivation says of the identities in the tree of its phrase.  What follows an operand says
it of the tree that it makes of any operand before it. -/
def Phrase.Numbered : Phrase → NodeId → NodeId → Prop
  | .expression e, n, n' | .level _ e, n, n' | .unary e, n, n' | .call e, n, n'
  | .primary e, n, n' => Spans e.references n n'
  | .tail _ left e, n, n' => ∀ n₀, Spans left.references n₀ n → Spans e.references n₀ n'
  | .suffixes object e, n, n' => ∀ n₀, Spans object.references n₀ n → Spans e.references n₀ n'
  | .arguments args, n, n' | .given args, n, n' => Spans (Expr.allReferences args) n n'

theorem references_node {p : Precedence} {kind : Token.Kind} {build : Nat → Expr → Expr → Expr}
    (h : p.node? kind = some build) (line : Nat) (left right : Expr) :
    (build line left right).references = left.references ++ right.references := by
  unfold Precedence.node? at h
  split at h <;> cases h <;> rfl

theorem numbered_operand {p : Precedence} {e : Expr} {n n' : NodeId}
    (h : (Phrase.operand p e).Numbered n n') : Spans e.references n n' := by
  cases p <;> exact h

/-- **Derived expressions** take each identity once. -/
theorem Phrase.Derives.numbered {phrase : Phrase} {ts : List Token} {n n' : NodeId}
    (h : phrase.Derives n ts n') : phrase.Numbered n n' := by
  induction h with
  | @assign _ _ _ _ n n' _ _ _ ih =>
    exact ((ih.mono (Nat.le_succ n)).append (.single n')).perm List.perm_append_comm
  | set _ _ _ _ _ ihobject ihvalue => exact ihobject.append ihvalue
  | operators _ ih => exact ih
  | level _ _ ihfirst ihtail => exact ihtail _ (numbered_operand ihfirst)
  | tailEnd => exact fun _ h => h
  | @tailMore _ _ op left right _ _ _ _ _ _ hop _ _ ihright ihmore =>
    intro n₀ hleft
    refine ihmore n₀ ?_
    rw [references_node hop]
    exact hleft.append (numbered_operand ihright)
  | signed _ _ ih => exact ih
  | unsigned _ ih => exact ih
  | call _ _ ihfirst ihmore => exact ihmore _ ihfirst
  | suffixesEnd => exact fun _ h => h
  | suffixesCall _ _ _ _ ihargs ihmore => exact fun n₀ hobject => ihmore n₀ (hobject.append ihargs)
  | suffixesGet _ _ _ ih => exact fun n₀ hobject => ih n₀ hobject
  | constant => exact .nil (Nat.le_refl _)
  | this | super | var => exact .single _
  | group _ _ _ ih => exact ih
  | argumentsOne _ ih => exact ih.append (.nil (Nat.le_refl _))
  | argumentsMore _ _ _ ih ihmore => exact ih.append ihmore
  | givenNone => exact .nil (Nat.le_refl _)
  | givenSome _ _ ih => exact ih

theorem DerivesOptional.numbered {e : Option Expr} {ts : List Token} {n n' : NodeId}
    (h : DerivesOptional e n ts n') : Spans (Expr.references? e) n n' := by
  cases h with
  | absent => exact .nil (Nat.le_refl _)
  | present h => exact h.numbered

/-! ## Statements -/

theorem DerivesVariable.numbered {s : Stmt} {ts : List Token} {n n' : NodeId}
    (h : DerivesVariable s n ts n') : Spans s.references n n' := by
  cases h with
  | plain => exact .nil (Nat.le_refl _)
  | initialized _ _ hvalue _ => exact hvalue.numbered

theorem DerivesSuperclass.numbered {r : Option Reference} {ts : List Token} {n n' : NodeId}
    (h : DerivesSuperclass r n ts n') : Spans (r.map Reference.id).toList n n' := by
  cases h with
  | absent => exact .nil (Nat.le_refl _)
  | present => exact .single n

/-- The references of what a counting loop begins with. -/
def initializerReferences : Option Stmt → List NodeId
  | none => []
  | some s => s.references

theorem DerivesInitializer.numbered {s : Option Stmt} {ts : List Token} {n n' : NodeId}
    (h : DerivesInitializer s n ts n') : Spans (initializerReferences s) n n' := by
  cases h with
  | absent => exact .nil (Nat.le_refl _)
  | var _ h => exact h.numbered
  | expression h => exact h.numbered

/-- **A counting loop** stands for a statement with the references of its parts, those of the increment
behind those of the body. -/
theorem references_forLoop (initializer : Option Stmt) (condition increment : Option Expr)
    (body : Stmt) : (Stmt.forLoop initializer condition increment body).references =
      initializerReferences initializer ++ (Expr.references? condition ++
        (body.references ++ Expr.references? increment)) := by
  cases initializer <;> cases condition <;> cases increment <;>
    simp [Stmt.forLoop, Stmt.references, Stmt.allReferences, initializerReferences,
      Expr.references?, Expr.references]

/-- What a derivation says of the identities in the tree of its sentence. -/
def Sentence.Numbered : Sentence → NodeId → NodeId → Prop
  | .declarations ss, n, n' | .body ss, n, n' => Spans (Stmt.allReferences ss) n n'
  | .declaration s, n, n' | .statement s _, n, n' => Spans s.references n n'
  | .subroutine f, n, n' => Spans f.references n n'
  | .subroutines fs, n, n' => Spans (FunctionDecl.allReferences fs) n n'

/-- **Derived statements** take each identity once. -/
theorem Sentence.Derives.numbered {sentence : Sentence} {ts : List Token} {n n' : NodeId}
    (h : sentence.Derives n ts n') : sentence.Numbered n n' := by
  induction h with
  | declarationsEnd | subroutinesEnd => exact .nil (Nat.le_refl _)
  | declarationsMore _ _ ih ihmore | subroutinesMore _ _ ih ihmore => exact ih.append ihmore
  | classDecl _ _ hparent _ _ _ ih => exact hparent.numbered.append ih
  | function _ _ ih | statement _ ih | block _ _ ih | body _ _ ih => exact ih
  | subroutine _ _ _ _ _ _ ih => exact ih
  | var _ h => exact h.numbered
  | expr h => exact h.numbered
  | print _ h => exact h.numbered
  | ret _ h => exact h.numbered
  | @forLoop _ _ _ _ initializer condition increment body _ _ _ _ _ _ _ _ _ _ _ _ hinitializer
      hcondition _ hincrement _ _ ih =>
    -- the increment is read before the body
    have hparts := hinitializer.numbered.append
      (hcondition.numbered.append (hincrement.numbered.append ih))
    show Spans (Stmt.forLoop initializer condition increment body).references _ _
    rw [references_forLoop]
    exact hparts.perm (.append_left _ (.append_left _ List.perm_append_comm))
  | ifThen _ _ hcondition _ _ ih | whileDo _ _ hcondition _ _ ih => exact hcondition.numbered.append ih
  | ifElse _ _ hcondition _ _ _ _ ihthen ihelse =>
    exact (hcondition.numbered.append ihthen).append ihelse

end Grammar

/-! ## Trees one after the other -/

/-- **The trees of lists of tokens** that are read one after the other, each with the first identity
that is unused behind those before it.  What is no program has no tree. -/
def Program.trees (nextId : NodeId) : List (List Token) → List Program
  | [] => []
  | tokens :: others =>
    match Program.ofTokens tokens nextId with
    | (.ok program, nextId) => program :: trees nextId others
    | (.error _, nextId) => trees nextId others

/-- **Trees have no identity in common** with each other, nor twice in themselves. -/
theorem nodup_references_trees (sources : List (List Token)) (n : NodeId) :
    ((Program.trees n sources).flatMap Stmt.allReferences).Nodup ∧
      ∀ id ∈ (Program.trees n sources).flatMap Stmt.allReferences, n ≤ id := by
  induction sources generalizing n with
  | nil => exact ⟨.nil, nofun⟩
  | cons tokens others ih =>
    have hle := Grammar.le_nextId_ofTokens tokens n
    unfold Program.trees
    cases hread : Program.ofTokens tokens n with
    | mk result n' =>
      rw [hread] at hle
      obtain ⟨hnodup, hids⟩ := ih n'
      cases result with
      | error faults => exact ⟨hnodup, fun id hid => Nat.le_trans hle (hids id hid)⟩
      | ok program =>
        have hspans : Spans (Stmt.allReferences program) n n' :=
          (Grammar.derives_of_ofTokens hread).numbered
        simp only [List.flatMap_cons]
        refine ⟨List.nodup_append.mpr ⟨hspans.nodup, hnodup, fun id hid other hother => ?_⟩,
          fun id hid => ?_⟩
        · exact Nat.ne_of_lt (Nat.lt_of_lt_of_le (hspans.between id hid).2 (hids other hother))
        · rcases List.mem_append.mp hid with hid | hid
          · exact (hspans.between id hid).1
          · exact Nat.le_trans hle (hids id hid)

end Lox
