import Lox.Proofs.Scoping.Resolved

/-!
# The ribs of scopes

The names that are ready in the scopes of the walk are ribs (`Scopes.ribs`).  What the walk does to
its scopes it does to their ribs too, whether or not it finds a violation.
-/

namespace Lox

theorem Table.ready_single (name : String) :
    (fun x => (Table.single name true).get? x == some true) = Rib.single name := by
  funext x
  unfold Table.single Table.get? Rib.single
  rw [Table.lookup_cons]
  by_cases hx : x = name <;> simp [hx]

theorem Ribs.extendAll_cons : ∀ (params : List Name) (rib : Rib) (ribs : Ribs),
    ∃ rib' : Rib, Ribs.extendAll (rib :: ribs) params = rib' :: ribs ∧
      ∀ x, rib' x = true ↔ rib x = true ∨ ∃ param ∈ params, param.text = x
  | [], rib, _ => ⟨rib, rfl, fun x => by simp⟩
  | param :: params, rib, ribs => by
    obtain ⟨rib', hribs, hrib'⟩ := extendAll_cons params (rib.add param.text) ribs
    refine ⟨rib', hribs, fun x => ?_⟩
    have hadd : rib.add param.text x = true ↔ x = param.text ∨ rib x = true := by simp [Rib.add]
    rw [hrib', hadd]
    constructor
    · rintro ((rfl | hx) | ⟨other, hother, rfl⟩)
      · exact .inr ⟨param, List.mem_cons_self, rfl⟩
      · exact .inl hx
      · exact .inr ⟨other, List.mem_cons_of_mem _ hother, rfl⟩
    · rintro (hx | ⟨other, hother, rfl⟩)
      · exact .inl (.inr hx)
      · rcases List.mem_cons.mp hother with rfl | hother
        · exact .inl (.inl rfl)
        · exact .inr ⟨other, hother, rfl⟩

namespace Scopes

/-- The names of each scope that are ready. -/
def ribs (scopes : Scopes) : Ribs :=
  scopes.map fun scope name => scope.get? name == some true

theorem length_ribs (scopes : Scopes) : scopes.ribs.length = scopes.length :=
  List.length_map _

/-- A name that is not ready is bound as little as one that is not declared. -/
theorem ribs_declare {scopes : Scopes} {name : Name} (h : scopes.ribs.Fresh name.text) :
    (scopes.declare name).1.ribs = scopes.ribs := by
  cases scopes with
  | nil => rfl
  | cons scope outer =>
    have hready : (scope.get? name.text == some true) = false := h _ rfl
    refine congrArg (· :: ribs outer) (funext fun x => ?_)
    show ((scope.put name.text false).get? x == some true) = (scope.get? x == some true)
    by_cases hx : x = name.text
    · rw [hx, hready, Table.get?_put_self]
      rfl
    · rw [Table.get?_put_of_ne _ false hx]

theorem ribs_declareReady (scopes : Scopes) (name : Name) :
    (scopes.declareReady name).1.ribs = scopes.ribs.extend name.text := by
  cases scopes with
  | nil => rfl
  | cons scope outer =>
    refine congrArg (· :: ribs outer) (funext fun x => ?_)
    show (((scope.put name.text false).put name.text true).get? x == some true) = _
    by_cases hx : x = name.text
    · simp [Rib.add, hx]
    · rw [Table.get?_put_of_ne _ true hx, Table.get?_put_of_ne _ false hx]
      simp [Rib.add, hx]

theorem ribs_declareAll : ∀ (names : List Name) (scopes : Scopes),
    (scopes.declareAll names).1.ribs = scopes.ribs.extendAll names
  | [], _ => rfl
  | name :: names, scopes => by
    have hothers := ribs_declareAll names (scopes.declareReady name).1
    rw [ribs_declareReady] at hothers
    exact hothers

theorem ribs_enterClass (scopes : Scopes) (superclass : Option Reference) :
    (scopes.enterClass superclass).ribs = scopes.ribs.enterClass superclass := by
  cases superclass with
  | none => exact congrArg (· :: scopes.ribs) (Table.ready_single thisName)
  | some _ =>
    exact congr (congrArg List.cons (Table.ready_single thisName))
      (congrArg (· :: scopes.ribs) (Table.ready_single superName))

end Scopes

end Lox
