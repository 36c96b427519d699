import Lox.Proofs.Renaming.Alike
import Lox.Proofs.Renaming.Renamed
import Lox.Proofs.Scoping.Resolved

/-!
# The pairs of a renaming

Let `x` be renamed to `y` in one scope of a tree.  The names declared around a place and what they
are called in the renamed tree are a pairing, which has `x` and `y` as a pair in that scope and
every other name with itself (`Pairing.FollowsAt`).  A reference is renamed by its distance, so its
name and the new one mean the same (`Pairing.Follows.same`): in a scope further in, the new name
could only be that of another variable if this were called `y`, and no name of the tree is.
-/

namespace Lox

/-! ## Names -/

/-- What a name is called in the renamed tree, if it is declared in the scope that is meant or not.
No name is `y` already. -/
structure Renames (x y : String) (hit : Prop) (z z' : String) : Prop where
  new : z = y → x = y
  renamed : hit → z = x → z' = y
  kept : ¬(hit ∧ z = x) → z' = z

namespace Renames

variable {x y z z' t t' : String} {hit hit' : Prop}

theorem unique (h : Renames x y hit z z') (h' : Renames x y hit z t') : z' = t' := by
  by_cases hz : hit ∧ z = x
  · rw [h.renamed hz.1 hz.2, h'.renamed hz.1 hz.2]
  · rw [h.kept hz, h'.kept hz]

/-- **Different names stay different**, whether or not they are declared in the scope that is meant.
-/
theorem injective (h : Renames x y hit z t') (h' : Renames x y hit' t t') : z = t := by
  by_cases hz : hit ∧ z = x <;> by_cases ht : hit' ∧ t = x
  · rw [hz.2, ht.2]
  · have hy : t = y := (h'.kept ht).symm.trans (h.renamed hz.1 hz.2)
    rw [hz.2, h'.new hy, hy]
  · have hy : z = y := (h.kept hz).symm.trans (h'.renamed ht.1 ht.2)
    rw [ht.2, h.new hy, hy]
  · rw [← h.kept hz, ← h'.kept ht]

theorem congr (h : Renames x y hit z z') (hiff : hit ↔ hit') : Renames x y hit' z z' :=
  ⟨h.new, fun hhit => h.renamed (hiff.mpr hhit), fun hmiss => h.kept (by rwa [hiff])⟩

theorem calls {ρ : Renaming} (h : Renames x y hit z z') (hρ : ρ.Calls x y) (hz : Plain z) :
    ρ.Calls z z' := by
  by_cases hhit : hit ∧ z = x
  · rwa [h.renamed hhit.1 hhit.2, hhit.2]
  · rw [h.kept hhit]
    exact ⟨hz, hz, .inl rfl⟩

theorem of_ne (hx : hit → z ≠ x) (hy : z = y → x = y) : Renames x y hit z z :=
  ⟨hy, fun hhit he => absurd he (hx hhit), fun _ => rfl⟩

end Renames

theorem Name.renames_renamedAt {x y : String} {aim : Aim} {name : Name}
    (h : name.text = y → x = y) :
    Renames x y (aim.Hits (some 0)) name.text (name.renamedAt x y aim).text := by
  refine ⟨h, fun hhit he => ?_, fun hmiss => ?_⟩
  · rw [Name.renamedAt, if_pos hhit, Name.renamed, if_pos he]
  · by_cases hhit : aim.Hits (some 0)
    · rw [Name.renamedAt, if_pos hhit, Name.renamed, if_neg fun he => hmiss ⟨hhit, he⟩]
    · rw [Name.renamedAt, if_neg hhit]

theorem Reference.renames_renamedAt {x y : String} (distances : Distances) (aim : Aim)
    {r : Reference} (h : r.name.text = y → x = y) :
    Renames x y (aim.Hits (distances.get? r.id)) r.name.text
      (r.renamedAt x y distances aim).name.text := by
  refine ⟨h, fun hhit he => ?_, fun hmiss => ?_⟩
  · rw [Reference.renamedAt, if_pos hhit, Name.renamed, if_pos he]
  · by_cases hhit : aim.Hits (distances.get? r.id)
    · rw [Reference.renamedAt, if_pos hhit, Name.renamed, if_neg fun he => hmiss ⟨hhit, he⟩]
    · rw [Reference.renamedAt, if_neg hhit]

/-! ## The scope that is meant -/

namespace Aim

variable {aim : Aim} {found : Option Nat} {path : List Nat} {d : Nat}

theorem hits_iff : aim.Hits found ↔ ∃ d, found = some d ∧ aim.Hits (some d) := by
  cases found with
  | none => cases aim <;> simp [Hits]
  | some d => simp

theorem hits_first : aim.first.Hits found ↔ aim.Hits found := by
  rcases aim with (_ | ⟨_ | _, _⟩) | _ | _ <;> exact Iff.rfl

theorem hits_others : aim.others.Hits found ↔ aim.Hits found := by
  rcases aim with (_ | ⟨_ | _, _⟩) | _ | _ <;> exact Iff.rfl

/-- The scope that is entered is the one that is meant if the path ends there. -/
theorem hits_enter_zero : aim.enter.Hits (some 0) ↔ aim = ahead [] := by
  rcases aim with (_ | ⟨_, _⟩) | _ | _ <;> simp [enter, Hits]

theorem hits_enter_succ : aim.enter.Hits (some (d + 1)) ↔ aim.Hits (some d) := by
  rcases aim with (_ | ⟨_, _⟩) | _ | _ <;> simp [enter, Hits]

theorem eq_of_first (h : aim.first = ahead path) : aim = ahead (0 :: path) := by
  rcases aim with (_ | ⟨_ | _, _⟩) | _ | _ <;> simp_all [first]

theorem eq_of_others (h : aim.others = ahead path) :
    ∃ n rest, path = n :: rest ∧ aim = ahead ((n + 1) :: rest) := by
  rcases aim with (_ | ⟨_ | _, _⟩) | _ | _ <;> simp_all [others]

theorem eq_of_enter (h : aim.enter = ahead path) : aim = ahead path ∧ path ≠ [] := by
  rcases aim with (_ | ⟨_, _⟩) | _ | _ <;> simp_all [enter]
  rw [← h]
  exact nofun

theorem eq_of_enterClass {superclass : Option Reference}
    (h : aim.enterClass superclass = ahead path) : aim = ahead path := by
  cases aim <;> simp_all [enterClass]

end Aim

/-! ## Pairings of a renaming -/

namespace Pairing

/-- The names that each scope binds on the first side. -/
def ribs (pairing : Pairing) : Ribs :=
  pairing.map fun scope name => decide (name ∈ scope.map Prod.fst)

/-- Whether the scopes around a place have the names of the renaming as pairs. -/
structure Follows (x y : String) (hits : Nat → Prop) (pairing : Pairing) : Prop where
  inside : ∀ d, hits d → d < pairing.length
  pairs : ∀ d scope, pairing[d]? = some scope → ∀ pair ∈ scope, Renames x y (hits d) pair.1 pair.2

variable {x y z z' t t' : String} {hits hits' : Nat → Prop} {pairing : Pairing}

theorem Follows.congr (h : Follows x y hits pairing) (hiff : ∀ d, hits d ↔ hits' d) :
    Follows x y hits' pairing :=
  ⟨fun d hd => h.inside d ((hiff d).mpr hd), fun d scope hscope pair hpair =>
    (h.pairs d scope hscope pair hpair).congr (hiff d)⟩

theorem Follows.cons {scope : List (String × String)}
    (h : Follows x y (fun d => hits (d + 1)) pairing)
    (hscope : ∀ pair ∈ scope, Renames x y (hits 0) pair.1 pair.2) :
    Follows x y hits (scope :: pairing) where
  inside d hd := by
    cases d with
    | zero => exact Nat.succ_pos _
    | succ d => exact Nat.succ_lt_succ (h.inside d hd)
  pairs d scope' hscope' := by
    cases d with
    | zero =>
      cases hscope'
      exact hscope
    | succ d => exact h.pairs d scope' hscope'

theorem Follows.tail {scope : List (String × String)} (h : Follows x y hits (scope :: pairing)) :
    Follows x y (fun d => hits (d + 1)) pairing :=
  ⟨fun d hd => Nat.lt_of_succ_lt_succ (h.inside (d + 1) hd), fun d => h.pairs (d + 1)⟩

theorem Follows.head {scope : List (String × String)} (h : Follows x y hits (scope :: pairing)) :
    ∀ pair ∈ scope, Renames x y (hits 0) pair.1 pair.2 :=
  h.pairs 0 scope rfl

theorem ribs_enter : pairing.enter.ribs = .none :: pairing.ribs := rfl

theorem ribs_declare : (pairing.declare z z').ribs = pairing.ribs.extend z := by
  cases pairing with
  | nil => rfl
  | cons scope outer =>
    refine congrArg (· :: ribs outer) (funext fun name => ?_)
    simp only [List.map_append, List.mem_append, List.map_cons, List.map_nil, List.mem_singleton,
      Rib.add]
    by_cases hname : name = z <;> simp [hname]

theorem ribs_enterClass (pairing : Pairing) (superclass : Option Reference) :
    (pairing.enterClass superclass).ribs = pairing.ribs.enterClass superclass := by
  have hsingle : ∀ name : String,
      (fun t : String => decide (t ∈ [(name, name)].map Prod.fst)) = Rib.single name := by
    intro name
    funext t
    simp [Rib.single, Bool.beq_eq_decide_eq]
  cases superclass with
  | none => exact congrArg (· :: pairing.ribs) (hsingle thisName)
  | some _ =>
    exact congr (congrArg List.cons (hsingle thisName))
      (congrArg (· :: pairing.ribs) (hsingle superName))

theorem map_own : (pairing.own z z').map Prod.fst = pairing.ribs.own z := by
  cases pairing <;> rfl

/-- **A name and what it is called at the distance where it is bound mean the same.** -/
theorem Follows.same : ∀ {pairing : Pairing} {hits : Nat → Prop}, Follows x y hits pairing →
    Renames x y (∃ d, pairing.ribs.distance? t = some d ∧ hits d) t t' → pairing.Same t t'
  | [], _, _, ht => ht.kept fun hhit => by
    obtain ⟨⟨_, hd, -⟩, -⟩ := hhit
    cases hd
  | scope :: outer, hits, h, ht => by
    by_cases hmem : t ∈ scope.map Prod.fst
    · have hdistance : (ribs (scope :: outer)).distance? t = some 0 := by
        rw [ribs, List.map_cons, Ribs.distance?_cons, if_pos (decide_eq_true hmem)]
      have ht : Renames x y (hits 0) t t' := ht.congr (by simp [hdistance])
      obtain ⟨pair, hpair, rfl⟩ := List.mem_map.mp hmem
      rw [ht.unique (h.head pair hpair)]
      exact .inl hpair
    · have hdistance : (ribs (scope :: outer)).distance? t =
          ((ribs outer).distance? t).map (· + 1) := by
        rw [ribs, List.map_cons, Ribs.distance?_cons, if_neg (by simpa using hmem)]
        rfl
      have houter : Renames x y (∃ d, (ribs outer).distance? t = some d ∧ hits (d + 1)) t t' :=
        ht.congr (by
          rw [hdistance]
          cases (ribs outer).distance? t <;> simp)
      refine .inr ⟨hmem, fun hmem' => ?_, h.tail.same houter⟩
      obtain ⟨pair, hpair, rfl⟩ := List.mem_map.mp hmem'
      rw [← (h.head pair hpair).injective ht] at hmem
      exact hmem (List.mem_map_of_mem hpair)

/-- A name that is new to a scope is called by a new name. -/
theorem Follows.admits (h : Follows x y hits pairing) (hfresh : pairing.ribs.Fresh z)
    (hz : Renames x y (hits 0) z z') : pairing.Admits z z' := by
  cases pairing with
  | nil => exact hz.kept fun hhit => absurd (h.inside 0 hhit.1) (Nat.not_lt_zero 0)
  | cons scope outer =>
    have hnew : z ∉ scope.map Prod.fst := of_decide_eq_false (hfresh _ rfl)
    refine ⟨hnew, fun hmem => ?_⟩
    obtain ⟨pair, hpair, rfl⟩ := List.mem_map.mp hmem
    rw [← (h.head pair hpair).injective hz] at hnew
    exact hnew (List.mem_map_of_mem hpair)

theorem Follows.declare (h : Follows x y hits pairing) (hz : Renames x y (hits 0) z z') :
    Follows x y hits (pairing.declare z z') := by
  cases pairing with
  | nil => exact h
  | cons scope outer =>
    refine h.tail.cons fun pair hpair => ?_
    rcases List.mem_append.mp hpair with hpair | hpair
    · exact h.head pair hpair
    · cases List.mem_singleton.mp hpair
      exact hz

variable {aim : Aim}

/-- Whether the scopes around a place have the names of the renaming as pairs, in the scope at which
the renaming aims. -/
def FollowsAt (pairing : Pairing) (x y : String) (aim : Aim) : Prop :=
  Follows x y (fun d => aim.Hits (some d)) pairing

theorem FollowsAt.first (h : FollowsAt pairing x y aim) : FollowsAt pairing x y aim.first :=
  Follows.congr h fun _ => Aim.hits_first.symm

theorem FollowsAt.others (h : FollowsAt pairing x y aim) : FollowsAt pairing x y aim.others :=
  Follows.congr h fun _ => Aim.hits_others.symm

theorem FollowsAt.enter (h : FollowsAt pairing x y aim) : FollowsAt pairing.enter x y aim.enter :=
  Follows.cons (Follows.congr h fun _ => Aim.hits_enter_succ.symm) nofun

theorem FollowsAt.enterClass (h : FollowsAt pairing x y aim) {ρ : Renaming} (hρ : ρ.Calls x y)
    (superclass : Option Reference) :
    FollowsAt (pairing.enterClass superclass) x y (aim.enterClass superclass) := by
  have hreserved : ∀ (name : String) (hit : Prop), ¬Plain name → ∀ pair ∈ [(name, name)],
      Renames x y hit pair.1 pair.2 := by
    intro name hit hname pair hpair
    cases List.mem_singleton.mp hpair
    exact .of_ne (fun _ => (hρ.plain.ne hname).symm) fun he => absurd he (hρ.plain'.ne hname).symm
  have hthis : ¬Plain thisName := fun h => h.1 rfl
  have hsuper : ¬Plain superName := fun h => h.2 rfl
  cases superclass with
  | none =>
    refine Follows.cons (Follows.congr h fun d => ?_) (hreserved thisName _ hthis)
    cases aim <;> simp [Aim.enterClass, Aim.Hits]
  | some _ =>
    refine Follows.cons (.cons (Follows.congr h fun d => ?_) (hreserved superName _ hsuper))
      (hreserved thisName _ hthis)
    cases aim <;> simp [Aim.enterClass, Aim.Hits]

end Pairing

end Lox
