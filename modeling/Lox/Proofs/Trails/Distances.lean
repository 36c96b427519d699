import Lox.Proofs.Grammar.Identities
import Lox.Proofs.Trails.Walk
import Mathlib.Data.List.Induction

/-!
# The table of distances is exact

A name is bound by the scopes along a trail so many scopes out if and only if it was declared there
(`Trail.declares_iff`), by induction on the walk from its end: the last step is the declaration, or it
changes by one how far out the scope is.  So the distances that are found on the trail of a program
are those of the nearest declarations, and the table of an accepted program holds them and nothing
else (`Session.check_recorded`).
-/

namespace Lox

/-! ## Scopes that are open -/

namespace Trail

/-- Whether a walk leaves every scope that it opens and no other. -/
def Closed (trail : Trail) : Prop :=
  ∀ n, opened n trail = some n

theorem opened_append : ∀ (a b : Trail) (n : Nat),
    opened n (a ++ b) = (opened n a).bind fun k => opened k b
  | [], _, _ => rfl
  | .enter :: a, b, n => opened_append a b (n + 1)
  | .leave :: _, _, 0 => rfl
  | .leave :: a, b, n + 1 => opened_append a b n
  | .declare _ :: a, b, n | .refer _ _ :: a, b, n => by
    simp only [List.cons_append, opened, opened_append a b n]

namespace Closed

variable {a b : Trail}

theorem nil : Closed [] := fun _ => rfl

theorem append (ha : a.Closed) (hb : b.Closed) : Closed (a ++ b) := fun n => by
  rw [opened_append, ha]
  exact hb n

theorem declare (name : String) (h : a.Closed) : Closed (.declare name :: a) := fun n => by
  rw [opened]
  exact h n

theorem refer (id : NodeId) (name : String) (h : a.Closed) : Closed (.refer id name :: a) :=
  fun n => by
    rw [opened]
    exact h n

theorem scope (h : a.Closed) : Closed (.scope a) := fun n => by
  rw [Trail.scope, opened, opened_append, h]
  rfl

theorem ofNames : ∀ names : List Name, Closed (.ofNames names)
  | [] => nil
  | name :: names => (ofNames names).declare name.text

theorem ofClass (h : a.Closed) : ∀ superclass : Option Reference, Closed (.ofClass a superclass)
  | none => (h.declare thisName).scope
  | some superclass =>
    (((h.declare thisName).scope.declare superName).scope).refer superclass.id superclass.name.text

end Closed

end Trail

mutual

theorem Expr.closed_trail : ∀ e : Expr, e.trail.Closed
  | .literal _ => .nil
  | .group inner => Expr.closed_trail inner
  | .unary _ _ operand => Expr.closed_trail operand
  | .get object _ => Expr.closed_trail object
  | .binary left _ _ right | .logical left _ right | .set left _ right =>
    (Expr.closed_trail left).append (Expr.closed_trail right)
  | .var _ | .this _ | .super _ _ => .refer _ _ .nil
  | .assign _ value => (Expr.closed_trail value).append (.refer _ _ .nil)
  | .call callee _ args => (Expr.closed_trail callee).append (Expr.closed_allTrail args)

theorem Expr.closed_allTrail : ∀ es : List Expr, (Expr.allTrail es).Closed
  | [] => .nil
  | first :: others => (Expr.closed_trail first).append (Expr.closed_allTrail others)

end

theorem Expr.closed_trail? : ∀ e : Option Expr, (Expr.trail? e).Closed
  | some e => e.closed_trail
  | none => .nil

mutual

/-- **The trail of a statement** leaves every scope that it opens and no other. -/
theorem Stmt.closed_trail : ∀ s : Stmt, s.trail.Closed
  | .expr value | .print value => value.closed_trail
  | .var name initializer => (Expr.closed_trail? initializer).declare name.text
  | .block body => (Stmt.closed_allTrail body).scope
  | .ifElse condition thenBranch none => condition.closed_trail.append (Stmt.closed_trail thenBranch)
  | .ifElse condition thenBranch (some elseBranch) =>
    (condition.closed_trail.append (Stmt.closed_trail thenBranch)).append
      (Stmt.closed_trail elseBranch)
  | .whileDo condition body => condition.closed_trail.append (Stmt.closed_trail body)
  | .function declaration => (FunctionDecl.closed_trail declaration).declare declaration.name.text
  | .ret _ value => Expr.closed_trail? value
  | .classDecl name superclass methods =>
    ((FunctionDecl.closed_allTrail methods).ofClass superclass).declare name.text

theorem FunctionDecl.closed_trail : ∀ f : FunctionDecl, f.trail.Closed
  | ⟨_, params, body⟩ => ((Trail.Closed.ofNames params).append (Stmt.closed_allTrail body)).scope

theorem FunctionDecl.closed_allTrail : ∀ fs : List FunctionDecl, (FunctionDecl.allTrail fs).Closed
  | [] => .nil
  | method :: others =>
    (FunctionDecl.closed_trail method).append (FunctionDecl.closed_allTrail others)

theorem Stmt.closed_allTrail : ∀ ss : List Stmt, (Stmt.allTrail ss).Closed
  | [] => .nil
  | first :: others => (Stmt.closed_trail first).append (Stmt.closed_allTrail others)

end

/-! ## References -/

namespace Trail

theorem ids_append (a b : Trail) : ids (a ++ b) = ids a ++ ids b :=
  List.filterMap_append

theorem ids_scope (trail : Trail) : ids (.scope trail) = ids trail := by
  show ids (trail ++ [.leave]) = _
  rw [ids_append]
  exact List.append_nil _

theorem ids_ofNames : ∀ names : List Name, ids (.ofNames names) = []
  | [] => rfl
  | _ :: names => ids_ofNames names

theorem ids_ofClass (methods : Trail) : ∀ superclass : Option Reference,
    ids (.ofClass methods superclass) = (superclass.map Reference.id).toList ++ ids methods
  | none => ids_scope _
  | some superclass =>
    congrArg (superclass.id :: ·) ((ids_scope _).trans (ids_scope (.declare thisName :: methods)))

end Trail

open Trail in
mutual

theorem Expr.ids_trail : ∀ e : Expr, (ids e.trail).Perm e.references
  | .literal _ => .nil
  | .group inner => Expr.ids_trail inner
  | .unary _ _ operand => Expr.ids_trail operand
  | .get object _ => Expr.ids_trail object
  | .binary left _ _ right | .logical left _ right | .set left _ right => by
    rw [Expr.trail, ids_append]
    exact (Expr.ids_trail left).append (Expr.ids_trail right)
  | .var _ | .this _ | .super _ _ => .refl _
  | .assign target value => by
    rw [Expr.trail, ids_append]
    exact ((Expr.ids_trail value).append_right [target.id]).trans (List.perm_append_singleton _ _)
  | .call callee _ args => by
    rw [Expr.trail, ids_append]
    exact (Expr.ids_trail callee).append (Expr.ids_allTrail args)

theorem Expr.ids_allTrail : ∀ es : List Expr, (ids (Expr.allTrail es)).Perm (Expr.allReferences es)
  | [] => .nil
  | first :: others => by
    rw [Expr.allTrail, ids_append]
    exact (Expr.ids_trail first).append (Expr.ids_allTrail others)

end

theorem Expr.ids_trail? : ∀ e : Option Expr,
    (Trail.ids (Expr.trail? e)).Perm (Expr.references? e)
  | some e => e.ids_trail
  | none => .nil

open Trail in
mutual

/-- **The references of a statement** are those on its trail, each once. -/
theorem Stmt.ids_trail : ∀ s : Stmt, (ids s.trail).Perm s.references
  | .expr value | .print value => value.ids_trail
  | .var _ initializer => Expr.ids_trail? initializer
  | .block body => by
    rw [Stmt.trail, ids_scope]
    exact Stmt.ids_allTrail body
  | .ifElse condition thenBranch none => by
    rw [Stmt.trail, ids_append]
    exact condition.ids_trail.append (Stmt.ids_trail thenBranch)
  | .ifElse condition thenBranch (some elseBranch) => by
    rw [Stmt.trail, ids_append, ids_append]
    exact (condition.ids_trail.append (Stmt.ids_trail thenBranch)).append
      (Stmt.ids_trail elseBranch)
  | .whileDo condition body => by
    rw [Stmt.trail, ids_append]
    exact condition.ids_trail.append (Stmt.ids_trail body)
  | .function declaration => FunctionDecl.ids_trail declaration
  | .ret _ value => Expr.ids_trail? value
  | .classDecl _ superclass methods => by
    show (ids (.ofClass (FunctionDecl.allTrail methods) superclass)).Perm _
    rw [ids_ofClass]
    exact (FunctionDecl.ids_allTrail methods).append_left _

theorem FunctionDecl.ids_trail : ∀ f : FunctionDecl, (ids f.trail).Perm f.references
  | ⟨_, params, body⟩ => by
    rw [FunctionDecl.trail, ids_scope, ids_append, ids_ofNames]
    exact Stmt.ids_allTrail body

theorem FunctionDecl.ids_allTrail : ∀ fs : List FunctionDecl,
    (ids (FunctionDecl.allTrail fs)).Perm (FunctionDecl.allReferences fs)
  | [] => .nil
  | method :: others => by
    rw [FunctionDecl.allTrail, ids_append]
    exact (FunctionDecl.ids_trail method).append (FunctionDecl.ids_allTrail others)

theorem Stmt.ids_allTrail : ∀ ss : List Stmt,
    (ids (Stmt.allTrail ss)).Perm (Stmt.allReferences ss)
  | [] => .nil
  | first :: others => by
    rw [Stmt.allTrail, ids_append]
    exact (Stmt.ids_trail first).append (Stmt.ids_allTrail others)

end

/-! ## Distances along a trail -/

/-- Whether the scope that is so many scopes out binds a name. -/
def Ribs.Binds (ribs : Ribs) (name : String) (distance : Nat) : Prop :=
  ∃ rib : Rib, ribs[distance]? = some rib ∧ rib name = true

theorem Ribs.distance?_eq_some {ribs : Ribs} {name : String} {distance : Nat} :
    ribs.distance? name = some distance ↔
      ribs.Binds name distance ∧ ∀ nearer < distance, ¬ribs.Binds name nearer := by
  have hbinds : ∀ d, ribs.Binds name d ↔ ∃ h : d < ribs.length, ribs[d] name = true := by
    intro d
    unfold Ribs.Binds
    simp only [List.getElem?_eq_some_iff]
    constructor
    · rintro ⟨_, ⟨h, rfl⟩, hrib⟩
      exact ⟨h, hrib⟩
    · rintro ⟨h, hrib⟩
      exact ⟨_, ⟨h, rfl⟩, hrib⟩
  simp only [Ribs.distance?, List.findIdx?_eq_some_iff_getElem, hbinds]
  constructor
  · rintro ⟨h, hrib, hnearer⟩
    exact ⟨⟨h, hrib⟩, fun nearer hlt hbound => hbound.elim fun _ => hnearer nearer hlt⟩
  · rintro ⟨⟨h, hrib⟩, hnearer⟩
    exact ⟨h, hrib, fun nearer hlt hrib' => hnearer nearer hlt ⟨Nat.lt_trans hlt h, hrib'⟩⟩

theorem Ribs.length_along : ∀ (trail : Trail) (ribs : Ribs) {k : Nat},
    Trail.opened ribs.length trail = some k → (ribs.along trail).length = k
  | [], _, _, h => Option.some.inj h
  | .enter :: trail, ribs, _, h => length_along trail (.none :: ribs) h
  | .leave :: _, [], _, h => nomatch h
  | .leave :: trail, _ :: outer, _, h => length_along trail outer h
  | .declare _ :: trail, [], _, h => length_along trail [] h
  | .declare name :: trail, rib :: outer, _, h => length_along trail (rib.add name :: outer) h
  | .refer _ _ :: trail, ribs, _, h => by
    rw [Trail.opened] at h
    exact length_along trail ribs h

/-- **What a step does to what is bound**: it declares the name in the innermost scope, or it only
changes how far out the scope is. -/
theorem Ribs.binds_step (ribs : Ribs) (step : Trail.Step) (name : String) (distance : Nat) :
    (ribs.step step).Binds name distance ↔
      step = .declare name ∧ distance = 0 ∧ ribs ≠ [] ∨
        ∃ d, ribs.Binds name d ∧ Trail.opened d [step] = some distance := by
  cases step with
  | refer id other => simp [Ribs.step, Trail.opened]
  | leave =>
    have htail : Ribs.Binds ribs.tail name distance ↔ ribs.Binds name (distance + 1) := by
      unfold Ribs.Binds
      rw [List.getElem?_tail]
    simp only [Ribs.step, htail, reduceCtorEq, false_and, false_or]
    constructor
    · exact fun h => ⟨distance + 1, h, rfl⟩
    · rintro ⟨_ | d, h, hd⟩
      · cases hd
      · cases hd
        exact h
  | enter =>
    simp only [Ribs.step, Trail.opened, reduceCtorEq, false_and, false_or]
    constructor
    · rintro ⟨rib, hrib, hname⟩
      cases distance with
      | zero =>
        cases hrib
        cases hname
      | succ d => exact ⟨d, ⟨rib, hrib, hname⟩, rfl⟩
    · rintro ⟨d, ⟨rib, hrib, hname⟩, hd⟩
      cases hd
      exact ⟨rib, hrib, hname⟩
  | declare other =>
    have hopened : ∀ d, Trail.opened d [.declare other] = some distance ↔ d = distance := by
      intro d
      rw [Trail.opened, Trail.opened, Option.some.injEq]
    simp only [Ribs.step, hopened, exists_eq_right, Trail.Step.declare.injEq]
    cases ribs with
    | nil => simp [Ribs.extend, Ribs.Binds]
    | cons rib outer =>
      cases distance with
      | zero => simp [Ribs.extend, Ribs.Binds, Rib.add, eq_comm (a := other)]
      | succ d => simp [Ribs.extend, Ribs.Binds]

namespace Trail

/-- **What a step does to what is declared.** -/
theorem declares_concat (before : Trail) (step : Step) (name : String) (distance : Nat) :
    Declares (before ++ [step]) name distance ↔
      step = .declare name ∧ distance = 0 ∧ (∃ k, opened 0 before = some (k + 1)) ∨
        ∃ d, Declares before name d ∧ opened d [step] = some distance := by
  constructor
  · rintro ⟨earlier, since, outside, hbefore, houtside, hsince⟩
    rcases List.eq_nil_or_concat since with rfl | ⟨since, last, rfl⟩
    · obtain ⟨rfl, hstep⟩ := List.append_inj' hbefore rfl
      cases hstep
      cases hsince
      exact .inl ⟨rfl, rfl, outside, houtside⟩
    · rw [List.concat_eq_append, ← List.cons_append, ← List.append_assoc] at hbefore
      obtain ⟨rfl, hstep⟩ := List.append_inj' hbefore rfl
      cases hstep
      rw [List.concat_eq_append, opened_append] at hsince
      obtain ⟨d, hd, hlast⟩ := Option.bind_eq_some_iff.mp hsince
      exact .inr ⟨d, ⟨earlier, since, outside, rfl, houtside, hd⟩, hlast⟩
  · rintro (⟨rfl, rfl, k, hk⟩ | ⟨d, ⟨earlier, since, outside, rfl, houtside, hsince⟩, hd⟩)
    · exact ⟨before, [], k, rfl, hk, rfl⟩
    · refine ⟨earlier, since ++ [step], outside, by simp, houtside, ?_⟩
      rw [opened_append, hsince]
      exact hd

/-- **The scopes along a trail bind a name where it was declared**, by induction on the walk from its
end. -/
theorem declares_iff (before : Trail) (name : String) : ∀ {k : Nat}, opened 0 before = some k →
    ∀ distance, Declares before name distance ↔ (Ribs.along [] before).Binds name distance := by
  induction before using List.reverseRecOn with
  | nil => simp [Declares, Ribs.along, Ribs.Binds]
  | append_singleton before step ih =>
    intro k hk distance
    rw [opened_append] at hk
    obtain ⟨k', hk', -⟩ := Option.bind_eq_some_iff.mp hk
    have hlength : (Ribs.along [] before).length = k' := Ribs.length_along before [] hk'
    have hopen : (∃ k, opened 0 before = some (k + 1)) ↔ Ribs.along [] before ≠ [] := by
      rw [hk', ← List.length_pos_iff, hlength]
      constructor
      · rintro ⟨k, hk⟩
        cases hk
        exact Nat.succ_pos k
      · exact fun hpos => ⟨k' - 1, by rw [Nat.sub_add_cancel hpos]⟩
    have hstep : Ribs.along [] (before ++ [step]) = (Ribs.along [] before).step step :=
      Ribs.along_append [] before [step]
    rw [declares_concat, hstep, Ribs.binds_step, hopen]
    simp only [ih hk']

/-- The distance of a name in the scopes along a trail is that of its nearest declaration. -/
theorem nearest_iff {before : Trail} {k : Nat} (h : opened 0 before = some k) (name : String)
    (distance : Nat) :
    Nearest before name distance ↔ (Ribs.along [] before).distance? name = some distance := by
  simp only [Nearest, Ribs.distance?_eq_some, declares_iff before name h]

end Trail

/-! ## Tables -/

namespace Ribs

theorem mem_bound : ∀ (trail : Trail) (ribs : Ribs) {id : NodeId} {distance : Nat},
    (id, distance) ∈ ribs.bound trail → ∃ before name after,
      trail = before ++ .refer id name :: after ∧ (ribs.along before).distance? name = some distance
  | step :: trail, ribs, id, distance, h => by
    rcases List.mem_append.mp h with h | h
    · cases step with
      | refer other name =>
        obtain ⟨d, hd, hentry⟩ := Option.map_eq_some_iff.mp (Option.mem_toList.mp h)
        cases hentry
        exact ⟨[], name, trail, rfl, hd⟩
      | enter | leave | declare _ => cases h
    · obtain ⟨before, name, after, rfl, hd⟩ := mem_bound trail (ribs.step step) h
      exact ⟨step :: before, name, after, rfl, hd⟩

theorem keys_bound : ∀ (trail : Trail) (ribs : Ribs),
    ((ribs.bound trail).map Prod.fst).Sublist (Trail.ids trail)
  | [], _ => .slnil
  | .enter :: trail, ribs => keys_bound trail (ribs.step .enter)
  | .leave :: trail, ribs => keys_bound trail (ribs.step .leave)
  | .declare name :: trail, ribs => keys_bound trail (ribs.step (.declare name))
  | .refer id name :: trail, ribs => by
    have hothers := keys_bound trail ribs
    have hids : Trail.ids (.refer id name :: trail) = id :: Trail.ids trail := rfl
    have hbound : ribs.bound (.refer id name :: trail) =
        ((ribs.distance? name).map (Prod.mk id)).toList ++ ribs.bound trail := rfl
    rw [hids, hbound]
    cases ribs.distance? name with
    | none => exact hothers.cons id
    | some d => exact hothers.cons_cons id

/-- The entry of a reference is the distance of its name, if no other reference has its identity. -/
theorem get?_bound {ribs : Ribs} {before after : Trail} {id : NodeId} {name : String}
    (h : (Trail.ids (before ++ .refer id name :: after)).Nodup) :
    Distances.get? (ribs.bound (before ++ .refer id name :: after)) id =
      (ribs.along before).distance? name := by
  have hids : Trail.ids (before ++ .refer id name :: after) =
      Trail.ids before ++ id :: Trail.ids after := Trail.ids_append ..
  rw [hids] at h
  obtain ⟨-, hafter, hapart⟩ := List.nodup_append.mp h
  have hother : ∀ (trail : Trail) (ribs : Ribs), id ∉ Trail.ids trail →
      (ribs.bound trail).lookup id = none := by
    intro trail ribs hid
    refine List.lookup_eq_none_iff.mpr fun entry hentry => bne_iff_ne.mpr fun he => hid ?_
    exact (keys_bound trail ribs).subset (he ▸ List.mem_map_of_mem hentry)
  have hbefore : (ribs.bound before).lookup id = none :=
    hother before ribs fun hid => hapart id hid id List.mem_cons_self rfl
  have hbehind : ((ribs.along before).bound after).lookup id = none :=
    hother after _ (List.nodup_cons.mp hafter).1
  have hbound : (ribs.along before).bound (.refer id name :: after) =
      (((ribs.along before).distance? name).map (Prod.mk id)).toList ++
        (ribs.along before).bound after := rfl
  rw [Distances.get?, bound_append, List.lookup_append, hbefore, Option.none_or, hbound,
    List.lookup_append, hbehind, Option.or_none]
  cases (ribs.along before).distance? name with
  | none => rfl
  | some d => simp

end Ribs

/-- The distances along a trail are those of its nearest declarations. -/
theorem Trail.recorded_bound {trail : Trail} (hclosed : opened 0 trail = some 0)
    (hnodup : trail.ids.Nodup) : Recorded trail (Ribs.bound [] trail) := by
  have hopened : ∀ {before after : Trail}, trail = before ++ after →
      ∃ k, opened 0 before = some k := by
    rintro before after rfl
    rw [opened_append] at hclosed
    obtain ⟨k, hk, -⟩ := Option.bind_eq_some_iff.mp hclosed
    exact ⟨k, hk⟩
  have hnearest : ∀ before id name after, trail = before ++ .refer id name :: after →
      ∀ distance, Distances.get? (Ribs.bound [] trail) id = some distance ↔
        Nearest before name distance := by
    intro before id name after htrail distance
    obtain ⟨k, hk⟩ := hopened htrail
    rw [nearest_iff hk, htrail, Ribs.get?_bound (htrail ▸ hnodup)]
  refine ⟨hclosed, hnearest, fun before id name after htrail hout => ?_, fun id distance h => ?_,
    hnodup.sublist (Ribs.keys_bound trail [])⟩
  · refine Option.eq_none_iff_forall_ne_some.mpr fun d hd => ?_
    obtain ⟨⟨earlier, since, outside, hbefore, houtside, -⟩, -⟩ :=
      (hnearest before id name after htrail d).mp hd
    rw [hout earlier since hbefore] at houtside
    cases houtside
  · obtain ⟨before, name, after, htrail, hd⟩ := Ribs.mem_bound trail [] h
    obtain ⟨k, hk⟩ := hopened htrail
    exact ⟨before, name, after, htrail, (nearest_iff hk name distance).mpr hd⟩

/-- **The table of distances is exact.**  The references on the trail of an accepted program are all
references of the program, and its table holds for each the distance of the innermost scope around it
that has a declaration of its name before it, and nothing else. -/
theorem Session.check_recorded {text : List Char} {n n' : NodeId} {program : Program}
    {distances : Distances} (h : check text n = (.ok (program, distances), n')) :
    program.trail.ids.Perm (Stmt.allReferences program) ∧ program.trail.Recorded distances := by
  obtain ⟨htokens, -, hviolations, hdistances⟩ := check_eq_ok h
  have hids : program.trail.ids.Perm (Stmt.allReferences program) := Stmt.ids_allTrail program
  have hspans : Spans (Stmt.allReferences program) n n' :=
    (Grammar.derives_of_ofTokens htokens).numbered
  have hresolve : program.resolve = .ok distances :=
    Program.resolve_eq_ok.mpr ⟨hviolations, hdistances⟩
  have hbound : Ribs.bound [] program.trail = distances :=
    ((Stmt.allLeads program .none []).distances (Program.silent_findings hresolve)).trans
      hdistances.symm
  rw [← hbound]
  exact ⟨hids, Trail.recorded_bound (Stmt.closed_allTrail program 0)
    (hids.nodup_iff.mpr hspans.nodup)⟩

/-- A class of the outermost level, and a subclass of it in a block. -/
def subclassProgram : Program :=
  [.classDecl ⟨"A", 1⟩ none [],
    .block [.classDecl ⟨"B", 1⟩ (some ⟨0, ⟨"A", 1⟩⟩)
      [⟨⟨"m", 1⟩, [⟨"x", 1⟩],
        [.expr (.call (.super ⟨1, ⟨"super", 1⟩⟩ ⟨"m", 1⟩) 1
          [.this ⟨2, ⟨"this", 1⟩⟩, .var ⟨3, ⟨"x", 1⟩⟩])]⟩]]]

/-- The superclass is of the outermost level and has no entry. -/
theorem Session.check_recorded_subclass :
    check "class A {} { class B < A { m(x) { super.m(this, x); } } }".toList 0 =
        (.ok (subclassProgram, [(1, 2), (2, 1), (3, 0)]), 4) ∧
      subclassProgram.trail.ids.Perm (Stmt.allReferences subclassProgram) ∧
      subclassProgram.trail.Recorded [(1, 2), (2, 1), (3, 0)] := by
  have hcheck :
      check "class A {} { class B < A { m(x) { super.m(this, x); } } }".toList
        0 = (.ok (subclassProgram, [(1, 2), (2, 1), (3, 0)]), 4) := by with_unfolding_all rfl
  exact ⟨hcheck, check_recorded hcheck⟩

end Lox
