import Lox.Proofs.Renaming.Pairings
import Lox.Proofs.Renaming.Scopes

/-!
# Renaming a variable gives an alike program

If the references of a tree have their distances on record and no name of it is `y`, then the tree
with a variable `x` renamed to `y` is alike (`Stmt.alike_renamed`, `Program.alike_renamed`).
Functions and classes keep their names, so none of the scope may be called `x`; and none is
(`Stmt.AllResolved.object_ne`).

A program is alike itself: it is the program in which a variable keeps its name
(`Program.alike_self`).
-/

namespace Lox

/-- Whether no name is `y` already but for `x` itself. -/
def Clear (x y : String) (os : List Occurrence) : Prop :=
  ∀ o ∈ os, o.name.text = y → x = y

section
variable {x y : String}

theorem Clear.left {os os' : List Occurrence} (h : Clear x y (os ++ os')) : Clear x y os :=
  fun o ho => h o (List.mem_append_left _ ho)

theorem Clear.right {os os' : List Occurrence} (h : Clear x y (os ++ os')) : Clear x y os' :=
  fun o ho => h o (List.mem_append_right _ ho)

theorem Clear.head {o : Occurrence} {os : List Occurrence} (h : Clear x y (o :: os)) :
    o.name.text = y → x = y :=
  h o List.mem_cons_self

theorem Clear.tail {o : Occurrence} {os : List Occurrence} (h : Clear x y (o :: os)) :
    Clear x y os :=
  fun o ho => h o (List.mem_cons_of_mem _ ho)

end

/-! ## Expressions -/

section
variable {ρ : Renaming} {x y : String} {distances : Distances} {bound : NodeId} {aim : Aim}
  {pairing : Pairing} {own : Option (String × String)} {place : Place} {ownName : Option Name}

theorem Name.line_renamed {name : Name} : (name.renamed x y).line = name.line := by
  rw [Name.renamed]
  split <;> rfl

theorem Name.twins_renamedAt {name : Name} (hρ : ρ.Calls x y) (hplain : Plain name.text)
    (hname : name.text = y → x = y) : name.Twins ρ (name.renamedAt x y aim) := by
  refine ⟨(Name.renames_renamedAt hname).calls hρ hplain, ?_⟩
  rw [Name.renamedAt]
  split
  · exact Name.line_renamed
  · rfl

theorem Reference.twins_renamedAt {r : Reference} (hρ : ρ.Calls x y) (hplain : Plain r.name.text)
    (hr : r.name.text = y → x = y) : r.Twins ρ (r.renamedAt x y distances aim) := by
  refine ⟨?_, (Reference.renames_renamedAt distances aim hr).calls hρ hplain, ?_⟩
  · rw [Reference.renamedAt]
    split <;> rfl
  · rw [Reference.renamedAt]
    split
    · exact Name.line_renamed
    · rfl

theorem Reference.same_renamedAt {r : Reference} (hf : pairing.FollowsAt x y aim)
    (hr : r.name.text = y → x = y)
    (hdistance : distances.get? r.id = pairing.ribs.distance? r.name.text) :
    pairing.Same r.name.text (r.renamedAt x y distances aim).name.text := by
  refine hf.same ((Reference.renames_renamedAt distances aim hr).congr ?_)
  rw [hdistance]
  exact Aim.hits_iff

theorem Reference.alike_renamedAt {r : Reference} (hf : pairing.FollowsAt x y aim)
    (hown : ∀ pair ∈ own, Renames x y (aim.Hits (some 0)) pair.1 pair.2)
    (h : r.Resolved distances bound pairing.ribs) (hρ : ρ.Calls x y)
    (hr : r.name.text = y → x = y) : r.Alike ρ pairing own (r.renamedAt x y distances aim) where
  twins := Reference.twins_renamedAt hρ h.1 hr
  other pair hpair he := by
    have hpair := hown pair hpair
    rw [← he] at hpair
    exact (Reference.renames_renamedAt distances aim hr).injective hpair
  same := Reference.same_renamedAt hf hr h.2.2

/-- A reference that is assigned to is renamed as what it is bound to, which may be the variable
that is being initialized. -/
theorem Reference.alikeTarget_renamedAt {r : Reference} (hf : pairing.FollowsAt x y aim)
    (hown : ∀ pair ∈ own, Renames x y (aim.Hits (some 0)) pair.1 pair.2)
    (h : r.ResolvedTarget distances bound pairing.ribs (own.map Prod.fst)) (hρ : ρ.Calls x y)
    (hr : r.name.text = y → x = y) :
    r.AlikeTarget ρ pairing own (r.renamedAt x y distances aim) where
  twins := Reference.twins_renamedAt hρ h.1 hr
  own_iff pair hpair := by
    constructor
    · intro he
      have hpair := hown pair hpair
      rw [← he] at hpair
      exact (Reference.renames_renamedAt distances aim hr).injective hpair
    · intro he
      have hdistance := h.2.2
      rw [if_pos (Option.map_eq_some_iff.mpr ⟨pair, hpair, he.symm⟩)] at hdistance
      have hrenames := Reference.renames_renamedAt distances aim hr
      rw [hdistance, he] at hrenames
      exact hrenames.unique (hown pair hpair)
  same hother := by
    refine Reference.same_renamedAt hf hr ?_
    rw [h.2.2, if_neg]
    intro he
    obtain ⟨pair, hpair, hname⟩ := Option.map_eq_some_iff.mp he
    exact hother pair hpair hname.symm

mutual

/-- **An expression is renamed to an alike one.** -/
theorem Expr.alike_renamed (hf : pairing.FollowsAt x y aim)
    (hown : ∀ pair ∈ own, Renames x y (aim.Hits (some 0)) pair.1 pair.2) (hρ : ρ.Calls x y) :
    ∀ {e : Expr}, e.Resolved distances bound pairing.ribs (own.map Prod.fst) →
      Clear x y (e.occurrences place ownName) → e.Alike ρ pairing own (e.renamed x y distances aim)
  | .literal _, _, _ => .literal
  | .group _, h, hc => .group (Expr.alike_renamed hf hown hρ h hc)
  | .unary _ _ _, h, hc => .unary (Expr.alike_renamed hf hown hρ h hc)
  | .binary _ _ _ _, ⟨hl, hr⟩, hc =>
    .binary (Expr.alike_renamed hf hown hρ hl hc.left) (Expr.alike_renamed hf hown hρ hr hc.right)
  | .logical _ _ _, ⟨hl, hr⟩, hc =>
    .logical (Expr.alike_renamed hf hown hρ hl hc.left) (Expr.alike_renamed hf hown hρ hr hc.right)
  | .var _, h, hc => .var (Reference.alike_renamedAt hf hown h hρ hc.head)
  | .assign _ _, ⟨hv, ht⟩, hc =>
    .assign (Reference.alikeTarget_renamedAt hf hown ht hρ hc.right.head)
      (Expr.alike_renamed hf hown hρ hv hc.left)
  | .call _ _ _, ⟨hcallee, hargs⟩, hc =>
    .call (Expr.alike_renamed hf hown hρ hcallee hc.left)
      (Expr.allAlike_renamed hf hown hρ hargs hc.right)
  | .get _ _, h, hc => .get (Expr.alike_renamed hf hown hρ h hc)
  | .set _ _ _, ⟨ho, hv⟩, hc =>
    .set (Expr.alike_renamed hf hown hρ ho hc.left) (Expr.alike_renamed hf hown hρ hv hc.right)
  | .this _, h, _ => .this h.1
  | .super _ _, _, _ => .super

theorem Expr.allAlike_renamed (hf : pairing.FollowsAt x y aim)
    (hown : ∀ pair ∈ own, Renames x y (aim.Hits (some 0)) pair.1 pair.2) (hρ : ρ.Calls x y) :
    ∀ {es : List Expr}, Expr.AllResolved distances bound pairing.ribs (own.map Prod.fst) es →
      Clear x y (Expr.allOccurrences place ownName es) →
      Expr.AllAlike ρ pairing own es (Expr.allRenamed x y distances aim es)
  | [], _, _ => .nil
  | _ :: _, ⟨h, hothers⟩, hc =>
    .cons (Expr.alike_renamed hf hown hρ h hc.left)
      (Expr.allAlike_renamed hf hown hρ hothers hc.right)

end

theorem Expr.alike?_renamed (hf : pairing.FollowsAt x y aim)
    (hown : ∀ pair ∈ own, Renames x y (aim.Hits (some 0)) pair.1 pair.2) (hρ : ρ.Calls x y) :
    ∀ {e : Option Expr}, Expr.Resolved? distances bound pairing.ribs (own.map Prod.fst) e →
      Clear x y (Expr.occurrences? place ownName e) →
      Expr.Alike? ρ pairing own e (e.map (Expr.renamed x y distances aim))
  | none, _, _ => .none
  | some _, h, hc => .some (Expr.alike_renamed hf hown hρ h hc)

theorem Reference.alike?_renamed {cls : Name} (hf : pairing.FollowsAt x y aim) (hρ : ρ.Calls x y) :
    ∀ {r : Option Reference}, Reference.Resolved? distances bound pairing.ribs r →
      Clear x y (place.superclass cls r) →
      Reference.Alike? ρ pairing r (r.map (Reference.renamedAt x y distances aim))
  | none, _, _ => .none
  | some _, h, hc => .some (Reference.alike_renamedAt hf nofun h hρ hc.tail.head)

end

/-! ## Statements -/

theorem Renames.own_none {x y : String} {hit : Prop} :
    ∀ pair ∈ (none : Option (String × String)), Renames x y hit pair.1 pair.2 := nofun

theorem Renames.own {x y z z' : String} {hit : Prop} {pairing : Pairing}
    (h : Renames x y hit z z') : ∀ pair ∈ pairing.own z z', Renames x y hit pair.1 pair.2 := by
  cases pairing with
  | nil => exact nofun
  | cons scope outer =>
    rintro _ ⟨⟩
    exact h

theorem Ribs.Fresh.extend {ribs : Ribs} {name other : String} (h : ribs.Fresh other)
    (hne : other ≠ name) : (ribs.extend name).Fresh other := by
  cases ribs with
  | nil => exact h
  | cons rib outer =>
    rintro _ ⟨⟩
    have hrib : rib other = false := h rib rfl
    simp [Rib.add, hne, hrib]

/-- Whether the scope that is meant, if it is entered further on, has a variable or a parameter with
this name. -/
def Aim.Declares (x : String) (aim : Aim) (scopeAt : List Nat → Option LocalScope) : Prop :=
  ∀ path scope, aim = .ahead path → scopeAt path = some scope →
    ∃ name ∈ scope.variables, name.text = x

section
variable {ρ : Renaming} {x y : String} {distances : Distances} {bound : NodeId}

/-- Behind a statement that declares nothing there is what was declared before it. -/
theorem Stmt.Alike.behind_eq {ρ : Renaming} {pairing behind : Pairing} {s s' : Stmt}
    (h : s.Alike ρ pairing s' behind) (hs : s.declared? = none) : behind = pairing := by
  cases h with
  | var _ _ _ | function _ _ _ | classDecl _ _ _ _ => cases hs
  | _ => rfl

theorem Pairing.FollowsAt.declares {aim : Aim} (hρ : ρ.Calls x y) : ∀ {params : List Name}
    {pairing : Pairing} {place : Place}, pairing.FollowsAt x y aim →
      (∀ param ∈ params, Plain param.text) → (params.map Name.text).Nodup →
      (∀ param ∈ params, pairing.ribs.Fresh param.text) → Clear x y (place.parameters params) →
      ∃ inside, pairing.Declares ρ params (params.map (Name.renamedAt x y aim)) inside ∧
        inside.FollowsAt x y aim ∧ inside.ribs = pairing.ribs.extendAll params
  | [], pairing, _, hf, _, _, _, _ => ⟨pairing, .nil, hf, rfl⟩
  | param :: params, pairing, place, hf, hplain, hnodup, hfresh, hc => by
    have hrenames : Renames x y (aim.Hits (some 0)) param.text _ := Name.renames_renamedAt hc.head
    have hparam := hplain param List.mem_cons_self
    rw [List.map_cons, List.nodup_cons] at hnodup
    obtain ⟨inside, hdeclares, hf', hribs⟩ := Pairing.FollowsAt.declares hρ (hf.declare hrenames)
      (fun other hother => hplain other (List.mem_cons_of_mem _ hother)) hnodup.2
      (fun other hother => by
        rw [Pairing.ribs_declare]
        refine (hfresh other (List.mem_cons_of_mem _ hother)).extend fun he => hnodup.1 ?_
        exact he ▸ List.mem_map_of_mem hother) hc.tail
    refine ⟨inside, .cons (Name.twins_renamedAt hρ hparam hc.head)
      (hf.admits (hfresh param List.mem_cons_self) hrenames) hdeclares, hf', ?_⟩
    rw [hribs, Pairing.ribs_declare]
    rfl

mutual

/-- **A statement is renamed to an alike one.** -/
theorem Stmt.alike_renamed (hρ : ρ.Calls x y) : ∀ {s : Stmt} {pairing : Pairing} {aim : Aim}
    {place : Place}, pairing.FollowsAt x y aim → s.Resolved distances bound pairing.ribs →
      Clear x y (s.occurrences place) → aim.Declares x s.scopeAt →
      (aim.Hits (some 0) → ∀ name ∈ s.object?, name.text ≠ x) →
      ∃ behind, s.Alike ρ pairing (s.renamed x y distances aim) behind ∧
        behind.FollowsAt x y aim ∧ behind.ribs = s.behind pairing.ribs
  | .expr _, pairing, _, _, hf, h, hc, _, _ =>
    ⟨pairing, .expr (Expr.alike_renamed hf Renames.own_none hρ h hc), hf, rfl⟩
  | .print _, pairing, _, _, hf, h, hc, _, _ =>
    ⟨pairing, .print (Expr.alike_renamed hf Renames.own_none hρ h hc), hf, rfl⟩
  | .var name _, pairing, aim, _, hf, ⟨hplain, hfresh, h⟩, hc, _, _ => by
    have hrenames : Renames x y (aim.Hits (some 0)) name.text _ := Name.renames_renamedAt hc.head
    rw [← Pairing.map_own] at h
    exact ⟨_, .var (Name.twins_renamedAt hρ hplain hc.head) (hf.admits hfresh hrenames)
      (Expr.alike?_renamed hf hrenames.own hρ h hc.tail), hf.declare hrenames, Pairing.ribs_declare⟩
  | .block body, pairing, aim, _, hf, h, hc, hd, _ => by
    obtain ⟨behind, halike⟩ := Stmt.allAlike_renamed hρ hf.enter h hc
      (fun path scope haim hscope => by
        obtain ⟨haim', hne⟩ := Aim.eq_of_enter haim
        exact hd path scope haim' ((if_neg hne).trans hscope))
      fun hhit => @Stmt.AllResolved.object_ne _ _ _ [] _ _ h
        (hd [] ⟨[], body⟩ (Aim.hits_enter_zero.mp hhit) rfl)
    exact ⟨pairing, .block halike, hf, rfl⟩
  | .ifElse _ thenBranch none, pairing, aim, place, hf, ⟨hcondition, hnone, h⟩, hc, hd, _ => by
    obtain ⟨behind, halike, -, -⟩ := Stmt.alike_renamed hρ hf.first h hc.right
      (fun path scope haim hscope => hd (0 :: path) scope (Aim.eq_of_first haim) hscope)
      (fun _ => by rw [Stmt.object?_eq_none hnone]; exact nofun)
    cases halike.behind_eq hnone
    have hcondition := Expr.alike_renamed hf Renames.own_none hρ hcondition hc.left
    exact ⟨pairing, .ifThen hcondition halike, hf, rfl⟩
  | .ifElse _ thenBranch (some elseBranch), pairing, aim, place, hf,
      ⟨hcondition, hnone, hthen, hnone', helse⟩, hc, hd, _ => by
    obtain ⟨behind, halike, -, -⟩ := Stmt.alike_renamed hρ hf.first hthen hc.left.right
      (fun path scope haim hscope => hd (0 :: path) scope (Aim.eq_of_first haim) hscope)
      (fun _ => by rw [Stmt.object?_eq_none hnone]; exact nofun)
    obtain ⟨behind', halike', -, -⟩ := Stmt.alike_renamed hρ hf.others.first helse hc.right
      (fun path scope haim hscope => by
        obtain ⟨n, rest, hpath, haim'⟩ := Aim.eq_of_others (Aim.eq_of_first haim)
        cases hpath
        exact hd (1 :: path) scope haim' hscope)
      (fun _ => by rw [Stmt.object?_eq_none hnone']; exact nofun)
    cases halike.behind_eq hnone
    cases halike'.behind_eq hnone'
    have hcondition := Expr.alike_renamed hf Renames.own_none hρ hcondition hc.left.left
    exact ⟨pairing, .ifElse hcondition halike halike', hf, rfl⟩
  | .whileDo _ body, pairing, aim, place, hf, ⟨hcondition, hnone, h⟩, hc, hd, _ => by
    obtain ⟨behind, halike, -, -⟩ := Stmt.alike_renamed hρ hf h hc.right hd
      (fun _ => by rw [Stmt.object?_eq_none hnone]; exact nofun)
    cases halike.behind_eq hnone
    have hcondition := Expr.alike_renamed hf Renames.own_none hρ hcondition hc.left
    exact ⟨pairing, .whileDo hcondition halike, hf, rfl⟩
  | .function f, pairing, aim, place, hf, ⟨hplain, hfresh, h⟩, hc, hd, ho => by
    have hrenames : Renames x y (aim.Hits (some 0)) f.name.text f.name.text :=
      .of_ne (fun hhit => ho hhit f.name rfl) hc.head
    have hf' := hf.declare hrenames
    refine ⟨_, .function hplain (hf.admits hfresh hrenames) ?_, hf', Pairing.ribs_declare⟩
    rw [← Pairing.ribs_declare] at h
    exact FunctionDecl.alike_renamed hρ hf' h hc.tail hd
  | .ret _ _, pairing, _, _, hf, h, hc, _, _ =>
    ⟨pairing, .ret (Expr.alike?_renamed hf Renames.own_none hρ h hc.tail), hf, rfl⟩
  | .classDecl name superclass methods, pairing, aim, place, hf,
      ⟨hplain, hfresh, hsuperclass, hmethods⟩, hc, hd, ho => by
    have hrenames : Renames x y (aim.Hits (some 0)) name.text name.text :=
      .of_ne (fun hhit => ho hhit name rfl) hc.head
    have hf' := hf.declare hrenames
    rw [← Pairing.ribs_declare] at hsuperclass hmethods
    refine ⟨_, .classDecl hplain (hf.admits hfresh hrenames)
      (Reference.alike?_renamed hf' hρ hsuperclass hc.tail.left) ?_, hf', Pairing.ribs_declare⟩
    rw [← Pairing.ribs_enterClass] at hmethods
    have hinside := Pairing.FollowsAt.enterClass hf' hρ superclass
    exact FunctionDecl.allAlike_renamed hρ hinside hmethods hc.tail.right
      fun path scope haim hscope => hd path scope (Aim.eq_of_enterClass haim) hscope

/-- A function is renamed to an alike one, -/
theorem FunctionDecl.alike_renamed (hρ : ρ.Calls x y) : ∀ {f : FunctionDecl}
    {pairing : Pairing} {aim : Aim} {enclosure : Enclosure} {place : Place},
      pairing.FollowsAt x y aim → f.Resolved distances bound pairing.ribs →
      Clear x y (f.occurrences enclosure place) → aim.Declares x f.scopeAt →
      f.Alike ρ pairing (f.renamed x y distances aim)
  | ⟨name, params, body⟩, pairing, aim, enclosure, place, hf, ⟨hplain, hnodup, h⟩, hc, hd => by
    obtain ⟨inside, hparams, hf', hribs⟩ := Pairing.FollowsAt.declares hρ hf.enter hplain hnodup
      (fun _ _ _ hrib => by cases hrib; rfl) hc.left
    have ho : aim.enter.Hits (some 0) → ∀ s ∈ body, ∀ name ∈ s.object?, name.text ≠ x := fun hhit =>
      h.object_ne (hd [] ⟨params, body⟩ (Aim.hits_enter_zero.mp hhit) rfl)
    rw [← Pairing.ribs_enter, ← hribs] at h
    obtain ⟨behind, halike⟩ := Stmt.allAlike_renamed hρ hf' h hc.right
      (fun path scope haim hscope => by
        obtain ⟨haim', hne⟩ := Aim.eq_of_enter haim
        exact hd path scope haim' ((if_neg hne).trans hscope)) ho
    exact .mk hparams halike

/-- so are several functions, -/
theorem FunctionDecl.allAlike_renamed (hρ : ρ.Calls x y) : ∀ {fs : List FunctionDecl}
    {pairing : Pairing} {aim : Aim} {superclass : Option Reference} {place : Place},
      pairing.FollowsAt x y aim → FunctionDecl.AllResolved distances bound pairing.ribs fs →
      Clear x y (FunctionDecl.allOccurrences superclass place fs) →
      aim.Declares x (FunctionDecl.scopeAmong · fs) →
      FunctionDecl.AllAlike ρ pairing fs (FunctionDecl.allRenamed x y distances aim fs)
  | [], _, _, _, _, _, _, _, _ => .nil
  | f :: fs, pairing, aim, superclass, place, hf, ⟨h, hothers⟩, hc, hd => by
    refine .cons (FunctionDecl.alike_renamed hρ hf.first h hc.left fun path scope haim hscope =>
      hd (0 :: path) scope (Aim.eq_of_first haim) hscope)
      (FunctionDecl.allAlike_renamed hρ hf.others hothers hc.right fun path scope haim hscope => ?_)
    obtain ⟨n, rest, rfl, haim'⟩ := Aim.eq_of_others haim
    exact hd ((n + 1) :: rest) scope haim' hscope

/-- and so are several statements. -/
theorem Stmt.allAlike_renamed (hρ : ρ.Calls x y) : ∀ {ss : List Stmt} {pairing : Pairing}
    {aim : Aim} {place : Place}, pairing.FollowsAt x y aim →
      Stmt.AllResolved distances bound pairing.ribs ss → Clear x y (Stmt.allOccurrences place ss) →
      aim.Declares x (Stmt.scopeAmong · ss) →
      (aim.Hits (some 0) → ∀ s ∈ ss, ∀ name ∈ s.object?, name.text ≠ x) →
      ∃ behind, Stmt.AllAlike ρ pairing ss (Stmt.allRenamed x y distances aim ss) behind
  | [], pairing, _, _, _, _, _, _, _ => ⟨pairing, .nil⟩
  | s :: ss, pairing, aim, place, hf, ⟨h, hothers⟩, hc, hd, ho => by
    obtain ⟨between, halike, hf', hribs⟩ := Stmt.alike_renamed hρ hf.first h hc.left
      (fun path scope haim hscope => hd (0 :: path) scope (Aim.eq_of_first haim) hscope)
      fun hhit => ho (Aim.hits_first.mp hhit) s List.mem_cons_self
    rw [← hribs] at hothers
    have hf'' : between.FollowsAt x y aim.others :=
      Pairing.Follows.congr hf' fun _ => Aim.hits_first.trans Aim.hits_others.symm
    obtain ⟨behind, halike'⟩ := Stmt.allAlike_renamed hρ hf'' hothers hc.right
      (fun path scope haim hscope => by
        obtain ⟨n, rest, rfl, haim'⟩ := Aim.eq_of_others haim
        exact hd ((n + 1) :: rest) scope haim' hscope)
      fun hhit t ht => ho (Aim.hits_others.mp hhit) t (List.mem_cons_of_mem _ ht)
    exact ⟨behind, .cons halike halike'⟩

end

end

/-! ## A variable that keeps its name -/

section
variable {x : String} {distances : Distances}

theorem Name.renamed_self (name : Name) : name.renamed x x = name := by
  unfold Name.renamed
  split
  · next h => rw [← h]
  · rfl

theorem Name.renamedAt_self (aim : Aim) (name : Name) : name.renamedAt x x aim = name := by
  rw [Name.renamedAt, Name.renamed_self, ite_self]

theorem Reference.renamedAt_self (aim : Aim) (r : Reference) :
    r.renamedAt x x distances aim = r := by
  rw [Reference.renamedAt, Name.renamed_self, ite_self]

mutual

theorem Expr.renamed_self (aim : Aim) : ∀ e : Expr, e.renamed x x distances aim = e
  | .literal _ | .this _ | .super _ _ => rfl
  | .group inner => by rw [Expr.renamed, inner.renamed_self aim]
  | .unary _ _ operand => by rw [Expr.renamed, operand.renamed_self aim]
  | .binary left _ _ right | .logical left _ right => by
    rw [Expr.renamed, left.renamed_self aim, right.renamed_self aim]
  | .var r => by rw [Expr.renamed, r.renamedAt_self]
  | .assign target value => by rw [Expr.renamed, target.renamedAt_self, value.renamed_self aim]
  | .call callee _ args => by
    rw [Expr.renamed, callee.renamed_self aim, Expr.allRenamed_self aim args]
  | .get object _ => by rw [Expr.renamed, object.renamed_self aim]
  | .set object _ value => by
    rw [Expr.renamed, object.renamed_self aim, value.renamed_self aim]

theorem Expr.allRenamed_self (aim : Aim) :
    ∀ es : List Expr, Expr.allRenamed x x distances aim es = es
  | [] => rfl
  | e :: es => by rw [Expr.allRenamed, e.renamed_self aim, Expr.allRenamed_self aim es]

end

theorem Expr.map_renamed_self (aim : Aim) (e : Option Expr) :
    e.map (Expr.renamed x x distances aim) = e := by
  cases e with
  | none => rfl
  | some e => exact congrArg some (e.renamed_self aim)

mutual

theorem Stmt.renamed_self : ∀ (aim : Aim) (s : Stmt), s.renamed x x distances aim = s
  | aim, .expr value | aim, .print value => by rw [Stmt.renamed, value.renamed_self aim]
  | aim, .var name initializer => by
    rw [Stmt.renamed, name.renamedAt_self, Expr.map_renamed_self]
  | aim, .block body => by rw [Stmt.renamed, Stmt.allRenamed_self aim.enter body]
  | aim, .ifElse condition thenBranch none => by
    rw [Stmt.renamed, condition.renamed_self aim, thenBranch.renamed_self aim.first]
  | aim, .ifElse condition thenBranch (some elseBranch) => by
    rw [Stmt.renamed, condition.renamed_self aim, thenBranch.renamed_self aim.first,
      elseBranch.renamed_self aim.others.first]
  | aim, .whileDo condition body => by
    rw [Stmt.renamed, condition.renamed_self aim, body.renamed_self aim]
  | aim, .function f => by rw [Stmt.renamed, f.renamed_self aim]
  | aim, .ret _ value => by rw [Stmt.renamed, Expr.map_renamed_self]
  | aim, .classDecl _ superclass methods => by
    have hsuperclass : superclass.map (Reference.renamedAt x x distances aim) = superclass := by
      cases superclass with
      | none => rfl
      | some r => exact congrArg some (r.renamedAt_self aim)
    rw [Stmt.renamed, hsuperclass, FunctionDecl.allRenamed_self (aim.enterClass superclass) methods]

theorem FunctionDecl.renamed_self : ∀ (aim : Aim) (f : FunctionDecl),
    f.renamed x x distances aim = f
  | aim, ⟨_, params, body⟩ => by
    rw [FunctionDecl.renamed, Stmt.allRenamed_self aim.enter body,
      List.map_congr_left (fun param _ => param.renamedAt_self aim.enter), List.map_id']

theorem FunctionDecl.allRenamed_self : ∀ (aim : Aim) (fs : List FunctionDecl),
    FunctionDecl.allRenamed x x distances aim fs = fs
  | _, [] => rfl
  | aim, f :: fs => by
    rw [FunctionDecl.allRenamed, f.renamed_self aim.first,
      FunctionDecl.allRenamed_self aim.others fs]

theorem Stmt.allRenamed_self : ∀ (aim : Aim) (ss : List Stmt),
    Stmt.allRenamed x x distances aim ss = ss
  | _, [] => rfl
  | aim, s :: ss => by
    rw [Stmt.allRenamed, s.renamed_self aim.first, Stmt.allRenamed_self aim.others ss]

end

end

/-! ## Programs -/

section
variable {ρ : Renaming} {x y : String} {distances : Distances} {bound : NodeId} {program : Program}

/-- **A program with a variable renamed is alike** if no name of it is the new one. -/
theorem Program.alike_renamed {path : List Nat} (hρ : ρ.Calls x y)
    (h : Stmt.AllResolved distances bound [] program) (hc : Clear x y program.occurrences)
    (hx : ∀ scope, Stmt.scopeAmong path program = some scope →
      ∃ name ∈ scope.variables, name.text = x) :
    program.Alike ρ (program.renamed distances path x y) := by
  have hf : Pairing.FollowsAt [] x y (.ahead path) := ⟨nofun, nofun⟩
  obtain ⟨behind, halike⟩ := Stmt.allAlike_renamed hρ hf h hc
    (fun _ scope haim hscope => by
      cases haim
      exact hx scope hscope) nofun
  cases halike.behind_nil
  exact halike

/-- **A program is alike itself.** -/
theorem Program.alike_self (ρ : Renaming) (h : Stmt.AllResolved distances bound [] program) :
    program.Alike ρ program := by
  have hplain : Plain "" := ⟨by decide, by decide⟩
  have hnone : Stmt.scopeAmong [] program = none := by cases program <;> rfl
  have halike : program.Alike ρ (program.renamed distances [] "" "") :=
    Program.alike_renamed ⟨hplain, hplain, .inl rfl⟩ h (fun _ _ _ => rfl)
      fun scope hscope => by
        rw [hnone] at hscope
        cases hscope
  rwa [Program.renamed, Stmt.allRenamed_self] at halike

end

end Lox
