import Lox.Proofs.Lexical.Sessions
import Lox.Proofs.Renaming.Findings
import Lox.Proofs.Renaming.Runs
import Lox.Proofs.Renaming.Texts
import Lox.Proofs.Renaming.Variables

/-!
# Local names do not matter

A local variable of an accepted program is renamed, together with the uses that are bound to it, to
a name that the program does not have.  Then the program is still accepted, with the same distances,
and in any session it comes to the same and leaves the same behind but for the name
(`Session.run_renamed`).

What relates the two runs are lexically scoped ones.  The machine agrees with a lexically scoped run
of the same program (`Lexical.Agrees.run`), where the maps of a function lead each name to a
location, so a name is a matter of the tree alone, and alike programs run alike.
-/

namespace Lox

/-- Whether two machines differ only in local names: output, outermost variables, classes and
instances are the same, and functions with one identity are alike. -/
structure Machine.Alike (ρ : Renaming) (m m' : Machine) : Prop where
  output : m'.sink = m.sink
  globals : m'.heap.frames.frame? m'.globals = m.heap.frames.frame? m.globals
  classes : m'.heap.classes = m.heap.classes
  instances : m'.heap.instances = m.heap.instances
  functions : ∀ i : Nat, Option.Rel
    (fun f f' => ∃ pairing : Pairing, f.declaration.Alike ρ pairing f'.declaration)
    m.heap.functions[i]? m'.heap.functions[i]?

/-- **Whether two sessions differ only in local names**, and always will.  Behind any texts the
machines differ only in local names, and what is run next comes to the same, unless the machine
fails by itself. -/
structure Session.Alike (ρ : Renaming) (session session' : Session) : Prop where
  machines : ∀ texts, Machine.Alike ρ (session.after texts).machine (session'.after texts).machine
  outcomes : ∀ texts fuel text, ¬((session.after texts).run fuel text).1.IsInternal →
    ((session'.after texts).run fuel text).1 = ((session.after texts).run fuel text).1

theorem Session.allResolved_of_check {text : List Char} {n n' : NodeId} {program : Program}
    {distances : Distances} (h : check text n = (.ok (program, distances), n')) :
    Stmt.AllResolved distances n' [] program := by
  have hnone : ∀ id : Nat, n ≤ id → Distances.get? [] id = none := fun _ _ => rfl
  obtain ⟨hresolved, -⟩ := resolved_of_check h hnone
  have hmerge : Distances.merge [] distances = distances := List.append_nil _
  rwa [hmerge] at hresolved

namespace Lexical

variable {ρ : Renaming}

/-! ## Contents -/

theorem SameContents.functions {m m' : Machine} {s s' : State} (h : SameContents m s)
    (h' : SameContents m' s') (hs : s.Alike ρ s') (i : Nat) : Option.Rel
      (fun f f' => ∃ pairing : Pairing, f.declaration.Alike ρ pairing f'.declaration)
      m.heap.functions[i]? m'.heap.functions[i]? := by
  have hdeclaration := h.declarations i
  have hdeclaration' := h'.declarations i
  by_cases hi : i < s.functions.length
  · have hi' : i < s'.functions.length := hs.functions.length_eq ▸ hi
    obtain ⟨pairing, halike, -⟩ := (hs.functions.get hi hi').alike
    rw [List.getElem?_eq_getElem hi] at hdeclaration
    rw [List.getElem?_eq_getElem hi'] at hdeclaration'
    obtain ⟨f, hf, hfd⟩ := Option.map_eq_some_iff.mp hdeclaration
    obtain ⟨f', hf', hfd'⟩ := Option.map_eq_some_iff.mp hdeclaration'
    rw [hf, hf']
    refine .some ⟨pairing, ?_⟩
    rw [hfd, hfd']
    exact halike
  · have hi' : ¬i < s'.functions.length := hs.functions.length_eq ▸ hi
    rw [List.getElem?_eq_none (Nat.not_lt.mp hi)] at hdeclaration
    rw [List.getElem?_eq_none (Nat.not_lt.mp hi')] at hdeclaration'
    rw [Option.map_eq_none_iff.mp hdeclaration, Option.map_eq_none_iff.mp hdeclaration']
    exact .none

/-- Machines differ only in local names if lexically scoped states with the same contents do. -/
theorem SameContents.alike {m m' : Machine} {s s' : State} (h : SameContents m s)
    (h' : SameContents m' s') (hs : s.Alike ρ s') : Machine.Alike ρ m m' where
  output := by rw [h.output, h'.output, hs.sink]
  globals := by rw [h.globals, h'.globals, hs.globals]
  classes := by rw [h.classes, h'.classes, hs.classes]
  instances := by rw [h.instances, h'.instances, hs.instances]
  functions := h.functions h' hs

/-! ## Outcomes -/

/-- Whether two strict runs come to the same. -/
def SameOutcome : Except String Outcome → Except String Outcome → Prop
  | .ok outcome, .ok outcome' => outcome' = outcome
  | .error _, .error _ => True
  | _, _ => False

theorem Corresponds.eq {outcome outcome' : Outcome} {strict strict' : Except String Outcome}
    (h : Corresponds outcome strict) (h' : Corresponds outcome' strict')
    (hsame : SameOutcome strict strict') (hinternal : ¬outcome.IsInternal) :
    outcome' = outcome := by
  cases strict with
  | ok result =>
    cases strict' with
    | ok result' => rw [h.1, h'.1, hsame]
    | error _ => cases hsame
  | error x => exact absurd ⟨_, h⟩ hinternal

theorem Together.outcomeOf {s s' : State} {x y : Run Unit} (h : Together ρ s s' x y Equal) :
    SameOutcome (Session.outcomeOf (x s)).1 (Session.outcomeOf (y s')).1 ∧
      (Session.outcomeOf (x s)).2.Alike ρ (Session.outcomeOf (y s')).2 := by
  obtain ⟨s₁, s₁', hs₁, ⟨_, _, hx, hy, -⟩ | ⟨e, e', hx, hy, he⟩⟩ := h
  · rw [hx, hy]
    exact ⟨rfl, hs₁⟩
  · rw [hx, hy]
    cases e with
    | fault f =>
      cases e' with
      | fault f' =>
        cases he
        exact ⟨rfl, hs₁⟩
      | _ => cases he
    | ownAssignment name =>
      cases e' with
      | ownAssignment name' => exact ⟨trivial, hs₁⟩
      | _ => cases he
    | outOfFuel =>
      cases e' with
      | outOfFuel => exact ⟨rfl, hs₁⟩
      | _ => cases he

/-! ## Lexically scoped sessions -/

/-- Whether two lexically scoped sessions differ only in local names. -/
structure Session.Alike (ρ : Renaming) (r r' : Session) : Prop where
  state : r.state.Alike ρ r'.state
  nextId : r'.nextId = r.nextId

section
variable {r r' : Session}

/-- **Texts of alike programs keep sessions alike**, and come to the same. -/
theorem Session.Alike.run_alike (h : r.Alike ρ r') (fuel : Nat) {text text' : List Char}
    {program program' : Program} {distances distances' : Distances} {n' : NodeId}
    (hcheck : Lox.Session.check text r.nextId = (.ok (program, distances), n'))
    (hcheck' : Lox.Session.check text' r'.nextId = (.ok (program', distances'), n'))
    (halike : program.Alike ρ program') :
    SameOutcome (r.run true fuel text).1 (r'.run true fuel text').1 ∧
      (r.run true fuel text).2.Alike ρ (r'.run true fuel text').2 := by
  obtain ⟨hsame, hs⟩ := (together_interpret fuel h.state halike).outcomeOf
  simp only [Session.run, hcheck, hcheck']
  exact ⟨hsame, hs, rfl⟩

/-- **A text keeps sessions alike**, and comes to the same. -/
theorem Session.Alike.run (h : r.Alike ρ r') (fuel : Nat) (text : List Char) :
    SameOutcome (r.run true fuel text).1 (r'.run true fuel text).1 ∧
      (r.run true fuel text).2.Alike ρ (r'.run true fuel text).2 := by
  cases hcheck : Lox.Session.check text r.nextId with
  | mk result n' =>
    have hcheck' := hcheck
    rw [← h.nextId] at hcheck'
    cases result with
    | error faults =>
      simp only [Session.run, hcheck, hcheck']
      exact ⟨rfl, h.state, rfl⟩
    | ok accepted =>
      have hself := Program.alike_self ρ (Lox.Session.allResolved_of_check hcheck)
      exact h.run_alike fuel hcheck hcheck' hself

end

/-! ## Sessions of the machine -/

/-- Whether two sessions agree with lexically scoped ones that differ only in local names. -/
def Twins (ρ : Renaming) (m m' : Lox.Session) : Prop :=
  ∃ r r' : Session, Agrees m r ∧ Agrees m' r' ∧ r.Alike ρ r'

section
variable {m m' : Lox.Session}

theorem Agrees.nextId_eq {r : Session} (h : Agrees m r) : r.nextId = m.nextId := by
  obtain ⟨_, _, _, _, _, hnext, _⟩ := h
  exact hnext

theorem Twins.machine (h : Twins ρ m m') : Machine.Alike ρ m.machine m'.machine := by
  obtain ⟨r, r', hr, hr', h⟩ := h
  exact hr.sameContents.alike hr'.sameContents h.state

theorem Twins.run_alike (h : Twins ρ m m') (fuel : Nat) {text text' : List Char}
    {program program' : Program} {distances distances' : Distances} {n' : NodeId}
    (hcheck : Session.check text m.nextId = (.ok (program, distances), n'))
    (hcheck' : Session.check text' m'.nextId = (.ok (program', distances'), n'))
    (halike : program.Alike ρ program') :
    (¬(m.run fuel text).1.IsInternal → (m'.run fuel text').1 = (m.run fuel text).1) ∧
      Twins ρ (m.run fuel text).2 (m'.run fuel text').2 := by
  obtain ⟨r, r', hr, hr', h⟩ := h
  obtain ⟨hagrees, hcorresponds⟩ := hr.run fuel text
  obtain ⟨hagrees', hcorresponds'⟩ := hr'.run fuel text'
  rw [← hr.nextId_eq] at hcheck
  rw [← hr'.nextId_eq] at hcheck'
  obtain ⟨hsame, h₁⟩ := h.run_alike fuel hcheck hcheck' halike
  exact ⟨hcorresponds.eq hcorresponds' hsame, _, _, hagrees, hagrees', h₁⟩

theorem Twins.run (h : Twins ρ m m') (fuel : Nat) (text : List Char) :
    (¬(m.run fuel text).1.IsInternal → (m'.run fuel text).1 = (m.run fuel text).1) ∧
      Twins ρ (m.run fuel text).2 (m'.run fuel text).2 := by
  obtain ⟨r, r', hr, hr', h⟩ := h
  obtain ⟨hagrees, hcorresponds⟩ := hr.run fuel text
  obtain ⟨hagrees', hcorresponds'⟩ := hr'.run fuel text
  obtain ⟨hsame, h₁⟩ := h.run fuel text
  exact ⟨hcorresponds.eq hcorresponds' hsame, _, _, hagrees, hagrees', h₁⟩

theorem Twins.after {m m' : Lox.Session} (h : Twins ρ m m') :
    ∀ texts : List (Nat × List Char), Twins ρ (m.after texts) (m'.after texts)
  | [] => h
  | (fuel, text) :: texts => Twins.after (h.run fuel text).2 texts

theorem Twins.alike (h : Twins ρ m m') : Lox.Session.Alike ρ m m' where
  machines texts := (h.after texts).machine
  outcomes texts fuel text := ((h.after texts).run fuel text).1

end

theorem twins_initial (ρ : Renaming) (sink : Sink) (clock : Clock) :
    Twins ρ (.initial sink clock) (.initial sink clock) :=
  ⟨_, _, agrees_initial sink clock, agrees_initial sink clock, .initial ρ sink clock, rfl⟩

end Lexical

/-! ## Renamed programs -/

/-- The program of an accepted text is alike the one with a local variable renamed to a new name. -/
theorem Session.alike_renamed {text : List Char} {n n' : NodeId} {program : Program}
    {distances : Distances} {path : List Nat} {scope : LocalScope} {name : Name} {y : String}
    (hcheck : check text n = (.ok (program, distances), n'))
    (hscope : Stmt.scopeAmong path program = some scope) (hname : name ∈ scope.variables)
    (hy : Identifier y) (hnew : ∀ o ∈ program.occurrences, o.name.text ≠ y) :
    program.Alike ⟨name.text, y⟩ (program.renamed distances path name.text y) := by
  have hresolved := allResolved_of_check hcheck
  have hplain := hresolved.plain_scopeAmong hscope name hname
  refine Program.alike_renamed ⟨hplain, hy.plain, .inr ⟨rfl, rfl⟩⟩ hresolved
    (fun o ho he => absurd he (hnew o ho)) fun scope' hscope' => ?_
  cases hscope.symm.trans hscope'
  exact ⟨name, hname, rfl⟩

theorem Session.check_of_resolve {text : List Char} {n n' : NodeId} {program : Program}
    {distances : Distances} (h : programOf text n = (.ok program, n'))
    (hresolve : program.resolve = .ok distances) :
    check text n = (.ok (program, distances), n') := by
  rw [check, h]
  simp only [hresolve, Except.map]

/-- **Local names do not matter.**  A text is accepted in a session.  In its program a local
variable or a parameter is renamed, with all uses that are bound to it, to an identifier that occurs
nowhere in it.  The renamed program is spelled by a text; and any text that spells it is accepted
with the same distances.  Run in the same session, it comes to the same, unless the machine fails by
itself, with the same output and the same outermost variables.  What both leave behind differs only
in local names of functions, whatever is run next. -/
theorem Session.run_renamed (sink : Sink) (clock : Clock) (texts : List (Nat × List Char))
    (text : List Char) (program : Program) (distances : Distances) (n' : NodeId) (path : List Nat)
    (scope : LocalScope) (name : Name) (y : String)
    (hcheck : check text ((initial sink clock).after texts).nextId = (.ok (program, distances), n'))
    (hscope : Stmt.scopeAmong path program = some scope) (hname : name ∈ scope.variables)
    (hy : Identifier y) (hnew : ∀ o ∈ program.occurrences, o.name.text ≠ y) :
    let session := (initial sink clock).after texts
    let renamed := program.renamed distances path name.text y
    (∃ text', programOf text' session.nextId = (.ok renamed, n')) ∧
      ∀ text', programOf text' session.nextId = (.ok renamed, n') →
        check text' session.nextId = (.ok (renamed, distances), n') ∧
          ∀ fuel,
            let run := session.run fuel text
            let run' := session.run fuel text'
            (¬run.1.IsInternal → run'.1 = run.1) ∧ Session.Alike ⟨name.text, y⟩ run.2 run'.2 := by
  intro session renamed
  have halike : program.Alike ⟨name.text, y⟩ renamed := alike_renamed hcheck hscope hname hy hnew
  have hresolve : program.resolve = .ok distances :=
    Program.resolve_eq_ok.mpr (check_eq_ok hcheck).2.2
  refine ⟨exists_text hy hcheck halike, fun text' htext' => ?_⟩
  have hcheck' := check_of_resolve htext' (halike.resolve_eq hresolve)
  refine ⟨hcheck', fun fuel => ?_⟩
  have htwins : Lexical.Twins ⟨name.text, y⟩ session session :=
    (Lexical.twins_initial ⟨name.text, y⟩ sink clock).after texts
  obtain ⟨houtcome, htwins'⟩ := htwins.run_alike fuel hcheck hcheck' halike
  exact ⟨houtcome, htwins'.alike⟩

/-- A closure that prints a local variable with this name. -/
def closureProgram (x : String) : Program :=
  [.block [.var ⟨x, 1⟩ (some (.literal (.string "local"))),
    .function ⟨⟨"show", 1⟩, [], [.print (.var ⟨0, ⟨x, 1⟩⟩)]⟩,
    .expr (.call (.var ⟨1, ⟨"show", 1⟩⟩) 1 [])]]

/-- The new name may be that of an outermost variable of the session. -/
theorem Session.run_renamed_closure :
    let session := (initial .unbounded (.constant 0)).after [(9, "var b = \"outer\";".toList)]
    let text := "\x7b var a = \"local\"; fun show() \x7b print a; \x7d show(); \x7d".toList
    let text' := "\x7b var b = \"local\"; fun show() \x7b print b; \x7d show(); \x7d".toList
    check text session.nextId = (.ok (closureProgram "a", [(0, 1), (1, 0)]), 2) ∧
      check text' session.nextId = (.ok (closureProgram "b", [(0, 1), (1, 0)]), 2) ∧
      (session.run 9 text').1 = (session.run 9 text).1 ∧
      Session.Alike ⟨"a", "b"⟩ (session.run 9 text).2 (session.run 9 text').2 := by
  have hchecked :
      check "\x7b var a = \"local\"; fun show() \x7b print a; \x7d show(); \x7d".toList 0 =
        (.ok (closureProgram "a", [(0, 1), (1, 0)]), 2) := by with_unfolding_all rfl
  have hspelled :
      programOf "\x7b var b = \"local\"; fun show() \x7b print b; \x7d show(); \x7d".toList 0 =
        (.ok (closureProgram "b"), 2) := by with_unfolding_all rfl
  intro session text text'
  have hnext : session.nextId = 0 := by decide +kernel
  have hcheck : check text session.nextId = (.ok (closureProgram "a", [(0, 1), (1, 0)]), 2) := by
    rw [hnext]
    exact hchecked
  have hspells : programOf text' session.nextId = (.ok (closureProgram "b"), 2) := by
    rw [hnext]
    exact hspelled
  have hscope : Stmt.scopeAmong [0] (closureProgram "a") = some ⟨[], _⟩ := rfl
  have hnew : ∀ o ∈ Program.occurrences (closureProgram "a"), o.name.text ≠ "b" := by decide +kernel
  have h := run_renamed .unbounded (.constant 0) [(9, "var b = \"outer\";".toList)] text
    (closureProgram "a")
    [(0, 1), (1, 0)] 2 [0] _ ⟨"a", 1⟩ "b" hcheck hscope List.mem_cons_self
    ⟨.word (.inl rfl) nofun, fun k => by cases k <;> decide⟩ hnew
  obtain ⟨hcheck', hruns⟩ := h.2 text' hspells
  obtain ⟨houtcome, halike⟩ := hruns 9
  exact ⟨hcheck, hcheck', houtcome (by decide +kernel), halike⟩

end Lox
