import Lox.Proofs.Sessions
import Lox.Proofs.Joining.Checks
import Lox.Proofs.Joining.Programs

/-!
# Running a text at once is running it in pieces

A text that joins two texts by a newline does what the two texts do one after the other
(`Session.run_append`).  If the first stops, the joined text stops with it, in the same state; only
the table of distances knows the second text too.  Else the joined text goes on as the second does,
on later lines.

A session is *tidy* if its functions refer only to identities that were given out and its sink can be
flushed; every run leaves a tidy session behind (`Session.Tidy.run`).
-/

namespace Lox

open Joining Machine

/-! ## Tidy sessions -/

theorem FunctionDecl.From.mono {o o' : Origin} {f : FunctionDecl} (h : f.From o)
    (hid : ∀ id, o.id id → o'.id id) (hline : ∀ line, o.line line → o'.line line)
    (hfunction : ∀ g, o.function g → o'.function g) : f.From o' := by
  rw [FunctionDecl.from_iff] at h ⊢
  exact ⟨fun id hmem => hid id (h.1 id hmem), fun line hmem => hline line (h.2.1 line hmem),
    fun g hmem => hfunction g (h.2.2 g hmem)⟩

namespace Session

/-- No function is marked as new. -/
def oldMarks (m : Machine) : List Bool :=
  List.replicate m.heap.functions.size false

/-- All code below a bound, whether old or new. -/
def settingBelow (distances : Distances) (bound : NodeId) : Setting :=
  ⟨distances, fun _ => .below bound, false⟩

/-- Whether all functions of a session refer to identities that were given out, and its sink can be
flushed. -/
def Tidy (session : Session) : Prop :=
  Fits (settingBelow session.machine.distances session.nextId) session.machine
    (oldMarks session.machine)

theorem tidy_initial {sink : Sink} (h : sink.flushFails = false) (clock : Clock) :
    (initial sink clock).Tidy :=
  ⟨⟨rfl, fun i f hf => by simp [initial, Machine.initial, Heap.newFrame, Heap.empty] at hf,
    fun i c hc => by simp [initial, Machine.initial, Heap.newFrame, Heap.empty] at hc⟩, rfl, h⟩

theorem fits_below {m : Machine} {table distances : Distances} {bound bound' : NodeId}
    {marks : List Bool} (h : Fits (settingBelow table bound) m marks) (hle : bound ≤ bound') :
    Fits (settingBelow distances bound') { m with distances } (oldMarks m) := by
  refine ⟨⟨List.length_replicate, fun i f hf => ?_, h.held.methods⟩, rfl, h.flushes⟩
  exact (h.held.known i f hf).mono (fun id hid => Nat.lt_of_lt_of_le hid hle) (fun _ h => h)
    fun _ h => h

/-- **Every run leaves a tidy session** behind. -/
theorem Tidy.run {session : Session} (h : session.Tidy) (fuel : Nat) (text : List Char) :
    (session.run fuel text).2.Tidy := by
  cases hcheck : check text session.nextId with
  | mk result n' =>
    have hle := le_nextId_check text session.nextId
    rw [hcheck] at hle
    cases result with
    | error faults =>
      rw [run_of_error hcheck]
      exact fits_below h hle
    | ok accepted =>
      obtain ⟨program, distances⟩ := accepted
      let σ : Setting := settingBelow (session.machine.distances.merge distances) n'
      have hfrom : Stmt.AllFrom (σ.origin false) program :=
        (within_of_check hcheck).below (Nat.le_refl n')
      have hfits : Fits σ _ _ := fits_below h hle
      obtain ⟨m', marks', hfits', -, hends⟩ := program_follows fuel hfrom hfits
      have hmachine : (outcomeOf (interpret fuel program distances session.machine)).2 = m' := by
        rw [interpret_eq]
        rcases hends with ⟨_, hx, -⟩ | ⟨stop, _, hx, -⟩
        · rw [hx]
          rfl
        · rw [hx]
          cases stop <;> rfl
      rw [run_of_ok hcheck, hmachine]
      exact fits_below hfits' (Nat.le_refl n')

theorem Tidy.after {session : Session} (h : session.Tidy) :
    ∀ texts : List (Nat × List Char), (session.after texts).Tidy
  | [] => h
  | (fuel, text) :: texts => Tidy.after (h.run fuel text) texts

end Session

/-! ## What comes from a text -/

/-- What a text may mention whose program this is. -/
def Origin.text (program : Program) (bound : NodeId) : Origin :=
  ⟨(· < bound), (· ∈ Stmt.allLines program), (· ∈ Stmt.allFunctions program)⟩

/-- What the functions of a heap may mention. -/
def Origin.heap (heap : Heap) (bound : NodeId) : Origin where
  id := (· < bound)
  line line := ∃ f ∈ heap.functions, line ∈ f.declaration.lines
  function g := ∃ f ∈ heap.functions, g ∈ f.declaration.functions

/-- Where the code comes from that runs with a text: from the session before it (`false`), or from
the text (`true`). -/
def Session.origin (before : Session) (program : Program) (bound : NodeId) : Bool → Origin
  | false => .heap before.machine.heap before.nextId
  | true => .text program bound

/-- How a run ends: well, or with a stop that is reported from a line of new code or of old. -/
abbrev Ending := Option (Stop × Bool)

instance (outcome : Outcome) : Decidable (outcome = .ok) :=
  match outcome with
  | .ok => .isTrue rfl
  | .failed _ | .outOfFuel => .isFalse nofun

/-- What a run comes to that ends so, if new code stands so many lines later. -/
def Ending.outcome (lines : Nat) : Ending → Outcome
  | none => .ok
  | some (.fault f, new) => .failed (f.moved (.downIf new lines)).diagnostic
  | some (.outOfFuel, _) => .outOfFuel

/-- Whether marks say which functions of a session come from a program that was run last, and an
ending says whether the line that it stopped with does. -/
structure Session.Marked (before after : Session) (program : Program) (marks : List Bool)
    (ending : Ending) : Prop where
  length : marks.length = after.machine.heap.functions.size
  older : ∀ i < before.machine.heap.functions.size, marks.getD i false = false
  functions : ∀ (i : Nat) (f : FunctionObject), after.machine.heap.functions[i]? = some f →
    (before.origin program after.nextId (marks.getD i false)).function f.declaration
  line : ∀ stop new, ending = some (stop, new) →
    ∀ line ∈ stop.line?, (before.origin program after.nextId new).line line

/-- Whether a run differs from one that left this session behind only in the lines of what is marked
as new, which are so many later, and in that the sink was flushed so many times fewer. -/
structure Session.LaterBy (after : Session) (marks : List Bool) (ending : Ending)
    (lines fewer : Nat) (result : Outcome × Session) : Prop where
  outcome : result.1 = ending.outcome lines
  machine : result.2.machine = { after.machine with
    heap := after.machine.heap.moved marks lines
    distances := result.2.machine.distances
    flushes := result.2.machine.flushes }
  flushes : result.2.machine.flushes + fewer = after.machine.flushes
  distances : ∀ id, result.2.machine.distances.get? id = after.machine.distances.get? id
  nextId : result.2.nextId = after.nextId

/-- Whether a session is another one that has distances besides, which neither its functions nor
later texts use. -/
structure Session.HasBesides (session : Session) (distances : Distances) (result : Session) :
    Prop where
  machine : result.machine = { session.machine with distances := result.machine.distances }
  table : ∀ id, result.machine.distances.get? id =
    (session.machine.distances.merge distances).get? id
  besides : ∀ id d : Nat, (id, d) ∈ distances → session.nextId ≤ id ∧ id < result.nextId
  unused : ∀ f ∈ session.machine.heap.functions, ∀ id ∈ f.declaration.references,
    id < session.nextId

namespace Session

theorem outcomeOf_error (stop : Stop) (new : Bool) (lines : Nat) (m : Machine) :
    outcomeOf (.error (stop.moved (.downIf new lines)) m) =
      (Ending.outcome lines (some (stop, new)), m) := by
  cases stop <;> rfl

theorem outcomeOf_error_zero (stop : Stop) (new : Bool) (m : Machine) :
    outcomeOf (.error stop m) = (Ending.outcome 0 (some (stop, new)), m) := by
  have houtcome := outcomeOf_error stop new 0 m
  rwa [Shift.downIf_zero, Stop.moved_zero] at houtcome

/-! ## The distances of two texts -/

/-- Texts that are accepted one behind the other have distances of different identities. -/
theorem get?_eq_none_of_check {text : List Char} {n n' : NodeId} {program : Program}
    {distances : Distances} (h : check text n = (.ok (program, distances), n')) {id : Nat}
    (hid : id < n ∨ n' ≤ id) : distances.get? id = none := by
  have hkeys : KeysWithin program.findings n n' := Stmt.keysWithin_walkAll (within_of_check h)
  obtain ⟨-, -, -, rfl⟩ := check_eq_ok h
  exact found_eq_none hkeys hid

theorem mem_of_check {text : List Char} {n n' : NodeId} {program : Program}
    {distances : Distances} (h : check text n = (.ok (program, distances), n')) {id d : Nat}
    (hmem : (id, d) ∈ distances) : n ≤ id ∧ id < n' := by
  have hkeys : KeysWithin program.findings n n' := Stmt.keysWithin_walkAll (within_of_check h)
  obtain ⟨-, -, -, rfl⟩ := check_eq_ok h
  obtain ⟨finding, hfinding, hd⟩ := List.mem_filterMap.mp hmem
  cases finding with
  | bound key d' =>
    cases hd
    exact hkeys id d hfinding
  | violation => cases hd

/-- **The table of a joined text** answers as that of the first text alone, for identities up to the
first text's; -/
theorem get?_merge_append_of_lt {b : List Char} {n₁ n₂ : NodeId} {program : Program}
    {distances' : Distances} (hb : check b n₁ = (.ok (program, distances'), n₂))
    (table distances : Distances) {id : Nat} (hid : id < n₁) :
    (table.merge (distances ++ distances')).get? id = (table.merge distances).get? id := by
  have hnone := get?_eq_none_of_check hb (.inl hid)
  rw [Distances.get?_merge, Distances.get?_merge]
  have happend : Distances.get? (distances ++ distances') id =
      (distances.get? id).or (distances'.get? id) := Distances.get?_merge distances' distances id
  rw [happend, hnone, Option.or_none]

/-- and for all identities as that of the two texts one behind the other. -/
theorem get?_merge_append {a b : List Char} {n n₁ n₂ : NodeId} {program program' : Program}
    {distances distances' : Distances} (ha : check a n = (.ok (program, distances), n₁))
    (hb : check b n₁ = (.ok (program', distances'), n₂)) (table : Distances) (id : Nat) :
    (table.merge (distances ++ distances')).get? id =
      ((table.merge distances).merge distances').get? id := by
  have happend : Distances.get? (distances ++ distances') id =
      (distances.get? id).or (distances'.get? id) := Distances.get?_merge distances' distances id
  rw [Distances.get?_merge, Distances.get?_merge, Distances.get?_merge, happend]
  by_cases hid : id < n₁
  · rw [get?_eq_none_of_check hb (.inl hid), Option.or_none, Option.none_or]
  · rw [get?_eq_none_of_check ha (.inr (Nat.le_of_not_lt hid)), Option.none_or, Option.none_or]

/-! ## The first text -/

/-- **The first of two texts** does the same in the joined text, whose distances are there already;
if it ends well, the joined text goes on from the machine that it leaves, but for its flush. -/
theorem run_first {session : Session} (h : session.Tidy) (fuel : Nat) {a b : List Char}
    {n₁ n₂ : NodeId} {program program' : Program} {distances distances' : Distances}
    (ha : check a session.nextId = (.ok (program, distances), n₁))
    (hb : check b n₁ = (.ok (program', distances'), n₂)) :
    let table := session.machine.distances.merge (distances ++ distances')
    let joined := flushOnStop (backToGlobals (runProgram fuel program))
      { session.machine with distances := table }
    ∃ m₁ : Machine, m₁.distances = session.machine.distances.merge distances ∧
      ((session.run fuel a = (.ok, ⟨{ m₁ with flushes := m₁.flushes + 1 }, n₁⟩) ∧
        joined = .ok () { m₁ with distances := table }) ∨
      ∃ stop, session.run fuel a = (Ending.outcome 0 (some (stop, false)), ⟨m₁, n₁⟩) ∧
        joined = .error stop { m₁ with distances := table }) := by
  have hwithin := within_of_check ha
  let σ : Setting := settingBelow (session.machine.distances.merge distances) n₁
  have hfrom : Stmt.AllFrom (σ.origin false) program := hwithin.below (Nat.le_refl n₁)
  have hfits : Fits σ _ _ := fits_below h hwithin.le
  have hagrees : ∀ (new : Bool) (id : NodeId), (σ.origin new).id id →
      (session.machine.distances.merge (distances ++ distances')).get? id =
        σ.distances.get? id := fun _ id hid =>
    get?_merge_append_of_lt hb session.machine.distances distances hid
  obtain ⟨m₁, marks₁, hfits₁, hends⟩ := run_table fuel hfrom hfits hagrees
  refine ⟨m₁, hfits₁.distances, ?_⟩
  rw [run_of_ok ha, interpret_eq]
  rcases hends with ⟨hx, hy⟩ | ⟨stop, hx, hy⟩
  · refine .inl ⟨?_, hy⟩
    have hflush : Run.flush m₁ = .ok () { m₁ with flushes := m₁.flushes + 1 } := by
      rw [Run.flush_eq, hfits₁.flushes]
      rfl
    rw [Steps.bind_of_ok hx, hflush]
    rfl
  · refine .inr ⟨stop, ?_, hy⟩
    rw [Steps.bind_of_error hx, outcomeOf_error_zero stop false]

/-! ## The second text -/

/-- The code of a session and of a text that runs in it. -/
def settingOf (session : Session) (program : Program) (distances : Distances) (bound : NodeId) :
    Setting :=
  ⟨session.machine.distances.merge distances, session.origin program bound, false⟩

/-- The code that runs with a text behind a tidy session comes from where it should. -/
theorem Tidy.fits_settingOf {session : Session} (h : session.Tidy) (program : Program)
    (distances : Distances) (bound : NodeId) :
    Fits (session.settingOf program distances bound)
      { session.machine with distances := session.machine.distances.merge distances }
      (oldMarks session.machine) := by
  refine ⟨⟨List.length_replicate, fun i f hf => ?_, h.held.methods⟩, rfl, h.flushes⟩
  have hmem : f ∈ session.machine.heap.functions := Array.mem_of_getElem? hf
  have hbelow := h.held.known i f hf
  rw [oldMarks, getD_replicate_false, FunctionDecl.from_iff]
  rw [FunctionDecl.from_iff] at hbelow
  exact ⟨hbelow.1, fun line hline => ⟨f, hmem, hline⟩, fun g hg => ⟨f, hmem, hg⟩⟩

theorem outcomeOf_follows {σ : Setting} {m : Machine} {marks : List Bool} {x : Run Unit}
    {y : Variation σ → Run Unit} (h : Follows σ m marks x y) :
    ∃ m' marks' ending, Fits σ m' marks' ∧ marks <+: marks' ∧
      (∀ stop new, ending = some (stop, new) → Known (σ.origin new) stop) ∧ ∀ v,
        outcomeOf (y v (m.moved v marks)) = (Ending.outcome v.lines ending, m'.moved v marks') := by
  obtain ⟨m', marks', hfits, hgrows, ⟨_, -, hy⟩ | ⟨stop, new, -, hknown, hy⟩⟩ := h
  · exact ⟨m', marks', none, hfits, hgrows, nofun, fun v => by rw [hy v]; rfl⟩
  · refine ⟨m', marks', some (stop, new), hfits, hgrows, ?_, fun v => ?_⟩
    · rintro _ _ ⟨⟩
      exact hknown
    · rw [hy v]
      exact outcomeOf_error stop new v.lines _

/-- **The second of two texts** does the same on later lines, however often the sink was flushed
before. -/
theorem run_second {session : Session} (h : session.Tidy) (fuel : Nat) {b : List Char}
    {n₂ : NodeId} {program : Program} {distances : Distances}
    (hb : check b session.nextId = (.ok (program, distances), n₂)) :
    ∃ m₂ marks ending more, session.run fuel b = (Ending.outcome 0 ending, ⟨m₂, n₂⟩) ∧
      m₂.distances = session.machine.distances.merge distances ∧
      m₂.flushes = session.machine.flushes + more ∧
      session.Marked ⟨m₂, n₂⟩ program marks ending ∧ ∀ (lines before : Nat) (table : Distances),
        (∀ id, table.get? id = (session.machine.distances.merge distances).get? id) →
        outcomeOf ((flushOnStop (backToGlobals (runProgram fuel
            (Stmt.allMoved (.down lines) program))) >>= fun _ => Run.flush)
            { session.machine with distances := table, flushes := before }) =
          (Ending.outcome lines ending, { m₂ with
            heap := m₂.heap.moved marks lines
            distances := table
            flushes := before + more }) := by
  have hbelow := (within_of_check hb).below (Nat.le_refl n₂)
  have hfrom : Stmt.AllFrom ((session.settingOf program distances n₂).origin true) program := by
    rw [Stmt.allFrom_iff] at hbelow ⊢
    exact ⟨hbelow.1, fun _ hline => hline, fun _ hf => hf⟩
  -- The flushes are counted from none, so both this session and the joined text add theirs.
  obtain ⟨m₀, marks, ending, hfits, hgrows, hknown, hends⟩ := outcomeOf_follows
    (program_follows fuel hfrom ((h.fits_settingOf program distances n₂).withFlushes 0))
  let v : Variation (session.settingOf program distances n₂) :=
    ⟨0, _, fun _ _ _ => rfl, session.machine.flushes⟩
  refine ⟨{ m₀ with distances := v.table, flushes := session.machine.flushes + m₀.flushes }, marks,
    ending, m₀.flushes, ?_, rfl, rfl, ⟨hfits.held.length, fun i hi => ?_,
      fun i f hf => (hfits.held.known i f hf).function, hknown⟩, fun lines before table hagrees => ?_⟩
  · have hv := hends v
    have hshift : v.shift true = .zero := Shift.downIf_zero true
    rw [oldMarks, moved_of_old, moved_of_zero rfl, hshift, Stmt.allMoved_zero] at hv
    rw [run_of_ok hb, interpret_eq]
    exact congrArg (fun ends : Outcome × Machine => (ends.1, Session.mk ends.2 n₂)) hv
  · obtain ⟨more, rfl⟩ := hgrows
    rw [getD_append_lt (by rw [oldMarks, List.length_replicate]; exact hi), oldMarks,
      getD_replicate_false]
  · let w : Variation (session.settingOf program distances n₂) :=
      ⟨lines, table, fun _ id _ => hagrees id, before⟩
    have hw := hends w
    rwa [oldMarks, moved_of_old] at hw

/-! ## Both texts -/

theorem outcome_ne_ok (stop : Stop) (new : Bool) (lines : Nat) :
    Ending.outcome lines (some (stop, new)) ≠ .ok := by
  cases stop <;> nofun

/-- **Running a text at once is running it in pieces.**  Behind any texts, on a sink that can be
flushed, two accepted texts that are joined by a newline are accepted.  If the first does not end
well, the joined text comes to the same and leaves the same behind, with the distances of the second
besides, which nothing uses.  Else the joined text comes to what the second comes to behind the
first, and leaves the same behind, but that the sink was flushed once and not twice, and that the
lines which come from the second text are later: by those of the first, as they are later by any
number if so many newlines are put in front of the second text. -/
theorem run_append (sink : Sink) (clock : Clock) (texts : List (Nat × List Char)) (fuel : Nat)
    (a b : List Char) (hsink : sink.flushFails = false) (ha : Accepted a) (hb : Accepted b) :
    let session := (initial sink clock).after texts
    let joint := session.run fuel (a ++ '\n' :: b)
    let first := session.run fuel a
    let second := first.2.run fuel b
    (check (a ++ '\n' :: b) session.nextId).1.isOk = true ∧
      ∃ program distances, check b first.2.nextId = (.ok (program, distances), joint.2.nextId) ∧
        (first.1 ≠ .ok → joint.1 = first.1 ∧ first.2.HasBesides distances joint.2) ∧
        (first.1 = .ok → ∃ marks ending, first.2.Marked second.2 program marks ending ∧
          second.2.LaterBy marks ending (linesOf a) 1 joint ∧
          ∀ lines, second.2.LaterBy marks ending lines 0
            (first.2.run fuel (List.replicate lines '\n' ++ b))) := by
  intro session joint first second
  have htidy : session.Tidy := (tidy_initial hsink clock).after texts
  obtain ⟨program, distances, n₁, hcheck⟩ := ha.check session.nextId
  obtain ⟨program', distances', n₂, hcheck'⟩ := hb.check n₁
  have hjoined := check_append hcheck hcheck'
  have hjoint : joint = (_, ⟨_, n₂⟩) := run_of_ok hjoined
  obtain ⟨m₁, htable, hends⟩ := run_first htidy fuel hcheck hcheck'
  have hfirstTidy : first.2.Tidy := htidy.run fuel a
  have hrun : joint = ((outcomeOf (interpret fuel _ _ session.machine)).1,
      ⟨(outcomeOf (interpret fuel _ _ session.machine)).2, n₂⟩) := run_of_ok hjoined
  rw [interpret_append] at hrun
  refine ⟨by rw [hjoined]; rfl, program', distances', ?_⟩
  rcases hends with ⟨hfirst, hmachine⟩ | ⟨stop, hfirst, hmachine⟩
  · have hfirst : first = (.ok, ⟨{ m₁ with flushes := m₁.flushes + 1 }, n₁⟩) := hfirst
    rw [Steps.bind_of_ok hmachine] at hrun
    rw [hfirst] at hfirstTidy
    obtain ⟨m₂, marks, ending, more, hsecond, htable₂, hflushes, hmarked, hfamily⟩ :=
      run_second hfirstTidy fuel hcheck'
    have hsecond : second = (ending.outcome 0, ⟨m₂, n₂⟩) := by
      rw [← hsecond, ← congrArg Prod.snd hfirst]
    have hagrees := get?_merge_append hcheck hcheck' session.machine.distances
    rw [← htable] at hagrees
    have hjoint := hfamily (linesOf a) m₁.flushes _ hagrees
    have hflushes : m₁.flushes + more + 1 = m₂.flushes := by
      rw [hflushes]
      exact Nat.add_right_comm m₁.flushes more 1
    rw [hjoint] at hrun
    rw [hfirst, hsecond, hrun]
    refine ⟨hcheck', fun hne => absurd rfl hne, fun _ => ⟨marks, ending, hmarked, ?_, ?_⟩⟩
    · exact ⟨rfl, rfl, hflushes, fun id => (hagrees id).trans (by rw [htable₂]), rfl⟩
    · intro lines
      have hlater := hfamily lines (m₁.flushes + 1) _ fun _ => rfl
      rw [run_of_ok (check_newlines hcheck' lines), interpret_eq, hlater]
      exact ⟨rfl, rfl, (Nat.add_right_comm m₁.flushes 1 more).trans hflushes, fun id => by rw [htable₂],
        rfl⟩
  · have hfirst : first = (Ending.outcome 0 (some (stop, false)), ⟨m₁, n₁⟩) := hfirst
    rw [Steps.bind_of_error hmachine] at hrun
    have houtcome := outcomeOf_error stop false 0 { m₁ with
      distances := session.machine.distances.merge (distances ++ distances') }
    rw [Shift.downIf_zero, Stop.moved_zero] at houtcome
    rw [houtcome] at hrun
    rw [hfirst] at hfirstTidy
    rw [hfirst, hrun]
    refine ⟨hcheck', fun _ => ⟨rfl, rfl, fun id => ?_, fun id d hmem => mem_of_check hcheck' hmem,
      ?_⟩, fun hok => absurd hok (outcome_ne_ok stop false 0)⟩
    · show (session.machine.distances.merge (distances ++ distances')).get? id =
        (m₁.distances.merge distances').get? id
      rw [htable]
      exact get?_merge_append hcheck hcheck' session.machine.distances id
    · intro f hmem id hid
      obtain ⟨i, hi⟩ := Array.mem_iff_getElem?.mp hmem
      have hbelow := hfirstTidy.held.known i f hi
      rw [FunctionDecl.from_iff] at hbelow
      exact hbelow.1 id hid

/-- A closure of the first text that runs in the second, which then fails in a function of its own. -/
theorem run_append_closure :
    let session := (initial .unbounded (.constant 0)).after [(30, "var n = 1;".toList)]
    let a := "fun show() \x7b\n  print n; \x7d".toList
    let b := "n = n + 1; show();\nfun wrong() \x7b show(n); \x7d wrong();".toList
    let joint := session.run 30 (a ++ '\n' :: b)
    let second := (session.run 30 a).2.run 30 b
    Accepted a ∧ Accepted b ∧ joint.2.machine.sink.written = "2\n".toUTF8 ∧ joint.1 ≠ .ok ∧
      ∃ program marks ending, (session.run 30 a).2.Marked second.2 program marks ending ∧
        second.2.LaterBy marks ending 2 1 joint := by
  intro session a b joint second
  have ha : Accepted a := by decide +kernel
  have hb : Accepted b := by decide +kernel
  obtain ⟨-, program, -, -, -, hends⟩ :=
    run_append .unbounded (.constant 0) [(30, "var n = 1;".toList)] 30 a b rfl ha hb
  obtain ⟨marks, ending, hmarked, hlater, -⟩ := hends (by decide +kernel)
  exact ⟨ha, hb, by decide +kernel, by decide +kernel, program, marks, ending, hmarked, hlater⟩

end Session

end Lox
