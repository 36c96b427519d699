import Lox.Prompt
import Lox.Proofs.Growth.Identities
import Lox.Proofs.Limited.Sessions
import Lox.Proofs.Joining.Sessions
import Lox.Proofs.Gate
import Lox.Proofs.Copies.Runs

/-!
# Sessions with the same objects

How a text runs depends on the globals and on the objects of the session alone, and on what the clock
shows.  What was written before stays in front of what the text writes (`Session.run_behind`).  And
sessions have the *same objects* if their heaps are the same up to the identities of references, which
both resolve alike: then every text comes to the same in them, writes the same, and leaves the same
objects behind (`Session.SameObjects.runsLike`).  A text that is not run at all changes none
(`Session.SameObjects.of_faulty`).
-/

namespace Lox

open Machine

/-! ## Output without a bound -/

namespace Observed

theorem onward_interpret (fuel : Nat) (program : Program) (distances : Distances) :
    Onward (interpret fuel program distances) := by
  intro s hs
  have hprogram : Onward (flushOnStop (backToGlobals (runProgram fuel .outermost program))) :=
    (cuts_runProgram (n := 0) fuel program .outermost).stopped.1
  have hlearnt := (onward_lift (.addDistances distances)).bind fun _ =>
    hprogram.bind fun _ => onward_flush
  have hfurther := hlearnt { s with sites := s.sites ++ program.sites } hs
  exact ⟨hfurther.sink, hfurther.visits⟩

end Observed

namespace Session

/-- What stands in the sink of a session. -/
def written (session : Session) : ByteArray :=
  session.machine.sink.written

/-- **A text only adds to an unbounded sink.** -/
theorem sink_run (session : Session) (fuel : Nat) (text : List Char)
    (h : session.machine.sink.capacity = none) :
    ∃ printed, (session.run fuel text).2.machine.sink =
      { session.machine.sink with written := session.written ++ printed } := by
  cases hcheck : check text session.nextId with
  | mk result n' =>
    cases result with
    | error faults =>
      rw [run_of_error hcheck]
      refine ⟨.empty, ?_⟩
      rw [ByteArray.append_empty]
      rfl
    | ok accepted =>
      obtain ⟨program, distances⟩ := accepted
      have herased := Observed.Session.run_erased (Observed.Session.from session) fuel text
      have hrun : session.run fuel text = _ := herased
      rw [hrun]
      unfold Observed.Session.run
      have hnext : (Observed.Session.from session).nextId = session.nextId := rfl
      rw [hnext, hcheck]
      have hfurther := (Observed.onward_interpret fuel program distances
        (Observed.Session.from session).state h).sink
      rw [← Observed.Session.outcomeOf_snd] at hfurther
      exact hfurther

end Session

/-! ## Earlier output -/

theorem Heap.renumbered_id (heap : Heap) : heap.renumbered id = heap := by
  have hfunction : FunctionObject.renumbered id = id := by
    funext object
    simp only [FunctionObject.renumbered, FunctionDecl.renumbered_id, id]
  unfold Heap.renumbered
  rw [hfunction, Array.map_id]

theorem Stmt.allRenumbered_id (ss : List Stmt) : Stmt.allRenumbered id ss = ss := by
  have hmoved : Stmt.allRenumbered id (Stmt.allMoved .zero ss) = Stmt.allMoved .zero ss :=
    Stmt.allRenumbered_moved (fun _ => rfl) ss
  rwa [Stmt.allMoved_zero] at hmoved

/-- The copy that differs only in its earlier output and in how often that was flushed. -/
def Copy.plain (table : Distances) (earlier : ByteArray) (flushes : Nat) : Copy :=
  ⟨id, table, table, fun _ => rfl, earlier, flushes⟩

theorem Machine.copied_plain (earlier : ByteArray) (flushes : Nat) (m : Machine) :
    m.copied (.plain m.distances earlier flushes) =
      { m with sink := m.sink.behind earlier, flushes := flushes + m.flushes } := by
  unfold copied Copy.plain
  rw [Heap.renumbered_id]

namespace Session

/-- The session behind earlier output. -/
def behind (session : Session) (earlier : ByteArray) : Session :=
  { session with
    machine := { session.machine with sink := session.machine.sink.behind earlier } }

/-- **What a program comes to on a copy.** -/
theorem outcomeOf_copied {c : Copy} {m : Machine} {x y : Run Unit} (h : Copied c m x y) :
    ∃ m', m'.distances = c.table ∧ (outcomeOf (x m)).2 = m' ∧
      outcomeOf (y (m.copied c)) = ((outcomeOf (x m)).1, m'.copied c) := by
  obtain ⟨m', hm', ⟨a, hx, hy⟩ | ⟨stop, hx, hy⟩⟩ := h
  · refine ⟨m', hm', ?_, ?_⟩ <;> rw [hx]
    · rfl
    · rw [hy]
      rfl
  · refine ⟨m', hm', ?_, ?_⟩ <;> rw [hx] <;> cases stop
    · rfl
    · rfl
    · rw [hy]
      rfl
    · rw [hy]
      rfl

/-- **A text runs behind earlier output** as without it. -/
theorem run_behind (session : Session) (fuel : Nat) (text : List Char) (earlier : ByteArray) :
    (session.behind earlier).run fuel text =
      ((session.run fuel text).1, (session.run fuel text).2.behind earlier) := by
  have hnext : (session.behind earlier).nextId = session.nextId := rfl
  cases hcheck : check text session.nextId with
  | mk result n' =>
    cases result with
    | error faults =>
      rw [run_of_error hcheck, run_of_error (hnext ▸ hcheck)]
      rfl
    | ok accepted =>
      obtain ⟨program, distances⟩ := accepted
      rw [run_of_ok hcheck, run_of_ok (hnext ▸ hcheck), interpret_eq, interpret_eq]
      let m : Machine :=
        { session.machine with distances := session.machine.distances.merge distances }
      let c : Copy := .plain m.distances earlier 0
      obtain ⟨m', hm', hplain, hcopied⟩ :=
        outcomeOf_copied (copied_program (c := c) (m := m) fuel program rfl)
      have hids : c.ids = id := rfl
      rw [hids, Stmt.allRenumbered_id, Machine.copied_plain, Nat.zero_add] at hcopied
      have hback : m'.copied c = { m' with sink := m'.sink.behind earlier } := by
        have hc : c = .plain m'.distances earlier 0 := congrArg (Copy.plain · earlier 0) hm'.symm
        rw [hc, Machine.copied_plain, Nat.zero_add]
      rw [hback, ← hplain] at hcopied
      exact congrArg (fun ends : Outcome × Machine => (ends.1, Session.mk ends.2 n')) hcopied

/-! ## Texts at later identities -/

theorem nextId_check (text : List Char) (n : NodeId) :
    (check text n).2 = n + (check text 0).2 := by
  have hreading (n : NodeId) :
      (check text n).2 = (Program.reading (Token.tokens text) n).2.nextId := by
    unfold check programOf
    rw [Program.ofTokens_eq]
    cases (Program.reading (Token.tokens text) n).2.reports.isEmpty with
    | false => rfl
    | true => cases hlexical : (Token.faults text).isEmpty <;> simp [hlexical]
  rw [hreading, hreading]
  exact congrArg (fun read : Program × Syntax.Cursor => read.2.nextId)
    (Program.reading_moved (Token.tokens text) n 0)

/-- **What a text is accepted as** is the same at all identities but for these. -/
theorem check_everywhere (text : List Char) :
    (∃ faults count, ∀ n, check text n = (.error faults, n + count)) ∨
      ∃ (program : Program) (count : Nat), ∀ n, check text n =
        (.ok (Stmt.allMoved ⟨n, 0⟩ program, Program.distances (Stmt.allMoved ⟨n, 0⟩ program)),
          n + count) := by
  rcases check_cases text 0 with ⟨hsome, -⟩ | ⟨-, program, distances, count, hcheck⟩
  · refine .inl ⟨Static.faults text, (check text 0).2, fun n => ?_⟩
    rcases check_cases text n with ⟨-, n', hcheck⟩ | ⟨hnone, -⟩
    · rw [← nextId_check, hcheck]
    · exact absurd hnone hsome
  · obtain ⟨hread, hfaults, hviolations, -⟩ := check_eq_ok hcheck
    refine .inr ⟨program, count, fun n => ?_⟩
    have hderives := (Grammar.derives_of_ofTokens hread).moved ⟨n, 0⟩
    have hsame : Grammar.allMoved ⟨n, 0⟩ (Grammar.sourceTokens (Token.tokens text)) =
        Grammar.sourceTokens (Token.tokens text) := List.map_id _
    rw [hsame] at hderives
    exact check_of_derives hfaults hderives (Program.violations_moved _ hviolations)

theorem get?_distances_moved (program : Program) (n : NodeId) (id : Nat) :
    Distances.get? (Program.distances (Stmt.allMoved ⟨n, 0⟩ program)) (n + id) =
      Distances.get? program.distances id := by
  unfold Program.distances Distances.get?
  rw [Program.findings_moved]
  induction program.findings with
  | nil => rfl
  | cons finding findings ih =>
    cases finding with
    | violation name rule => exact ih
    | bound key d =>
      show List.lookup (n + id) ((n + key, d) :: _) = List.lookup id ((key, d) :: _)
      rw [List.lookup_cons, List.lookup_cons]
      have hkey : (n + id == n + key) = (id == (key : Nat)) := by
        rw [Bool.eq_iff_iff, beq_iff_eq, beq_iff_eq]
        exact Nat.add_left_cancel_iff
      rw [hkey]
      cases id == (key : Nat) with
      | true => rfl
      | false => exact ih

/-! ## The same objects -/

/-- Whether a session is at rest: the outermost frame is the current one, identities that were not
given out yet occur nowhere, and the sink takes everything. -/
structure Settled (session : Session) : Prop where
  outermost : session.machine.environment = session.machine.globals
  unused : ∀ id : Nat, session.nextId ≤ id → session.machine.distances.get? id = none
  code : ∀ f ∈ session.machine.heap.functions, f.declaration.From (.below session.nextId)
  unbounded : session.machine.sink.capacity = none
  flushes : session.machine.sink.flushFails = false

theorem capacity_after {session : Session} (h : session.machine.sink.capacity = none) :
    ∀ texts : List (Nat × List Char), (session.after texts).machine.sink.capacity = none
  | [] => h
  | (fuel, text) :: texts => by
    obtain ⟨printed, hsink⟩ := sink_run session fuel text h
    have hnext : (session.run fuel text).2.machine.sink.capacity = none := by rw [hsink]; exact h
    exact capacity_after hnext texts

/-- **Sessions are at rest** between texts. -/
theorem settled_after (clock : Clock) (texts : List (Nat × List Char)) :
    ((fresh clock).after texts).Settled := by
  have hready := Observed.Session.ready_after .unbounded clock texts
  have hinitial : (initial .unbounded clock).Tidy := tidy_initial rfl clock
  have htidy := hinitial.after texts
  have hsession : (fresh clock).after texts =
      ((Observed.Session.initial .unbounded clock).after texts).erased :=
    after_eq_erased .unbounded clock texts
  refine ⟨hsession ▸ hready.outermost, hsession ▸ hready.unused, fun f hf => ?_,
    capacity_after rfl texts, htidy.flushes⟩
  obtain ⟨i, hi⟩ := Array.mem_iff_getElem?.mp hf
  exact htidy.held.known i f hi

/-- Whether a numbering takes the objects of one session to those of another: code to code whose
references have the same distances, and everything else to itself. -/
structure Renumbers (ids : NodeId → NodeId) (session other : Session) : Prop where
  heap : other.machine.heap = session.machine.heap.renumbered ids
  globals : other.machine.globals = session.machine.globals
  clock : other.machine.clock = session.machine.clock
  given : ∀ id : Nat, id < session.nextId → ids id < other.nextId
  resolved : ∀ id : Nat, id < session.nextId →
    other.machine.distances.get? (ids id) = session.machine.distances.get? id

/-- **Whether sessions have the same globals and objects**, up to the identities in their code, and
the clock will show them the same. -/
def SameObjects (session other : Session) : Prop :=
  ∃ ids, Renumbers ids session other

/-- A text that is not run leaves all objects as they are. -/
theorem SameObjects.of_faulty (session : Session) (fuel : Nat) {text : List Char}
    (h : Static.Faulty text) : SameObjects session (session.run fuel text).2 := by
  have hle := le_nextId_check text session.nextId
  rw [run_of_faulty session fuel h]
  exact ⟨id, (Heap.renumbered_id _).symm, rfl, rfl, fun _ hid => Nat.lt_of_lt_of_le hid hle,
    fun _ _ => rfl⟩

/-! ## Running alike -/

section Alike

variable {session other : Session} {ids : NodeId → NodeId}

/-- The numbering that also takes identities that were not given out in one session to those in the
other. -/
def onward (session other : Session) (ids : NodeId → NodeId) (id : NodeId) : NodeId :=
  if id < session.nextId then ids id else other.nextId + (id - session.nextId)

theorem onward_of_lt {id : Nat} (h : id < session.nextId) : onward session other ids id = ids id :=
  if_pos h

theorem onward_add (id : Nat) :
    onward session other ids (session.nextId + id) = other.nextId + id := by
  unfold onward
  rw [if_neg (Nat.not_lt.mpr (Nat.le_add_right _ id)), Nat.add_sub_cancel_left]

theorem Settled.renumbered_onward (h : session.Settled) :
    session.machine.heap.renumbered (onward session other ids) =
      session.machine.heap.renumbered ids := by
  have hagrees : (Origin.below session.nextId).Agrees (onward session other ids) ids :=
    fun _ hid => onward_of_lt hid
  unfold Heap.renumbered
  congr 1
  refine Array.map_congr_left fun f hf => ?_
  unfold FunctionObject.renumbered
  rw [FunctionDecl.renumbered_congr hagrees (h.code f hf)]

/-- The machine of a session before any output and any flush, with another table of distances. -/
def blank (session : Session) (table : Distances) : Machine :=
  { session.machine with distances := table, sink := .unbounded, flushes := 0 }

theorem Settled.sink (h : session.Settled) :
    session.machine.sink = Sink.unbounded.behind session.written := by
  have hcapacity := h.unbounded
  have hflushes := h.flushes
  unfold written
  cases hsink : session.machine.sink with
  | mk bytes capacity flushFails =>
    rw [hsink] at hcapacity hflushes
    subst hcapacity hflushes
    show _ = Sink.mk (bytes ++ ByteArray.empty) none false
    rw [ByteArray.append_empty]

/-- **A session is a copy** of its machine before any output, -/
theorem Settled.copied_blank (h : session.Settled) (table : Distances) :
    (session.blank table).copied (.plain table session.written session.machine.flushes) =
      { session.machine with distances := table } := by
  have hplain :
      (session.blank table).copied (.plain table session.written session.machine.flushes) =
        { session.blank table with
          sink := Sink.unbounded.behind session.written
          flushes := session.machine.flushes } :=
    copied_plain session.written session.machine.flushes (session.blank table)
  rw [hplain, ← h.sink]
  rfl

/-- and so is every session with the same objects. -/
theorem Renumbers.copied_blank (h : Renumbers ids session other) (hs : session.Settled)
    (ho : other.Settled) {c : Copy} (hids : c.ids = onward session other ids)
    (hearlier : c.earlier = other.written) (hflushes : c.flushes = other.machine.flushes) :
    (session.blank c.table).copied c = { other.machine with distances := c.other } := by
  have henvironment : session.machine.environment = other.machine.environment := by
    rw [hs.outermost, ho.outermost, h.globals]
  have hheap : session.machine.heap.renumbered c.ids = other.machine.heap := by
    rw [hids, hs.renumbered_onward, h.heap]
  have hsink : Sink.unbounded.behind c.earlier = other.machine.sink := by
    rw [hearlier, ho.sink]
  unfold Machine.copied blank
  simp only [hheap, hsink, hflushes, henvironment, ← h.globals, ← h.clock, Nat.add_zero]

theorem Renumbers.get?_merge (h : Renumbers ids session other) (hs : session.Settled)
    (ho : other.Settled) {text : List Char} {program : Program} {count : Nat}
    (hcheck : ∀ n, check text n =
      (.ok (Stmt.allMoved ⟨n, 0⟩ program, Program.distances (Stmt.allMoved ⟨n, 0⟩ program)),
        n + count)) (id : NodeId) :
    (other.machine.distances.merge
        (Program.distances (Stmt.allMoved ⟨other.nextId, 0⟩ program))).get?
        (onward session other ids id) =
      (session.machine.distances.merge
        (Program.distances (Stmt.allMoved ⟨session.nextId, 0⟩ program))).get? id := by
  rw [Distances.get?_merge, Distances.get?_merge]
  by_cases hid : id < session.nextId
  · rw [onward_of_lt hid, get?_eq_none_of_check (hcheck _) (.inl hid),
      get?_eq_none_of_check (hcheck _) (.inl (h.given id hid)), Option.none_or, Option.none_or,
      h.resolved id hid]
  · obtain ⟨j, rfl⟩ : ∃ j, id = session.nextId + j := Nat.exists_eq_add_of_le (Nat.not_lt.mp hid)
    rw [onward_add, get?_distances_moved, get?_distances_moved,
      hs.unused _ (Nat.le_add_right _ j), ho.unused _ (Nat.le_add_right _ j)]

/-- Whether a text does the same in two sessions: it comes to the same, writes the same, and leaves
the same objects behind. -/
structure SameRun (session other : Session) (fuel : Nat) (text : List Char) : Prop where
  outcome : (session.run fuel text).1 = (other.run fuel text).1
  printed : ∃ printed, (session.run fuel text).2.written = session.written ++ printed ∧
    (other.run fuel text).2.written = other.written ++ printed
  objects : SameObjects (session.run fuel text).2 (other.run fuel text).2

/-- The numbering takes what a text is given in the one session to what it is given in the other. -/
theorem Renumbers.onward_lt (h : Renumbers ids session other) (count : Nat) {id : Nat}
    (hid : id < session.nextId + count) : onward session other ids id < other.nextId + count := by
  by_cases hlt : id < session.nextId
  · rw [onward_of_lt hlt]
    exact Nat.lt_of_lt_of_le (h.given id hlt) (Nat.le_add_right _ count)
  · obtain ⟨j, rfl⟩ : ∃ j, id = session.nextId + j := Nat.exists_eq_add_of_le (Nat.not_lt.mp hlt)
    rw [onward_add]
    exact Nat.add_lt_add_left (Nat.lt_of_add_lt_add_left hid) _

/-- Sessions keep the same objects while both are given so many identities that have no distance. -/
theorem Renumbers.given_more (h : Renumbers ids session other) (hs : session.Settled)
    (ho : other.Settled) (count : Nat) :
    Renumbers (onward session other ids) { session with nextId := session.nextId + count }
      { other with nextId := other.nextId + count } where
  heap := h.heap.trans hs.renumbered_onward.symm
  globals := h.globals
  clock := h.clock
  given _ hid := h.onward_lt count hid
  resolved id _ := by
    by_cases hlt : id < session.nextId
    · rw [onward_of_lt hlt]
      exact h.resolved id hlt
    · obtain ⟨j, rfl⟩ : ∃ j, id = session.nextId + j := Nat.exists_eq_add_of_le (Nat.not_lt.mp hlt)
      rw [onward_add]
      exact (ho.unused _ (Nat.le_add_right _ j)).trans (hs.unused _ (Nat.le_add_right _ j)).symm

/-- **A text does the same in sessions with the same objects.** -/
theorem Renumbers.run (h : Renumbers ids session other) (hs : session.Settled)
    (ho : other.Settled) (fuel : Nat) (text : List Char) : SameRun session other fuel text := by
  rcases check_everywhere text with ⟨faults, count, hcheck⟩ | ⟨program, count, hcheck⟩
  · have hrun : session.run fuel text = _ := run_of_error (hcheck _)
    have hrun' : other.run fuel text = _ := run_of_error (hcheck _)
    constructor <;> rw [hrun, hrun']
    · exact ⟨.empty, ByteArray.append_empty.symm, ByteArray.append_empty.symm⟩
    · exact ⟨_, h.given_more hs ho count⟩
  let table := session.machine.distances.merge
    (Program.distances (Stmt.allMoved ⟨session.nextId, 0⟩ program))
  let c : Copy := {
    ids := onward session other ids
    table
    other := other.machine.distances.merge
      (Program.distances (Stmt.allMoved ⟨other.nextId, 0⟩ program))
    agrees := h.get?_merge hs ho hcheck
    earlier := other.written
    flushes := other.machine.flushes }
  let p : Copy := .plain table session.written session.machine.flushes
  -- Both sessions are copies of one machine, which runs the text as the first one reads it.
  obtain ⟨m, hm, hbare, hplain⟩ := outcomeOf_copied
    (copied_program (c := p) (m := session.blank table) fuel
      (Stmt.allMoved ⟨session.nextId, 0⟩ program) rfl)
  obtain ⟨m', -, hbare', hcopied⟩ := outcomeOf_copied
    (copied_program (c := c) (m := session.blank table) fuel
      (Stmt.allMoved ⟨session.nextId, 0⟩ program) rfl)
  obtain rfl : m = m' := hbare.symm.trans hbare'
  have hids : p.ids = id := rfl
  rw [hids, Stmt.allRenumbered_id, hs.copied_blank] at hplain
  have hmoved : Stmt.allRenumbered c.ids (Stmt.allMoved ⟨session.nextId, 0⟩ program) =
      Stmt.allMoved ⟨other.nextId, 0⟩ program := Stmt.allRenumbered_moved onward_add program
  rw [hmoved, h.copied_blank hs ho rfl rfl rfl] at hcopied
  have hrun : session.run fuel text = _ := run_of_ok (hcheck _)
  have hrun' : other.run fuel text = _ := run_of_ok (hcheck _)
  rw [interpret_eq, hplain] at hrun
  rw [interpret_eq, hcopied] at hrun'
  constructor <;> rw [hrun, hrun']
  · exact ⟨m.sink.written, rfl, rfl⟩
  · refine ⟨onward session other ids, ?_, rfl, rfl, fun id hid => h.onward_lt count hid,
      fun id _ => c.agrees id⟩
    show m.heap.renumbered c.ids = (m.heap.renumbered p.ids).renumbered c.ids
    rw [hids, Heap.renumbered_id]

end Alike

theorem after_append (session : Session) (before later : List (Nat × List Char)) :
    session.after (before ++ later) = (session.after before).after later :=
  List.foldl_append

/-- **Running alike.**  How texts run depends on the globals and the objects of a session alone, and on
what the clock shows: in sessions that have the same ones, whatever was run in them before, all later
texts come to the same and write the same. -/
theorem SameObjects.runsLike {clock clock' : Clock} {before before' : List (Nat × List Char)}
    (h : SameObjects ((fresh clock).after before) ((fresh clock').after before'))
    (later : List (Nat × List Char)) :
    ((fresh clock).after before).outcomes later = ((fresh clock').after before').outcomes later ∧
      ∃ printed, (((fresh clock).after before).after later).written =
          ((fresh clock).after before).written ++ printed ∧
        (((fresh clock').after before').after later).written =
          ((fresh clock').after before').written ++ printed := by
  induction later generalizing before before' with
  | nil => exact ⟨rfl, .empty, ByteArray.append_empty.symm, ByteArray.append_empty.symm⟩
  | cons entry later ih =>
    obtain ⟨fuel, text⟩ := entry
    obtain ⟨ids, hids⟩ := h
    have hrun := hids.run (settled_after clock before) (settled_after clock' before') fuel text
    have hnext (clock : Clock) (before : List (Nat × List Char)) :
        (fresh clock).after (before ++ [(fuel, text)]) =
          (((fresh clock).after before).run fuel text).2 :=
      after_append _ before [(fuel, text)]
    have hsame := hrun.objects
    rw [← hnext, ← hnext] at hsame
    obtain ⟨houtcomes, printed, hprinted, hprinted'⟩ := ih hsame
    obtain ⟨first, hfirst, hfirst'⟩ := hrun.printed
    rw [hnext, hnext] at houtcomes
    rw [hnext] at hprinted hprinted'
    refine ⟨?_, first ++ printed, ?_, ?_⟩
    · rw [outcomes, outcomes, hrun.outcome, houtcomes]
    · exact hprinted.trans (by rw [hfirst, ByteArray.append_assoc])
    · exact hprinted'.trans (by rw [hfirst', ByteArray.append_assoc])

end Session

end Lox
