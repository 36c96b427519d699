import Lox.Proofs.Grammar.Identities
import Lox.Proofs.Growth.Sessions

/-!
# Identities never collide

All texts of a session share one table of distances, in which a program's table is written over what
is there.  Since every tree has identities of its own (`nodup_references_trees`), nothing is ever
overwritten: what the table says of an identity that was given out it says for good
(`Session.Ready.get?_after`), also of the identities that a function brings along into later texts.
-/

namespace Lox

theorem Session.spans_of_check {text : List Char} {n n' : NodeId} {program : Program}
    {distances : Distances} (h : check text n = (.ok (program, distances), n')) :
    Spans (Stmt.allReferences program) n n' :=
  (Grammar.derives_of_ofTokens (check_eq_ok h).1).numbered

namespace Observed.Session

variable {session : Session}

/-- An accepted text adds the table of its program to that of the session. -/
theorem Ready.distances_run (h : session.Ready) (fuel : Nat) {text : List Char} {program : Program}
    {distances : Distances} {nextId : NodeId}
    (hcheck : Lox.Session.check text session.nextId = (.ok (program, distances), nextId)) :
    (session.run fuel text).2.state.machine.distances =
      session.state.machine.distances.merge distances := by
  obtain ⟨hresolved, hextends, -⟩ := resolved_of_check hcheck h.unused
  have hs₁ := becomes_interpret fuel (h.sound.withProgram hextends hresolved) h.outermost
  simp only [Session.run, hcheck]
  exact hs₁.distances

/-- **A text changes nothing** that the table says of identities that were given out before it. -/
theorem Ready.get?_run (h : session.Ready) (fuel : Nat) (text : List Char) {id : Nat}
    (hid : id < session.nextId) :
    id < (session.run fuel text).2.nextId ∧
      (session.run fuel text).2.state.machine.distances.get? id =
        session.state.machine.distances.get? id := by
  have hle := Lox.Session.le_nextId_check text session.nextId
  cases hcheck : Lox.Session.check text session.nextId with
  | mk result nextId =>
    rw [hcheck] at hle
    cases result with
    | error faults =>
      simp only [Session.run, hcheck]
      exact ⟨Nat.lt_of_lt_of_le hid hle, trivial⟩
    | ok accepted =>
      obtain ⟨program, distances⟩ := accepted
      obtain ⟨-, hextends, -⟩ := resolved_of_check hcheck h.unused
      rw [h.distances_run fuel hcheck]
      refine ⟨?_, hextends.2 id hid⟩
      simp only [Session.run, hcheck]
      exact Nat.lt_of_lt_of_le hid hle

/-- **Nor do any texts.** -/
theorem Ready.get?_after : ∀ (later : List (Nat × List Char)) {session : Session},
    session.Ready → ∀ {id : Nat}, id < session.nextId →
      (session.after later).state.machine.distances.get? id =
        session.state.machine.distances.get? id
  | [], _, _, _, _ => rfl
  | (fuel, text) :: later, session, h, id, hid => by
    obtain ⟨hid', hrun⟩ := h.get?_run fuel text hid
    exact (get?_after later (h.run fuel text) hid').trans hrun

/-- **The table of a program** answers for its identities behind the program and all later texts. -/
theorem Ready.get?_own (h : session.Ready) (fuel : Nat) {text : List Char} {program : Program}
    {distances : Distances} {nextId : NodeId}
    (hcheck : Lox.Session.check text session.nextId = (.ok (program, distances), nextId))
    (later : List (Nat × List Char)) {id : Nat} (hid : id ∈ Stmt.allReferences program) :
    ((session.run fuel text).2.after later).state.machine.distances.get? id =
      distances.get? id := by
  obtain ⟨hle, hlt⟩ := (Lox.Session.spans_of_check hcheck).between id hid
  have hgiven : id < (session.run fuel text).2.nextId := by
    simp only [Session.run, hcheck]
    exact hlt
  rw [get?_after later (h.run fuel text) hgiven, h.distances_run fuel hcheck,
    Distances.get?_merge, h.unused id hle, Option.or_none]

end Observed.Session

namespace Session

open Observed.Session (ready_after ready_initial formed_initial erased_after)

/-- What texts leave behind is what they leave behind when they are observed. -/
theorem after_eq_erased (sink : Sink) (clock : Clock) (texts : List (Nat × List Char)) :
    (initial sink clock).after texts =
      ((Observed.Session.initial sink clock).after texts).erased :=
  (erased_after texts (Observed.Session.initial sink clock)).symm

/-- **Identities never collide.**  In trees that are read one after the other, with faulty texts among
them, no identity stands twice.  So in a session an entry of the table of distances is never changed
or removed; for the references of a program that was accepted the table says, ever after, what the
program's own table says; and the names in a function that is there at one moment of the session are
as far away at every later one. -/
theorem identities_never_collide :
    (∀ (n : NodeId) (sources : List (List Token)),
      ((Program.trees n sources).flatMap Stmt.allReferences).Nodup) ∧
    ∀ (sink : Sink) (clock : Clock) (texts : List (Nat × List Char)),
      let session := (initial sink clock).after texts
      let machines := (Observed.Session.initial sink clock).history texts
      (∀ later id d, session.machine.distances.get? id = some d →
        (session.after later).machine.distances.get? id = some d) ∧
      (∀ fuel text program distances nextId later,
        check text session.nextId = (.ok (program, distances), nextId) →
        ∀ id ∈ Stmt.allReferences program,
          ((session.run fuel text).2.after later).machine.distances.get? id =
            distances.get? id) ∧
      (∀ k, ((initial sink clock).after (texts.take k)).machine ∈ machines) ∧
      machines.Pairwise fun m m' => ∀ (i : Nat) f, m.heap.functions[i]? = some f →
        m'.heap.functions[i]? = some f ∧
          ∀ id ∈ f.declaration.references, m'.distances.get? id = m.distances.get? id := by
  refine ⟨fun n sources => (nodup_references_trees sources n).1, fun sink clock texts => ?_⟩
  have hready := ready_after sink clock texts
  have hsession := after_eq_erased sink clock texts
  refine ⟨fun later id d hd => ?_, fun fuel text program distances nextId later hcheck id hid => ?_,
    fun k => ?_, ?_⟩
  · rw [hsession] at hd ⊢
    rw [← erased_after]
    have hid : id < ((Observed.Session.initial sink clock).after texts).nextId := by
      refine Nat.lt_of_not_le fun hle => ?_
      cases (hready.unused id hle).symm.trans hd
    exact (hready.get?_after later hid).trans hd
  · rw [hsession] at hcheck ⊢
    rw [Observed.Session.run_erased, ← erased_after]
    exact hready.get?_own fuel hcheck later hid
  · rw [after_eq_erased]
    exact Observed.Session.mem_history_after texts _ k
  · obtain ⟨-, hpairs⟩ := (ready_initial sink clock).formed_history texts (formed_initial sink clock)
    exact hpairs.imp fun {m m'} h i f hf => ⟨h.heap.functions i f hf, h.meanings i f hf⟩

end Session

end Lox
