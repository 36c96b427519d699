import Lox.Proofs.Sessions
import Lox.Proofs.Lexical.Simulation
import Lox.Proofs.Lexical.Strict

/-!
# Sessions by lexical scoping

The same texts are run in a session of the machine and in one that knows nothing of frames and
distances, and both stay in agreement (`Agrees.run`).  So the machine fails by itself exactly if a
program assigns to a local variable inside the variable's own initializer
(`Session.internal_run_iff`), and in every other run the distances are lexical scoping
(`Session.run_eq_lexical`).
-/

namespace Lox

namespace Lexical

/-- A state, and the first node identity that no tree of the session uses. -/
structure Session where
  state : State
  nextId : NodeId

namespace Session

/-- A session before its first text. -/
def initial (sink : Sink) (clock : Clock) : Session :=
  ⟨.initial sink clock, 0⟩

/-- What a run comes to, or the variable that a strict run stops at. -/
def outcomeOf : EStateM.Result Stop State Unit → Except String Outcome × State
  | .ok _ s => (.ok .ok, s)
  | .error (.fault fault) s => (.ok (.failed fault.diagnostic), s)
  | .error (.ownAssignment name) s => (.error name, s)
  | .error .outOfFuel s => (.ok .outOfFuel, s)

/-- Runs a text if it is accepted.  Its distances are not used. -/
def run (strict : Bool) (session : Session) (fuel : Nat) (text : List Char) :
    Except String Outcome × Session :=
  match Lox.Session.check text session.nextId with
  | (.error faults, nextId) => (.ok (.failed (.batch faults)), { session with nextId })
  | (.ok (program, _), nextId) =>
    let (outcome, state) := outcomeOf (interpret strict fuel program session.state)
    (outcome, ⟨state, nextId⟩)

/-- The session behind texts that are run one after the other, each with so much fuel. -/
def after (strict : Bool) (session : Session) (texts : List (Nat × List Char)) : Session :=
  texts.foldl (fun session entry => (session.run strict entry.1 entry.2).2) session

end Session

/-! ## Programs -/

section
variable {opened : Option FrameId} {w : World}

/-- On the outermost level nothing is bound by a rib. -/
theorem At.outermost (h : w.machine.environment = w.machine.globals) : At w .global [] where
  mirrors := ⟨nofun, fun _ _ => rfl⟩
  outside _ := ⟨h, rfl⟩
  inside := nofun

theorem behind_nil (s : Stmt) : s.behind [] = [] := by
  unfold Stmt.behind
  cases s.declared? <;> rfl

theorem coupled_runProgram (fuel : Nat) : ∀ {program : Program} {w : World}, w.Sound →
    w.machine.environment = w.machine.globals →
    Stmt.AllResolved w.machine.distances w.bound [] program →
    Coupled (some w.machine.environment) w (Machine.runProgram fuel program)
      (runProgram true fuel program) fun _ _ _ => True
  | [], _, hs, _, _ => .pure hs trivial
  | first :: others, w, hs, henv, ⟨hfirst, hothers⟩ => by
    refine (executes fuel hs (.outermost henv) hfirst).bind fun _ _ w₁ hw₁ _ => ?_
    rw [behind_nil, ← hw₁.grows.distances, ← hw₁.grows.bound] at hothers
    rw [← hw₁.environment]
    refine coupled_runProgram fuel hw₁.sound ?_ hothers
    rw [hw₁.environment, hw₁.grows.globals, henv]

/-- The current frame is the outermost one anyway. -/
theorem Coupled.backToGlobals {x : Machine.Run Unit} {y : Run Unit} {Q : World → Unit → Unit → Prop}
    (h : Coupled opened w x y Q) (henv : w.machine.environment = w.machine.globals) :
    Coupled opened w (Machine.backToGlobals x) y Q := by
  obtain ⟨w₁, hw₁, ⟨a, b, hx, hy, hq⟩ | ⟨e, e', hx, hy, he⟩⟩ := h
  · exact ⟨w₁, hw₁, .inl ⟨a, b, Machine.backToGlobals_of_ok hx, hy, hq⟩⟩
  · have hback : w₁.moveTo w₁.machine.globals = w₁ := by
      refine World.moveTo_self ?_
      rw [hw₁.environment, hw₁.grows.globals, henv]
    refine ⟨w₁, hw₁, .inr ⟨e, e', ?_, hy, he⟩⟩
    rw [Machine.backToGlobals_of_error hx]
    exact congrArg (fun w : World => EStateM.Result.error e w.machine) hback

/-- The world with a flush more of its sink, which a state does not count. -/
def World.flushed (w : World) : World :=
  w.withOutside w.machine.sink (w.machine.flushes + 1) w.machine.clock

theorem World.Sound.becomes_flushed (hs : w.Sound) : w.Becomes opened w.flushed :=
  ⟨World.grows_withOutside, hs.withOutside, rfl⟩

/-- A flush that is ignored leaves no trace in the state. -/
theorem Coupled.flushOnStop {x : Machine.Run Unit} {y : Run Unit} {Q : World → Unit → Unit → Prop}
    (h : Coupled opened w x y Q) : Coupled opened w (Machine.flushOnStop x) y Q := by
  obtain ⟨w₁, hw₁, ⟨a, b, hx, hy, hq⟩ | ⟨e, e', hx, hy, he⟩⟩ := h
  · exact ⟨w₁, hw₁, .inl ⟨a, b, Machine.flushOnStop_of_ok hx, hy, hq⟩⟩
  · have hstate : w₁.flushed.state = w₁.state := hw₁.sound.outside_eq
    exact ⟨w₁.flushed, hw₁.trans hw₁.sound.becomes_flushed,
      .inr ⟨e, e', Machine.flushOnStop_of_error hx, hstate ▸ hy, he⟩⟩

theorem coupled_flush (hs : w.Sound) :
    Coupled opened w Machine.Run.flush flush fun _ _ _ => True := by
  have hstate : w.flushed.state = w.state := hs.outside_eq
  have hsame : w.machine.sink.flushFails = w.state.sink.flushFails := by rw [hs.sameObjects.sink]
  refine ⟨w.flushed, hs.becomes_flushed, ?_⟩
  rw [Machine.Run.flush_eq, hstate, hsame]
  cases hfails : w.state.sink.flushFails with
  | false => exact .inl ⟨(), (), rfl, by rw [flush, Steps.get_bind, hfails]; rfl, trivial⟩
  | true =>
    exact .inr ⟨.fault .sinkClosed, .fault .sinkClosed, rfl,
      by rw [flush, Steps.get_bind, hfails]; rfl, rfl, nofun⟩

/-- The world with more distances. -/
def World.withDistances (w : World) (distances : Distances) (bound : NodeId) : World :=
  { w with machine := { w.machine with distances }, bound }

theorem FunctionOk.withDistances {distances : Distances} {bound : NodeId} {id : FunctionId}
    (h : FunctionOk w id) (he : w.machine.distances.Extends w.bound distances bound) :
    FunctionOk (w.withDistances distances bound) id := by
  obtain ⟨f, env, ribs, htwin, hresolved, hthis⟩ := h
  exact ⟨f, env, ribs, ⟨htwin.object, htwin.closure, ⟨htwin.mirrors.bound, htwin.mirrors.unbound⟩⟩,
    hresolved.mono he, hthis⟩

theorem MethodOk.withDistances {distances : Distances} {bound : NodeId} {id : FunctionId}
    (h : MethodOk w id) (he : w.machine.distances.Extends w.bound distances bound) :
    MethodOk (w.withDistances distances bound) id := by
  obtain ⟨f, env, ribs, htwin, hresolved⟩ := h
  exact ⟨f, env, ribs, ⟨htwin.object, htwin.closure, ⟨htwin.mirrors.bound, htwin.mirrors.unbound⟩⟩,
    hresolved.mono he⟩

theorem ValueOk.withDistances {distances : Distances} {bound : NodeId} {v : Value}
    (h : ValueOk w v) (he : w.machine.distances.Extends w.bound distances bound) :
    ValueOk (w.withDistances distances bound) v := by
  cases v with
  | function id => exact FunctionOk.withDistances h he
  | _ => trivial

/-- **More distances** keep a world sound if they say nothing new of old identities. -/
theorem World.Sound.withDistances {distances : Distances} {bound : NodeId} (hs : w.Sound)
    (he : w.machine.distances.Extends w.bound distances bound) :
    (w.withDistances distances bound).Sound where
  sameVariables := { hs.sameVariables with
    stored := fun location g x hplace => by
      obtain ⟨hne, v, hv, hbinding, hok, hfits⟩ := hs.sameVariables.stored location g x hplace
      exact ⟨hne, v, hv, hbinding, hok.withDistances he, hfits⟩
    globals := fun x v hv => (hs.sameVariables.globals x v hv).withDistances he }
  sameObjects := { hs.sameObjects with
    methods := fun i c x id hc hx => (hs.sameObjects.methods i c x id hc hx).withDistances he
    fields := fun i o x v ho hv => (hs.sameObjects.fields i o x v ho hv).withDistances he }

/-- **Programs are interpreted alike** by distances for which they are resolved. -/
theorem coupled_interpret (fuel : Nat) {program : Program} {distances : Distances} {bound : NodeId}
    (hs : w.Sound) (henv : w.machine.environment = w.machine.globals)
    (he : w.machine.distances.Extends w.bound (w.machine.distances.merge distances) bound)
    (hr : Stmt.AllResolved (w.machine.distances.merge distances) bound [] program) :
    ∃ w₁ : World, w₁.bound = bound ∧ w₁.machine.distances = w.machine.distances.merge distances ∧
      w₁.machine.environment = w₁.machine.globals ∧ w₁.Sound ∧
      ((∃ a b, Machine.interpret fuel program distances w.machine = .ok a w₁.machine ∧
          interpret true fuel program w.state = .ok b w₁.state) ∨
        ∃ stop stop', Machine.interpret fuel program distances w.machine = .error stop w₁.machine ∧
          interpret true fuel program w.state = .error stop' w₁.state ∧ Alike stop stop') := by
  have hrun : Coupled (some w.machine.environment)
      (w.withDistances (w.machine.distances.merge distances) bound)
      (do
        Machine.flushOnStop (Machine.backToGlobals (Machine.runProgram fuel program))
        Machine.Run.flush)
      (interpret true fuel program) fun _ _ _ => True :=
    ((coupled_runProgram fuel (hs.withDistances he) henv hr).backToGlobals henv).flushOnStop.bind
      fun _ _ w₁ hw₁ _ => coupled_flush hw₁.sound
  obtain ⟨w₁, hw₁, hends⟩ := hrun
  refine ⟨w₁, hw₁.grows.bound, hw₁.grows.distances, ?_, hw₁.sound, ?_⟩
  · rw [hw₁.environment, hw₁.grows.globals]
    exact henv
  · rcases hends with ⟨a, b, hx, hy, -⟩ | hstop
    · exact .inl ⟨a, b, hx, hy⟩
    · exact .inr hstop

end

/-! ## Sessions -/

/-- **Whether two sessions agree**: the machine and the state are a sound world, between two texts. -/
def Agrees (m : Lox.Session) (r : Session) : Prop :=
  ∃ w : World, w.Sound ∧ w.machine = m.machine ∧ w.state = r.state ∧ w.bound = m.nextId ∧
    r.nextId = m.nextId ∧ m.machine.environment = m.machine.globals ∧
    ∀ id : Nat, m.nextId ≤ id → m.machine.distances.get? id = none

/-- Whether a run of the machine came to what a strict run did. -/
def Corresponds (outcome : Outcome) : Except String Outcome → Prop
  | .ok outcome' => outcome = outcome' ∧ ¬outcome.IsInternal
  | .error x => outcome = .failed (Machine.Fault.unbound x 0).diagnostic

theorem agrees_initial (sink : Sink) (clock : Clock) :
    Agrees (.initial sink clock) (.initial sink clock) := by
  let w : World := ⟨.initial sink clock, .initial sink clock, [], 0⟩
  have hclock : ∀ x v, w.state.globals.get? x = some v → v = .native .clock := by
    intro x v hv
    have hv : [(Native.clock.name, Value.native .clock)].lookup x = some v := hv
    rw [Table.lookup_cons] at hv
    split at hv
    · exact (Option.some.inj hv).symm
    · cases hv
  refine ⟨w, ⟨⟨rfl, nofun, nofun, rfl, fun x v hv => ?_⟩,
    ⟨rfl, fun _ => rfl, rfl, fun i c x id hc => ?_, rfl, fun i o x v ho => ?_, rfl, rfl⟩⟩,
    rfl, rfl, rfl, rfl, rfl, fun _ _ => rfl⟩
  · rw [hclock x v hv]
    trivial
  · have hc : (#[] : Array ClassObject)[i]? = some c := hc
    simp at hc
  · have ho : (#[] : Array InstanceObject)[i]? = some o := ho
    simp at ho

theorem corresponds_of_alike {stop : Machine.Stop} {stop' : Stop} (h : Alike stop stop')
    (m : Machine) (s : State) :
    (Lox.Session.outcomeOf (.error stop m)).2 = m ∧ (Session.outcomeOf (.error stop' s)).2 = s ∧
      Corresponds (Lox.Session.outcomeOf (.error stop m)).1
        (Session.outcomeOf (.error stop' s)).1 := by
  cases stop with
  | fault f =>
    cases stop' with
    | fault f' =>
      obtain ⟨rfl, hinternal⟩ := h
      refine ⟨rfl, rfl, rfl, fun ⟨message, hmessage⟩ => hinternal ⟨message, ?_⟩⟩
      exact Outcome.failed.inj hmessage
    | ownAssignment x =>
      have h : f = .unbound x 0 := h
      subst h
      exact ⟨rfl, rfl, rfl⟩
    | outOfFuel => cases h
  | outOfFuel =>
    cases stop' with
    | outOfFuel => exact ⟨rfl, rfl, rfl, nofun⟩
    | _ => cases h

/-- **A text keeps two sessions in agreement**, and comes to the same in both. -/
theorem Agrees.run {m : Lox.Session} {r : Session} (h : Agrees m r) (fuel : Nat)
    (text : List Char) :
    Agrees (m.run fuel text).2 (r.run true fuel text).2 ∧
      Corresponds (m.run fuel text).1 (r.run true fuel text).1 := by
  obtain ⟨w, hs, hmachine, hstate, hbound, hnext, henv, hkeys⟩ := h
  cases hcheck : Session.check text m.nextId with
  | mk result n' =>
    have hle : m.nextId ≤ n' := by
      have hle := Session.le_nextId_check text m.nextId
      rwa [hcheck] at hle
    cases result with
    | error faults =>
      have hr : r.run true fuel text = (.ok (.failed (.batch faults)), { r with nextId := n' }) := by
        rw [Session.run, hnext, hcheck]
      rw [Session.run_of_error hcheck, hr]
      refine ⟨⟨w.withDistances w.machine.distances n', hs.withDistances ⟨?_, fun _ _ => rfl⟩,
        hmachine, hstate, rfl, rfl, henv, fun id hid => hkeys id (Nat.le_trans hle hid)⟩, rfl, nofun⟩
      rw [hbound]
      exact hle
    | ok accepted =>
      obtain ⟨program, distances⟩ := accepted
      obtain ⟨hresolved, hextends, hkeys'⟩ := resolved_of_check hcheck hkeys
      have hr : r.run true fuel text =
          ((Session.outcomeOf (interpret true fuel program r.state)).1,
            ⟨(Session.outcomeOf (interpret true fuel program r.state)).2, n'⟩) := by
        rw [Session.run, hnext, hcheck]
      rw [← hmachine] at hresolved hextends hkeys' henv
      rw [← hbound] at hextends
      rw [Session.run_of_ok hcheck, hr, ← hmachine, ← hstate]
      obtain ⟨w₁, hbound₁, hdistances, henv₁, hs₁, hends⟩ :=
        coupled_interpret fuel hs henv hextends hresolved
      rcases hends with ⟨_, _, hx, hy⟩ | ⟨stop, stop', hx, hy, halike⟩
      · rw [hx, hy]
        exact ⟨⟨w₁, hs₁, rfl, rfl, hbound₁, rfl, henv₁, hdistances ▸ hkeys'⟩, rfl, nofun⟩
      · obtain ⟨hm, hs', hcorresponds⟩ := corresponds_of_alike halike w₁.machine w₁.state
        rw [hx, hy]
        exact ⟨⟨w₁, hs₁, hm.symm, hs'.symm, hbound₁, rfl, by rwa [hm],
          by rwa [hm, hdistances]⟩, hcorresponds⟩

theorem Agrees.after {m : Lox.Session} {r : Session} (h : Agrees m r) :
    ∀ texts : List (Nat × List Char), Agrees (m.after texts) (r.after true texts)
  | [] => h
  | (fuel, text) :: texts => Agrees.after (h.run fuel text).1 texts

/-- A strict run that does not stop early is a plain one. -/
theorem Session.run_strict {r : Session} {fuel : Nat} {text : List Char} {outcome : Outcome}
    (h : (r.run true fuel text).1 = .ok outcome) : r.run false fuel text = r.run true fuel text := by
  unfold run at h ⊢
  cases hcheck : Lox.Session.check text r.nextId with
  | mk result n' =>
    rw [hcheck] at h
    cases result with
    | error faults => rfl
    | ok accepted =>
      rcases follows_interpret fuel accepted.1 r.state with hsame | ⟨name, s, hstop⟩
      · simp only [hsame]
      · simp only [hstop, outcomeOf] at h
        cases h

/-- A run of the machine that is no fault of its own comes to what a plain run does. -/
theorem Agrees.run_plain {m : Lox.Session} {r : Session} (h : Agrees m r) {fuel : Nat}
    {text : List Char} (hrun : ¬(m.run fuel text).1.IsInternal) :
    (r.run false fuel text).1 = .ok (m.run fuel text).1 ∧
      r.run false fuel text = r.run true fuel text := by
  have hcorresponds := (h.run fuel text).2
  cases hstrict : (r.run true fuel text).1 with
  | ok outcome =>
    rw [hstrict] at hcorresponds
    rw [Session.run_strict hstrict, hstrict, hcorresponds.1]
    exact ⟨rfl, rfl⟩
  | error x =>
    rw [hstrict] at hcorresponds
    exact absurd ⟨_, hcorresponds⟩ hrun

theorem Agrees.after_plain {m : Lox.Session} {r : Session} (h : Agrees m r) :
    ∀ texts : List (Nat × List Char), (∀ outcome ∈ m.outcomes texts, ¬outcome.IsInternal) →
      r.after true texts = r.after false texts
  | [], _ => rfl
  | (fuel, text) :: texts, hruns => by
    have hrun : r.run false fuel text = r.run true fuel text :=
      (h.run_plain (hruns _ List.mem_cons_self)).2
    have hothers := Agrees.after_plain (h.run fuel text).1 texts fun outcome houtcome =>
      hruns outcome (List.mem_cons_of_mem _ houtcome)
    show (r.run true fuel text).2.after true texts = (r.run false fuel text).2.after false texts
    rw [hrun, hothers]

/-! ## What distances are good for -/

/-- **The machine fails by itself exactly if** a program assigns to a local variable inside the
variable's own initializer: the assignment is on record as one to the innermost frame, and this
frame does not bind the variable yet.  In all other runs every distance leads to a frame that binds
the name. -/
theorem Session.internal_run_iff (sink : Sink) (clock : Clock) (texts : List (Nat × List Char))
    (fuel : Nat) (text : List Char) (message : String) :
    (((Lox.Session.initial sink clock).after texts).run fuel text).1 =
        .failed (.internal message) ↔
      ∃ x, (((initial sink clock).after true texts).run true fuel text).1 = .error x ∧
        (Machine.Fault.unbound x 0).diagnostic = .internal message := by
  have hagrees := (agrees_initial sink clock).after texts
  have hcorresponds := (hagrees.run fuel text).2
  cases hstrict : (((initial sink clock).after true texts).run true fuel text).1 with
  | ok outcome =>
    rw [hstrict] at hcorresponds
    constructor
    · intro hinternal
      exact absurd ⟨message, hinternal⟩ hcorresponds.2
    · rintro ⟨x, hx, -⟩
      cases hx
  | error x =>
    rw [hstrict] at hcorresponds
    constructor
    · intro hinternal
      exact ⟨x, rfl, Outcome.failed.inj (hcorresponds.symm.trans hinternal)⟩
    · rintro ⟨y, hy, hmessage⟩
      cases hy
      rw [← hmessage]
      exact hcorresponds

/-- It does happen, in a program that is accepted. -/
theorem Session.exists_internal_run :
    ((Lox.Session.initial .unbounded (.constant 0)).run 9
      "var a = 0; \x7b var a = a = 1; print a; \x7d".toList).1.IsInternal := by
  decide +kernel

/-- Whether a machine and a state show the same: output, outermost variables and objects, each under
the same identity. -/
structure SameContents (m : Machine) (s : State) : Prop where
  output : m.sink = s.sink
  globals : m.heap.frames.frame? m.globals = some ⟨s.globals, none⟩
  declarations : ∀ i : Nat, (m.heap.functions[i]?).map FunctionObject.declaration =
    (s.functions[i]?).map Closure.declaration
  classes : m.heap.classes = s.classes
  instances : m.heap.instances = s.instances

theorem Agrees.sameContents {m : Lox.Session} {r : Session} (h : Agrees m r) :
    SameContents m.machine r.state := by
  obtain ⟨w, hs, hmachine, hstate, -⟩ := h
  rw [← hmachine, ← hstate]
  exact ⟨hs.sameObjects.sink, hs.sameVariables.outermost, hs.sameObjects.alike, hs.sameObjects.classes,
    hs.sameObjects.instances⟩

/-- **Distances are lexical scoping.**  A run that is no fault of the machine itself comes to the
same and leaves the same behind as the plain run, behind any texts.  The session of the other side
stops only where the machine failed by itself; if it never did, that session is a plain one too. -/
theorem Session.run_eq_lexical (sink : Sink) (clock : Clock) (texts : List (Nat × List Char))
    (fuel : Nat) (text : List Char)
    (h : ¬(((Lox.Session.initial sink clock).after texts).run fuel text).1.IsInternal) :
    let machine := ((Lox.Session.initial sink clock).after texts).run fuel text
    let plain := ((initial sink clock).after true texts).run false fuel text
    plain.1 = .ok machine.1 ∧ SameContents machine.2.machine plain.2.state ∧
      ((∀ outcome ∈ (Lox.Session.initial sink clock).outcomes texts, ¬outcome.IsInternal) →
        (initial sink clock).after true texts = (initial sink clock).after false texts) := by
  have hagrees := (agrees_initial sink clock).after texts
  obtain ⟨houtcome, hstrict⟩ := hagrees.run_plain h
  refine ⟨houtcome, ?_, (agrees_initial sink clock).after_plain texts⟩
  rw [hstrict]
  exact (hagrees.run fuel text).1.sameContents

/-- A closure that outlives its text still means the variable that was there when it was made. -/
theorem Session.run_eq_lexical_closure :
    let texts := [(30, "var a = \"outer\"; var show; \x7b fun f() \x7b return a; \x7d
      var a = \"inner\"; show = f; \x7d".toList)]
    let machine := ((Lox.Session.initial .unbounded (.constant 0)).after texts).run 30
      "print show();".toList
    ¬machine.1.IsInternal ∧ machine.2.machine.sink.written = "outer\n".toUTF8 ∧
      SameContents machine.2.machine
        (((initial .unbounded (.constant 0)).after true texts).run false 30
          "print show();".toList).2.state :=
  ⟨by decide +kernel, by decide +kernel,
    (run_eq_lexical .unbounded (.constant 0) _ 30 _ (by decide +kernel)).2.1⟩

end Lexical

end Lox
