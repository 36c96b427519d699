import Lox.Proofs.Reading
import Lox.Proofs.Sessions
import Lox.Proofs.Observed.Erasure
import Lox.Proofs.Observed.Programs

/-!
# Observed sessions

A session stays sound from text to text (`Session.Ready.run`), so it is sound behind all texts
(`Session.ready_after`), and each visit in its record was at its position.  This is read in two ways.
The frames of a visit are those of the scopes that the walk had there (`Session.frames_of_scopes`),
and `this` and `super` are what the method around the visit was bound to
(`Session.receivers_as_bound`).  What is observed is what happens (`Session.erased_after`,
`Session.outcomes_eq`).
-/

namespace Lox.Observed

variable {bound bound' : NodeId} {s : State} {program : Program} {distances : Distances}

/-! ## Programs -/

/-- The state behind the walk over a program. -/
def State.withProgram (s : State) (program : Program) (distances : Distances) : State :=
  { s with
    machine := { s.machine with distances := s.machine.distances.merge distances }
    sites := s.sites ++ program.sites }

theorem Grows.withProgram : Grows s (s.withProgram program distances) :=
  { Grows.refl s with sites := List.subset_append_left _ _ }

/-- **The walk over one more program** keeps a state sound if the program is resolved and nothing new
is said of old identities. -/
theorem Sound.withProgram (h : Sound bound s)
    (he : s.machine.distances.Extends bound (s.machine.distances.merge distances) bound')
    (hr : Stmt.AllResolved (s.machine.distances.merge distances) bound' [] program) :
    Sound bound' (s.withProgram program distances) where
  outermost := h.outermost
  bindings g x v hv := (h.bindings g x v hv).mono .withProgram
  methods i c x id hc hx := (h.methods i c x id hc hx).mono .withProgram
  fields i o x v ho hv := (h.fields i o x v ho hv).mono .withProgram
  recorded site hsite := by
    rcases List.mem_append.mp hsite with hold | hnew
    · exact (h.recorded site hold).mono he
    · have hr : Stmt.AllResolved _ bound' (Scopes.ribs []) program := hr
      exact Stmt.recorded_allSites hr site hnew
  visits v hv := (h.visits v hv).mono .withProgram

theorem Sound.later (h : Sound bound s) (hle : bound ≤ bound') : Sound bound' s :=
  { h with recorded := fun site hsite => (h.recorded site hsite).mono ⟨hle, fun _ _ => rfl⟩ }

theorem Sound.atOutermost (h : Sound bound s)
    (henv : s.machine.environment = s.machine.globals) : At s.machine .outermost where
  outermost := h.outermost
  chain := by
    rw [henv]
    exact .outermost
  holds := ⟨nofun, nofun⟩
  head := nofun

theorem Keeps.backToGlobals {x : Run Unit} {Q : State → Unit → Prop} (h : Keeps bound s x Q)
    (henv : s.machine.environment = s.machine.globals) : Keeps bound s (backToGlobals x) Q := by
  obtain ⟨s₁, hs₁, ⟨a, hx, hq⟩ | ⟨stop, hx⟩⟩ := h
  · exact ⟨s₁, hs₁, .inl ⟨a, by rw [Observed.backToGlobals, hx], hq⟩⟩
  · have hback : s₁.moveTo s₁.machine.globals = s₁ := by
      have henv₁ : s₁.machine.environment = s₁.machine.globals := by
        rw [hs₁.environment, hs₁.grows.globals, henv]
      rw [← henv₁]
      rfl
    refine ⟨s₁, hs₁, .inr ⟨stop, ?_⟩⟩
    simp only [Observed.backToGlobals, hx, hback]

theorem Keeps.flushOnStop {x : Run Unit} {Q : State → Unit → Prop} (h : Keeps bound s x Q) :
    Keeps bound s (flushOnStop x) Q := by
  obtain ⟨s₁, hs₁, ⟨a, hx, hq⟩ | ⟨stop, hx⟩⟩ := h
  · exact ⟨s₁, hs₁, .inl ⟨a, by rw [Observed.flushOnStop, hx], hq⟩⟩
  · exact ⟨s₁.withOutside s₁.machine.sink (s₁.machine.flushes + 1) s₁.machine.clock,
      hs₁.trans hs₁.sound.withOutside, .inr ⟨stop, by rw [Observed.flushOnStop, hx]; rfl⟩⟩

theorem Session.outcomeOf_snd_of_ends {P : Unit → Prop} {s₁ : State}
    {result : EStateM.Result Machine.Stop State Unit}
    (h : (∃ a, result = .ok a s₁ ∧ P a) ∨ ∃ stop, result = .error stop s₁) :
    (Session.outcomeOf result).2 = s₁ := by
  rcases h with ⟨a, rfl, -⟩ | ⟨stop, rfl⟩
  · rfl
  · cases stop <;> rfl

/-- **Interpreting a program** keeps the state sound that the walk over the program leaves. -/
theorem becomes_interpret (fuel : Nat) (h : Sound bound (s.withProgram program distances))
    (henv : s.machine.environment = s.machine.globals) :
    Becomes bound (s.withProgram program distances)
      (Session.outcomeOf (interpret fuel program distances s)).2 := by
  have hsites : program.sites ⊆ (s.withProgram program distances).sites :=
    List.subset_append_right _ _
  have hrun : Keeps bound (s.withProgram program distances)
      (do
        flushOnStop (backToGlobals (runProgram fuel .outermost program))
        lift Machine.Run.flush)
      fun _ _ => True :=
    ((keeps_runProgram fuel h (h.atOutermost henv) hsites).backToGlobals henv).flushOnStop.bind
      fun _ _ hs₁ _ => keeps_flush hs₁.sound
  obtain ⟨s₁, hs₁, hends⟩ := hrun
  have hlast : (Session.outcomeOf (interpret fuel program distances s)).2 = s₁ :=
    Session.outcomeOf_snd_of_ends hends
  rwa [hlast]

/-! ## Sessions -/

/-- **Whether a session is ready for its next text**: everything in it is at its position, the current
frame is the outermost one, and identities that were not given out yet have no distance. -/
structure Session.Ready (session : Session) : Prop where
  sound : Sound session.nextId session.state
  outermost : session.state.machine.environment = session.state.machine.globals
  unused : ∀ id : Nat, session.nextId ≤ id → session.state.machine.distances.get? id = none

namespace Session

theorem ready_initial (sink : Sink) (clock : Clock) : (initial sink clock).Ready where
  outermost := rfl
  unused _ _ := rfl
  sound := {
    outermost := ⟨_, rfl⟩
    bindings := fun g x v hv => by
      have hv : (Frames.empty.push ⟨.single Native.clock.name (.native .clock), none⟩).2.binding? g x =
        some v := hv
      rw [Frames.binding?, Frames.frame?_push] at hv
      split at hv
      · rw [(get?_single hv).2]
        trivial
      · cases hv
    methods := fun i c x id hc => by
      have hc : (#[] : Array ClassObject)[i]? = some c := hc
      simp at hc
    fields := fun i o x v ho => by
      have ho : (#[] : Array InstanceObject)[i]? = some o := ho
      simp at ho
    recorded := fun site hsite => absurd hsite List.not_mem_nil
    visits := fun v hv => absurd hv List.not_mem_nil }

/-- **A text leaves a session ready** for the next one. -/
theorem Ready.run {session : Session} (h : session.Ready) (fuel : Nat) (text : List Char) :
    (session.run fuel text).2.Ready := by
  unfold Session.run
  cases hcheck : Lox.Session.check text session.nextId with
  | mk result nextId =>
    have hle : session.nextId ≤ nextId := by
      have hle := Lox.Session.le_nextId_check text session.nextId
      rwa [hcheck] at hle
    cases result with
    | error faults =>
      exact ⟨h.sound.later hle, h.outermost, fun id hid => h.unused id (Nat.le_trans hle hid)⟩
    | ok accepted =>
      obtain ⟨program, distances⟩ := accepted
      obtain ⟨hresolved, hextends, hunused⟩ := resolved_of_check hcheck h.unused
      have hs₁ := becomes_interpret fuel (h.sound.withProgram hextends hresolved) h.outermost
      refine ⟨hs₁.sound, ?_, ?_⟩
      · show (outcomeOf _).2.machine.environment = (outcomeOf _).2.machine.globals
        rw [hs₁.environment, hs₁.grows.globals]
        exact h.outermost
      · show ∀ id : Nat, nextId ≤ id → (outcomeOf _).2.machine.distances.get? id = none
        rw [hs₁.distances]
        exact hunused

theorem Ready.after {session : Session} (h : session.Ready) :
    ∀ texts : List (Nat × List Char), (session.after texts).Ready
  | [] => h
  | (fuel, text) :: texts => Ready.after (h.run fuel text) texts

theorem ready_after (sink : Sink) (clock : Clock) (texts : List (Nat × List Char)) :
    ((initial sink clock).after texts).Ready :=
  (ready_initial sink clock).after texts

end Session

/-! ## Scopes and frames -/

/-- **Whether frames are those of scopes**: from the current frame out to the outermost one there are
as many as there are scopes, and each binds at least the names that are ready in its scope. -/
structure Mirrored (m : Machine) (scopes : Scopes) : Prop where
  outermost : m.heap.frames.out m.environment scopes.length = .ok m.globals
  inner : ∀ d < scopes.length, m.heap.frames.out m.environment d ≠ .ok m.globals
  binds : ∀ (d : Nat) scope x, scopes[d]? = some scope → scope.get? x = some true →
    ∃ v, m.heap.frames.getAt m.environment d x = .ok v

theorem At.mirrored {m : Machine} {position : Position} (h : At m position) :
    Mirrored m position.scopes where
  outermost := by
    rw [← Scopes.length_ribs]
    exact h.chain.out_length
  inner d hd := by
    rw [← Scopes.length_ribs] at hd
    exact h.chain.out_ne h.outermost.enclosing?_eq d hd
  binds d scope x hscope hx := by
    have hrib : position.scopes.ribs[d]? = some fun name => scope.get? name == some true := by
      rw [Scopes.ribs, List.getElem?_map, hscope]
      rfl
    exact h.chain.getAt hrib (by simp [hx])

theorem Chain.getAt_distance {frames : Frames} {globals frame : FrameId} {ribs : Ribs} {x : String}
    {d : Nat} (h : Chain frames globals frame ribs) (hd : ribs.distance? x = some d) :
    ∃ v, frames.getAt frame d x = .ok v := by
  obtain ⟨hlt, hx, -⟩ := List.findIdx?_eq_some_iff_getElem.mp hd
  exact h.getAt (List.getElem?_eq_getElem hlt) hx

/-- **The frames are those of the scopes.**  Observed texts run as without observation.  Whenever an
expression, a statement or the name in a superclass clause is visited, the walk over its program had
come by it; the frames around the visit are those of the scopes that the walk had there; and if there
is a distance on record for the name that is read there, the name is found at this distance. -/
theorem Session.frames_of_scopes (sink : Sink) (clock : Clock) (texts : List (Nat × List Char)) :
    let session := (initial sink clock).after texts
    session.erased = (Lox.Session.initial sink clock).after texts ∧
      (initial sink clock).outcomes texts = (Lox.Session.initial sink clock).outcomes texts ∧
      ∀ v ∈ session.state.visits, v.site ∈ session.state.sites ∧
        Mirrored v.machine v.position.scopes ∧
        ∀ id x d, v.node.read? = some (id, x) → v.machine.distances.get? id = some d →
          ∃ value, v.machine.heap.frames.getAt v.machine.environment d x = .ok value := by
  refine ⟨erased_after texts _, outcomes_eq texts _, fun v hv => ?_⟩
  obtain ⟨hsite, hhere, bound, hrecorded⟩ := (ready_after sink clock texts).sound.visits v hv
  refine ⟨hsite, hhere.mirrored, fun id x d hread hd => ?_⟩
  rw [hrecorded.get?_eq hread] at hd
  exact hhere.chain.getAt_distance hd

/-! ## Receivers and superclasses -/

/-- **`this` at a visit** is the instance of the position. -/
theorem VisitOk.evaluate_this {v : Visit} {keyword : Reference} (h : VisitOk s v)
    (hnode : v.node = .expr (.this keyword)) :
    ∃ receiver, v.position.receiver = some receiver ∧ ∀ fuel,
      Machine.evaluate (fuel + 1) (.this keyword) v.machine = .ok (.inst receiver) v.machine := by
  obtain ⟨node, position, m⟩ := v
  subst hnode
  obtain ⟨-, hhere, _, _, hname, -, d, hd, hrecord⟩ := h
  obtain ⟨receiver, g, hreceiver, hout, hg⟩ := hhere.holds.receiver d hd
  rw [← hname] at hg
  exact ⟨receiver, hreceiver, fun _ => Machine.Run.lookUp_eq_ok hrecord hout hg⟩

/-- **`super` at a position** looks the method up from the class of the position, and binds it to the
instance of the position. -/
theorem At.evaluate_super {m : Machine} {position : Position} {bound : NodeId} {own : Option String}
    {keyword : Reference} {method : Name} (h : At m position)
    (hresolved : (Expr.super keyword method).Resolved m.distances bound position.scopes.ribs own) :
    ∃ receiver parent, position.receiver = some receiver ∧ position.parent = some parent ∧
      ∀ fuel, Machine.evaluate (fuel + 1) (.super keyword method) m =
        Machine.Run.boundMethod receiver parent method m := by
  obtain ⟨-, d, hthis, hsuper, hrecord⟩ := hresolved
  obtain ⟨receiver, _, hreceiver, hout, hg⟩ := h.holds.receiver d hthis
  obtain ⟨parent, _, hparent, hout', hg'⟩ := h.holds.parent d hthis hsuper
  exact ⟨receiver, parent, hreceiver, hparent, fun _ => Machine.Run.superMethod_eq method hrecord
    (Machine.Run.superclassAt_eq_ok hout' hg') (Machine.Run.receiverAt_eq_ok hout hg)⟩

/-- **`super` at a visit** does so with the class and the instance of its position. -/
theorem VisitOk.evaluate_super {v : Visit} {keyword : Reference} {method : Name} (h : VisitOk s v)
    (hnode : v.node = .expr (.super keyword method)) :
    ∃ receiver parent, v.position.receiver = some receiver ∧ v.position.parent = some parent ∧
      ∀ fuel, Machine.evaluate (fuel + 1) (.super keyword method) v.machine =
        Machine.Run.boundMethod receiver parent method v.machine := by
  obtain ⟨node, position, m⟩ := v
  subst hnode
  obtain ⟨-, hhere, _, _, hresolved⟩ := h
  exact hhere.evaluate_super hresolved

/-- **`this` and `super` are what the method was bound to.**  Observed texts run as without
observation.  Whenever `this` is visited, it comes to the instance to which the method around it was
bound when it was fetched; whenever `super` is visited, the method is the one that the class has to
which the superclass clause around it came when its class was declared, bound to the same instance. -/
theorem Session.receivers_as_bound (sink : Sink) (clock : Clock) (texts : List (Nat × List Char)) :
    let session := (initial sink clock).after texts
    session.erased = (Lox.Session.initial sink clock).after texts ∧
      (initial sink clock).outcomes texts = (Lox.Session.initial sink clock).outcomes texts ∧
      ∀ v ∈ session.state.visits,
        (∀ keyword, v.node = .expr (.this keyword) →
          ∃ receiver, v.position.receiver = some receiver ∧ ∀ fuel,
            Machine.evaluate (fuel + 1) (.this keyword) v.machine =
              .ok (.inst receiver) v.machine) ∧
        ∀ keyword method, v.node = .expr (.super keyword method) →
          ∃ receiver parent, v.position.receiver = some receiver ∧
            v.position.parent = some parent ∧ ∀ fuel,
              Machine.evaluate (fuel + 1) (.super keyword method) v.machine =
                Machine.Run.boundMethod receiver parent method v.machine :=
  ⟨erased_after texts _, outcomes_eq texts _, fun v hv =>
    have hok := (ready_after sink clock texts).sound.visits v hv
    ⟨fun _ => hok.evaluate_this, fun _ _ => hok.evaluate_super⟩⟩

/-- `super` in a block of a method has four scopes around it, and comes to a method that is bound to
the same instance. -/
example :
    let text := "class A \x7b m() \x7b this; \x7d \x7d
      class B < A \x7b m() \x7b \x7b super.m(); \x7d \x7d \x7d
      B().m();"
    ((Session.initial .unbounded (.constant 0)).run 12 text.toList).2.state.visits.filterMap (fun v =>
        match v.node with
        | .expr (.this _) | .expr (.super _ _) =>
          some (v.position.scopes.length, v.position.receiver, v.position.parent)
        | _ => none) =
      [(4, some ⟨0⟩, some ⟨0⟩), (2, some ⟨0⟩, none)] := by
  decide +kernel

end Lox.Observed
