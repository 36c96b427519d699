import Lox.Proofs.Reading
import Lox.Proofs.Lexical.Coupled

/-!
# Variables on both sides

Reading, writing and declaring a variable.  What the distance on record leads to is the place of the
location that the map knows (`Mirrors.read`), so both sides read and write the same.
-/

namespace Lox.Lexical

/-- A value under a name that a program can give says nothing of receivers and superclasses. -/
theorem Fitting.of_plain {x : String} {v : Value} (h : Plain x) : Fitting x v :=
  ⟨fun hthis => absurd hthis h.1, fun hsuper => absurd hsuper h.2⟩

theorem not_isInternal_undefinedVariable (name : Name) :
    ¬(Machine.Fault.undefinedVariable name).IsInternal := nofun

/-! ## The side of the map -/

section
variable {env : Env} {s : State} {name : Name} {v : Value}

theorem lookUp_of_some {location : Location} (hlookup : env.names.lookup name.text = some location)
    (hv : s.store[location]? = some v) : lookUp env name s = .ok v s := by
  rw [lookUp, Steps.get_bind, hlookup]
  simp only [List.getD_eq_getElem?_getD, hv, Option.getD_some]
  rfl

theorem assign_of_some {location : Location}
    (hlookup : env.names.lookup name.text = some location) :
    assign env name v s = .ok () { s with store := s.store.set location v } := by
  rw [assign, Steps.get_bind, hlookup]
  rfl

theorem assign_of_none (hlookup : env.names.lookup name.text = none) :
    assign env name v s =
      if s.globals.contains name.text then .ok () { s with globals := s.globals.put name.text v }
      else .error (.fault (.undefinedVariable name)) s := by
  rw [assign, Steps.get_bind, hlookup]
  cases s.globals.contains name.text <;> rfl

theorem declare_of_local {x : String} (hlocal : env.isLocal = true) :
    declare env x v s = .ok (env.extend x s.store.length) { s with store := s.store ++ [v] } := by
  simp only [declare, hlocal, if_true, bindLocal]
  rfl

theorem declare_of_global {x : String} (hlocal : env.isLocal = false) :
    declare env x v s = .ok env { s with globals := s.globals.put x v } := by
  simp only [declare, hlocal, Bool.false_eq_true, if_false]
  rfl

end

section
variable {opened : Option FrameId} {w : World} {env : Env} {ribs : Ribs}

/-- **A bound name has one value** on both sides. -/
theorem Mirrors.read {frame : FrameId} {names : List (String × Location)} {x : String} {d : Nat}
    (h : Mirrors w frame names ribs) (hs : w.Sound) (hd : ribs.distance? x = some d) :
    ∃ location g v, names.lookup x = some location ∧ w.frames.out frame d = .ok g ∧
      w.places[location]? = some (g, x) ∧ w.state.store[location]? = some v ∧
      w.frames.binding? g x = some v ∧ ValueOk w v ∧ Fitting x v := by
  obtain ⟨location, g, hlookup, hout, hplace⟩ := h.bound x d hd
  obtain ⟨-, v, hv, hbinding, hok, hfits⟩ := hs.sameVariables.stored location g x hplace
  exact ⟨location, g, v, hlookup, hout, hplace, hv, hbinding, hok, hfits⟩

/-! ## Reading -/

/-- **A reference means the same value** on both sides. -/
theorem coupled_lookUp {r : Reference} (hs : w.Sound)
    (hm : Mirrors w w.machine.environment env.names ribs)
    (hr : w.machine.distances.get? r.id = ribs.distance? r.name.text) :
    Coupled opened w (Machine.Run.lookUp r) (lookUp env r.name)
      fun w' a b => a = b ∧ ValueOk w' a := by
  refine Coupled.get_left ?_
  cases hd : ribs.distance? r.name.text with
  | some d =>
    rw [hd] at hr
    obtain ⟨location, g, v, hlookup, hout, -, hv, hbinding, hok, -⟩ := hm.read hs hd
    rw [hr]
    exact .step w (Machine.Run.getAt_eq_ok hout hbinding) (lookUp_of_some hlookup hv) (.refl hs)
      ⟨rfl, hok⟩
  | none =>
    rw [hd] at hr
    refine Coupled.get_right ?_
    have hglobal : w.machine.heap.frames.get? w.machine.globals r.name.text =
        w.state.globals.get? r.name.text :=
      (Frames.get?_outermost hs.enclosing?_globals).trans (hs.binding?_globals _)
    rw [hr, hm.unbound _ hd]
    dsimp only
    rw [hglobal]
    cases hv : w.state.globals.get? r.name.text with
    | some v => exact .pure hs ⟨rfl, hs.sameVariables.globals _ v hv⟩
    | none => exact .fail hs (not_isInternal_undefinedVariable _)

/-! ## Writing -/

/-- **A name means the same variable** on both sides if a run of the machine writes to the frame so
many steps out, or to the outermost one, or does not find the name there. -/
theorem coupled_assign {x : Machine.Run Unit} {frame : FrameId} {name : Name} {v : Value}
    (hs : w.Sound) (hm : Mirrors w frame env.names ribs)
    (hbound : ∀ d g, ribs.distance? name.text = some d → w.frames.out frame d = .ok g →
      (w.frames.binding? g name.text).isSome →
      x w.machine = Machine.Run.modifyFrames (·.define g name.text v) w.machine)
    (hunbound : ribs.distance? name.text = none → x w.machine =
      if w.state.globals.contains name.text then
        Machine.Run.modifyFrames (·.define w.machine.globals name.text v) w.machine
      else .error (.fault (.undefinedVariable name)) w.machine)
    (hv : ValueOk w v) (hfits : Fitting name.text v) :
    Coupled opened w x (assign env name v) fun _ _ _ => True := by
  cases hd : ribs.distance? name.text with
  | some d =>
    obtain ⟨location, g, old, hlookup, hout, hplace, -, hbinding, -, -⟩ := hm.read hs hd
    refine .step (w.write location g name.text v)
      (hbound d g hd hout ?_) (assign_of_some hlookup)
      ⟨hs.grows_write hplace, hs.write hplace hv hfits, rfl⟩ trivial
    rw [hbinding]
    rfl
  | none =>
    have hx := hunbound hd
    have hy : assign env name v w.state = _ := assign_of_none (hm.unbound _ hd)
    by_cases hglobal : w.state.globals.contains name.text
    · rw [if_pos hglobal] at hx hy
      exact .step (w.writeGlobal name.text v) hx hy
        ⟨hs.grows_writeGlobal (.inl hglobal), hs.writeGlobal hv, rfl⟩ trivial
    · rw [if_neg hglobal] at hx hy
      exact .stop hx hy hs ⟨rfl, not_isInternal_undefinedVariable _⟩

theorem holder?_globals (hs : w.Sound) (x : String) :
    w.machine.heap.frames.holder? w.machine.globals x =
      if w.state.globals.contains x then some w.machine.globals else none := by
  rw [Frames.holder?_outermost hs.enclosing?_globals]
  show (if (w.frames.binding? _ _).isSome then _ else _) = _
  rw [hs.binding?_globals]
  rfl

/-- **A reference means the same variable** on both sides. -/
theorem coupled_store {r : Reference} {v : Value} (hs : w.Sound)
    (hm : Mirrors w w.machine.environment env.names ribs)
    (hr : w.machine.distances.get? r.id = ribs.distance? r.name.text)
    (hv : ValueOk w v) (hfits : Fitting r.name.text v) :
    Coupled opened w (Machine.Run.store r v) (assign env r.name v) fun _ _ _ => True := by
  refine coupled_assign hs hm (fun d g hd hout hbinds => ?_) (fun hd => ?_) hv hfits
  · rw [hd] at hr
    have hholder : w.machine.heap.frames.holderAt w.machine.environment d r.name.text = .ok g :=
      Frames.holderAt_eq_ok hout hbinds
    have hfound : Machine.Run.holder r w.machine = .ok g w.machine := by
      simp only [Machine.Run.holder, Steps.get_bind, hr, hholder]
      rfl
    rw [Machine.Run.store, Steps.bind_of_ok hfound]
  · rw [hd] at hr
    cases hglobal : w.state.globals.contains r.name.text with
    | true =>
      have hfound : Machine.Run.holder r w.machine = .ok w.machine.globals w.machine := by
        simp only [Machine.Run.holder, Steps.get_bind, hr, holder?_globals hs, hglobal]
        rfl
      rw [Machine.Run.store, Steps.bind_of_ok hfound]
      rfl
    | false =>
      have hfound : Machine.Run.holder r w.machine =
          .error (.fault (.undefinedVariable r.name)) w.machine := by
        simp only [Machine.Run.holder, Steps.get_bind, hr, holder?_globals hs, hglobal]
        rfl
      rw [Machine.Run.store, Steps.bind_of_error hfound]
      rfl

/-- A name that was declared just now is written to where it was declared. -/
theorem coupled_assignName {name : Name} {v : Value} (hs : w.Sound)
    (ha : At w env (ribs.extend name.text)) (hv : ValueOk w v) (hfits : Fitting name.text v) :
    Coupled opened w (Machine.assignName name v) (assign env name v) fun _ _ _ => True := by
  refine coupled_assign hs ha.mirrors (fun d g hd hout hbinds => ?_) (fun hd => ?_) hv hfits
  · cases ribs with
    | nil => cases hd
    | cons rib outer =>
      have hd0 : some 0 = some d := by
        refine Eq.trans ?_ hd
        simp [Ribs.extend, Ribs.distance?_cons, Rib.add]
      cases hd0
      cases hout
      have hholder : w.machine.heap.frames.holder? w.machine.environment name.text =
          some w.machine.environment := Frames.holder?_self hbinds
      rw [Machine.assignName, Steps.get_bind, hholder]
  · cases ribs with
    | nil =>
      rw [Machine.assignName, Steps.get_bind, (ha.outside rfl).1, holder?_globals hs]
      cases w.state.globals.contains name.text <;> rfl
    | cons rib outer =>
      simp [Ribs.extend, Ribs.distance?_cons, Rib.add] at hd

/-- **An assignment in a variable's own initializer** does not find the variable. -/
theorem store_own {r : Reference} {v : Value} (hr : w.machine.distances.get? r.id = some 0)
    (hunbound : (w.frames.binding? w.machine.environment r.name.text).isSome = false) :
    Machine.Run.store r v w.machine = .error (.fault (.unbound r.name.text 0)) w.machine := by
  have hholder : w.machine.heap.frames.holderAt w.machine.environment 0 r.name.text = .error 0 :=
    Frames.holderAt_eq_error hunbound
  have hmissing : Machine.Run.holder r w.machine =
      .error (.fault (.unbound r.name.text 0)) w.machine := by
    simp only [Machine.Run.holder, Steps.get_bind, hr, hholder]
    rfl
  rw [Machine.Run.store, Steps.bind_of_error hmissing]

/-! ## Declaring -/

theorem At.declare {rib : Rib} {outer : Ribs} {x : String} {v : Value}
    (h : At w env (rib :: outer)) :
    At (w.declare w.machine.environment x v) (env.extend x w.places.length)
      (rib.add x :: outer) where
  mirrors := h.mirrors.declare
  outside := nofun
  inside _ _ hribs := by
    cases hribs
    obtain ⟨hlocal, hne, hlt, hbinds⟩ := h.inside rib outer rfl
    refine ⟨hlocal, hne, Nat.lt_of_lt_of_eq hlt Frames.size_define.symm, fun y => ?_⟩
    by_cases hy : y = x
    · subst hy
      refine (congrArg Option.isSome (Frames.binding?_define_self hlt)).trans ?_
      simp [Rib.add]
    · refine (congrArg Option.isSome (Frames.binding?_define_of_ne (.inr hy))).trans ?_
      refine (hbinds y).trans ?_
      simp [Rib.add, hy]

theorem At.addFrame {outer : FrameId} (h : Mirrors w outer env.names ribs) (hs : w.Sound) :
    At ((w.addFrame outer).moveTo w.nextFrame) env.inside (.none :: ribs) where
  mirrors := h.addFrame.mono (World.grows_moveTo : World.Grows none _ _)
  outside := nofun
  inside _ _ hribs := by
    cases hribs
    refine ⟨rfl, ?_, ?_, fun x => ?_⟩
    · intro he
      have hlt : w.machine.globals.index < w.frames.all.size := hs.lt_globals
      rw [← show w.nextFrame = w.machine.globals from he] at hlt
      exact Nat.lt_irrefl _ hlt
    · show _ < (w.frames.all.push _).size
      rw [Array.size_push]
      exact Nat.lt_succ_self _
    · exact congrArg Option.isSome (Frames.binding?_push_self _ _)

theorem coupled_declare {x : String} {v : Value} (hs : w.Sound) (ha : At w env ribs)
    (hfresh : ribs.Fresh x) (hv : ValueOk w v) (hfits : Fitting x v) :
    Coupled (some w.machine.environment) w (Machine.Run.define x v) (declare env x v)
      fun w' _ env' => At w' env' (ribs.extend x) := by
  cases ribs with
  | nil =>
    obtain ⟨henv, hlocal⟩ := ha.outside rfl
    refine .step (w.writeGlobal x v) (a := ()) ?_ (declare_of_global hlocal)
      ⟨hs.grows_writeGlobal (.inr (by rw [henv])), hs.writeGlobal hv, rfl⟩ ?_
    · show EStateM.Result.ok () { w.machine with heap := { w.machine.heap with
        frames := w.frames.define w.machine.environment x v } } = _
      rw [henv]
      rfl
    · have hw : w.Grows (some w.machine.globals) (w.writeGlobal x v) :=
        hs.grows_writeGlobal (.inr rfl)
      exact ⟨ha.mirrors.mono hw, fun _ => ⟨henv, hlocal⟩, nofun⟩
  | cons rib outer =>
    obtain ⟨hlocal, hne, hlt, hbinds⟩ := ha.inside rib outer rfl
    have hunbound : (w.frames.binding? w.machine.environment x).isSome = false :=
      (hbinds x).trans (hfresh rib rfl)
    refine .step (w.declare w.machine.environment x v) (a := ())
      (b := env.extend x w.places.length) rfl ?_
      ⟨World.grows_declare, hs.declare hne hlt hunbound hv hfits, rfl⟩ ha.declare
    rw [← hs.sameVariables.length]
    exact declare_of_local hlocal

end

end Lox.Lexical
