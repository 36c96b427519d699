import Lox.Proofs.Lexical.Declarations
import Lox.Proofs.Operators

/-!
# Whole programs on both sides

Every form of expression and statement runs alike on both sides if its parts do
(`coupled_evaluateWith`, `coupled_executeWith`), so all expressions and statements do, by induction on
the fuel (`evaluates`, `executes`).  The one thing that the two sides do not have in common is an
assignment to a local variable in the variable's own initializer: the machine looks for the variable
in the current frame, which does not bind it yet, and a strict run stops there.
-/

namespace Lox.Lexical

/-- Whether the own name of a place is not bound yet by the innermost rib. -/
def Pending (ribs : Ribs) (own : Option String) : Prop :=
  ∀ x, own = some x → ∃ rib outer, ribs = rib :: outer ∧ rib x = false

/-- **Whether expressions run alike** wherever they are resolved. -/
def Evaluates (x : Expr → Machine.Run Value) (y : Env → Option String → Expr → Run Value) : Prop :=
  ∀ {w env ribs own e}, w.Sound → At w env ribs → Pending ribs own →
    e.Resolved w.machine.distances w.bound ribs own →
    Coupled none w (x e) (y env own e) fun w' a b => a = b ∧ ValueOk w' a

theorem pending_none {ribs : Ribs} : Pending ribs none := nofun

section
variable {opened : Option FrameId} {w w' : World} {env : Env} {ribs : Ribs} {own : Option String}
  {x : Expr → Machine.Run Value} {y : Env → Option String → Expr → Run Value}
  {x' : Stmt → Machine.Run Machine.Flow} {y' : Env → Stmt → Run (Machine.Flow × Env)}

theorem Evaluates.run (h : Evaluates x y) {e : Expr} (hs : w.Sound) (ha : At w env ribs)
    (hown : Pending ribs own) (hr : e.Resolved w.machine.distances w.bound ribs own) :
    Coupled opened w (x e) (y env own e)
      fun w' a b => a = b ∧ ValueOk w' a ∧ At w' env ribs := by
  refine Coupled.opening ((h hs ha hown hr).mono fun a b w' hw ⟨hsame, hok⟩ => ?_)
  exact ⟨hsame, hok, ha.mono hw.grows hw.environment⟩

theorem Evaluates.run? (h : Evaluates x y) {e : Option Expr} (hs : w.Sound) (ha : At w env ribs)
    (hown : Pending ribs own)
    (hr : Expr.Resolved? w.machine.distances w.bound ribs own e) :
    Coupled opened w (Machine.evaluate? x e) (evaluate? (y env own) e)
      fun w' a b => a = b ∧ ValueOk w' a ∧ At w' env ribs := by
  cases e with
  | none => exact .pure hs ⟨rfl, trivial, ha⟩
  | some e => exact h.run hs ha hown hr

/-! ## Operators -/

/-- Whether what an operator makes is a value that can be called, or a mistake of the program. -/
def Harmless (w : World) : Except Machine.Fault Value → Prop
  | .ok v => ValueOk w v
  | .error fault => ¬fault.IsInternal

theorem Harmless.of_computed {line : Nat} {r : Except Machine.Fault Value}
    (h : Machine.Computed line r) : Harmless w r := by
  cases h with
  | bool | number | string => trivial
  | _ => exact nofun

theorem coupled_ofExcept {r : Except Machine.Fault Value} (hs : w.Sound) (hr : Harmless w r) :
    Coupled none w (Machine.Run.ofExcept r) (ofExcept r) fun w' a b => a = b ∧ ValueOk w' a := by
  cases r with
  | ok v => exact .pure hs ⟨rfl, hr⟩
  | error fault => exact .fail hs hr

/-! ## Expressions -/

theorem coupled_evaluateAll (h : Evaluates x y) : ∀ {es : List Expr} {w : World}, w.Sound →
    At w env ribs → Pending ribs own →
    Expr.AllResolved w.machine.distances w.bound ribs own es →
    Coupled none w (Machine.evaluateAll x es) (evaluateAll (y env own) es)
      fun w' a b => a = b ∧ ∀ v ∈ a, ValueOk w' v
  | [], _, hs, _, _, _ => .pure hs ⟨rfl, nofun⟩
  | first :: others, w, hs, ha, hown, ⟨hfirst, hothers⟩ => by
    refine (h.run hs ha hown hfirst).bind fun v _ w₁ hw₁ ⟨hsame, hok, ha₁⟩ => ?_
    subst hsame
    rw [← hw₁.grows.distances, ← hw₁.grows.bound] at hothers
    refine (coupled_evaluateAll h hw₁.sound ha₁ hown hothers).bind
      fun vs _ w₂ hw₂ ⟨hsame, hoks⟩ => ?_
    subst hsame
    refine .pure hw₂.sound ⟨rfl, fun u hu => ?_⟩
    rcases List.mem_cons.mp hu with rfl | hu
    · exact hok.mono hw₂.grows
    · exact hoks u hu

theorem coupled_setField {id : InstanceId} {name : String} {v : Value} (hs : w.Sound)
    (hv : ValueOk w v) :
    Coupled none w (modify fun m : Machine => { m with heap := m.heap.setField id name v })
      (modify fun s : State => { s with instances := (s.heap.setField id name v).instances })
      fun w' _ _ => w.Grows none w' := by
  have hw : w.Grows none (w.withInstances (w.state.heap.setField id name v).instances) :=
    World.grows_withInstances
  refine .step (w.withInstances (w.state.heap.setField id name v).instances) (a := ()) ?_ rfl
    ⟨hw, hs.withInstances fun i o field u ho hu => ?_, rfl⟩ hw
  · show EStateM.Result.ok () { w.machine with heap := w.machine.heap.setField id name v } = _
    rw [Heap.setField, hs.sameObjects.instances]
    rfl
  · obtain ⟨old, hold, -, hfields⟩ := Heap.exists_of_getElem?_setField ho
    rcases hfields field u hu with rfl | hu
    · exact hv
    · exact hs.sameObjects.fields i old field u hold hu

/-- **Assignments run alike**, but for one to a variable in its own initializer. -/
theorem coupled_assignment {target : Reference} {v : Value} (hs : w.Sound) (ha : At w env ribs)
    (hown : Pending ribs own)
    (htarget : target.ResolvedTarget w.machine.distances w.bound ribs own) (hv : ValueOk w v) :
    Coupled none w
      (do
        Machine.Run.store target v
        return v)
      (if own = some target.name.text then throw (Stop.ownAssignment target.name.text)
      else do
        assign env target.name v
        return v)
      fun w' a b => a = b ∧ ValueOk w' a := by
  obtain ⟨hplain, -, hget⟩ := htarget
  by_cases he : own = some target.name.text
  · rw [if_pos he] at hget ⊢
    obtain ⟨rib, outer, hribs, hrib⟩ := hown _ he
    obtain ⟨-, -, -, hbinds⟩ := ha.inside rib outer hribs
    refine .stop (e := .fault (.unbound target.name.text 0)) ?_ rfl hs rfl
    rw [Steps.bind_of_error (store_own hget ((hbinds _).trans hrib))]
  · rw [if_neg he] at hget ⊢
    refine (coupled_store hs ha.mirrors hget hv (.of_plain hplain)).bind fun _ _ w' hw _ => ?_
    exact .pure hw.sound ⟨rfl, hv.mono hw.grows⟩

/-- **One step into an expression** keeps runs alike. -/
theorem coupled_evaluateWith (h : Evaluates x y) (hx : Executes x' y') : ∀ {e : Expr}, w.Sound →
    At w env ribs → Pending ribs own → e.Resolved w.machine.distances w.bound ribs own →
    Coupled none w (Machine.evaluateWith x x' e) (evaluateWith (y env own) y' env own e)
      fun w' a b => a = b ∧ ValueOk w' a
  | .literal value, hs, _, _, _ => by
    refine .pure hs ⟨rfl, ?_⟩
    cases value <;> trivial
  | .group inner, hs, ha, hown, hr => h (e := inner) hs ha hown hr
  | .unary op line operand, hs, ha, hown, hr => by
    refine (h (e := operand) hs ha hown hr).bind fun v _ w₁ hw₁ ⟨hsame, _⟩ => ?_
    subst hsame
    exact coupled_ofExcept hw₁.sound (.of_computed (Machine.computed_applyUnary op line v))
  | .binary left op line right, hs, ha, hown, ⟨hleft, hright⟩ => by
    refine (h.run hs ha hown hleft).bind fun a _ w₁ hw₁ ⟨hsame, _, ha₁⟩ => ?_
    subst hsame
    rw [← hw₁.grows.distances, ← hw₁.grows.bound] at hright
    refine (h hw₁.sound ha₁ hown hright).bind fun b _ w₂ hw₂ ⟨hsame, _⟩ => ?_
    subst hsame
    exact coupled_ofExcept hw₂.sound (.of_computed (Machine.computed_applyBinary op line a b))
  | .logical left op right, hs, ha, hown, ⟨hleft, hright⟩ => by
    refine (h.run hs ha hown hleft).bind fun a _ w₁ hw₁ ⟨hsame, hok, ha₁⟩ => ?_
    subst hsame
    rw [← hw₁.grows.distances, ← hw₁.grows.bound] at hright
    by_cases hsettles : Machine.settles op a = true
    · rw [if_pos hsettles, if_pos hsettles]
      exact .pure hw₁.sound ⟨rfl, hok⟩
    · rw [if_neg hsettles, if_neg hsettles]
      exact h hw₁.sound ha₁ hown hright
  | .var reference, hs, ha, _, hr => coupled_lookUp hs ha.mirrors hr.2.2
  | .assign target value, hs, ha, hown, ⟨hvalue, htarget⟩ => by
    refine (h.run hs ha hown hvalue).bind fun v _ w₁ hw₁ ⟨hsame, hok, ha₁⟩ => ?_
    subst hsame
    rw [← hw₁.grows.distances, ← hw₁.grows.bound] at htarget
    exact coupled_assignment hw₁.sound ha₁ hown htarget hok
  | .call callee line args, hs, ha, hown, ⟨hcallee, hargs⟩ => by
    refine (h.run hs ha hown hcallee).bind fun f _ w₁ hw₁ ⟨hsame, hok, ha₁⟩ => ?_
    subst hsame
    rw [← hw₁.grows.distances, ← hw₁.grows.bound] at hargs
    refine (coupled_evaluateAll h hw₁.sound ha₁ hown hargs).bind
      fun vs _ w₂ hw₂ ⟨hsame, hoks⟩ => ?_
    subst hsame
    exact coupled_callValue hx hw₂.sound (hok.mono hw₂.grows) hoks
  | .get object name, hs, ha, hown, hr => by
    refine (h (e := object) hs ha hown hr).bind fun v _ w₁ hw₁ ⟨hsame, _⟩ => ?_
    subst hsame
    cases v with
    | inst id => exact coupled_property hw₁.sound
    | _ => exact .fail hw₁.sound nofun
  | .set object name value, hs, ha, hown, ⟨hobject, hvalue⟩ => by
    refine (h.run hs ha hown hobject).bind fun v _ w₁ hw₁ ⟨hsame, _, ha₁⟩ => ?_
    subst hsame
    rw [← hw₁.grows.distances, ← hw₁.grows.bound] at hvalue
    cases v with
    | inst id =>
      refine (h hw₁.sound ha₁ hown hvalue).bind fun u _ w₂ hw₂ ⟨hsame, hok⟩ => ?_
      subst hsame
      refine (coupled_setField hw₂.sound hok).bind fun _ _ w₃ hw₃ hgrows => ?_
      exact .pure hw₃.sound ⟨rfl, hok.mono hgrows⟩
    | _ => exact .fail hw₁.sound nofun
  | .this keyword, hs, ha, _, ⟨hname, _, d, hd, hget⟩ => by
    refine coupled_lookUp hs ha.mirrors ?_
    rw [hname, hget, hd]
  | .super keyword method, hs, ha, _, ⟨_, d, hthis, hsuper, hget⟩ =>
    coupled_superMethod hs ha.mirrors hthis hsuper hget

/-! ## Statements -/

/-- A place is what it was if the names of the current frame are. -/
theorem At.back {env' : Env} (h : At w env ribs) (h' : At w' env' ribs) (hw : w.Grows opened w')
    (henv : w'.machine.environment = w.machine.environment) : At w' env ribs where
  mirrors := by
    rw [henv]
    exact h.mirrors.mono hw
  outside hribs := ⟨(h'.outside hribs).1, (h.outside hribs).2⟩
  inside rib outer hribs :=
    ⟨(h.inside rib outer hribs).1, (h'.inside rib outer hribs).2⟩

theorem Executes.run (h : Executes x' y') {s : Stmt} (hs : w.Sound) (ha : At w env ribs)
    (hdeclared : s.declared? = none) (hr : s.Resolved w.machine.distances w.bound ribs) :
    Coupled (some w.machine.environment) w (x' s) (y' env s)
      fun w' a b => a = b.1 ∧ FlowOk w' a ∧ At w' env ribs := by
  refine (h hs ha hr).mono fun a b w' hw ⟨hsame, hok, ha'⟩ => ⟨hsame, hok, ?_⟩
  have hbehind : s.behind ribs = ribs := by rw [Stmt.behind, hdeclared]
  rw [hbehind] at ha'
  exact ha.back ha' hw.grows hw.environment

/-- A branch of a statement runs alike, and the map behind it does not matter. -/
theorem Executes.branch (h : Executes x' y') {s : Stmt} (hs : w.Sound) (ha : At w env ribs)
    (hdeclared : s.declared? = none) (hr : s.Resolved w.machine.distances w.bound ribs) :
    Coupled (some w.machine.environment) w (x' s) (within env (y' env s))
      fun w' a b => a = b.1 ∧ FlowOk w' a ∧ At w' b.2 ribs := by
  have hrun := (h.run hs ha hdeclared hr).yields (g := fun r => (r.1, env))
    (R := fun w' a b => a = b.1 ∧ FlowOk w' a ∧ At w' b.2 ribs) fun _ _ _ _ hq => hq
  exact hrun

/-- **Lines are written alike.** -/
theorem coupled_writeLine (text : String) (hs : w.Sound) :
    Coupled none w (Machine.Run.writeLine text) (writeLine text) fun _ _ _ => True := by
  have hmachine : Machine.Run.writeLine text w.machine =
      (if (w.machine.sink.write (text ++ "\n").toUTF8).2 then EStateM.Result.ok ()
        else EStateM.Result.error (.fault .sinkFull))
        { w.machine with sink := (w.machine.sink.write (text ++ "\n").toUTF8).1 } := by
    show (unless (w.machine.sink.write (text ++ "\n").toUTF8).2 do
      Machine.Run.fail .sinkFull : Machine.Run Unit) _ = _
    cases (w.machine.sink.write (text ++ "\n").toUTF8).2 <;> rfl
  have hstate : writeLine text w.state =
      (if (w.machine.sink.write (text ++ "\n").toUTF8).2 then EStateM.Result.ok ()
        else EStateM.Result.error (.fault .sinkFull))
        { w.state with
          sink := (w.machine.sink.write (text ++ "\n").toUTF8).1
          clock := w.machine.clock } := by
    rw [hs.sameObjects.sink, hs.sameObjects.clock]
    show (unless (w.state.sink.write (text ++ "\n").toUTF8).2 do
      fail .sinkFull : Run Unit) _ = _
    cases (w.state.sink.write (text ++ "\n").toUTF8).2 <;> rfl
  refine ⟨w.withOutside (w.machine.sink.write (text ++ "\n").toUTF8).1 w.machine.flushes
    w.machine.clock, ⟨World.grows_withOutside, hs.withOutside, rfl⟩, ?_⟩
  rw [hmachine, hstate]
  cases (w.machine.sink.write (text ++ "\n").toUTF8).2 with
  | true => exact .inl ⟨(), (), rfl, rfl, trivial⟩
  | false => exact .inr ⟨.fault .sinkFull, .fault .sinkFull, rfl, rfl, rfl, nofun⟩

/-- **Loops run alike** if their conditions and bodies do. -/
theorem coupled_loop {c : Machine.Run Value} {b : Machine.Run Machine.Flow} {c' : Run Value}
    {b' : Run Machine.Flow} {inv : World → Prop}
    (hsound : ∀ {w}, inv w → w.Sound)
    (hc : ∀ {w}, inv w → Coupled opened w c c' fun w' a b => a = b ∧ inv w')
    (hb : ∀ {w}, inv w → Coupled opened w b b' fun w' a b => a = b ∧ FlowOk w' a ∧ inv w') :
    ∀ (rounds : Nat) {w : World}, inv w →
      Coupled opened w (Machine.loop c b rounds) (loop c' b' rounds)
        fun w' a b => a = b ∧ FlowOk w' a ∧ inv w'
  | 0, _, hw => .outOfFuel (hsound hw)
  | rounds + 1, w, hw => by
    refine (hc hw).bind fun v _ w₁ hw₁ ⟨hsame, hinv⟩ => ?_
    subst hsame
    by_cases htruthy : v.isTruthy = true
    · rw [if_pos htruthy, if_pos htruthy]
      refine (hb hinv).bind fun flow _ w₂ hw₂ ⟨hsame, hok, hinv⟩ => ?_
      subst hsame
      cases flow with
      | normal => exact coupled_loop hsound hc hb rounds hinv
      | returned u => exact .pure hw₂.sound ⟨rfl, hok, hinv⟩
    · rw [if_neg htruthy, if_neg htruthy]
      exact .pure hw₁.sound ⟨rfl, trivial, hinv⟩

/-- **Blocks run alike**, in a new frame and with new locations. -/
theorem coupled_block (hx : Executes x' y') {body : List Stmt} (hs : w.Sound) (ha : At w env ribs)
    (hr : Stmt.AllResolved w.machine.distances w.bound (.none :: ribs) body) :
    Coupled none w (Machine.runBlock x' body) (runAll y' env.inside body)
      fun w' a b => a = b ∧ FlowOk w' a := by
  have hs₁ : (w.addFrame w.machine.environment).Sound := hs.addFrame
  refine Coupled.get_left ?_
  refine .closing_left (w.addFrame w.machine.environment) (a := w.nextFrame) rfl rfl
    ⟨World.grows_addFrame, hs₁, rfl⟩ (Nat.le_refl _) ?_
  refine (coupled_runAll hx hs₁.moveTo (At.addFrame ha.mirrors hs) hr).withFrame.mono
    fun _ _ _ _ ⟨hsame, hok⟩ => ⟨hsame, ?_⟩
  exact hok.mono (World.grows_of_moveTo : World.Grows none _ _)

theorem ownName_eq (ha : At w env ribs) (name : Name) :
    ownName true env name = ribs.own name.text := by
  cases ribs with
  | nil => simp [ownName, Ribs.own, (ha.outside rfl).2]
  | cons rib outer => simp [ownName, Ribs.own, (ha.inside rib outer rfl).1]

theorem pending_own {name : String} (hfresh : ribs.Fresh name) : Pending ribs (ribs.own name) := by
  intro z hz
  cases ribs with
  | nil => cases hz
  | cons rib outer =>
    cases hz
    exact ⟨rib, outer, rfl, hfresh rib rfl⟩

/-- **One step into a statement** keeps runs alike. -/
theorem coupled_executeWith (h : Evaluates x y) (hx : Executes x' y') {rounds : Nat} :
    ∀ {s : Stmt}, w.Sound → At w env ribs → s.Resolved w.machine.distances w.bound ribs →
    Coupled (some w.machine.environment) w (Machine.executeWith x x' rounds s)
      (executeWith true y y' rounds env s)
      fun w' a b => a = b.1 ∧ FlowOk w' a ∧ At w' b.2 (s.behind ribs)
  | .expr value, hs, ha, hr => by
    refine (h.run (e := value) hs ha pending_none hr).bind fun v _ w₁ hw₁ ⟨_, _, ha₁⟩ => ?_
    exact .pure hw₁.sound ⟨rfl, trivial, ha₁⟩
  | .print value, hs, ha, hr => by
    refine (h.run (e := value) hs ha pending_none hr).bind fun v _ w₁ hw₁ ⟨hsame, _, ha₁⟩ => ?_
    subst hsame
    refine .after w₁ (a := w₁.machine.heap) (b := w₁.state) rfl rfl (.refl hw₁.sound) ?_
    rw [hw₁.sound.agree.display hw₁.sound.sameObjects.instances.symm]
    refine Coupled.opening ((coupled_writeLine _ hw₁.sound).bind fun _ _ w₂ hw₂ _ => ?_)
    exact .pure hw₂.sound ⟨rfl, trivial, ha₁.mono hw₂.grows hw₂.environment⟩
  | .var name initializer, hs, ha, ⟨hplain, hfresh, hr⟩ => by
    rw [← ownName_eq ha name] at hr
    have hown : Pending ribs (ownName true env name) := by
      rw [ownName_eq ha name]
      exact pending_own hfresh
    refine (h.run? hs ha hown hr).bind fun v _ w₁ hw₁ ⟨hsame, hok, ha₁⟩ => ?_
    subst hsame
    rw [← hw₁.environment]
    refine (coupled_declare hw₁.sound ha₁ hfresh hok (.of_plain hplain)).bind
      fun _ behind w₂ hw₂ ha₂ => ?_
    exact .pure hw₂.sound ⟨rfl, trivial, ha₂⟩
  | .block body, hs, ha, hr => by
    refine Coupled.opening ((coupled_block hx hs ha hr).yields fun flow _ w₁ hw₁ ⟨hsame, hok⟩ => ?_)
    exact ⟨hsame, hok, ha.mono hw₁.grows hw₁.environment⟩
  | .ifElse condition thenBranch none, hs, ha, ⟨hc, hdeclared, hthen⟩ => by
    refine (h.run hs ha pending_none hc).bind fun v _ w₁ hw₁ ⟨hsame, _, ha₁⟩ => ?_
    subst hsame
    rw [← hw₁.grows.distances, ← hw₁.grows.bound] at hthen
    by_cases htruthy : v.isTruthy = true
    · rw [if_pos htruthy, if_pos htruthy, ← hw₁.environment]
      exact hx.branch hw₁.sound ha₁ hdeclared hthen
    · rw [if_neg htruthy, if_neg htruthy]
      exact .pure hw₁.sound ⟨rfl, trivial, ha₁⟩
  | .ifElse condition thenBranch (some elseBranch), hs, ha, ⟨hc, hdeclared, hthen, hdeclared', helse⟩ => by
    refine (h.run hs ha pending_none hc).bind fun v _ w₁ hw₁ ⟨hsame, _, ha₁⟩ => ?_
    subst hsame
    rw [← hw₁.grows.distances, ← hw₁.grows.bound] at hthen helse
    by_cases htruthy : v.isTruthy = true
    · rw [if_pos htruthy, if_pos htruthy, ← hw₁.environment]
      exact hx.branch hw₁.sound ha₁ hdeclared hthen
    · rw [if_neg htruthy, if_neg htruthy, ← hw₁.environment]
      exact hx.branch hw₁.sound ha₁ hdeclared' helse
  | .whileDo condition body, hs, ha, ⟨hc, hdeclared, hb⟩ => by
    -- what a round needs and leaves behind
    have hround : Coupled (some w.machine.environment) w
        (Machine.loop (x condition) (x' body) rounds)
        (loop (y env none condition) (y' env body >>= fun r => pure r.1) rounds)
        fun w₁ a b => a = b ∧ FlowOk w₁ a ∧
          w.Becomes (some w.machine.environment) w₁ ∧ At w₁ env ribs := coupled_loop
      (fun hinv => hinv.1.sound)
      (fun {w₁} ⟨hw₁, ha₁⟩ => by
        rw [← hw₁.grows.distances, ← hw₁.grows.bound] at hc
        refine (h.run hw₁.sound ha₁ pending_none hc).mono fun _ _ w₂ hw₂ ⟨hsame, _, ha₂⟩ => ?_
        exact ⟨hsame, hw₁.trans hw₂, ha₂⟩)
      (fun {w₁} ⟨hw₁, ha₁⟩ => by
        rw [← hw₁.grows.distances, ← hw₁.grows.bound] at hb
        have hbody := hx.run hw₁.sound ha₁ hdeclared hb
        rw [hw₁.environment] at hbody
        exact hbody.yields fun _ _ w₂ hw₂ ⟨hsame, hok, ha₂⟩ => ⟨hsame, hok, hw₁.trans hw₂, ha₂⟩)
      rounds ⟨.refl hs, ha⟩
    exact hround.yields fun _ _ _ _ ⟨hsame, hok, _, ha₁⟩ => ⟨hsame, hok, ha₁⟩
  | .function declaration, hs, ha, ⟨hplain, hfresh, hr⟩ =>
    coupled_function hs ha hplain hfresh hr
  | .ret keyword value, hs, ha, hr => by
    refine (h.run? (e := value) hs ha pending_none hr).bind fun v _ w₁ hw₁ ⟨hsame, hok, ha₁⟩ => ?_
    subst hsame
    exact .pure hw₁.sound ⟨rfl, hok, ha₁⟩
  | .classDecl name superclass methods, hs, ha, ⟨hplain, hfresh, hsuperclass, hmethods⟩ => by
    refine (coupled_declareClass hs ha hplain hfresh hsuperclass hmethods).bind
      fun _ behind w₁ hw₁ ha₁ => ?_
    exact .pure hw₁.sound ⟨rfl, trivial, ha₁⟩

end

/-! ## Any amount of fuel -/

mutual

/-- **All expressions run alike.** -/
theorem evaluates : ∀ fuel : Nat, Evaluates (Machine.evaluate fuel) (evaluate true fuel)
  | 0, _, _, _, _, _, hs, _, _, _ => .outOfFuel hs
  | fuel + 1, _, _, _, _, _, hs, ha, hown, hr =>
    coupled_evaluateWith (evaluates fuel) (executes fuel) hs ha hown hr

/-- **All statements run alike.** -/
theorem executes : ∀ fuel : Nat, Executes (Machine.execute fuel) (execute true fuel)
  | 0, _, _, _, _, hs, _, _ => .outOfFuel hs
  | fuel + 1, _, _, _, _, hs, ha, hr =>
    coupled_executeWith (evaluates fuel) (executes fuel) hs ha hr

end

end Lox.Lexical
