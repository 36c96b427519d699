import Lox.Proofs.Lexical.Calls
import Lox.Proofs.Restoring

/-!
# Declarations of functions and classes on both sides

A name is declared before what it names is made, so that functions and methods can use it.  On the
machine's side a function's name is bound only once, behind the making of the function: nobody can
have looked in between (`Frames.define_define`).
-/

namespace Lox.Lexical

section
variable {opened : Option FrameId} {w : World} {env : Env} {ribs : Ribs}

/-! ## Functions -/

theorem newFunction_eq (closure : Closure) (s : State) :
    newFunction closure s =
      .ok ⟨s.functions.length⟩ { s with functions := s.functions ++ [closure] } := rfl

/-- What the machine does for the declaration of a function. -/
theorem execute_function (evaluate : Expr → Machine.Run Value)
    (execute : Stmt → Machine.Run Machine.Flow) (rounds : Nat) (declaration : FunctionDecl)
    (m : Machine) :
    Machine.executeWith evaluate execute rounds (.function declaration) m =
      .ok .normal { m with heap := { m.heap with
        frames := m.heap.frames.define m.environment declaration.name.text
          (.function ⟨m.heap.functions.size⟩)
        functions := m.heap.functions.push ⟨declaration, m.environment, false⟩ } } := rfl

/-- What the other side does for it inside a block or a function, -/
theorem execute_function_local {strict : Bool} {evaluate : Env → Option String → Expr → Run Value}
    {execute : Env → Stmt → Run (Machine.Flow × Env)} {rounds : Nat} {declaration : FunctionDecl}
    {s : State} (hlocal : env.isLocal = true) :
    executeWith strict evaluate execute rounds env (.function declaration) s =
      .ok (.normal, env.extend declaration.name.text s.store.length)
        { s with
          store := (s.store ++ [Value.nil]).set s.store.length (.function ⟨s.functions.length⟩)
          functions := s.functions ++
            [⟨declaration, env.extend declaration.name.text s.store.length, false⟩] } := by
  have hlookup : (env.extend declaration.name.text s.store.length).names.lookup
      declaration.name.text = some s.store.length := by
    rw [Env.extend, Table.lookup_cons, if_pos rfl]
  rw [executeWith, Steps.bind_of_ok (declare_of_local hlocal),
    Steps.bind_of_ok (newFunction_eq _ _),
    Steps.bind_of_ok (assign_of_some hlookup)]
  rfl

/-- and on the outermost level. -/
theorem execute_function_global {strict : Bool} {evaluate : Env → Option String → Expr → Run Value}
    {execute : Env → Stmt → Run (Machine.Flow × Env)} {rounds : Nat} {declaration : FunctionDecl}
    {s : State} (hlocal : env.isLocal = false)
    (hlookup : env.names.lookup declaration.name.text = none) :
    executeWith strict evaluate execute rounds env (.function declaration) s =
      .ok (.normal, env)
        { s with
          globals := s.globals.put declaration.name.text (.function ⟨s.functions.length⟩)
          functions := s.functions ++ [⟨declaration, env, false⟩] } := by
  have hcontains : (s.globals.put declaration.name.text .nil).contains declaration.name.text := by
    rw [Table.contains, Table.get?_put_self]
    rfl
  rw [executeWith, Steps.bind_of_ok (declare_of_global hlocal),
    Steps.bind_of_ok (newFunction_eq _ _)]
  rw [Steps.bind_of_ok ((assign_of_none hlookup).trans (if_pos hcontains)), Table.put_put]
  rfl

/-- The world behind the declaration of a function inside a block or a function. -/
def World.declareFunction (w : World) (declaration : FunctionDecl) (env : Env) : World :=
  ((w.declare w.machine.environment declaration.name.text .nil).addFunction
    ⟨declaration, w.machine.environment, false⟩
    (env.extend declaration.name.text w.places.length)).write w.places.length
      w.machine.environment declaration.name.text (.function w.nextFunction)

/-- The world behind the declaration of a function on the outermost level. -/
def World.declareFunctionGlobal (w : World) (declaration : FunctionDecl) (env : Env) : World :=
  (w.addFunction ⟨declaration, w.machine.environment, false⟩ env).writeGlobal
    declaration.name.text (.function w.nextFunction)

/-- A function can be called as soon as it is made behind the declaration of its name. -/
theorem World.Sound.functionOk_addFunction {declaration : FunctionDecl} (hs : w.Sound)
    (ha : At w env ribs) (hresolved : declaration.Resolved w.machine.distances w.bound ribs) :
    FunctionOk (w.addFunction ⟨declaration, w.machine.environment, false⟩ env) w.nextFunction :=
  ⟨_, _, _, hs.twin_addFunction (f := ⟨declaration, w.machine.environment, false⟩) ha.mirrors,
    hresolved, nofun⟩

/-- **Functions are declared alike.** -/
theorem coupled_function {strict : Bool} {x : Expr → Machine.Run Value}
    {x' : Stmt → Machine.Run Machine.Flow} {y : Env → Option String → Expr → Run Value}
    {y' : Env → Stmt → Run (Machine.Flow × Env)} {rounds rounds' : Nat}
    {declaration : FunctionDecl} (hs : w.Sound) (ha : At w env ribs)
    (hplain : Plain declaration.name.text) (hfresh : ribs.Fresh declaration.name.text)
    (hresolved : declaration.Resolved w.machine.distances w.bound
      (ribs.extend declaration.name.text)) :
    Coupled (some w.machine.environment) w
      (Machine.executeWith x x' rounds (.function declaration))
      (executeWith strict y y' rounds' env (.function declaration))
      fun w' a b => a = b.1 ∧ FlowOk w' a ∧ At w' b.2 (ribs.extend declaration.name.text) := by
  have hnext : w.nextFunction = ⟨w.machine.heap.functions.size⟩ :=
    congrArg FunctionId.mk hs.sameObjects.functions.symm
  cases ribs with
  | nil =>
    obtain ⟨henv, hlocal⟩ := ha.outside rfl
    have hs₁ : (w.addFunction ⟨declaration, w.machine.environment, false⟩ env).Sound :=
      hs.addFunction
    have hw : w.Becomes (some w.machine.environment) (w.declareFunctionGlobal declaration env) :=
      ⟨World.grows_addFunction.trans (hs₁.grows_writeGlobal (.inr (congrArg some henv))),
        hs₁.writeGlobal (hs.functionOk_addFunction ha hresolved), rfl⟩
    refine .step _ (a := .normal) (b := (.normal, env)) ?_
      (execute_function_global hlocal (ha.mirrors.unbound _ rfl)) hw
      ⟨rfl, trivial, ha.mirrors.mono hw.grows, fun _ => ⟨henv, hlocal⟩, nofun⟩
    have hframes : w.machine.heap.frames.define w.machine.environment declaration.name.text
        (.function w.nextFunction) = w.machine.heap.frames.define w.machine.globals
        declaration.name.text (.function w.nextFunction) := by rw [henv]
    rw [execute_function, ← hnext, hframes]
    rfl
  | cons rib outer =>
    obtain ⟨hlocal, hne, hlt, hbinds⟩ := ha.inside rib outer rfl
    have hs₁ : (w.declare w.machine.environment declaration.name.text .nil).Sound :=
      hs.declare hne hlt ((hbinds _).trans (hfresh rib rfl)) trivial (.of_plain hplain)
    have ha₁ : At (w.declare w.machine.environment declaration.name.text .nil)
        (env.extend declaration.name.text w.places.length) (rib.add declaration.name.text :: outer) :=
      ha.declare
    have hs₂ : ((w.declare w.machine.environment declaration.name.text .nil).addFunction
        ⟨declaration, w.machine.environment, false⟩
        (env.extend declaration.name.text w.places.length)).Sound := hs₁.addFunction
    have hplace := w.places_declare w.machine.environment declaration.name.text .nil
    have hw₁ : (w.declare w.machine.environment declaration.name.text .nil).Grows none
        (w.declareFunction declaration env) :=
      World.grows_addFunction.trans (hs₂.grows_write hplace)
    have hy : executeWith strict y y' rounds' env (.function declaration) w.state = _ :=
      execute_function_local hlocal
    rw [hs.sameVariables.length] at hy
    refine .step (w.declareFunction declaration env) (a := .normal) ?_ hy
      ⟨World.grows_declare.trans hw₁.opening,
        hs₂.write hplace (hs₁.functionOk_addFunction ha₁ hresolved) (.of_plain hplain), rfl⟩
      ⟨rfl, trivial, ha₁.mono hw₁ rfl⟩
    have hframes := Frames.define_define w.frames w.machine.environment declaration.name.text
      (.function w.nextFunction) .nil
    rw [execute_function, ← hnext, ← hframes]
    rfl

/-! ## Classes -/

theorem coupled_superclassOf {superclass : Option Reference} (hs : w.Sound)
    (hm : Mirrors w w.machine.environment env.names ribs)
    (hr : Reference.Resolved? w.machine.distances w.bound ribs superclass) :
    Coupled none w (Machine.superclassOf superclass) (superclassOf env superclass)
      fun _ a b => a = b ∧ a.isSome = superclass.isSome := by
  cases superclass with
  | none => exact .pure hs ⟨rfl, rfl⟩
  | some r =>
    refine (coupled_lookUp hs hm hr.2.2).bind fun v v' w' hw ⟨hsame, _⟩ => ?_
    subst hsame
    cases v with
    | cls id => exact .pure hw.sound ⟨rfl, rfl⟩
    | _ => exact .fail hw.sound nofun

theorem coupled_methodFrame {parent : Option ClassId} (hs : w.Sound)
    (hm : Mirrors w w.machine.environment env.names ribs) :
    Coupled none w (Machine.methodFrame parent) (methodEnv env parent)
      fun w' frame env' => Mirrors w' frame env'.names
        (if parent.isSome then .single superName :: ribs else ribs) := by
  cases parent with
  | none => exact .step w (a := w.machine.environment) rfl rfl (.refl hs) hm
  | some parent =>
    have hs₁ : (w.addRib w.machine.environment superName (.cls parent)).Sound :=
      hs.addRib trivial ⟨fun h => absurd h (by decide), fun _ => ⟨parent, rfl⟩⟩
    refine .step (w.addRib w.machine.environment superName (.cls parent)) (a := w.nextFrame)
      rfl (bindLocal_eq hs _ _) ⟨World.grows_addRib, hs₁, rfl⟩ ?_
    exact World.mirrors_addRib hm

/-- **Methods are made alike**, and can be bound. -/
theorem coupled_makeMethods {frame : FrameId} : ∀ {methods : List FunctionDecl}
    {table : Table FunctionId} {w : World}, w.Sound → Mirrors w frame env.names ribs →
    FunctionDecl.AllResolved w.machine.distances w.bound (.single thisName :: ribs) methods →
    (∀ name id, table.get? name = some id → MethodOk w id) →
    Coupled none w (Machine.makeMethods frame table methods) (makeMethods env table methods)
      fun w' a b => a = b ∧ ∀ name id, a.get? name = some id → MethodOk w' id
  | [], _, _, hs, _, _, htable => .pure hs ⟨rfl, htable⟩
  | method :: methods, table, w, hs, hm, ⟨hmethod, hmethods⟩, htable => by
    have hw : w.Becomes none (w.addFunction ⟨method, frame, method.isInitializer⟩ env) :=
      ⟨World.grows_addFunction, hs.addFunction, rfl⟩
    have htwin := hs.twin_addFunction (f := ⟨method, frame, method.isInitializer⟩) hm
    refine .after _ (a := w.nextFunction) ?_ rfl hw ?_
    · rw [World.nextFunction, ← hs.sameObjects.functions]
      rfl
    · refine coupled_makeMethods hw.sound (hm.mono hw.grows) hmethods fun name id hid => ?_
      by_cases hname : name = method.name.text
      · subst hname
        rw [Table.get?_put_self] at hid
        cases hid
        exact ⟨_, _, _, htwin, hmethod⟩
      · rw [Table.get?_put_of_ne _ _ hname] at hid
        exact (htable name id hid).mono hw.grows

theorem coupled_newClass {c : ClassObject} (hs : w.Sound)
    (hc : ∀ x id, c.methods.get? x = some id → MethodOk w id) :
    Coupled none w (Machine.Run.allocate (·.newClass c))
      (modifyGet fun s : State =>
        ((⟨s.classes.size⟩ : ClassId), { s with classes := s.classes.push c }))
      fun _ a b => a = b := by
  refine .step (w.addClass c) (a := ⟨w.state.classes.size⟩) ?_ rfl
    ⟨World.grows_addClass, hs.addClass hc, rfl⟩ rfl
  rw [allocate_eq, ← hs.sameObjects.classes]
  rfl

/-- **Classes are declared alike.** -/
theorem coupled_declareClass {name : Name} {superclass : Option Reference}
    {methods : List FunctionDecl} (hs : w.Sound) (ha : At w env ribs) (hplain : Plain name.text)
    (hfresh : ribs.Fresh name.text)
    (hsuperclass : Reference.Resolved? w.machine.distances w.bound (ribs.extend name.text)
      superclass)
    (hmethods : FunctionDecl.AllResolved w.machine.distances w.bound
      ((ribs.extend name.text).enterClass superclass) methods) :
    Coupled (some w.machine.environment) w (Machine.declareClass name superclass methods)
      (declareClass env name superclass methods)
      fun w' _ behind => At w' behind (ribs.extend name.text) := by
  rw [Machine.declareClass_eq]
  refine (coupled_declare (v := .nil) hs ha hfresh trivial (.of_plain hplain)).bind
    fun _ behind w₁ hw₁ ha₁ => Coupled.opening ?_
  rw [← hw₁.grows.distances, ← hw₁.grows.bound] at hsuperclass hmethods
  refine (coupled_superclassOf hw₁.sound ha₁.mirrors hsuperclass).bind
    fun parent _ w₂ hw₂ ⟨hsame, hparent⟩ => ?_
  subst hsame
  have ha₂ := ha₁.mono hw₂.grows hw₂.environment
  refine (coupled_methodFrame hw₂.sound ha₂.mirrors).bind fun frame inside w₃ hw₃ hm₃ => ?_
  have hw₁₃ := hw₂.trans hw₃
  have hmethods₃ : FunctionDecl.AllResolved w₃.machine.distances w₃.bound (.single thisName ::
      if parent.isSome then .single superName :: ribs.extend name.text
      else ribs.extend name.text) methods := by
    rw [hw₁₃.grows.distances, hw₁₃.grows.bound, hparent]
    cases superclass <;> exact hmethods
  refine (coupled_makeMethods hw₃.sound hm₃ hmethods₃ fun _ _ hid => by cases hid).bind
    fun table _ w₄ hw₄ ⟨hsame, htable⟩ => ?_
  subst hsame
  refine (coupled_newClass hw₄.sound htable).bind fun id _ w₅ hw₅ hsame => ?_
  subst hsame
  have hw₁₅ := (hw₁₃.trans hw₄).trans hw₅
  have ha₅ := ha₁.mono hw₁₅.grows hw₁₅.environment
  exact (coupled_assignName (v := .cls id) hw₅.sound ha₅ trivial (.of_plain hplain)).yields
    fun _ _ w₆ hw₆ _ => ha₅.mono hw₆.grows hw₆.environment

end

end Lox.Lexical
