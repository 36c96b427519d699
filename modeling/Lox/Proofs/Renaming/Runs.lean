import Lox.Proofs.Renaming.Together

/-!
# Runs of alike programs

Every form of expression and statement runs alike on both sides if its parts do
(`together_evaluateWith`, `together_executeWith`), so all alike expressions and statements do, by
induction on the fuel (`evaluate_execute_alike`).  A function is called in the map of the place where
it was declared, so calls need no more than that functions with one identity are alike.
-/

namespace Lox.Lexical

/-- **Whether alike statements run alike.**  Behind them the maps are alike too. -/
def ExecutesAlike (ρ : Renaming) (x : Env → Stmt → Run (Machine.Flow × Env)) : Prop :=
  ∀ {s s' : State} {pairing behind : Pairing} {env env' : Env} {t t' : Stmt}, s.Alike ρ s' →
    Place pairing env env' → t.Alike ρ pairing t' behind →
    Together ρ s s' (x env t) (x env' t') fun _ a b => b.1 = a.1 ∧ Place behind a.2 b.2

/-- **Whether alike expressions run alike.** -/
def EvaluatesAlike (ρ : Renaming) (x : Env → Option String → Expr → Run Value) : Prop :=
  ∀ {s s' : State} {pairing : Pairing} {own : Option (String × String)} {env env' : Env}
    {e e' : Expr}, s.Alike ρ s' → env.Alike pairing env' → e.Alike ρ pairing own e' →
    Together ρ s s' (x env (own.map Prod.fst) e) (x env' (own.map Prod.snd) e') Equal

section
variable {ρ : Renaming} {s s' : State} {pairing : Pairing} {own : Option (String × String)}
  {env env' : Env}

/-! ## Names -/

theorem together_lookUp {name name' : Name} (hs : s.Alike ρ s')
    (hlookup : env'.names.lookup name'.text = env.names.lookup name.text)
    (hnone : env.names.lookup name.text = none → name' = name) :
    Together ρ s s' (lookUp env name) (lookUp env' name') Equal := by
  refine Together.get_bind ?_
  rw [hlookup, hs.store, hs.globals]
  cases hlocation : env.names.lookup name.text with
  | some location => exact .pure hs rfl
  | none =>
    rw [hnone hlocation]
    cases s.globals.get? name.text with
    | some v => exact .pure hs rfl
    | none => exact .fail hs

theorem together_assign {name name' : Name} {v : Value} (hs : s.Alike ρ s')
    (hlookup : env'.names.lookup name'.text = env.names.lookup name.text)
    (hnone : env.names.lookup name.text = none → name' = name) :
    Together ρ s s' (assign env name v) (assign env' name' v) Equal := by
  refine Together.get_bind ?_
  rw [hlookup]
  cases hlocation : env.names.lookup name.text with
  | some location =>
    exact .step rfl rfl { hs with store := congrArg (List.set · location v) hs.store } rfl
  | none =>
    rw [hnone hlocation]
    refine .ite (by rw [hs.globals]) (fun _ => ?_) fun _ => .fail hs
    exact .step rfl rfl { hs with globals := congrArg (Table.put · name.text v) hs.globals } rfl

/-- What two references mean that are the same but for their names. -/
theorem Env.Alike.lookup_eq {r r' : Reference} (h : env.Alike pairing env') (htwins : r.Twins ρ r')
    (hsame : pairing.Same r.name.text r'.name.text) :
    env'.names.lookup r'.name.text = env.names.lookup r.name.text ∧
      (env.names.lookup r.name.text = none → r'.name = r.name) := by
  obtain ⟨hlookup, hnone⟩ := h.same _ _ htwins.name.calls.plain htwins.name.calls.plain' hsame
  refine ⟨hlookup, fun hlocation => ?_⟩
  obtain ⟨id, text, line⟩ := r
  obtain ⟨id', text', line'⟩ := r'
  cases hnone hlocation
  cases htwins.name.line
  rfl

/-- A name that a program cannot give means the same on both sides. -/
theorem together_lookUp_reserved {name : Name} (hs : s.Alike ρ s') (h : env.Alike pairing env')
    (hname : ¬Plain name.text) : Together ρ s s' (lookUp env name) (lookUp env' name) Equal :=
  together_lookUp hs (h.reserved _ hname) fun _ => rfl

/-! ## Methods and properties -/

theorem together_closure {id : FunctionId} (hs : s.Alike ρ s') :
    Together ρ s s' (closure id) (closure id) fun _ c c' =>
      c.Alike ρ c' ∧ s.heap.functionArity id = c.declaration.params.length := by
  refine .step rfl rfl hs ⟨hs.closure id, ?_⟩
  rw [Heap.functionArity, State.declaration_function]

theorem together_newFunction {c c' : Closure} (hs : s.Alike ρ s') (hc : c.Alike ρ c') :
    Together ρ s s' (newFunction c) (newFunction c') fun s₁ a b =>
      b = a ∧ s₁.functions = s.functions ++ [c] ∧ a.index = s.functions.length := by
  refine .step rfl rfl { hs with functions := ?_ } ⟨?_, rfl, rfl⟩
  · exact List.rel_append hs.functions (.cons hc .nil)
  · rw [hs.functions.length_eq]

/-- **Methods are bound alike**, and take as many arguments as before. -/
theorem together_bind {method : FunctionId} {receiver : InstanceId} (hs : s.Alike ρ s') :
    Together ρ s s' (bind method receiver) (bind method receiver) fun s₁ a b =>
      b = a ∧ s₁.heap.functionArity a = s.heap.functionArity method := by
  refine (together_closure hs).bind ?_
  rintro c c' s₁ s₁' hs₁ ⟨⟨⟨pairing, hdeclaration, henv⟩, hinitializer⟩, harity⟩
  rw [harity]
  refine (together_bindLocal hs₁ (.inst receiver)).bind ?_
  rintro _ _ s₂ s₂' hs₂ ⟨location, rfl, rfl⟩
  have hbound : Closure.Alike ρ { c with env := c.env.extend thisName location }
      { c' with env := c'.env.extend thisName location } :=
    ⟨⟨pairing, hdeclaration, henv.extend_reserved (fun h => h.1 rfl) location⟩, hinitializer⟩
  refine (together_newFunction hs₂ hbound).mono ?_
  rintro id _ s₃ ⟨rfl, hfunctions, hindex⟩
  refine ⟨rfl, ?_⟩
  rw [Heap.functionArity, State.declaration_function, hfunctions, hindex,
    List.getElem?_concat_length]
  rfl

/-- **A property has the same value** on both sides. -/
theorem together_property {id : InstanceId} {name : Name} (hs : s.Alike ρ s') :
    Together ρ s s' (property id name) (property id name) Equal := by
  refine Together.get_bind ?_
  have hclasses : s'.heap.classes = s.heap.classes := hs.classes
  have hinstances : s'.heap.instances = s.heap.instances := hs.instances
  rw [Heap.property?_congr hclasses hinstances]
  cases s.heap.property? id name.text with
  | none => exact .fail hs
  | some property =>
    cases property with
    | field v => exact .pure hs rfl
    | method method =>
      refine (together_bind hs).bind ?_
      rintro bound _ s₁ s₁' hs₁ ⟨rfl, -⟩
      exact .pure hs₁ rfl

/-- **A method of the superclass** is the same on both sides. -/
theorem together_superMethod {keyword method : Name} (hs : s.Alike ρ s')
    (h : env.Alike pairing env') :
    Together ρ s s' (superMethod env keyword method) (superMethod env' keyword method) Equal := by
  refine (together_lookUp_reserved hs h fun hplain => hplain.2 rfl).bind_equal
    fun parent s₁ s₁' hs₁ => ?_
  refine (together_lookUp_reserved hs₁ h fun hplain => hplain.1 rfl).bind_equal
    fun receiver s₂ s₂' hs₂ => ?_
  cases parent with
  | cls parent =>
    cases receiver with
    | inst receiver =>
      refine Together.get_bind ?_
      rw [hs₂.findMethod?]
      cases s₂.heap.findMethod? parent method.text with
      | none => exact .fail hs₂
      | some found =>
        refine (together_bind hs₂).bind ?_
        rintro bound _ s₃ s₃' hs₃ ⟨rfl, -⟩
        exact .pure hs₃ rfl
    | _ => exact .fail hs₂
  | _ => exact .fail hs₂

/-! ## Calls -/

/-- **Parameters are bound alike** by as many arguments. -/
theorem together_bindParams {inside : Pairing} {params params' : List Name}
    (hparams : pairing.Declares ρ params params' inside) : ∀ {args : List Value} {s s' : State}
      {env env' : Env}, s.Alike ρ s' → Place pairing env env' → pairing ≠ [] →
        args.length = params.length →
        Together ρ s s' (bindParams env params args) (bindParams env' params' args) fun _ =>
          Place inside := by
  induction hparams with
  | nil =>
    intro args s s' env env' hs hp _ _
    unfold bindParams
    exact .pure hs hp
  | @cons pairing behind name name' _ _ hname hadmits _ ih =>
    intro args s s' env env' hs hp hne hlen
    cases args with
    | nil => cases hlen
    | cons arg args =>
      unfold bindParams
      refine (together_bindLocal hs arg).bind ?_
      rintro _ _ s₁ s₁' hs₁ ⟨location, rfl, rfl⟩
      exact ih hs₁ (hp.declare hne hname.calls.plain hname.calls.plain' hadmits location)
        (Pairing.declare_ne_nil hne)
        (Nat.succ.inj hlen)

/-- **Statements in a row run alike.** -/
theorem together_runAll {x : Env → Stmt → Run (Machine.Flow × Env)} (hx : ExecutesAlike ρ x) :
    ∀ {ts ts' : List Stmt} {pairing behind : Pairing} {s s' : State} {env env' : Env},
      s.Alike ρ s' →
      Place pairing env env' → Stmt.AllAlike ρ pairing ts ts' behind →
      Together ρ s s' (runAll x env ts) (runAll x env' ts') Equal
  | _, _, _, _, _, _, _, _, hs, _, .nil => .pure hs rfl
  | _, _, _, _, _, _, _, _, hs, hp, .cons h hothers => by
    refine (hx hs hp h).bind ?_
    rintro ⟨flow, behind⟩ ⟨flow', behind'⟩ s₁ s₁' hs₁ ⟨hflow, hp₁⟩
    cases hflow
    cases flow with
    | normal => exact together_runAll hx hs₁ hp₁ hothers
    | returned v => exact .pure hs₁ rfl

/-- **Functions are called alike.** -/
theorem together_callFunction {x : Env → Stmt → Run (Machine.Flow × Env)} (hx : ExecutesAlike ρ x)
    {id : FunctionId} {args : List Value} (hs : s.Alike ρ s')
    (hlen : args.length = s.heap.functionArity id) :
    Together ρ s s' (callFunction x id args) (callFunction x id args) Equal := by
  refine (together_closure hs).bind ?_
  rintro ⟨_, env, isInitializer⟩ ⟨_, env', _⟩ s₁ s₁' hs₁
    ⟨⟨⟨pairing, hdeclaration, henv⟩, hinitializer⟩, harity⟩
  cases hinitializer
  cases hdeclaration with | mk hparams hbody => ?_
  refine (together_bindParams hparams hs₁ (.enter henv) nofun (hlen.trans harity)).bind
    fun inside inside' s₂ s₂' hs₂ hp₂ => ?_
  refine (together_runAll hx hs₂ hp₂ hbody).bind_equal fun flow s₃ s₃' hs₃ => ?_
  cases isInitializer with
  | true => exact together_lookUp_reserved hs₃ henv fun hplain => hplain.1 rfl
  | false => exact .pure hs₃ rfl

/-- **Classes are called alike.** -/
theorem together_construct {x : Env → Stmt → Run (Machine.Flow × Env)} (hx : ExecutesAlike ρ x)
    {id : ClassId} {args : List Value} (hs : s.Alike ρ s')
    (hlen : args.length = s.heap.arity (.cls id)) :
    Together ρ s s' (construct x id args) (construct x id args) Equal := by
  have hnew : Together ρ s s'
      (modifyGet fun s : State =>
        ((⟨s.instances.size⟩ : InstanceId), { s with instances := s.instances.push ⟨id, .empty⟩ }))
      (modifyGet fun s : State =>
        ((⟨s.instances.size⟩ : InstanceId), { s with instances := s.instances.push ⟨id, .empty⟩ }))
      fun s₁ a b => b = a ∧ s₁.heap.arity (.cls id) = s.heap.arity (.cls id) := by
    refine .step rfl rfl { hs with instances := congrArg (Array.push · _) hs.instances }
      ⟨by rw [hs.instances], ?_⟩
    have hagree : s.heap.Agree
        { s with instances := s.instances.push ⟨id, .empty⟩ }.heap := ⟨fun _ => rfl, rfl⟩
    exact hagree.arity (.cls id)
  refine hnew.bind ?_
  rintro receiver _ s₁ s₁' hs₁ ⟨rfl, harity⟩
  rw [← harity] at hlen
  refine Together.get_bind ?_
  rw [hs₁.findMethod?]
  cases hinit : s₁.heap.findMethod? id initializerName with
  | none => exact .pure hs₁ rfl
  | some init =>
    simp only [Heap.arity, hinit] at hlen
    refine (together_bind hs₁).bind ?_
    rintro bound _ s₂ s₂' hs₂ ⟨rfl, hbound⟩
    exact (together_callFunction hx hs₂ (hlen.trans hbound.symm)).bind_equal fun _ s₃ s₃' hs₃ =>
      .pure hs₃ rfl

/-- **Values are called alike.** -/
theorem together_callValue {x : Env → Stmt → Run (Machine.Flow × Env)} (hx : ExecutesAlike ρ x)
    {line : Nat} {callee : Value} {args : List Value} (hs : s.Alike ρ s') :
    Together ρ s s' (callValue x line callee args) (callValue x line callee args) Equal := by
  unfold callValue
  cases callee.callable? with
  | none => exact .fail hs
  | some target =>
    refine Together.get_bind ?_
    rw [hs.arity]
    refine .ite Iff.rfl (fun hlen => ?_) fun _ => .fail hs
    cases target with
    | native f =>
      cases f
      have hnext : State.Alike ρ { s with clock := s.clock.next } { s' with clock := s'.clock.next } :=
        { hs with clock := congrArg Clock.next hs.clock }
      exact .step rfl rfl hnext (congrArg (fun c : Clock => Value.number c.now) hs.clock)
    | function id => exact together_callFunction hx hs hlen
    | cls id => exact together_construct hx hs hlen

/-! ## Expressions -/

theorem together_ofExcept {α : Type} {r : Except Machine.Fault α} (hs : s.Alike ρ s') :
    Together ρ s s' (ofExcept r) (ofExcept r) Equal := by
  cases r with
  | ok a => exact .pure hs rfl
  | error fault => exact .fail hs

/-- Whether runs of alike expressions at one place end alike. -/
def EvaluatesAt (ρ : Renaming) (pairing : Pairing) (own : Option (String × String))
    (x x' : Expr → Run Value) : Prop :=
  ∀ {s s' : State} {e e' : Expr}, s.Alike ρ s' → e.Alike ρ pairing own e' →
    Together ρ s s' (x e) (x' e') Equal

theorem together_evaluateAll {x x' : Expr → Run Value} (hx : EvaluatesAt ρ pairing own x x') :
    ∀ {es es' : List Expr} {s s' : State}, s.Alike ρ s' → Expr.AllAlike ρ pairing own es es' →
      Together ρ s s' (evaluateAll x es) (evaluateAll x' es') Equal
  | _, _, _, _, hs, .nil => .pure hs rfl
  | _, _, _, _, hs, .cons h hothers =>
    (hx hs h).bind_equal fun _ _ _ hs₁ =>
      (together_evaluateAll hx hs₁ hothers).bind_equal fun _ _ _ hs₂ => .pure hs₂ rfl

theorem other_of_ne {t : String} (h : own.map Prod.fst ≠ some t) : ∀ pair ∈ own, t ≠ pair.1 := by
  rintro pair hpair rfl
  exact h (Option.map_eq_some_iff.mpr ⟨pair, hpair, rfl⟩)

/-- **Alike expressions run alike** if their parts do. -/
theorem together_evaluateWith {x x' : Expr → Run Value} {y : Env → Stmt → Run (Machine.Flow × Env)}
    (hx : EvaluatesAt ρ pairing own x x') (hy : ExecutesAlike ρ y) (henv : env.Alike pairing env')
    {s s' : State} {e e' : Expr} (hs : s.Alike ρ s') (h : e.Alike ρ pairing own e') :
    Together ρ s s' (evaluateWith x y env (own.map Prod.fst) e)
      (evaluateWith x' y env' (own.map Prod.snd) e') Equal := by
  cases h with
  | literal => exact .pure hs rfl
  | group h => exact hx hs h
  | unary h => exact (hx hs h).bind_equal fun v s₁ s₁' hs₁ => together_ofExcept hs₁
  | binary hleft hright =>
    exact (hx hs hleft).bind_equal fun a s₁ s₁' hs₁ => (hx hs₁ hright).bind_equal
      fun b s₂ s₂' hs₂ => together_ofExcept hs₂
  | logical hleft hright =>
    exact (hx hs hleft).bind_equal fun a s₁ s₁' hs₁ => .ite Iff.rfl (fun _ => .pure hs₁ rfl)
      fun _ => hx hs₁ hright
  | var h =>
    obtain ⟨hlookup, hnone⟩ := henv.lookup_eq h.twins h.same
    exact together_lookUp hs hlookup hnone
  | assign htarget hvalue =>
    refine (hx hs hvalue).bind_equal fun v s₁ s₁' hs₁ => ?_
    refine .ite htarget.own_eq_iff (fun _ => .stop rfl rfl hs₁ trivial) fun hown => ?_
    obtain ⟨hlookup, hnone⟩ := henv.lookup_eq htarget.twins (htarget.same (other_of_ne hown))
    exact (together_assign hs₁ hlookup hnone).bind_equal fun _ s₂ s₂' hs₂ => .pure hs₂ rfl
  | call hcallee hargs =>
    exact (hx hs hcallee).bind_equal fun f s₁ s₁' hs₁ =>
      (together_evaluateAll hx hs₁ hargs).bind_equal fun values s₂ s₂' hs₂ =>
        together_callValue hy hs₂
  | get h =>
    refine (hx hs h).bind_equal fun v s₁ s₁' hs₁ => ?_
    cases v with
    | inst id => exact together_property hs₁
    | _ => exact .fail hs₁
  | set hobject hvalue =>
    refine (hx hs hobject).bind_equal fun v s₁ s₁' hs₁ => ?_
    cases v with
    | inst id =>
      refine (hx hs₁ hvalue).bind_equal fun v s₂ s₂' hs₂ => ?_
      refine .step rfl rfl { hs₂ with instances := ?_ } rfl
      simp only [Heap.setField, State.heap, hs₂.instances]
    | _ => exact .fail hs₁
  | this hname =>
    exact together_lookUp_reserved hs henv fun hplain => hplain.1 hname
  | super => exact together_superMethod hs henv

/-! ## Classes -/

theorem together_superclassOf {superclass superclass' : Option Reference} (hs : s.Alike ρ s')
    (henv : env.Alike pairing env') (h : Reference.Alike? ρ pairing superclass superclass') :
    Together ρ s s' (superclassOf env superclass) (superclassOf env' superclass') fun _ a b =>
      b = a ∧ a.isSome = superclass.isSome := by
  cases h with
  | none => exact .pure hs ⟨rfl, rfl⟩
  | some h =>
    obtain ⟨hlookup, hnone⟩ := henv.lookup_eq h.twins h.same
    refine (together_lookUp hs hlookup hnone).bind_equal fun v s₁ s₁' hs₁ => ?_
    cases v with
    | cls id => exact .pure hs₁ ⟨rfl, rfl⟩
    | _ =>
      rw [h.twins.name.line]
      exact .fail hs₁

theorem together_methodEnv {parent : Option ClassId} (hs : s.Alike ρ s')
    (henv : env.Alike pairing env') :
    Together ρ s s' (methodEnv env parent) (methodEnv env' parent) fun _ => Env.Alike pairing := by
  cases parent with
  | none => exact .pure hs henv
  | some parent =>
    refine (together_bindLocal hs (.cls parent)).mono ?_
    rintro _ _ _ ⟨location, rfl, rfl⟩
    exact henv.extend_reserved (fun h => h.2 rfl) location

/-- **Methods are made alike.** -/
theorem together_makeMethods : ∀ {methods methods' : List FunctionDecl} {table : Table FunctionId}
    {s s' : State}, s.Alike ρ s' → env.Alike pairing env' →
      FunctionDecl.AllAlike ρ pairing methods methods' →
      Together ρ s s' (makeMethods env table methods) (makeMethods env' table methods') Equal
  | _, _, _, _, _, hs, _, .nil => .pure hs rfl
  | method :: _, method' :: _, table, _, _, hs, henv, .cons h hothers => by
    refine (together_newFunction hs ⟨⟨_, h, henv⟩, h.isInitializer_eq⟩).bind ?_
    rintro id _ s₁ s₁' hs₁ ⟨rfl, -⟩
    rw [h.name_eq]
    exact together_makeMethods hs₁ henv hothers

/-- **Classes are declared alike.** -/
theorem together_declareClass {name : Name} {superclass superclass' : Option Reference}
    {methods methods' : List FunctionDecl} (hs : s.Alike ρ s') (hp : Place pairing env env')
    (hplain : Plain name.text) (hadmits : pairing.Admits name.text name.text)
    (hsuperclass : Reference.Alike? ρ (pairing.declare name.text name.text) superclass superclass')
    (h : FunctionDecl.AllAlike ρ
      (Pairing.enterClass (pairing.declare name.text name.text) superclass) methods methods') :
    Together ρ s s' (declareClass env name superclass methods)
      (declareClass env' name superclass' methods') fun _ =>
        Place (pairing.declare name.text name.text) := by
  refine (together_declare hs hp hplain hplain hadmits .nil).bind
    fun behind behind' s₁ s₁' hs₁ hp₁ => ?_
  refine (together_superclassOf hs₁ hp₁.alike hsuperclass).bind ?_
  rintro _ parent s₂ s₂' hs₂ ⟨rfl, -⟩
  refine (together_methodEnv hs₂ (hp₁.alike.enterClass superclass)).bind
    fun inside inside' s₃ s₃' hs₃ hinside => ?_
  refine (together_makeMethods hs₃ hinside h).bind_equal fun table s₄ s₄' hs₄ => ?_
  have hnew : Together ρ s₄ s₄'
      (modifyGet fun s : State =>
        ((⟨s.classes.size⟩ : ClassId),
          { s with classes := s.classes.push ⟨name.text, parent, table⟩ }))
      (modifyGet fun s : State =>
        ((⟨s.classes.size⟩ : ClassId),
          { s with classes := s.classes.push ⟨name.text, parent, table⟩ }))
      Equal :=
    .step rfl rfl { hs₄ with classes := congrArg (Array.push · _) hs₄.classes }
      (by rw [Equal, hs₄.classes])
  refine hnew.bind_equal fun id s₅ s₅' hs₅ => ?_
  obtain ⟨hlookup, -⟩ := hp₁.alike.same _ _ hplain hplain (Pairing.same_declare_self hadmits)
  exact (together_assign hs₅ hlookup fun _ => rfl).bind fun _ _ s₆ s₆' hs₆ _ => .pure hs₆ hp₁

/-! ## Statements -/

theorem together_writeLine {text : String} (hs : s.Alike ρ s') :
    Together ρ s s' (writeLine text) (writeLine text) Equal := by
  refine Together.bind_equal (.step rfl rfl { hs with sink := ?_ } ?_) fun fits s₁ s₁' hs₁ => ?_
  · rw [hs.sink]
  · rw [hs.sink]
    rfl
  · cases fits with
    | true => exact .pure hs₁ rfl
    | false => exact .fail hs₁

theorem together_loop {c c' : Run Value} {b b' : Run Machine.Flow}
    (hc : ∀ {s s' : State}, s.Alike ρ s' → Together ρ s s' c c' Equal)
    (hb : ∀ {s s' : State}, s.Alike ρ s' → Together ρ s s' b b' Equal) :
    ∀ {rounds : Nat} {s s' : State}, s.Alike ρ s' →
      Together ρ s s' (loop c b rounds) (loop c' b' rounds) Equal
  | 0, _, _, hs => .outOfFuel hs
  | rounds + 1, _, _, hs => by
    refine (hc hs).bind_equal fun v s₁ s₁' hs₁ => .ite Iff.rfl (fun _ => ?_) fun _ => .pure hs₁ rfl
    refine (hb hs₁).bind_equal fun flow s₂ s₂' hs₂ => ?_
    cases flow with
    | normal => exact together_loop hc hb hs₂
    | returned v => exact .pure hs₂ rfl

section
variable {x : Env → Option String → Expr → Run Value} {y : Env → Stmt → Run (Machine.Flow × Env)}

theorem EvaluatesAlike.evaluate? (hx : EvaluatesAlike ρ x) {e e' : Option Expr} (hs : s.Alike ρ s')
    (henv : env.Alike pairing env') (h : Expr.Alike? ρ pairing own e e') :
    Together ρ s s' (evaluate? (x env (own.map Prod.fst)) e)
      (evaluate? (x env' (own.map Prod.snd)) e') Equal := by
  cases h with
  | none => exact .pure hs rfl
  | some h => exact hx hs henv h

/-- Behind a statement that is not in a scope of its own the map is the one before it. -/
theorem ExecutesAlike.within (hy : ExecutesAlike ρ y) {t t' : Stmt} (hs : s.Alike ρ s')
    (hp : Place pairing env env') (h : t.Alike ρ pairing t' pairing) :
    Together ρ s s' (within env (y env t)) (within env' (y env' t')) fun _ a b =>
      b.1 = a.1 ∧ Place pairing a.2 b.2 := by
  refine (hy hs hp h).bind ?_
  rintro ⟨flow, _⟩ ⟨_, _⟩ s₁ s₁' hs₁ ⟨rfl, -⟩
  exact .pure hs₁ ⟨rfl, hp⟩

theorem Place.ownName (hp : Place pairing env env') (name name' : Name) :
    ownName true env name = (pairing.own name.text name'.text).map Prod.fst ∧
      ownName true env' name' = (pairing.own name.text name'.text).map Prod.snd := by
  unfold Lexical.ownName
  rw [hp.isLocal, hp.isLocal']
  cases pairing <;> exact ⟨rfl, rfl⟩

/-- **Alike statements run alike** if their parts do. -/
theorem together_executeWith (hx : EvaluatesAlike ρ x) (hy : ExecutesAlike ρ y) {rounds : Nat}
    {t t' : Stmt} {behind : Pairing} (hs : s.Alike ρ s') (hp : Place pairing env env')
    (h : t.Alike ρ pairing t' behind) :
    Together ρ s s' (executeWith true x y rounds env t) (executeWith true x y rounds env' t')
      fun _ a b => b.1 = a.1 ∧ Place behind a.2 b.2 := by
  cases h with
  | expr h =>
    exact (hx hs hp.alike h).bind_equal fun _ s₁ s₁' hs₁ => .pure hs₁ ⟨rfl, hp⟩
  | print h =>
    refine (hx hs hp.alike h).bind_equal fun v s₁ s₁' hs₁ => Together.get_bind ?_
    rw [hs₁.display]
    exact (together_writeLine hs₁).bind_equal fun _ s₂ s₂' hs₂ => .pure hs₂ ⟨rfl, hp⟩
  | @var _ name name' _ _ hname hadmits h =>
    obtain ⟨hown, hown'⟩ := hp.ownName name name'
    simp only [executeWith, hown, hown']
    refine (hx.evaluate? hs hp.alike h).bind_equal fun v s₁ s₁' hs₁ => ?_
    exact (together_declare hs₁ hp hname.calls.plain hname.calls.plain' hadmits v).bind
      fun _ _ s₂ s₂' hs₂ hp₂ => .pure hs₂ ⟨rfl, hp₂⟩
  | block h =>
    exact (together_runAll hy hs (.enter hp.alike) h).bind_equal fun flow s₁ s₁' hs₁ =>
      .pure hs₁ ⟨rfl, hp⟩
  | ifThen hcondition h =>
    exact (hx hs hp.alike hcondition).bind_equal fun v s₁ s₁' hs₁ =>
      .ite Iff.rfl (fun _ => hy.within hs₁ hp h) fun _ => .pure hs₁ ⟨rfl, hp⟩
  | ifElse hcondition hthen helse =>
    exact (hx hs hp.alike hcondition).bind_equal fun v s₁ s₁' hs₁ =>
      .ite Iff.rfl (fun _ => hy.within hs₁ hp hthen) fun _ => hy.within hs₁ hp helse
  | whileDo hcondition h =>
    refine (together_loop (fun hs => hx hs hp.alike hcondition)
      (fun hs => (hy hs hp h).bind ?_) hs).bind_equal fun flow s₁ s₁' hs₁ => .pure hs₁ ⟨rfl, hp⟩
    rintro ⟨flow, _⟩ ⟨_, _⟩ s₁ s₁' hs₁ ⟨rfl, -⟩
    exact .pure hs₁ rfl
  | @function _ f f' hplain hadmits h =>
    simp only [executeWith, h.name_eq]
    refine (together_declare hs hp hplain hplain hadmits .nil).bind
      fun behind behind' s₁ s₁' hs₁ hp₁ => ?_
    have hf : Closure.Alike ρ ⟨f, behind, false⟩ ⟨f', behind', false⟩ := ⟨⟨_, h, hp₁.alike⟩, rfl⟩
    refine (together_newFunction hs₁ hf).bind ?_
    rintro _ id s₂ s₂' hs₂ ⟨rfl, -⟩
    obtain ⟨hlookup, -⟩ := hp₁.alike.same _ _ hplain hplain (Pairing.same_declare_self hadmits)
    exact (together_assign hs₂ hlookup fun _ => rfl).bind fun _ _ s₃ s₃' hs₃ _ =>
      .pure hs₃ ⟨rfl, hp₁⟩
  | ret h =>
    exact (hx.evaluate? hs hp.alike h).bind_equal fun v s₁ s₁' hs₁ =>
      .pure hs₁ ⟨rfl, hp⟩
  | classDecl hplain hadmits hsuperclass h =>
    exact (together_declareClass hs hp hplain hadmits hsuperclass h).bind fun _ _ s₁ s₁' hs₁ hp₁ =>
      .pure hs₁ ⟨rfl, hp₁⟩

end

/-- **Alike expressions and statements run alike**, by induction on the fuel. -/
theorem evaluate_execute_alike (fuel : Nat) :
    EvaluatesAlike ρ (evaluate true fuel) ∧ ExecutesAlike ρ (execute true fuel) := by
  induction fuel with
  | zero => exact ⟨fun hs _ _ => .outOfFuel hs, fun hs _ _ => .outOfFuel hs⟩
  | succ fuel ih =>
    obtain ⟨hevaluates, hexecutes⟩ := ih
    refine ⟨fun hs henv h => ?_, fun hs hp h => ?_⟩
    · exact together_evaluateWith (fun hs h => hevaluates hs henv h) hexecutes henv hs h
    · exact together_executeWith hevaluates hexecutes hs hp h

/-! ## Programs -/

theorem together_runProgram (fuel : Nat) : ∀ {program program' : Program} {s s' : State},
    s.Alike ρ s' → program.Alike ρ program' →
      Together ρ s s' (runProgram true fuel program) (runProgram true fuel program') Equal
  | _, _, _, _, hs, .nil => .pure hs rfl
  | _, _, _, _, hs, .cons h hothers => by
    cases h.behind_nil
    exact ((evaluate_execute_alike fuel).2 hs place_global h).bind fun _ _ s₁ s₁' hs₁ _ =>
      together_runProgram fuel hs₁ hothers

/-- **Alike programs run alike** from alike states. -/
theorem together_interpret (fuel : Nat) {program program' : Program} (hs : s.Alike ρ s')
    (h : program.Alike ρ program') :
    Together ρ s s' (interpret true fuel program) (interpret true fuel program') Equal := by
  refine (together_runProgram fuel hs h).bind_equal fun _ s₁ s₁' hs₁ => Together.get_bind ?_
  rw [hs₁.sink]
  cases s₁.sink.flushFails with
  | true => exact .fail hs₁
  | false => exact .pure hs₁ rfl

end

end Lox.Lexical
