import Lox.Proofs.Observed.Calls

/-!
# Declarations keep a state sound

A function is made before its name is bound, and may be called only behind that.  The methods of a
class are made in the frame of the class's declaration, or in a new one that binds `super` to the
class that the superclass clause came to; and they are made there for good, whatever the names of
the two classes mean later.
-/

namespace Lox

theorem FunctionDecl.Resolved.plain {distances : Distances} {bound : NodeId} {ribs : Ribs} :
    ∀ {f : FunctionDecl}, f.Resolved distances bound ribs → ∀ param ∈ f.params, Plain param.text
  | ⟨_, _, _⟩, h => h.1

theorem FunctionDecl.AllResolved.plain {distances : Distances} {bound : NodeId} {ribs : Ribs} :
    ∀ {fs : List FunctionDecl}, FunctionDecl.AllResolved distances bound ribs fs →
      ∀ f ∈ fs, ∀ param ∈ f.params, Plain param.text
  | [], _ => nofun
  | _ :: _, ⟨h, hs⟩ => List.forall_mem_cons.mpr ⟨h.plain, plain hs⟩

namespace Observed

open Machine.Run (allocate lookUp)

variable {bound : NodeId} {s : State} {position : Position}

/-! ## Functions -/

/-- **A function is declared** at its position, whose innermost scope has its name. -/
theorem keeps_declareFunction {declaration : FunctionDecl} (h : Sound bound s)
    (ha : At s.machine position)
    (hsite : ⟨.stmt (.function declaration), position.around, position.scopes⟩ ∈ s.sites)
    (hsites : declaration.sites ⟨.function, position.around.inClass⟩
      (position.scopes.declareReady declaration.name).1 ⊆ s.sites) :
    Keeps bound s (declareFunction position declaration) fun s' _ =>
      At s'.machine (position.declared declaration.name) := by
  obtain ⟨hname, -, hresolved⟩ := h.recorded _ hsite
  let s₁ := s.addFunction ⟨declaration, s.machine.environment, false⟩
    (position.inFunction declaration.name)
  have hs₁ : Becomes bound s s₁ := h.addFunction
  have ha₁ : At s₁.machine position := ha.becomes hs₁
  -- the function is known to nobody before its name is bound
  have hfunction : FunctionOk
      (s₁.define s.machine.environment declaration.name.text (.function s.nextFunction))
      s.nextFunction := by
    have hbehind := ha₁.declared (v := .function s.nextFunction) hname
    have horigin : s₁.origin s.nextFunction = position.inFunction declaration.name :=
      State.origin_addFunction
    have hobject : s₁.machine.heap.functions[s.nextFunction.index]? =
      some ⟨declaration, s.machine.environment, false⟩ := State.function_addFunction
    refine ⟨⟨declaration, s.machine.environment, false⟩, hobject, ?_⟩
    show Chain _ _ _ (s₁.origin s.nextFunction).scopes.ribs ∧ Holds _ _
      (s₁.origin s.nextFunction).scopes.ribs (s₁.origin s.nextFunction).receiver
      (s₁.origin s.nextFunction).parent ∧ _ ∧ declaration.sites (s₁.origin s.nextFunction).around
      (s₁.origin s.nextFunction).scopes ⊆ s₁.sites
    rw [horigin]
    exact ⟨hbehind.chain, hbehind.holds, hresolved.plain, hsites⟩
  refine .jump (t := s₁) (y := lift (Machine.Run.define declaration.name.text
    (.function s.nextFunction))) rfl hs₁ ?_
  refine (keeps_define (v := .function s.nextFunction) hs₁.sound hname hfunction).mono
    fun _ s₂ _ hsame => ?_
  rw [hsame]
  exact ha₁.declared hname

/-! ## Classes -/

theorem keeps_superclassOf {superclass : Option Reference} (h : Sound bound s)
    (ha : At s.machine position)
    (hsites : Reference.sites? position.around position.scopes superclass ⊆ s.sites) :
    Keeps bound s (superclassOf position superclass) fun _ parent =>
      parent.isSome = superclass.isSome := by
  cases superclass with
  | none => exact .pure h rfl
  | some reference =>
    refine (keeps_visit h (hsites List.mem_cons_self) ha).bind fun _ s₁ hs₁ _ => ?_
    refine (keeps_lookUp hs₁.sound).bind fun v s₂ hs₂ _ => ?_
    cases v with
    | cls id => exact .pure hs₂.sound rfl
    | _ => exact .fail hs₂.sound

/-- **The methods of a class** are declared in a frame that binds the superclass, if there is one. -/
theorem keeps_methodFrame {superclass : Option Reference} {parent : Option ClassId}
    (h : Sound bound s) (ha : At s.machine position)
    (hparent : parent.isSome = superclass.isSome) :
    Keeps bound s (lift (Machine.methodFrame parent)) fun s' frame =>
      AroundMethods s' frame (position.inClass superclass parent) := by
  have hribs := position.scopes.ribs_enterClass superclass
  cases superclass with
  | none =>
    cases parent with
    | some p => cases hparent
    | none =>
      exact .step (a := s.machine.environment) rfl (.refl h)
        ⟨_, hribs, ha.chain, fun hsuper => absurd hsuper ha.head⟩
  | some reference =>
    cases parent with
    | none => cases hparent
    | some p =>
      have hframe : Becomes bound s (s.addFrame s.machine.environment (.single superName (.cls p))) :=
        h.addFrame fun x v hv => by rw [(get?_single hv).2]; trivial
      refine .step (a := s.nextFrame)
        (t := s.addFrame s.machine.environment (.single superName (.cls p))) rfl hframe
        ⟨_, hribs, ?_, fun _ => ⟨p, rfl, State.binding?_addFrame⟩⟩
      refine .inner State.enclosing?_addFrame (fun x hx => ?_) (ha.becomes hframe).chain
      have hx : x = superName := eq_of_beq hx
      rw [State.binding?_addFrame, hx]
      rfl

theorem keeps_makeMethods {frame : FrameId} : ∀ {methods : List FunctionDecl}
    {table : Table FunctionId} {s : State}, Sound bound s → AroundMethods s frame position →
    (∀ method ∈ methods, ∀ param ∈ method.params, Plain param.text) →
    FunctionDecl.allSites position.around.inClass position.scopes methods ⊆ s.sites →
    (∀ x id, table.get? x = some id → MethodOk s id) →
    Keeps bound s (makeMethods position frame table methods) fun s' table =>
      ∀ x id, table.get? x = some id → MethodOk s' id
  | [], _, _, h, _, _, _, htable => .pure h htable
  | method :: others, table, s, h, haround, hplain, hsites, htable => by
    obtain ⟨hfirst, hothers⟩ := List.append_subset.mp hsites
    let s₁ := s.addFunction ⟨method, frame, method.isInitializer⟩ (position.inMethod method)
    have hs₁ : Becomes bound s s₁ := h.addFunction
    have hmethod : MethodOk s₁ s.nextFunction := by
      have horigin : s₁.origin s.nextFunction = position.inMethod method :=
        State.origin_addFunction
      refine ⟨⟨method, frame, method.isInitializer⟩, State.function_addFunction, ?_⟩
      rw [horigin]
      exact ⟨haround.mono hs₁.grows, hplain method List.mem_cons_self, hfirst⟩
    refine .jump (t := s₁)
      (y := makeMethods position frame (table.put method.name.text s.nextFunction) others) rfl hs₁ ?_
    refine keeps_makeMethods hs₁.sound (haround.mono hs₁.grows)
      (fun other hother => hplain other (List.mem_cons_of_mem _ hother)) hothers fun x id hid => ?_
    by_cases hx : x = method.name.text
    · subst hx
      rw [Table.get?_put_self] at hid
      cases hid
      exact hmethod
    · rw [Table.get?_put_of_ne _ _ hx] at hid
      exact (htable x id hid).mono hs₁.grows

/-- **A class is declared.** -/
theorem keeps_declareClass {name : Name} {superclass : Option Reference}
    {methods : List FunctionDecl} (h : Sound bound s) (ha : At s.machine position)
    (hsites : (Stmt.classDecl name superclass methods).sites position.around position.scopes ⊆
      s.sites) :
    Keeps bound s (declareClass position name superclass methods) fun s' _ =>
      At s'.machine (position.declared name) := by
  obtain ⟨hsite, hparts⟩ := List.cons_subset.mp hsites
  obtain ⟨hsuperclass, hmethods⟩ := List.append_subset.mp hparts
  obtain ⟨hname, -, -, hresolved⟩ := h.recorded _ hsite
  refine (keeps_define (v := .nil) h hname trivial).bind fun _ s₁ hs₁ hsame => ?_
  have ha₁ : At s₁.machine (position.declared name) := by
    rw [hsame]
    exact ha.declared hname
  rw [← hs₁.sites] at hsuperclass hmethods
  refine (keeps_superclassOf hs₁.sound ha₁ hsuperclass).bind fun parent s₂ hs₂ hparent => ?_
  have ha₂ := ha₁.becomes hs₂
  refine (keeps_methodFrame hs₂.sound ha₂ hparent).bind fun frame s₃ hs₃ haround => ?_
  have hs₂₃ := hs₂.trans hs₃
  rw [← hs₂₃.sites] at hmethods
  refine (keeps_makeMethods hs₃.sound haround hresolved.plain hmethods
    fun x id hid => by cases hid).bind fun table s₄ hs₄ htable => ?_
  refine (keeps_newClass hs₄.sound htable).bind fun id s₅ hs₅ _ => ?_
  refine (keeps_assignName (v := .cls id) hs₅.sound hname trivial).mono fun _ s₆ hs₆ _ => ?_
  exact ha₁.becomes (((hs₂₃.trans hs₄).trans hs₅).trans hs₆)

end Observed

end Lox
