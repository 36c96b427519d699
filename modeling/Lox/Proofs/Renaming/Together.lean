import Lox.Proofs.Heap
import Lox.Proofs.Steps
import Lox.Proofs.Lexical.Reference
import Lox.Proofs.Renaming.Alike
import Mathlib.Data.List.Forall2

/-!
# Runs of alike programs, step by step

Two maps are alike behind the declarations of a pairing if names that mean the same lead to the same
location (`Env.Alike`).  Then the states of two runs differ only in their functions: the values in
the store, the outermost variables, the classes, the instances and the output are the same, and
functions are alike, each in its own map (`State.Alike`).

Two runs are `Together` from alike states if they end alike in alike states.  Rows of such runs are
together (`Together.bind`), so it is shown here for each small step, and then for whole programs.
-/

namespace Lox.Lexical

/-! ## Alike maps -/

/-- **Whether two maps lead names that mean the same to the same location.**  Names that no map has
and that mean the same are equal; names that a program cannot give lead to the same in any case. -/
structure Env.Alike (pairing : Pairing) (env env' : Env) : Prop where
  same : ∀ t t', Plain t → Plain t' → pairing.Same t t' →
    env'.names.lookup t' = env.names.lookup t ∧ (env.names.lookup t = none → t' = t)
  reserved : ∀ name, ¬Plain name → env'.names.lookup name = env.names.lookup name

/-- Whether two programs may run with these maps at a place behind these declarations. -/
structure Place (pairing : Pairing) (env env' : Env) : Prop where
  alike : env.Alike pairing env'
  isLocal : env.isLocal = !pairing.isEmpty
  isLocal' : env'.isLocal = !pairing.isEmpty

section
variable {pairing : Pairing} {env env' : Env} {x x' : String}

theorem Env.Alike.enter (h : env.Alike pairing env') : env.inside.Alike pairing.enter env'.inside :=
  ⟨fun t t' ht ht' hsame => h.same t t' ht ht' (Pairing.same_enter.mp hsame), h.reserved⟩

theorem Env.Alike.enterClass (h : env.Alike pairing env') (superclass : Option Reference) :
    env.Alike (pairing.enterClass superclass) env' :=
  ⟨fun t t' ht ht' hsame => h.same t t' ht ht' (Pairing.same_of_enterClass ht hsame), h.reserved⟩

/-- A pair of new names that leads to one location. -/
theorem Env.Alike.declare (h : env.Alike pairing env') (hne : pairing ≠ []) (hplain : Plain x)
    (hplain' : Plain x') (hadmits : pairing.Admits x x') (location : Location) :
    (env.extend x location).Alike (pairing.declare x x') (env'.extend x' location) where
  same t t' ht ht' hsame := by
    rw [Env.extend, Env.extend, Table.lookup_cons, Table.lookup_cons]
    rcases Pairing.same_declare hadmits hsame with ⟨-, rfl, rfl⟩ | ⟨hother, hsame⟩
    · rw [if_pos rfl, if_pos rfl]
      exact ⟨rfl, nofun⟩
    · rw [if_neg (hother hne).1, if_neg (hother hne).2]
      exact h.same t t' ht ht' hsame
  reserved name hname := by
    rw [Env.extend, Env.extend, Table.lookup_cons, Table.lookup_cons,
      if_neg (hplain.ne hname).symm, if_neg (hplain'.ne hname).symm]
    exact h.reserved name hname

/-- A name that a program cannot give, and that leads to one location on both sides. -/
theorem Env.Alike.extend_reserved (h : env.Alike pairing env') (hx : ¬Plain x)
    (location : Location) : (env.extend x location).Alike pairing (env'.extend x location) where
  same t t' ht ht' hsame := by
    rw [Env.extend, Env.extend, Table.lookup_cons, Table.lookup_cons,
      if_neg (ht.ne hx), if_neg (ht'.ne hx)]
    exact h.same t t' ht ht' hsame
  reserved name hname := by
    rw [Env.extend, Env.extend, Table.lookup_cons, Table.lookup_cons]
    split
    · rfl
    · exact h.reserved name hname

theorem Place.enter (h : env.Alike pairing env') : Place pairing.enter env.inside env'.inside :=
  ⟨h.enter, rfl, rfl⟩

theorem Place.declare (h : Place pairing env env') (hne : pairing ≠ []) (hplain : Plain x)
    (hplain' : Plain x') (hadmits : pairing.Admits x x') (location : Location) :
    Place (pairing.declare x x') (env.extend x location) (env'.extend x' location) := by
  refine ⟨h.alike.declare hne hplain hplain' hadmits location, ?_, ?_⟩
  · rw [Pairing.isEmpty_declare]
    exact h.isLocal
  · rw [Pairing.isEmpty_declare]
    exact h.isLocal'

theorem place_global : Place [] .global .global :=
  ⟨⟨fun _ _ _ _ hsame => ⟨rfl, fun _ => hsame⟩, fun _ _ => rfl⟩, rfl, rfl⟩

end

/-! ## Alike states -/

/-- Whether two functions are alike, each in its own map. -/
structure Closure.Alike (ρ : Renaming) (c c' : Closure) : Prop where
  alike : ∃ pairing : Pairing, c.declaration.Alike ρ pairing c'.declaration ∧
    c.env.Alike pairing c'.env
  isInitializer : c'.isInitializer = c.isInitializer

/-- **Whether two states differ only in the local names of their functions.** -/
structure State.Alike (ρ : Renaming) (s s' : State) : Prop where
  store : s'.store = s.store
  globals : s'.globals = s.globals
  functions : List.Forall₂ (Closure.Alike ρ) s.functions s'.functions
  classes : s'.classes = s.classes
  instances : s'.instances = s.instances
  sink : s'.sink = s.sink
  clock : s'.clock = s.clock

theorem State.Alike.initial (ρ : Renaming) (sink : Sink) (clock : Clock) :
    (State.initial sink clock).Alike ρ (State.initial sink clock) :=
  ⟨rfl, rfl, .nil, rfl, rfl, rfl, rfl⟩

theorem Closure.Alike.default (ρ : Renaming) : Closure.Alike ρ default default :=
  ⟨⟨[], .mk .nil .nil, ⟨fun _ _ _ _ hsame => ⟨rfl, fun _ => hsame⟩, fun _ _ => rfl⟩⟩, rfl⟩

section
variable {ρ : Renaming} {s s' : State}

/-- Functions with one identity are alike. -/
theorem State.Alike.closure (hs : s.Alike ρ s') (id : FunctionId) :
    Closure.Alike ρ ((s.functions[id.index]?).getD default)
      ((s'.functions[id.index]?).getD default) := by
  by_cases hid : id.index < s.functions.length
  · have hid' : id.index < s'.functions.length := hs.functions.length_eq ▸ hid
    rw [List.getElem?_eq_getElem hid, List.getElem?_eq_getElem hid']
    exact hs.functions.get hid hid'
  · have hid' : ¬id.index < s'.functions.length := hs.functions.length_eq ▸ hid
    rw [List.getElem?_eq_none (Nat.not_lt.mp hid), List.getElem?_eq_none (Nat.not_lt.mp hid')]
    exact .default ρ

theorem State.declaration_function (s : State) (id : FunctionId) :
    (s.heap.function id).declaration = ((s.functions[id.index]?).getD default).declaration := by
  rw [Heap.function, State.heap, List.getElem?_toArray, List.getElem?_map]
  cases s.functions[id.index]? <;> rfl

/-- **Alike states** find the same methods, -/
theorem State.Alike.findMethod? (hs : s.Alike ρ s') (id : ClassId) (name : String) :
    s'.heap.findMethod? id name = s.heap.findMethod? id name := by
  have hclasses : s'.heap.classes = s.heap.classes := hs.classes
  rw [Heap.findMethod?_congr hclasses]

/-- ask for the same number of arguments, -/
theorem State.Alike.arity (hs : s.Alike ρ s') (callee : Callable) :
    s'.heap.arity callee = s.heap.arity callee := by
  have harity : ∀ id : FunctionId, s'.heap.functionArity id = s.heap.functionArity id := by
    intro id
    obtain ⟨_, halike, -⟩ := (hs.closure id).alike
    rw [Heap.functionArity, Heap.functionArity, State.declaration_function,
      State.declaration_function, halike.length_eq]
  cases callee with
  | native f => rfl
  | function id => exact harity id
  | cls id =>
    rw [Heap.arity, Heap.arity, hs.findMethod?]
    cases s.heap.findMethod? id initializerName with
    | none => rfl
    | some init => exact harity init

/-- and show values alike. -/
theorem State.Alike.display (hs : s.Alike ρ s') (v : Value) :
    s'.heap.display v = s.heap.display v := by
  have hclasses : s'.heap.classes = s.heap.classes := hs.classes
  have hinstances : s'.heap.instances = s.heap.instances := hs.instances
  cases v with
  | bool value => cases value <;> rfl
  | function id =>
    obtain ⟨_, halike, -⟩ := (hs.closure id).alike
    simp only [Heap.display, Heap.functionText, State.declaration_function, halike.name_eq]
  | cls id => simp only [Heap.display, Heap.classObject_congr hclasses]
  | inst id =>
    simp only [Heap.display, Heap.classObject_congr hclasses, Heap.instanceObject_congr hinstances]
  | _ => rfl

end

/-! ## Runs -/

/-- Whether two runs stop for the same reason.  At an assignment to a variable in its own
initializer the name may be another. -/
def Stop.Alike : Stop → Stop → Prop
  | .fault f, .fault f' => f' = f
  | .ownAssignment _, .ownAssignment _ => True
  | .outOfFuel, .outOfFuel => True
  | _, _ => False

/-- **Whether two runs end alike** from these states, with results that `Q` relates. -/
def Together {α β : Type} (ρ : Renaming) (s s' : State) (x : Run α) (y : Run β)
    (Q : State → α → β → Prop) : Prop :=
  ∃ s₁ s₁', s₁.Alike ρ s₁' ∧ ((∃ a b, x s = .ok a s₁ ∧ y s' = .ok b s₁' ∧ Q s₁ a b) ∨
    ∃ e e', x s = .error e s₁ ∧ y s' = .error e' s₁' ∧ e.Alike e')

/-- The same result on both sides. -/
def Equal {α : Type} (_ : State) (a b : α) : Prop :=
  b = a

namespace Together

variable {α β γ δ : Type} {ρ : Renaming} {s s' s₁ s₁' : State} {x : Run α} {y : Run β}
  {f : α → Run γ} {g : β → Run δ} {Q : State → α → β → Prop} {R : State → γ → δ → Prop}

theorem step {a : α} {b : β} (hx : x s = .ok a s₁) (hy : y s' = .ok b s₁') (hs : s₁.Alike ρ s₁')
    (hq : Q s₁ a b) : Together ρ s s' x y Q :=
  ⟨s₁, s₁', hs, .inl ⟨a, b, hx, hy, hq⟩⟩

theorem pure {a : α} {b : β} (hs : s.Alike ρ s') (hq : Q s a b) :
    Together ρ s s' (Pure.pure a) (Pure.pure b) Q :=
  step rfl rfl hs hq

theorem stop {e e' : Stop} (hx : x s = .error e s) (hy : y s' = .error e' s') (hs : s.Alike ρ s')
    (he : e.Alike e') : Together ρ s s' x y Q :=
  ⟨s, s', hs, .inr ⟨e, e', hx, hy, he⟩⟩

theorem fail {fault : Machine.Fault} (hs : s.Alike ρ s') :
    Together ρ s s' (Lexical.fail fault) (Lexical.fail fault) Q :=
  stop rfl rfl hs rfl

theorem outOfFuel (hs : s.Alike ρ s') : Together ρ s s' Lexical.outOfFuel Lexical.outOfFuel Q :=
  stop rfl rfl hs trivial

/-- **Rows of runs that are together are together.** -/
theorem bind (h : Together ρ s s' x y Q)
    (hfg : ∀ a b s₁ s₁', s₁.Alike ρ s₁' → Q s₁ a b → Together ρ s₁ s₁' (f a) (g b) R) :
    Together ρ s s' (x >>= f) (y >>= g) R := by
  obtain ⟨s₁, s₁', hs₁, ⟨a, b, hx, hy, hq⟩ | ⟨e, e', hx, hy, he⟩⟩ := h
  · obtain ⟨s₂, s₂', hs₂, hends⟩ := hfg a b s₁ s₁' hs₁ hq
    refine ⟨s₂, s₂', hs₂, ?_⟩
    rw [Steps.bind_of_ok hx, Steps.bind_of_ok hy]
    exact hends
  · refine ⟨s₁, s₁', hs₁, .inr ⟨e, e', ?_, ?_, he⟩⟩
    · rw [Steps.bind_of_error hx]
    · rw [Steps.bind_of_error hy]

theorem mono {P : State → α → β → Prop} (h : Together ρ s s' x y Q)
    (hq : ∀ a b s₁, Q s₁ a b → P s₁ a b) : Together ρ s s' x y P := by
  obtain ⟨s₁, s₁', hs₁, ⟨a, b, hx, hy, hab⟩ | hstop⟩ := h
  · exact ⟨s₁, s₁', hs₁, .inl ⟨a, b, hx, hy, hq a b s₁ hab⟩⟩
  · exact ⟨s₁, s₁', hs₁, .inr hstop⟩

theorem bind_equal {y : Run α} {g : α → Run δ} (h : Together ρ s s' x y Equal)
    (hfg : ∀ a s₁ s₁', s₁.Alike ρ s₁' → Together ρ s₁ s₁' (f a) (g a) R) :
    Together ρ s s' (x >>= f) (y >>= g) R := by
  refine h.bind fun a b s₁ s₁' hs₁ hq => ?_
  cases hq
  exact hfg a s₁ s₁' hs₁

theorem get_bind {f : State → Run γ} {g : State → Run δ} (h : Together ρ s s' (f s) (g s') R) :
    Together ρ s s' (get >>= f) (get >>= g) R :=
  h

theorem ite {c c' : Prop} [Decidable c] [Decidable c'] {x' : Run α} {y' : Run β} (hc : c' ↔ c)
    (h : c → Together ρ s s' x y Q) (h' : ¬c → Together ρ s s' x' y' Q) :
    Together ρ s s' (if c then x else x') (if c' then y else y') Q := by
  by_cases hc' : c
  · rw [if_pos hc', if_pos (hc.mpr hc')]
    exact h hc'
  · rw [if_neg hc', if_neg fun h => hc' (hc.mp h)]
    exact h' hc'

end Together

section
variable {ρ : Renaming} {s s' : State} {pairing : Pairing} {env env' : Env} {x x' : String}
  {v : Value}

/-! ## Variables -/

theorem together_bindLocal (hs : s.Alike ρ s') (v : Value) :
    Together ρ s s' (bindLocal env x v) (bindLocal env' x' v) fun _ behind behind' =>
      ∃ location, behind = env.extend x location ∧ behind' = env'.extend x' location := by
  have hstored : State.Alike ρ { s with store := s.store ++ [v] }
      { s' with store := s'.store ++ [v] } :=
    { hs with store := congrArg (· ++ [v]) hs.store }
  refine .step rfl rfl hstored ⟨s.store.length, rfl, ?_⟩
  rw [hs.store]

/-- **A pair of names is declared alike.** -/
theorem together_declare (hs : s.Alike ρ s') (hp : Place pairing env env') (hplain : Plain x)
    (hplain' : Plain x') (hadmits : pairing.Admits x x') (v : Value) :
    Together ρ s s' (declare env x v) (declare env' x' v) fun _ behind behind' =>
      Place (pairing.declare x x') behind behind' := by
  unfold declare
  rw [hp.isLocal, hp.isLocal']
  cases pairing with
  | nil =>
    cases hadmits
    have hbound : State.Alike ρ { s with globals := s.globals.put x v }
        { s' with globals := s'.globals.put x v } :=
      { hs with globals := congrArg (·.put x v) hs.globals }
    exact .step rfl rfl hbound hp
  | cons scope outer =>
    refine (together_bindLocal hs v).mono fun behind behind' _ hq => ?_
    obtain ⟨location, rfl, rfl⟩ := hq
    exact hp.declare nofun hplain hplain' hadmits location

end

end Lox.Lexical
