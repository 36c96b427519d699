import Lox.Proofs.Frames

/-!
# Questions to the heap

What a heap says of a class depends on classes and declarations of functions alone: heaps that agree
in these give the same answers (`Heap.Agree`), also about instances if they hold the same ones.
Whatever is found is held by some class or instance, and behind a write to a field the instances hold
what they held before, or what was written (`Heap.exists_of_getElem?_setField`).
-/

namespace Lox

namespace Heap

/-- Whether heaps agree in their classes and in what their functions declare. -/
structure Agree (heap heap' : Heap) : Prop where
  declarations : ∀ i : Nat, (heap'.functions[i]?).map FunctionObject.declaration =
    (heap.functions[i]?).map FunctionObject.declaration
  classes : heap'.classes = heap.classes

variable {heap heap' : Heap}

theorem Agree.declaration_function (h : heap.Agree heap') (id : FunctionId) :
    (heap'.function id).declaration = (heap.function id).declaration := by
  have hid := h.declarations id.index
  unfold function
  cases hf : heap.functions[id.index]? with
  | none =>
    rw [hf, Option.map_none, Option.map_eq_none_iff] at hid
    rw [hid]
  | some f =>
    rw [hf, Option.map_some, Option.map_eq_some_iff] at hid
    obtain ⟨f', hf', hsame⟩ := hid
    rw [hf', Option.getD_some, Option.getD_some, hsame]

theorem classObject_congr (h : heap'.classes = heap.classes) (id : ClassId) :
    heap'.classObject id = heap.classObject id := by
  rw [classObject, classObject, h]

theorem lineage_congr (h : heap'.classes = heap.classes) (id : ClassId) :
    heap'.lineage id = heap.lineage id := by
  rw [lineage, lineage, classObject_congr h]
  cases (heap.classObject id).superclass with
  | none => rfl
  | some parent =>
    by_cases hlt : parent.index < id.index
    · simp only [if_pos hlt, lineage_congr h parent]
    · simp only [if_neg hlt]
termination_by id.index

theorem findMethod?_congr (h : heap'.classes = heap.classes) (id : ClassId) (name : String) :
    heap'.findMethod? id name = heap.findMethod? id name := by
  simp only [findMethod?, lineage_congr h, classObject_congr h]

theorem instanceObject_congr (h : heap'.instances = heap.instances) (id : InstanceId) :
    heap'.instanceObject id = heap.instanceObject id := by
  rw [instanceObject, instanceObject, h]

theorem property?_congr (hc : heap'.classes = heap.classes) (hi : heap'.instances = heap.instances)
    (id : InstanceId) (name : String) : heap'.property? id name = heap.property? id name := by
  simp only [property?, instanceObject_congr hi, findMethod?_congr hc]

theorem Agree.findMethod? (h : heap.Agree heap') (id : ClassId) (name : String) :
    heap'.findMethod? id name = heap.findMethod? id name :=
  findMethod?_congr h.classes id name

theorem Agree.functionArity (h : heap.Agree heap') (id : FunctionId) :
    heap'.functionArity id = heap.functionArity id := by
  rw [Heap.functionArity, Heap.functionArity, h.declaration_function]

/-- **Heaps that agree** ask for the same number of arguments, -/
theorem Agree.arity (h : heap.Agree heap') (callee : Callable) :
    heap'.arity callee = heap.arity callee := by
  cases callee with
  | native f => rfl
  | function id => exact h.functionArity id
  | cls id =>
    simp only [Heap.arity, h.findMethod?]
    cases heap.findMethod? id initializerName with
    | some init => exact h.functionArity init
    | none => rfl

/-- find the same properties, -/
theorem Agree.property? (h : heap.Agree heap') (hi : heap'.instances = heap.instances)
    (id : InstanceId) (name : String) : heap'.property? id name = heap.property? id name :=
  property?_congr h.classes hi id name

/-- and show values alike. -/
theorem Agree.display (h : heap.Agree heap') (hi : heap'.instances = heap.instances) (v : Value) :
    heap'.display v = heap.display v := by
  cases v with
  | bool value => cases value <;> rfl
  | function id => simp only [Heap.display, functionText, h.declaration_function]
  | cls id => simp only [Heap.display, classObject_congr h.classes]
  | inst id => simp only [Heap.display, classObject_congr h.classes, instanceObject_congr hi]
  | _ => rfl

theorem exists_of_findMethod? {id : ClassId} {name : String} {method : FunctionId}
    (h : heap.findMethod? id name = some method) :
    ∃ (i : Nat) (c : ClassObject), heap.classes[i]? = some c ∧ c.methods.get? name = some method := by
  obtain ⟨owner, -, howner⟩ := List.exists_of_findSome?_eq_some h
  unfold classObject at howner
  cases hc : heap.classes[owner.index]? with
  | none => rw [hc] at howner; cases howner
  | some c => rw [hc] at howner; exact ⟨owner.index, c, hc, howner⟩

theorem exists_of_property?_field {id : InstanceId} {name : String} {v : Value}
    (h : heap.property? id name = some (.field v)) :
    ∃ (i : Nat) (o : InstanceObject), heap.instances[i]? = some o ∧ o.fields.get? name = some v := by
  unfold property? instanceObject at h
  cases ho : heap.instances[id.index]? with
  | none =>
    rw [ho] at h
    simp [default, Table.get?, Table.empty] at h
  | some o =>
    rw [ho] at h
    cases hv : o.fields.get? name with
    | none => simp [hv] at h
    | some u =>
      simp only [Option.getD_some, hv, Option.some.injEq, Property.field.injEq] at h
      exact ⟨id.index, o, ho, by rw [hv, h]⟩

theorem findMethod?_of_property?_method {id : InstanceId} {name : String} {method : FunctionId}
    (h : heap.property? id name = some (.method method)) :
    heap.findMethod? (heap.instanceObject id).classId name = some method := by
  unfold property? at h
  split at h
  · cases h
  · simpa using h

/-- **What a write to a field leaves:** every instance is one from before, with its fields or with
the value that was written. -/
theorem exists_of_getElem?_setField {id : InstanceId} {name : String} {v : Value} {i : Nat}
    {o : InstanceObject} (h : (heap.setField id name v).instances[i]? = some o) :
    ∃ old, heap.instances[i]? = some old ∧ o.classId = old.classId ∧
      ∀ x u, o.fields.get? x = some u → u = v ∨ old.fields.get? x = some u := by
  have h : (heap.instances.modify id.index _)[i]? = some o := h
  rw [Array.getElem?_modify] at h
  split at h
  · obtain ⟨old, hold, rfl⟩ := Option.map_eq_some_iff.mp h
    refine ⟨old, hold, rfl, fun x u hu => ?_⟩
    by_cases hx : x = name
    · subst hx
      exact .inl (Option.some.inj (hu.symm.trans (Table.get?_put_self old.fields x v)))
    · exact .inr ((Table.get?_put_of_ne old.fields v hx).symm.trans hu)
  · exact ⟨o, h, rfl, fun _ _ => .inr⟩

end Heap

end Lox
