/-!
# Tables

A table holds values under names.  It is read through `get?`; writing under one name changes what
is found there (`get?_put_self`) and nowhere else (`get?_put_of_ne`).  Names stay in the order in
which they were first written.
-/

namespace Lox

/-- Values under names. -/
structure Table (α : Type) where
  entries : List (String × α)

namespace Table

variable {α : Type}

/-- The table without names. -/
def empty : Table α := ⟨[]⟩

/-- The table with one name. -/
def single (name : String) (value : α) : Table α := ⟨[(name, value)]⟩

/-- The value under a name. -/
def get? (table : Table α) (name : String) : Option α :=
  table.entries.lookup name

/-- Whether there is a value under a name. -/
def contains (table : Table α) (name : String) : Bool :=
  (table.get? name).isSome

/-- Entries with a value written under a name: in the place of the one that was there, or behind all
others. -/
def putEntry (name : String) (value : α) : List (String × α) → List (String × α)
  | [] => [(name, value)]
  | (key, old) :: others =>
    if key = name then (key, value) :: others else (key, old) :: putEntry name value others

/-- The table with a value written under a name. -/
def put (table : Table α) (name : String) (value : α) : Table α :=
  ⟨putEntry name value table.entries⟩

/-- The names in a table. -/
def names (table : Table α) : List String :=
  table.entries.map Prod.fst

@[simp] theorem get?_empty (name : String) : (empty : Table α).get? name = none := rfl

theorem lookup_cons (other key : String) (value : α) (entries : List (String × α)) :
    ((key, value) :: entries).lookup other
      = if other = key then some value else entries.lookup other := by
  by_cases h : other = key
  · simp [h]
  · simp [List.lookup_cons, h, beq_eq_false_iff_ne.2 h]

theorem lookup_putEntry (name other : String) (value : α) (entries : List (String × α)) :
    (putEntry name value entries).lookup other
      = if other = name then some value else entries.lookup other := by
  induction entries with
  | nil => simp only [putEntry, lookup_cons]
  | cons entry others ih =>
    obtain ⟨key, old⟩ := entry
    by_cases hk : key = name
    · subst hk
      simp only [putEntry, if_true, lookup_cons]
      split <;> rfl
    · simp only [putEntry, if_neg hk, lookup_cons, ih]
      by_cases h : other = key
      · subst h
        simp [hk]
      · simp [h]

@[simp] theorem get?_put_self (table : Table α) (name : String) (value : α) :
    (table.put name value).get? name = some value := by
  simp [put, get?, lookup_putEntry]

theorem get?_put_of_ne (table : Table α) {name other : String} (value : α) (h : other ≠ name) :
    (table.put name value).get? other = table.get? other := by
  simp [put, get?, lookup_putEntry, h]

end Table

end Lox
