import LoxLang.Table

/-!
# Tables as maps

`Table.get?` after `Table.set` and `Table.erase`, and the two ways to say that a name is in a table: it is in iff it
stands for something (`contains_eq_isSome`).
-/

namespace LoxLang.Table

variable {α : Type}

@[simp] theorem get?_nil (name : String) : Table.get? ([] : Table α) name = none := rfl

@[simp] theorem contains_nil (name : String) : Table.contains ([] : Table α) name = false := rfl

theorem get?_cons (entry : String × α) (t : Table α) (name : String) :
    Table.get? (entry :: t) name = if entry.1 = name then some entry.2 else Table.get? t name := by
  by_cases h : entry.1 = name <;> simp [Table.get?, h]

theorem contains_cons (entry : String × α) (t : Table α) (name : String) :
    Table.contains (entry :: t) name = (entry.1 == name || Table.contains t name) := rfl

theorem contains_eq_isSome (t : Table α) (name : String) : t.contains name = (t.get? name).isSome := by
  induction t with
  | nil => rfl
  | cons entry t ih =>
    rw [contains_cons, get?_cons, ih]
    by_cases h : entry.1 = name <;> simp [h]

theorem contains_iff {t : Table α} {name : String} : t.contains name = true ↔ ∃ a, t.get? name = some a := by
  rw [contains_eq_isSome, Option.isSome_iff_exists]

@[simp] theorem get?_set (t : Table α) (name other : String) (a : α) :
    (t.set name a).get? other = if name = other then some a else t.get? other := by
  induction t with
  | nil => simp [Table.set, get?_cons]
  | cons entry t ih =>
    obtain ⟨key, b⟩ := entry
    unfold Table.set
    split
    · next h => subst h; by_cases h' : key = other <;> simp [get?_cons, h']
    · next h =>
      rw [get?_cons, get?_cons, ih]
      by_cases h' : key = other
      · subst h'; simp [Ne.symm h]
      · simp [h']

@[simp] theorem contains_set (t : Table α) (name other : String) (a : α) :
    (t.set name a).contains other = (decide (name = other) || t.contains other) := by
  rw [contains_eq_isSome, contains_eq_isSome, get?_set]
  by_cases h : name = other <;> simp [h]

theorem get?_append (t t' : Table α) (name : String) :
    Table.get? (t ++ t') name = (t.get? name).or (t'.get? name) := by
  induction t with
  | nil => simp
  | cons entry t ih =>
    rw [List.cons_append, get?_cons, get?_cons, ih]
    by_cases h : entry.1 = name <;> simp [h]

/-- What a name stands for is an entry of the table. -/
theorem mem_of_get? {t : Table α} {name : String} {a : α} (h : t.get? name = some a) : (name, a) ∈ t := by
  induction t with
  | nil => cases h
  | cons entry t ih =>
    obtain ⟨key, b⟩ := entry
    rw [get?_cons] at h
    split at h
    · next hk => cases h; subst hk; exact List.mem_cons_self
    · exact List.mem_cons_of_mem _ (ih h)

/-- A name that a table lacks has no value in it, be it an early or a late one. -/
theorem get?_reverse_of_not_mem {t : Table α} {name : String} (h : name ∉ t.keys) :
    Table.get? t.reverse name = none := by
  cases ha : Table.get? t.reverse name with
  | none => rfl
  | some a =>
    have hmem := List.mem_reverse.mp (mem_of_get? ha)
    exact absurd (List.mem_map_of_mem hmem) h

/-- A name that is in a table has a last value in it. -/
theorem get?_reverse_of_mem {t : Table α} {name : String} (h : name ∈ t.keys) :
    ∃ a, Table.get? t.reverse name = some a := by
  obtain ⟨⟨key, a⟩, hmem, rfl⟩ := List.mem_map.mp h
  have hc : Table.contains t.reverse key = true := by
    rw [Table.contains, List.any_eq_true]
    exact ⟨(key, a), List.mem_reverse.mpr hmem, by simp⟩
  exact contains_iff.mp hc

/-- The second write of a name to a table is the one that counts. -/
@[simp] theorem set_set (t : Table α) (name : String) (a b : α) : (t.set name a).set name b = t.set name b := by
  induction t with
  | nil => simp [Table.set]
  | cons entry t ih =>
    obtain ⟨key, c⟩ := entry
    by_cases h : key = name <;> simp [Table.set, h, ih]

/-- A name that is taken out of a table stands for nothing, and the others for what they stood for. -/
@[simp] theorem get?_erase (t : Table α) (name other : String) :
    (t.erase name).get? other = if name = other then none else t.get? other := by
  induction t with
  | nil => simp [Table.erase]
  | cons entry t ih =>
    obtain ⟨key, a⟩ := entry
    unfold Table.erase at ih ⊢
    by_cases hk : key = name
    · subst hk
      rw [List.filter_cons_of_neg (by simp), ih, get?_cons]
      by_cases ho : key = other <;> simp [ho]
    · rw [List.filter_cons_of_pos (by simpa using hk), get?_cons, ih, get?_cons]
      by_cases ho : key = other
      · subst ho
        simp [Ne.symm hk]
      · simp [ho]

end LoxLang.Table
