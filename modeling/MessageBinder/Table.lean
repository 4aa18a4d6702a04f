import MessageBinder.Text.CodeText

/-!
# Tables in order of arrival

Message catalogues, records and JSON objects all show their entries in the order in which the keys
first arrived. A table is the list of its entries; writing to a key that is present replaces the
value and moves nothing, and a new key goes to the end.
-/

namespace MessageBinder

/-- Entries in the order in which their keys first arrived. -/
abbrev Table (α : Type) := List (CodeText × α)

namespace Table

variable {α : Type}

/-- Writes a value to a key. -/
def insert (key : CodeText) (value : α) : Table α → Table α
  | [] => [(key, value)]
  | e :: t => if e.1 = key then (key, value) :: t else e :: insert key value t

/-- The value of a key. -/
def find? (key : CodeText) (t : Table α) : Option α :=
  (List.find? (fun e => e.1 = key) t).map (·.2)

/-- The table that the entries write one after the other. -/
def ofEntries (entries : List (CodeText × α)) : Table α :=
  entries.foldl (fun t e => insert e.1 e.2 t) []

/-- The keys in their order. -/
def keys (t : Table α) : List CodeText := t.map (·.1)

/-! ### The order of the keys -/

theorem keys_insert_of_mem {key : CodeText} {value : α} {t : Table α} (h : key ∈ keys t) :
    keys (insert key value t) = keys t := by
  induction t with
  | nil => simp [keys] at h
  | cons e t ih =>
    simp only [insert]
    split
    · simp_all [keys]
    · have : key ∈ keys t := by
        simp only [keys, List.map_cons, List.mem_cons] at h
        rcases h with h | h
        · simp_all
        · exact h
      simpa [keys] using ih this

theorem keys_insert_of_not_mem {key : CodeText} {value : α} {t : Table α} (h : key ∉ keys t) :
    keys (insert key value t) = keys t ++ [key] := by
  induction t with
  | nil => simp [keys, insert]
  | cons e t ih =>
    simp only [keys, List.map_cons, List.mem_cons, not_or] at h
    have hne : ¬e.1 = key := fun he => h.1 he.symm
    simp only [insert, if_neg hne]
    simpa [keys] using ih h.2

/-! ### The values -/

@[simp] theorem find?_insert_self (key : CodeText) (value : α) (t : Table α) :
    find? key (insert key value t) = some value := by
  induction t with
  | nil => simp [find?, insert]
  | cons e t ih =>
    simp only [insert]
    split
    · simp [find?]
    · rename_i hne
      simpa [find?, List.find?_cons, hne] using ih

theorem find?_insert_of_ne {key other : CodeText} (h : other ≠ key) (value : α) (t : Table α) :
    find? other (insert key value t) = find? other t := by
  have hk : ¬key = other := fun he => h he.symm
  induction t with
  | nil => simp [find?, insert, hk]
  | cons e t ih =>
    simp only [insert]
    split
    · rename_i he
      simp [find?, hk, he]
    · by_cases ho : e.1 = other
      · simp [find?, ho]
      · simpa [find?, List.find?_cons, ho] using ih

end Table

end MessageBinder
