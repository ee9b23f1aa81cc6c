/-!
# StackScript.Names — what is stored under names

A store of names keeps one entry for a name and the order in which the names came.  Writing a name
that is there replaces its entry in place.
-/

namespace StackScript

/-- Entries by name, in the order in which the names came. -/
abbrev Names (α : Type) := List (String × α)

namespace Names

variable {α : Type}

/-- The entry of a name. -/
def find? (names : Names α) (name : String) : Option α := names.lookup name

/-- Writes the entry of a name. -/
def put (name : String) (a : α) : Names α → Names α
  | [] => [(name, a)]
  | (n, b) :: rest => if n = name then (name, a) :: rest else (n, b) :: put name a rest

theorem find?_put (name other : String) (a : α) (names : Names α) :
    (put name a names).find? other = if other = name then some a else names.find? other := by
  induction names with
  | nil =>
    by_cases h : other = name
    · simp [put, find?, h]
    · have hb : (other == name) = false := beq_false_of_ne h
      simp [put, find?, List.lookup_cons, h, hb]
  | cons p rest ih =>
    obtain ⟨n, b⟩ := p
    simp only [find?] at ih
    by_cases hn : n = name
    · subst hn
      by_cases h : other = n
      · simp [put, find?, h]
      · have hb : (other == n) = false := beq_false_of_ne h
        simp [put, find?, List.lookup_cons, h, hb]
    · by_cases h : other = n
      · subst h
        simp [put, find?, hn]
      · have hb : (other == n) = false := beq_false_of_ne h
        simp [put, find?, List.lookup_cons, hn, ih, hb]

end Names

end StackScript
