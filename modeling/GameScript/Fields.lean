/-! Named values in the order in which their names first came. -/

namespace GameScript

/-- Names with their values. Names are texts unless another type is given. Each name stands once in a
list that `put` has built. -/
abbrev Fields (α : Type) (κ : Type := String) := List (κ × α)

namespace Fields

variable {α κ : Type} [DecidableEq κ]

/-- The value of a name. -/
def get? (fields : Fields α κ) (name : κ) : Option α :=
  match fields with
  | [] => none
  | (key, value) :: rest => if key = name then some value else get? rest name

def has (fields : Fields α κ) (name : κ) : Bool := (get? fields name).isSome

/-- Sets the value of a name. A name that is there keeps its place, a new one goes to the end. -/
def put (fields : Fields α κ) (name : κ) (value : α) : Fields α κ :=
  match fields with
  | [] => [(name, value)]
  | (key, old) :: rest =>
    if key = name then (key, value) :: rest else (key, old) :: put rest name value

/-- Sets several values, one after the other. -/
def putAll (fields more : Fields α κ) : Fields α κ :=
  more.foldl (fun acc (name, value) => put acc name value) fields

/-- The names, in order. -/
def names {α κ : Type} (fields : Fields α κ) : List κ := fields.map (·.1)

theorem get?_put_self (fields : Fields α κ) (name : κ) (value : α) :
    get? (put fields name value) name = some value := by
  induction fields with
  | nil => simp [put, get?]
  | cons field rest ih =>
    obtain ⟨key, old⟩ := field
    by_cases h : key = name <;> simp [put, get?, h, ih]

theorem get?_put_of_ne (fields : Fields α κ) {name other : κ} (value : α) (h : other ≠ name) :
    get? (put fields name value) other = get? fields other := by
  induction fields with
  | nil => simp [put, get?, Ne.symm h]
  | cons field rest ih =>
    obtain ⟨key, old⟩ := field
    by_cases hk : key = name
    · simp [put, get?, hk, Ne.symm h]
    · simp [put, get?, hk, ih]

theorem put_new {fields : Fields α κ} {name : κ} (h : name ∉ names fields) (value : α) :
    put fields name value = fields ++ [(name, value)] := by
  induction fields with
  | nil => rfl
  | cons field rest ih =>
    obtain ⟨key, other⟩ := field
    obtain ⟨hkey, hrest⟩ : name ≠ key ∧ name ∉ names rest := by
      simpa [names, not_or] using h
    rw [put, if_neg (Ne.symm hkey), ih hrest, List.cons_append]

theorem has_iff (fields : Fields α κ) (name : κ) : has fields name = true ↔ name ∈ names fields := by
  induction fields with
  | nil => simp [has, get?, names]
  | cons field rest ih =>
    obtain ⟨key, value⟩ := field
    by_cases h : key = name
    · simp [has, get?, names, h]
    · simpa [has, get?, names, h, Ne.symm h] using ih

theorem names_put (fields : Fields α κ) (name : κ) (value : α) :
    names (put fields name value) =
      if name ∈ names fields then names fields else names fields ++ [name] := by
  induction fields with
  | nil => simp [put, names]
  | cons field rest ih =>
    obtain ⟨key, old⟩ := field
    by_cases h : key = name
    · simp [put, names, h]
    · simp only [names] at ih
      by_cases hm : name ∈ rest.map (·.1) <;> simp_all [put, names, Ne.symm h]

end Fields

end GameScript
