import Dotenv.Text.Basic
/-!
# Keyed lists

Entries under distinct keys, in the order in which the keys were first put in. Putting a
value under a key that is there replaces the value and keeps its place.
-/

set_option autoImplicit false

namespace Dotenv

abbrev Keyed (α : Type) := List (Text × α)

namespace Keyed

variable {α : Type}

def get? (key : Text) : Keyed α → Option α
  | [] => none
  | (k, value) :: rest => if k = key then some value else get? key rest

def contains (key : Text) (entries : Keyed α) : Bool := (get? key entries).isSome

def set (key : Text) (value : α) : Keyed α → Keyed α
  | [] => [(key, value)]
  | (k, old) :: rest => if k = key then (k, value) :: rest else (k, old) :: set key value rest

def erase (key : Text) : Keyed α → Keyed α
  | [] => []
  | (k, value) :: rest => if k = key then rest else (k, value) :: erase key rest

def setAll (entries : Keyed α) (more : List (Text × α)) : Keyed α :=
  more.foldl (fun entries entry => set entry.1 entry.2 entries) entries

/-- A list as entries: of a repeated key the last value counts, at the first place. -/
def ofList (entries : List (Text × α)) : Keyed α := setAll [] entries

def keys (entries : Keyed α) : List Text := entries.map Prod.fst

theorem get?_set (key other : Text) (value : α) (entries : Keyed α) :
    get? other (set key value entries) =
      if key = other then some value else get? other entries := by
  induction entries with
  | nil => simp [set, get?]
  | cons entry rest ih =>
    obtain ⟨k, old⟩ := entry
    by_cases same : k = key
    · subst same
      by_cases found : k = other <;> simp [set, get?, found]
    · by_cases found : k = other
      · subst found
        have differs : ¬ key = k := fun h => same h.symm
        simp [set, get?, same, differs]
      · simp [set, get?, same, found, ih]

end Keyed

end Dotenv
