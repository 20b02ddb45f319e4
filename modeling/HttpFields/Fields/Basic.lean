import HttpFields.Field.Standard
import HttpFields.Field.Value

/-!
# Lists of fields

A field is a name with a value, and a field list holds every field of a message one by one, in the
order in which they came. Values of one name are never merged in the list; `combined` merges them
for a reader.

* `valuesOf` : the values of one name, in list order
* `combined` : those values as a single one, except for `set-cookie`, whose first value stands alone
* `append`, `set`, `remove`, `retain` : the changes of a list; `valuesOf_append` and its like say what
  they do to the values of a name
-/

namespace HttpFields

open HttpFields.Field

set_option autoImplicit false

structure Field where
  name : Name
  value : Value
  deriving DecidableEq

/-- The fields of a message in the order of their arrival. -/
abbrev Fields := List Field

namespace Fields

/-! ## Reading -/

def valuesOf (fs : Fields) (n : Name) : List Value :=
  (fs.filter (·.name = n)).map (·.value)

def has (fs : Fields) (n : Name) : Bool := fs.any (·.name = n)

/-- The values of a name as a single value; of `set-cookie` the first value only. -/
def combined (fs : Fields) (n : Name) : Option Value :=
  match fs.valuesOf n with
  | [] => none
  | v :: more => some (if n = Name.setCookie then v else v.join more)

/-! ## Changing -/

def append (fs : Fields) (n : Name) (v : Value) : Fields := fs ++ [⟨n, v⟩]

def remove (fs : Fields) (n : Name) : Fields := fs.filter (·.name ≠ n)

def retain (fs : Fields) (keeps : Name → Bool) : Fields := fs.filter (keeps ·.name)

/-- One value for a name in place of all it has: it takes the place of the first of them, or the last
place if there is none. -/
def set (fs : Fields) (n : Name) (v : Value) : Fields :=
  match fs with
  | [] => [⟨n, v⟩]
  | f :: rest => if f.name = n then ⟨n, v⟩ :: remove rest n else f :: set rest n v

/-! ## What a change does to the values of a name -/

theorem valuesOf_cons (f : Field) (fs : Fields) (m : Name) :
    Fields.valuesOf (f :: fs) m = (if f.name = m then [f.value] else []) ++ fs.valuesOf m := by
  by_cases h : f.name = m <;> simp [valuesOf, h]

theorem valuesOf_append (fs : Fields) (n : Name) (v : Value) (m : Name) :
    (fs.append n v).valuesOf m = fs.valuesOf m ++ if n = m then [v] else [] := by
  by_cases h : n = m <;> simp [append, valuesOf, h]

theorem valuesOf_retain (fs : Fields) (keeps : Name → Bool) (m : Name) :
    (fs.retain keeps).valuesOf m = if keeps m then fs.valuesOf m else [] := by
  induction fs with
  | nil => simp [retain, valuesOf]
  | cons f fs ih =>
    by_cases hm : f.name = m
    · cases hk : keeps m <;> simp_all [retain, valuesOf]
    · cases hk : keeps f.name <;> simp_all [retain, valuesOf]

theorem remove_eq_retain (fs : Fields) (n : Name) : fs.remove n = fs.retain (fun m => m ≠ n) := rfl

theorem valuesOf_remove (fs : Fields) (n m : Name) :
    (fs.remove n).valuesOf m = if m = n then [] else fs.valuesOf m := by
  rw [remove_eq_retain, valuesOf_retain]
  by_cases h : m = n <;> simp [h]

theorem valuesOf_set (fs : Fields) (n : Name) (v : Value) (m : Name) :
    (fs.set n v).valuesOf m = if n = m then [v] else fs.valuesOf m := by
  induction fs with
  | nil => by_cases h : n = m <;> simp [set, valuesOf, h]
  | cons f fs ih =>
    by_cases hf : f.name = n
    · by_cases h : n = m
      · simp [set, hf, valuesOf_cons, valuesOf_remove, h]
      · have hm : m ≠ n := fun e => h e.symm
        simp [set, hf, valuesOf_cons, valuesOf_remove, h, hm]
    · by_cases h : n = m
      · subst h
        simp [set, hf, valuesOf_cons, ih]
      · simp [set, hf, valuesOf_cons, ih, h]

theorem has_eq_true_iff (fs : Fields) (n : Name) : fs.has n = true ↔ fs.valuesOf n ≠ [] := by
  simp [has, valuesOf, List.filter_eq_nil_iff]

end Fields

end HttpFields
