import HttpFields.Field.Name

/-!
# Field values

A value is a text on one line: it holds no carriage return, no line feed and no NUL.

* `Value.normalize` : strips the padding of a text and reads the rest
* `Value.ofNormalized` : reads a text that has no padding, as it stands
* `Value.ofLiteral` : the value that a literal of the program stands for
* `Value.WellFormed` : what both of them and `Value.join` establish
* `Value.join` : several values of one field as a single value, a comma and a space between them

A joined value may begin or end with a blank where an empty part stands at that end, so the absence
of padding is a property of values that were read, and not of all values.
-/

namespace HttpFields.Field

open Text

set_option autoImplicit false

/-- The characters that end a line or a text on the wire: they occur in no value. -/
def breaksLine (c : Char) : Bool := c == '\r' || c == '\n' || c == '\x00'

structure Value where
  text : String
  deriving DecidableEq, Hashable

namespace Value

/-- A value stays on its line. -/
def WellFormed (v : Value) : Prop := ∀ c ∈ v.text.toList, breaksLine c = false

instance (v : Value) : Decidable v.WellFormed :=
  inferInstanceAs (Decidable (∀ c ∈ v.text.toList, breaksLine c = false))

/-- Strips the padding of a text and takes the rest for the value. -/
def normalize (s : String) : Except Fault Value :=
  let inner := strip s.toList
  if inner.any breaksLine then .error .malformed else .ok ⟨String.ofList inner⟩

/-- Takes a text for a value as it stands, and refuses one with padding. -/
def ofNormalized (s : String) : Except Fault Value :=
  let cs := s.toList
  if cs.head?.any isBlank || cs.getLast?.any isBlank || cs.any breaksLine then .error .malformed
  else .ok ⟨s⟩

/-- The value that a literal of the program stands for, without padding. A literal that is no value stops
the program, with the message of its fault. -/
def ofLiteral (s : String) : Except String Value := (ofNormalized s).mapError Fault.message

def join (first : Value) (more : List Value) : Value :=
  ⟨", ".intercalate ((first :: more).map text)⟩

theorem wellFormed_of_normalize {s : String} {v : Value} (h : normalize s = .ok v) :
    v.WellFormed := by
  unfold normalize at h
  simp only at h
  split at h
  · contradiction
  · next hb =>
    cases h
    simpa [WellFormed] using hb

theorem wellFormed_of_ofNormalized {s : String} {v : Value} (h : ofNormalized s = .ok v) :
    v.WellFormed := by
  unfold ofNormalized at h
  simp only at h
  split at h
  · contradiction
  · next hb =>
    cases h
    simp only [Bool.or_eq_true, not_or, List.any_eq_true, not_exists, not_and,
      Bool.not_eq_true] at hb
    exact hb.2

@[simp] theorem join_nil (v : Value) : v.join [] = v := by
  cases v
  simp [join]

end Value

end HttpFields.Field
