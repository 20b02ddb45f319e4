import HttpFields.Text.Characters

/-!
# Field names

A name is a token in lower case, so two spellings of it that differ only in case are one name.

* `Name.parse` : reads a token in any case
* `Name.parseLower` : reads a token that is in lower case already, and refuses capitals
* `Name.ofLiteral` : the name that a literal of the program stands for
* `Name.WellFormed` : what both of them establish
* `Name.isSpelling` : whether a text spells the name, in any case
* the order of names is the order of their bytes
* `Fault` : what is wrong with a text that is no name, or no value of a field
-/

namespace HttpFields.Field

open Text

set_option autoImplicit false

/-- Why a text is no field name, or no field value. -/
inductive Fault where
  | empty
  | malformed
  deriving DecidableEq

def Fault.message : Fault → String
  | .empty => "cannot be empty"
  | .malformed => "contains invalid byte"

/-- A field name, held as the bytes of its lower-case spelling. -/
structure Name where
  bytes : List UInt8
  deriving DecidableEq, Hashable

namespace Name

/-- A name is a token in lower case: not empty, and of lower-case token characters only. -/
def WellFormed (n : Name) : Prop := n.bytes ≠ [] ∧ ∀ b ∈ n.bytes, isLowerToken b = true

instance (n : Name) : Decidable n.WellFormed := inferInstanceAs (Decidable (_ ∧ _))

/-- Reads a token and brings it to lower case. -/
def parse (bytes : List UInt8) : Except Fault Name :=
  if bytes.isEmpty then .error .empty
  else if bytes.all isToken then .ok ⟨bytes.map toLower⟩
  else .error .malformed

/-- Reads a token that is in lower case, as it stands. -/
def parseLower (bytes : List UInt8) : Except Fault Name :=
  if bytes.isEmpty then .error .empty
  else if bytes.all isLowerToken then .ok ⟨bytes⟩
  else .error .malformed

theorem wellFormed_of_parse {bytes : List UInt8} {n : Name} (h : parse bytes = .ok n) :
    n.WellFormed := by
  unfold parse at h
  split at h
  · contradiction
  · split at h
    · next hne hall =>
      cases h
      refine ⟨by simpa using hne, ?_⟩
      simp only [List.mem_map, forall_exists_index, and_imp, forall_apply_eq_imp_iff₂]
      exact fun b hb => isLowerToken_toLower b (List.all_eq_true.1 hall b hb)
    · contradiction

theorem wellFormed_of_parseLower {bytes : List UInt8} {n : Name} (h : parseLower bytes = .ok n) :
    n.WellFormed := by
  unfold parseLower at h
  split at h
  · contradiction
  · split at h
    · next hne hall =>
      cases h
      exact ⟨by simpa using hne, List.all_eq_true.1 hall⟩
    · contradiction

def ofText (s : String) : Except Fault Name := parse (utf8 s)

/-- The name that a literal of the program stands for, in lower case already. A literal that is no name
stops the program, with the message of its fault. -/
def ofLiteral (bytes : List UInt8) : Except String Name := (parseLower bytes).mapError Fault.message

/-- The spelling of a name. Its bytes are ASCII, so each is one character. -/
def text (n : Name) : String := String.ofList (n.bytes.map Char.ofUInt8)

def isText (n : Name) (s : String) : Bool := utf8 s == n.bytes

def isSpelling (n : Name) (s : String) : Bool := (utf8 s).map toLower == n.bytes.map toLower

/-! ## Order -/

instance : LT Name := ⟨fun a b => a.bytes < b.bytes⟩

instance : LE Name := ⟨fun a b => a.bytes ≤ b.bytes⟩

instance (a b : Name) : Decidable (a < b) := inferInstanceAs (Decidable (a.bytes < b.bytes))

instance (a b : Name) : Decidable (a ≤ b) := inferInstanceAs (Decidable (a.bytes ≤ b.bytes))

instance : Ord Name := ⟨fun a b => compareOfLessAndEq a b⟩

end Name

end HttpFields.Field
