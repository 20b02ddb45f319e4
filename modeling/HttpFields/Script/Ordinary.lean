import HttpFields.Script.Value

/-!
# Ordinary objects

Objects that live in memory and need no engine: arrays and records. Objects of some other kind may
occur among their values, and answer for themselves.

* `Key.index?` : the index that a key denotes
* `Items` : the items of an array, which it has under the numerals of their indices, and its length under a hidden key
* `Record` : the properties of an object, each key once and in the order of their first definitions
* `Ordinary` : an array, a record, or an object of another kind
* `Ordinary.text` : the text of an object; that of an array joins the texts of its items by commas
* `Ordinary.world` : the answers of ordinary objects
-/

namespace HttpFields.Script

set_option autoImplicit false

/-! ## Items of an array -/

namespace Key

def length : Key := .string "length"

def ofIndex (i : Nat) : Key := .string (String.ofList (Nat.toDigits 10 i))

/-- The index that a key denotes, if its text is a row of decimal digits. A plus sign in front of them
and leading zeros do not matter. -/
def index? : Key → Option Nat
  | .string text =>
    let digits := match text.toList with
      | '+' :: rest => rest
      | cs => cs
    if digits.isEmpty || !digits.all Char.isDigit then none
    else some (digits.foldl (fun n c => 10 * n + (c.toNat - '0'.toNat)) 0)
  | .symbol _ => none

end Key

abbrev Items (α : Type) := List α

namespace Items

variable {α : Type}

def keys (items : Items α) : List Key := (List.range (List.length items)).map .ofIndex ++ [.length]

/-- How visible a property of an array is: the items are listed, the length is not. -/
def visibility? (items : Items α) (key : Key) : Option Visibility :=
  if key = .length then some .hidden
  else match key.index? with
    | some i => if i < List.length items then some .enumerable else none
    | none => none

def read {ω : Type} (items : Items (Value ω)) (key : Key) : Value ω :=
  if key = .length then .primitive (.number (.ofNat (List.length items)))
  else match key.index? with
    | some i => List.getD items i .undefined
    | none => .undefined

end Items

/-! ## Records -/

structure Property (α : Type) where
  key : Key
  visibility : Visibility
  value : α

/-- The properties of an object in the order in which their keys were first defined. -/
abbrev Record (α : Type) := List (Property α)

namespace Record

variable {α : Type}

/-- Defines a property. A key that is there already keeps its place and gets the new value and
visibility. -/
def define (r : Record α) (p : Property α) : Record α :=
  match r with
  | [] => [p]
  | q :: rest => if q.key = p.key then p :: rest else q :: define rest p

def ofList (ps : List (Property α)) : Record α := ps.foldl define []

def find? (r : Record α) (key : Key) : Option (Property α) := List.find? (·.key = key) r

theorem find?_define (r : Record α) (p : Property α) (key : Key) :
    (define r p).find? key = if p.key = key then some p else r.find? key := by
  induction r with
  | nil => by_cases h : p.key = key <;> simp [define, find?, h]
  | cons q rest ih =>
    by_cases hq : q.key = p.key
    · by_cases h : p.key = key <;> simp [define, find?, hq, h]
    · rw [define, if_neg hq]
      by_cases h : q.key = key
      · have hp : p.key ≠ key := fun e => hq (h.trans e.symm)
        simp [find?, h, hp]
      · simpa [find?, h] using ih

theorem keys_define (r : Record α) (p : Property α) :
    (define r p).map (·.key) =
      if p.key ∈ r.map (·.key) then r.map (·.key) else r.map (·.key) ++ [p.key] := by
  induction r with
  | nil => simp [define]
  | cons q rest ih =>
    by_cases hq : q.key = p.key
    · simp [define, hq]
    · have hp : p.key ≠ q.key := fun e => hq e.symm
      simp only [define, hq, if_false, List.map_cons, ih, List.mem_cons, hp, false_or]
      split <;> simp

end Record

/-! ## Objects -/

/-- An object in memory, or one of the kind `φ`. -/
inductive Ordinary (φ : Type) where
  | array (items : List (Value (Ordinary φ)))
  | record (properties : List (Property (Value (Ordinary φ))))
  | foreign (o : φ)

namespace Ordinary

variable {φ σ : Type}

def pair (first second : String) : Ordinary φ := .array [.string first, .string second]

def pairs (ps : List (String × String)) : Ordinary φ :=
  .array (ps.map fun (first, second) => .object (pair first second))

section Text

variable (foreign : World φ (Ordinary φ) σ)

mutual

def text : Ordinary φ → ScriptM σ String
  | .array items => do
    let texts ← itemTexts items
    return ",".intercalate texts
  | .record _ => pure objectText
  | .foreign o => foreign (.text o)

def itemTexts : List (Value (Ordinary φ)) → ScriptM σ (List String)
  | [] => pure []
  | item :: items => do
    let first ← itemText item
    let rest ← itemTexts items
    return first :: rest

/-- The text of an item of an array, which is empty for `undefined` and `null`. -/
def itemText : Value (Ordinary φ) → ScriptM σ String
  | .primitive .undefined => pure ""
  | .primitive .null => pure ""
  | .primitive p => pure p.text
  | .object o => text o

end

end Text

def notIterable : Thrown := ⟨"object is not iterable"⟩

/-- The answers of objects in memory, and those of the other objects among them. -/
def world (foreign : World φ (Ordinary φ) σ) : World (Ordinary φ) (Ordinary φ) σ
  | .isIterable (.array _) => pure true
  | .isIterable (.record _) => pure false
  | .isIterable (.foreign o) => foreign (.isIterable o)
  | .iterate (.array items) => pure items
  | .iterate (.record _) => throw notIterable
  | .iterate (.foreign o) => foreign (.iterate o)
  | .ownKeys (.array items) => pure (Items.keys items)
  | .ownKeys (.record properties) => pure (properties.map (·.key))
  | .ownKeys (.foreign o) => foreign (.ownKeys o)
  | .ownProperty (.array items) key => pure (Items.visibility? items key)
  | .ownProperty (.record properties) key =>
    pure ((Record.find? properties key).map (·.visibility))
  | .ownProperty (.foreign o) key => foreign (.ownProperty o key)
  | .read (.array items) key => pure (Items.read items key)
  | .read (.record properties) key =>
    pure (((Record.find? properties key).map (·.value)).getD .undefined)
  | .read (.foreign o) key => foreign (.read o key)
  | .text o => text foreign o

end Ordinary

end HttpFields.Script
