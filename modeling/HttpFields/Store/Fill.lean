import HttpFields.Script.Value
import HttpFields.Store.Basic

/-!
# Making a store from a script value

A script makes a store from an array of pairs or from a record. Which of the two an object is, is
asked first, and every question is asked once and in a fixed order, since a script can watch. All texts
are collected before the first of them is read as a name or a value.

* `Fill.ofSequence` : the pairs of an object that can be iterated over
* `Fill.ofRecord` : the listed properties of any other object
* `Fill.pairs` : the pairs of a value
* `Store.ofSource` : the store made from what a script gives
-/

namespace HttpFields

open Script

set_option autoImplicit false

/-- What a new store is made from. -/
inductive Source (ω : Type) where
  | absent
  | store (s : Store)
  | value (v : Script.Value ω)

/-- A computation that asks the objects of a world with states `σ`: it may fail, and notes events. -/
abbrev FillM (σ : Type) := ExceptT Failure (StateT σ Logged)

namespace Fill

variable {ω σ : Type} (world : World ω ω σ)

/-- Runs a computation in the world. An exception fails the construction. -/
def ask {α : Type} (x : ScriptM σ α) : FillM σ α :=
  ExceptT.mk fun state =>
    match x.run.run state with
    | (.ok a, next) => pure (.ok a, next)
    | (.error e, next) => pure (.error ⟨.construct, .thrown e⟩, next)

def note (e : Event) : FillM σ Unit := ExceptT.lift (StateT.lift (Logged.note e))

def reject {α : Type} (fault : ShapeFault) : FillM σ α := throw ⟨.construct, .badShape fault⟩

/-! ## Sequences -/

def pairOf (index : Nat) : Script.Value ω → FillM σ (String × String)
  | .primitive _ => reject (.notPair index)
  | .object o => do
    let isPair : Bool ← ask (world (.isIterable o))
    unless isPair do reject (.notPair index)
    let items : List (Script.Value ω) ← ask (world (.iterate o))
    match items with
    | [name, value] => do
      let nameText ← ask (name.text world)
      let valueText ← ask (value.text world)
      return (nameText, valueText)
    | items => reject (.pairLength index items.length)

def pairsFrom (index : Nat) : List (Script.Value ω) → FillM σ (List (String × String))
  | [] => return []
  | v :: vs => do
    let first ← pairOf world index v
    let rest ← pairsFrom (index + 1) vs
    return first :: rest

def ofSequence (o : ω) : FillM σ (List (String × String)) := do
  let elements : List (Script.Value ω) ← ask (world (.iterate o))
  pairsFrom world 0 elements

/-! ## Records -/

/-- The pair of a property, if it is still there and is listed. -/
def pairOfProperty (o : ω) (key : Key) : FillM σ (Option (String × String)) := do
  let visibility : Option Visibility ← ask (world (.ownProperty o key))
  match visibility, key with
  | none, _ => do
    note (.vanished key)
    return none
  | some .hidden, _ => do
    note (.hidden key)
    return none
  | some .enumerable, .symbol _ => reject .symbolKey
  | some .enumerable, .string name => do
    let value : Script.Value ω ← ask (world (.read o key))
    let valueText ← ask (value.text world)
    return some (name, valueText)

def pairsOfKeys (o : ω) : List Key → FillM σ (List (String × String))
  | [] => return []
  | key :: keys => do
    let first ← pairOfProperty world o key
    let rest ← pairsOfKeys o keys
    return first.toList ++ rest

def ofRecord (o : ω) : FillM σ (List (String × String)) := do
  let keys : List Key ← ask (world (.ownKeys o))
  pairsOfKeys world o keys

/-! ## Values -/

/-- The pairs of texts that a value stands for. Of the primitive values only `undefined` stands for
pairs, and those are none. -/
def pairs : Script.Value ω → FillM σ (List (String × String))
  | .primitive .undefined => return []
  | .primitive p => do
    note (.notObject p.kind)
    reject .notObject
  | .object o => do
    let isSequence : Bool ← ask (world (.isIterable o))
    if isSequence then
      note .fromSequence
      ofSequence world o
    else
      note .fromRecord
      ofRecord world o

end Fill

open Fill in
/-- The store made from a source. It is under no guard, also if the source is a store that has one. -/
def Store.ofSource {ω σ : Type} (world : World ω ω σ) : Source ω → FillM σ Store
  | .absent => return {}
  | .store s => do
    note (.copied s.size)
    return .ofFields s.fields
  | .value v => do
    let ps ← pairs world v
    note (.collected ps.length)
    ofPairs ps

end HttpFields
