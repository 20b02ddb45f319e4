import HttpFields.Fields.Cursor
import HttpFields.Event

/-!
# Field stores

A store is a field list under a guard, with the policy that the guard refers to. Names and values come
to it as texts.

* `Operation.readName`, `Operation.readValue` : reads a text as a name or a value, in the name of an
  operation
* `Store.ofPairs` : the store of a list of pairs of texts
* `Store.underGuard` : puts a store under another guard; fields that this guard forbids are lost
* `Store.get`, `Store.getAll`, `Store.has`, `Store.setCookies` : look-up of one name
* `Store.snapshot` : all fields as a reader sees them
-/

namespace HttpFields

open HttpFields.Field

set_option autoImplicit false

/-! ## Reading texts -/

namespace Operation

def readName (op : Operation) (s : String) : Except Failure Name :=
  match Name.ofText s with
  | .ok n => .ok n
  | .error fault => .error ⟨op, .badName fault⟩

def readValue (op : Operation) (s : String) : Except Failure Value :=
  match Value.normalize s with
  | .ok v => .ok v
  | .error fault => .error ⟨op, .badValue fault⟩

/-- Reads a name and a value. A bad name is reported before a bad value. -/
def readField (op : Operation) (name value : String) : Except Failure Field := do
  let n ← op.readName name
  let v ← op.readValue value
  return ⟨n, v⟩

end Operation

/-! ## Stores -/

structure Store where
  fields : Fields := []
  guard : Guard := .none
  policy : Policy := .standard
  deriving DecidableEq

namespace Store

instance : Inhabited Store := ⟨{}⟩

/-- The store with one field for each pair, under no guard. -/
def ofPairs (pairs : List (String × String)) : Except Failure Store := do
  let fields ← pairs.mapM fun (name, value) => Operation.construct.readField name value
  return { fields }

def ofFields (fields : Fields) : Store := { fields }

/-- Puts a store under a guard. The fields whose names the guard does not permit are dropped. Under
`immutable` no name matters, so all fields stay. -/
def underGuard (s : Store) (guard : Guard) (policy : Policy) : Logged Store :=
  match policy.rule guard with
  | none => return { s with guard, policy }
  | some rule => do
    let fields := s.fields.retain rule.permits
    Logged.note (.guarded guard fields.length)
    return { fields, guard, policy }

/-! ## Look-up of one name -/

/-- The values of a name as one value; of `set-cookie` the first value only. -/
def get (s : Store) (name : String) : Except Failure (Option Value) := do
  let n ← Operation.get.readName name
  return s.fields.combined n

/-- A walk over the values of a name, one by one. -/
def getAll (s : Store) (name : String) : Except Failure ValueScan := do
  let n ← Operation.get.readName name
  return ⟨s.fields, n⟩

def has (s : Store) (name : String) : Except Failure Bool := do
  let n ← Operation.has.readName name
  return s.fields.has n

def setCookies (s : Store) : List Value := s.fields.valuesOf Name.setCookie

/-! ## All fields -/

/-- The fields as a reader sees them: sorted by name, each name once with its joined value, and
`set-cookie` once for each value. -/
def snapshot (s : Store) : Fields := s.fields.snapshot

def names (s : Store) : List Name := s.snapshot.map (·.name)

def values (s : Store) : List Value := s.snapshot.map (·.value)

def cursor (s : Store) : Cursor := .ofFields s.fields

/-- The number of stored fields, each value counted by itself. -/
def size (s : Store) : Nat := s.fields.length

def isEmpty (s : Store) : Bool := s.fields.isEmpty

end Store

end HttpFields
