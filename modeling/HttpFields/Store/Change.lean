import HttpFields.Store.Basic

/-!
# Changes of a store

A change reads its arguments, then asks the guard, and only then touches the fields. Each change
yields the new store; one that fails yields none, so the old store stands.

* `Store.askGuard` : asks the guard, and notes a refusal
* `append`, `appendIfAbsent`, `set`, `delete` : changes of one name
* `extend`, `clear` : changes of many names, in full or not at all
* `Command` : the changes as data; `Store.apply` carries one out, `Store.run` several
-/

namespace HttpFields

open HttpFields.Field

set_option autoImplicit false

/-- A computation on stores: it may fail, and notes events. -/
abbrev StoreM := ExceptT Failure Logged

namespace Store

/-- Asks the guard whether a name may be changed. A refusal is noted, and fails the operation. -/
def askGuard (s : Store) (op : Operation) (n : Name) : StoreM Unit :=
  match s.policy.check s.guard n with
  | .ok () => pure ()
  | .error refusal => do
    Logged.note (.refused op s.guard refusal)
    throw ⟨op, .refused refusal⟩

/-! ## Changes of one name -/

def append (s : Store) (name value : String) : StoreM Store := do
  let f ← Operation.append.readField name value
  s.askGuard .append f.name
  return { s with fields := s.fields.append f.name f.value }

/-- Adds a value if the name has none. The guard is asked in any case. -/
def appendIfAbsent (s : Store) (name value : String) : StoreM Store := do
  let f ← Operation.append.readField name value
  s.askGuard .append f.name
  if s.fields.has f.name then return s
  return { s with fields := s.fields.append f.name f.value }

/-- Replaces all values of a name by one, in the place of the first of them. -/
def set (s : Store) (name value : String) : StoreM Store := do
  let f ← Operation.set.readField name value
  s.askGuard .set f.name
  return { s with fields := s.fields.set f.name f.value }

def delete (s : Store) (name : String) : StoreM Store := do
  let n ← Operation.delete.readName name
  s.askGuard .delete n
  return { s with fields := s.fields.remove n }

/-! ## Changes of many names -/

/-- Adds several fields behind all others. The guard is asked about every name first. -/
def extend (s : Store) (fields : Fields) : StoreM Store := do
  fields.forM fun f => s.askGuard .append f.name
  return { s with fields := s.fields ++ fields }

/-- Removes all fields. The guard is asked about every stored name first. An immutable store is not
cleared even if it has no name to ask about, and then there is nothing to note. -/
def clear (s : Store) : StoreM Store := do
  s.fields.forM fun f => s.askGuard .delete f.name
  if s.guard = .immutable then throw ⟨.delete, .refused .immutable⟩
  return { s with fields := [] }

end Store

/-! ## Changes as data -/

inductive Command where
  | append (name value : String)
  | appendIfAbsent (name value : String)
  | set (name value : String)
  | delete (name : String)
  | extend (fields : Fields)
  | clear
  | underGuard (guard : Guard) (policy : Policy)

namespace Store

def apply (s : Store) : Command → StoreM Store
  | .append name value => s.append name value
  | .appendIfAbsent name value => s.appendIfAbsent name value
  | .set name value => s.set name value
  | .delete name => s.delete name
  | .extend fields => s.extend fields
  | .clear => s.clear
  | .underGuard guard policy => s.underGuard guard policy

/-- The store after a command, which is the old one if the command fails. -/
def after (s : Store) (c : Command) : Store :=
  match (s.apply c).run.value with
  | .ok t => t
  | .error _ => s

def run (s : Store) (cs : List Command) : Store := cs.foldl after s

end Store

end HttpFields
