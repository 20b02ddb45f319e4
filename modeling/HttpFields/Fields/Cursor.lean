import HttpFields.Fields.Basic

/-!
# Snapshots of a field list and walks over it

A reader that walks over all fields sees them sorted by name, each name once with its joined value, and `set-cookie`
once for each of its values.

* `Fields.sorted` : the fields in the order of their names; `Fields.foldRuns` : neighbours of one name made one
  field; `Fields.snapshot` : both, one after the other
* `Cursor` : a walk over a snapshot from both ends; it holds the fields that are still to come. Who
  wants the names or the values alone walks with `nextName` or `nextValue`
* `ValueScan` : a walk over the values of one name, through the fields of all names
-/

namespace HttpFields

open HttpFields.Field

set_option autoImplicit false

/-! ## Snapshots -/

namespace Fields

/-- The fields in the order of their names. Merge sort is stable, so the values of one name stay in
list order. -/
def sorted (fs : Fields) : Fields := fs.mergeSort (fun a b => a.name ≤ b.name)

/-- Puts a field in front of others, and makes it one with the next if that has the same name. Only
`set-cookie` is never made one. -/
def foldInto (f : Field) : Fields → Fields
  | [] => [f]
  | g :: rest =>
    if g.name = f.name ∧ f.name ≠ Name.setCookie then ⟨f.name, f.value.join [g.value]⟩ :: rest
    else f :: g :: rest

def foldRuns (fs : Fields) : Fields := fs.foldr foldInto []

/-- What a reader sees of a field list. -/
def snapshot (fs : Fields) : Fields := fs.sorted.foldRuns

end Fields

/-! ## Snapshot cursors -/

/-- A walk over a snapshot: the fields that neither end has taken yet. -/
structure Cursor where
  rest : Fields
  deriving DecidableEq

namespace Cursor

/-- A walk over what a reader sees of the list now; later changes do not reach it. -/
def ofFields (fs : Fields) : Cursor := ⟨fs.snapshot⟩

def next (c : Cursor) : Option Field × Cursor := (c.rest.head?, ⟨c.rest.tail⟩)

def nextBack (c : Cursor) : Option Field × Cursor := (c.rest.getLast?, ⟨c.rest.dropLast⟩)

def nextName (c : Cursor) : Option Name × Cursor := c.next.map (·.map (·.name)) id

def nextValue (c : Cursor) : Option Value × Cursor := c.next.map (·.map (·.value)) id

def remaining (c : Cursor) : Nat := c.rest.length

def bounds (c : Cursor) : Nat × Nat := (c.remaining, c.remaining)

end Cursor

/-! ## Scans for one name -/

/-- A walk over the values of one name: the fields behind the last value found. -/
structure ValueScan where
  rest : Fields
  name : Name

namespace ValueScan

/-- Skips to the next value of the name, or to the end. -/
def next (s : ValueScan) : Option Value × ValueScan :=
  match s.rest.dropWhile (·.name ≠ s.name) with
  | [] => (none, ⟨[], s.name⟩)
  | f :: rest => (some f.value, ⟨rest, s.name⟩)

/-- Bounds on the number of values to come: perhaps none, and at most one for each field ahead. -/
def bounds (s : ValueScan) : Nat × Nat := (0, s.rest.length)

end ValueScan

end HttpFields
