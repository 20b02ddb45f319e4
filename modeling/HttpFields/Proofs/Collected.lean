import HttpFields.Proofs.Snapshot

/-!
# Stores collected from a walk

A walk over a store yields the fields of its snapshot, and a store can be made of them as they are. A snapshot has
nothing left to sort or to fold, so that store shows what the first one shows.

* `Cursor.items` : what a walk yields from now on; `Cursor.items_eq_rest` : the fields that are still to come
* `Fields.combined_snapshot`, `Fields.has_snapshot` : a look-up in a snapshot is a look-up in the list
* `Store.collected` : the store made of what a walk over a store yields
* `Store.collected_agrees` : it stores the snapshot of the first one, and no look-up tells the two apart
-/

namespace HttpFields

open HttpFields.Field

set_option autoImplicit false

/-! ## Walks to the end -/

namespace Cursor

theorem remaining_next_lt {c d : Cursor} {f : Field} (h : c.next = (some f, d)) : d.remaining < c.remaining := by
  obtain ⟨hhead, rfl⟩ := Prod.mk.inj h
  obtain ⟨rest, hrest⟩ := List.head?_eq_some_iff.1 hhead
  simp [remaining, hrest]

/-- What the walk yields from now on, taken from the front. -/
def items (c : Cursor) : Fields :=
  match _ : c.next with
  | (none, _) => []
  | (some f, d) => f :: d.items
termination_by c.remaining
decreasing_by exact remaining_next_lt ‹_›

theorem items_eq_rest (c : Cursor) : c.items = c.rest := by
  obtain ⟨fs⟩ := c
  induction fs with
  | nil =>
    rw [items]
    rfl
  | cons f fs ih =>
    rw [items]
    exact congrArg (f :: ·) ih

end Cursor

/-! ## Look-ups in a snapshot -/

namespace Fields

theorem listed_listed (n : Name) (vs : List Value) : listed n (listed n vs) = listed n vs :=
  (listed_eq_self_iff n _).2 fun hn => length_listed_le hn vs

theorem combined_snapshot (fs : Fields) (n : Name) : fs.snapshot.combined n = fs.combined n := by
  rw [combined_eq_head?_listed, valuesOf_snapshot, listed_listed, ← combined_eq_head?_listed]

theorem has_snapshot (fs : Fields) (n : Name) : fs.snapshot.has n = fs.has n := by
  rw [Bool.eq_iff_iff, has_eq_true_iff, has_eq_true_iff, valuesOf_snapshot, Ne, listed_eq_nil_iff]

end Fields

/-! ## Collected stores -/

namespace Store

/-- The store made of what a walk over the store yields, field by field. -/
def collected (s : Store) : Store := .ofFields s.cursor.items

theorem collected_eq (s : Store) : s.collected = .ofFields s.snapshot :=
  congrArg ofFields s.cursor.items_eq_rest

theorem snapshot_collected (s : Store) : s.collected.snapshot = s.snapshot := by
  rw [collected_eq]
  exact (Fields.snapshot_eq_self_iff s.snapshot).2 s.fields.settled_snapshot

/-- The collected store holds the snapshot field by field. Its own snapshot is the same again, and so are the walks
over it, the look-ups in it and its cookies. What is collected from it in turn is that store. -/
theorem collected_agrees (s : Store) :
    s.collected.fields = s.snapshot ∧
    s.collected.snapshot = s.snapshot ∧
    s.collected.cursor = s.cursor ∧
    (∀ name, s.collected.get name = s.get name) ∧
    (∀ name, s.collected.has name = s.has name) ∧
    s.collected.setCookies = s.setCookies ∧
    s.collected.collected = s.collected := by
  have hfields : s.collected.fields = s.fields.snapshot := congrArg fields s.collected_eq
  refine ⟨hfields, s.snapshot_collected, congrArg Cursor.mk s.snapshot_collected, fun name => ?_, fun name => ?_,
    ?_, ?_⟩
  · refine bind_congr fun n => congrArg Except.ok ?_
    rw [hfields, Fields.combined_snapshot]
  · refine bind_congr fun n => congrArg Except.ok ?_
    rw [hfields, Fields.has_snapshot]
  · rw [setCookies, hfields, Fields.valuesOf_snapshot, Fields.listed_setCookie, setCookies]
  · rw [collected_eq s.collected, snapshot_collected, collected_eq]

end Store

end HttpFields
