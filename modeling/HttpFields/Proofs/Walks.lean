import HttpFields.Proofs.Collected
import HttpFields.Store.Change

/-!
# Walks over a store that changes

A walk takes what a snapshot shows one by one, in front or at the back. Between the calls the store may be changed,
which the walk does not see: it goes on over the snapshot that it was opened on.

* `View` : what a walk shows of each field; `View.all` : all that a store shows in this way
* `Walk` : a walk that is under way, with what it has yielded so far; `Walk.run` : several moves of its caller
* `Walk.ledger` : all that it has yielded or will yield; `Walk.ledger_run` : no move changes it
* `Walk.remaining_run` : each call yields one item as long as there is one
* `Walk.divides_snapshot` : what is yielded in front, what is to come and what is yielded at the back
-/

namespace HttpFields

open HttpFields.Field

set_option autoImplicit false

/-! ## The ends of a cursor -/

namespace Cursor

theorem next_cons (f : Field) (fs : Fields) : next ⟨f :: fs⟩ = (some f, ⟨fs⟩) := rfl

theorem nextBack_concat (fs : Fields) (f : Field) : nextBack ⟨fs ++ [f]⟩ = (some f, ⟨fs⟩) := by
  simp [nextBack]

theorem remaining_eq_length_items (c : Cursor) : c.remaining = c.items.length := by
  rw [items_eq_rest, remaining]

theorem eq_nil_or_cons (c : Cursor) : c = ⟨[]⟩ ∨ ∃ f fs, c = ⟨f :: fs⟩ := by
  obtain ⟨_ | ⟨f, fs⟩⟩ := c
  · exact .inl rfl
  · exact .inr ⟨f, fs, rfl⟩

theorem eq_nil_or_concat (c : Cursor) : c = ⟨[]⟩ ∨ ∃ fs f, c = ⟨fs ++ [f]⟩ := by
  obtain ⟨rest⟩ := c
  rcases List.eq_nil_or_concat' rest with rfl | ⟨fs, f, rfl⟩
  · exact .inl rfl
  · exact .inr ⟨fs, f, rfl⟩

end Cursor

/-! ## What a walk shows -/

/-- What is shown of each field: the whole of it, its name or its value. -/
inductive View where
  | fields
  | names
  | values

namespace View

abbrev Item : View → Type
  | fields => Field
  | names => Name
  | values => Value

def part : (view : View) → Field → view.Item
  | fields => id
  | names => Field.name
  | values => Field.value

def all : (view : View) → Store → List view.Item
  | fields => Store.snapshot
  | names => Store.names
  | values => Store.values

def next : (view : View) → Cursor → Option view.Item × Cursor
  | fields => Cursor.next
  | names => Cursor.nextName
  | values => Cursor.nextValue

/-- Takes what is at the back. There is such a call for whole fields only. -/
def nextBack? : (view : View) → Option (Cursor → Option view.Item × Cursor)
  | fields => some Cursor.nextBack
  | names => none
  | values => none

variable {view : View}

theorem all_eq (view : View) (s : Store) : view.all s = s.snapshot.map view.part := by
  cases view with
  | fields => exact (List.map_id s.snapshot).symm
  | names => rfl
  | values => rfl

theorem next_eq (view : View) (c : Cursor) : view.next c = (c.next.1.map view.part, c.next.2) := by
  cases view with
  | fields =>
    rw [part, Option.map_id]
    rfl
  | names => rfl
  | values => rfl

theorem nextBack_eq {take : Cursor → Option view.Item × Cursor} (h : take ∈ view.nextBack?) (c : Cursor) :
    take c = (c.nextBack.1.map view.part, c.nextBack.2) := by
  cases view with
  | fields =>
    obtain rfl := Option.mem_some_iff.1 h
    rw [part, Option.map_id]
    rfl
  | names => cases h
  | values => cases h

theorem next_fst (view : View) (c : Cursor) : (view.next c).1 = (c.items.map view.part).head? := by
  rw [next_eq, Cursor.items_eq_rest, List.head?_map, Cursor.next]

theorem nextBack_fst {take : Cursor → Option view.Item × Cursor} (h : take ∈ view.nextBack?) (c : Cursor) :
    (take c).1 = (c.items.map view.part).getLast? := by
  rw [nextBack_eq h, Cursor.items_eq_rest, List.getLast?_map, Cursor.nextBack]

end View

/-! ## Walks -/

/-- A walk that is under way: the store as it is by now, the cursor, and what was taken in front and at the back, in
the order of the calls. -/
structure Walk (view : View) where
  store : Store
  cursor : Cursor
  front : List view.Item
  back : List view.Item

/-- What a caller does in the course of a walk. -/
inductive Walk.Move where
  | next
  | nextBack
  | change (c : Command)

namespace Walk

def Move.command? : Move → Option Command
  | .change c => some c
  | _ => none

/-- Whether the move takes an item: it is a call, and one that there is for such a walk. -/
def Move.takes (view : View) : Move → Bool
  | .next => true
  | .nextBack => view.nextBack?.isSome
  | .change _ => false

variable {view : View}

def opened (view : View) (s : Store) : Walk view := ⟨s, s.cursor, [], []⟩

/-- The walk after a move. A call that there is not for such a walk is not made. -/
def step (w : Walk view) : Move → Walk view
  | .next =>
    let taken := view.next w.cursor
    { w with cursor := taken.2, front := w.front ++ taken.1.toList }
  | .nextBack =>
    match view.nextBack? with
    | none => w
    | some take =>
      let taken := take w.cursor
      { w with cursor := taken.2, back := w.back ++ taken.1.toList }
  | .change c => { w with store := w.store.after c }

def run (w : Walk view) (moves : List Move) : Walk view := moves.foldl step w

theorem run_cons (w : Walk view) (m : Move) (moves : List Move) : w.run (m :: moves) = (w.step m).run moves := rfl

/-! ## No item is lost or yielded twice -/

/-- All that the walk has yielded or will yield, in the order of the snapshot. What was taken at the back came in the
opposite order. -/
def ledger (w : Walk view) : List view.Item := w.front ++ w.cursor.rest.map view.part ++ w.back.reverse

theorem ledger_next (w : Walk view) : (w.step .next).ledger = w.ledger := by
  obtain ⟨s, c, front, back⟩ := w
  simp only [ledger, step, View.next_eq]
  rcases c.eq_nil_or_cons with rfl | ⟨f, fs, rfl⟩
  · simp [Cursor.next]
  · simp [Cursor.next_cons]

theorem ledger_nextBack (w : Walk view) : (w.step .nextBack).ledger = w.ledger := by
  obtain ⟨s, c, front, back⟩ := w
  rw [step]
  split
  · rfl
  · next take htake =>
    simp only [ledger, View.nextBack_eq (Option.mem_def.2 htake)]
    -- The field that leaves the cursor at the back is the last in `back`, so it is the first of it turned round.
    rcases c.eq_nil_or_concat with rfl | ⟨fs, f, rfl⟩
    · simp [Cursor.nextBack]
    · simp [Cursor.nextBack_concat]

theorem ledger_step (w : Walk view) (m : Move) : (w.step m).ledger = w.ledger := by
  cases m with
  | next => exact w.ledger_next
  | nextBack => exact w.ledger_nextBack
  | change c => rfl

theorem ledger_run (w : Walk view) (moves : List Move) : (w.run moves).ledger = w.ledger := by
  induction moves generalizing w with
  | nil => rfl
  | cons m moves ih => rw [run_cons, ih, ledger_step]

theorem ledger_opened (view : View) (s : Store) : (opened view s).ledger = view.all s := by
  rw [View.all_eq]
  exact List.append_nil _

/-! ## How many items are to come -/

theorem remaining_step (w : Walk view) (m : Move) :
    (w.step m).cursor.remaining = w.cursor.remaining - (if m.takes view then 1 else 0) := by
  cases m with
  | next => simp [step, View.next_eq, Cursor.next, Cursor.remaining, Move.takes]
  | nextBack =>
    rw [step, Move.takes]
    split
    · next hnone => simp [hnone]
    · next take htake =>
      simp [htake, View.nextBack_eq (Option.mem_def.2 htake), Cursor.nextBack, Cursor.remaining]
  | change c => rfl

theorem remaining_run (w : Walk view) (moves : List Move) :
    (w.run moves).cursor.remaining = w.cursor.remaining - moves.countP (Move.takes view) := by
  induction moves generalizing w with
  | nil => rfl
  | cons m moves ih => rw [run_cons, ih, remaining_step, List.countP_cons, Nat.sub_sub, Nat.add_comm]

theorem store_run (w : Walk view) (moves : List Move) :
    (w.run moves).store = w.store.run (moves.filterMap Move.command?) := by
  induction moves generalizing w with
  | nil => rfl
  | cons m moves ih =>
    rw [run_cons, ih]
    cases m with
    | next => rfl
    | nextBack =>
      rw [step]
      split
      · rfl
      · rfl
    | change c => rfl

/-! ## Walks divide a snapshot -/

/-- Whatever calls are made in whatever order, and however the store is changed in between: what was taken in front,
what is to come and what was taken at the back, the last of it first, are all that the store showed when the walk was
opened, and names and values are parts of the fields that are shown. The number of items to come is known at any time.
It is the number of all items less that of the calls, for names and values as for whole fields. A call yields the first
or the last of the items to come, and once there is none no call yields anything any more. The store is changed as if
there were no walk. -/
theorem divides_snapshot (view : View) (s : Store) (moves : List Move) :
    let w := (opened view s).run moves
    w.front ++ w.cursor.items.map view.part ++ w.back.reverse = view.all s ∧
    view.all s = s.snapshot.map view.part ∧
    w.cursor.remaining = w.cursor.items.length ∧
    w.cursor.bounds = (w.cursor.items.length, w.cursor.items.length) ∧
    w.cursor.items.length = s.snapshot.length - moves.countP (Move.takes view) ∧
    (view.next w.cursor).1 = (w.cursor.items.map view.part).head? ∧
    (∀ take ∈ view.nextBack?, (take w.cursor).1 = (w.cursor.items.map view.part).getLast?) ∧
    (w.cursor.items = [] → ∀ more,
      (view.next (w.run more).cursor).1 = none ∧ (∀ take ∈ view.nextBack?, (take (w.run more).cursor).1 = none) ∧
      (w.run more).cursor.remaining = 0) ∧
    w.store = s.run (moves.filterMap Move.command?) := by
  intro w
  refine ⟨?_, view.all_eq s, w.cursor.remaining_eq_length_items, ?_, ?_, view.next_fst w.cursor,
    fun take htake => View.nextBack_fst htake w.cursor, fun hend more => ?_, store_run (opened view s) moves⟩
  · rw [Cursor.items_eq_rest, ← ledger_opened]
    exact ledger_run (opened view s) moves
  · rw [Cursor.bounds, Cursor.remaining_eq_length_items]
  · rw [← Cursor.remaining_eq_length_items]
    exact remaining_run (opened view s) moves
  · have hzero : (w.run more).cursor.remaining = 0 := by
      rw [remaining_run, Cursor.remaining_eq_length_items, hend, List.length_nil, Nat.zero_sub]
    have hnone : (w.run more).cursor.items = [] := by
      rw [← List.length_eq_zero_iff, ← Cursor.remaining_eq_length_items, hzero]
    refine ⟨?_, fun take htake => ?_, hzero⟩
    · rw [View.next_fst, hnone]
      rfl
    · rw [View.nextBack_fst htake, hnone]
      rfl

/-- Five stored fields are shown as four. They are taken from both ends until these meet, while the store is emptied
and filled anew, and then no call yields anything. -/
theorem divides_snapshot_cookies :
    ∃ (s : Store) (moves : List Move), s.size = 5 ∧ s.snapshot.length = 4 ∧ moves.countP (Move.takes .fields) = 5 ∧
      ((opened .fields s).run moves).front = [⟨.accept, ⟨"1"⟩⟩, ⟨.range, ⟨"2, 3"⟩⟩] ∧
      ((opened .fields s).run moves).back = [⟨.setCookie, ⟨"5"⟩⟩, ⟨.setCookie, ⟨"4"⟩⟩] ∧
      ((opened .fields s).run moves).store.fields = [⟨.accept, ⟨"6"⟩⟩] ∧
      ∀ more, (((opened .fields s).run moves).run more).cursor.next.1 = none ∧
        (((opened .fields s).run moves).run more).cursor.nextBack.1 = none := by
  let fs : Fields := [⟨.accept, ⟨"1"⟩⟩, ⟨.range, ⟨"2"⟩⟩, ⟨.range, ⟨"3"⟩⟩, ⟨.setCookie, ⟨"4"⟩⟩, ⟨.setCookie, ⟨"5"⟩⟩]
  let moves : List Move := [.next, .change .clear, .nextBack, .nextBack, .change (.append "Accept" "6"), .next, .next]
  have hsnapshot : fs.snapshot =
      [⟨.accept, ⟨"1"⟩⟩, ⟨.range, ⟨"2, 3"⟩⟩, ⟨.setCookie, ⟨"4"⟩⟩, ⟨.setCookie, ⟨"5"⟩⟩] := by
    rw [Fields.snapshot_of_sorted (by decide +kernel)]
    decide +kernel
  have hopened : opened .fields (.ofFields fs) = ⟨.ofFields fs,
      ⟨[⟨.accept, ⟨"1"⟩⟩, ⟨.range, ⟨"2, 3"⟩⟩, ⟨.setCookie, ⟨"4"⟩⟩, ⟨.setCookie, ⟨"5"⟩⟩]⟩, [], []⟩ := by
    rw [← hsnapshot]
    rfl
  obtain ⟨-, -, -, -, -, -, -, hend, -⟩ := divides_snapshot .fields (.ofFields fs) moves
  have hitems : ((opened .fields (.ofFields fs)).run moves).cursor.items = [] := by
    rw [Cursor.items_eq_rest, hopened]
    decide +kernel
  refine ⟨.ofFields fs, moves, rfl, congrArg List.length hsnapshot, rfl, ?_, ?_, ?_, fun more => ?_⟩
  · rw [hopened]
    decide +kernel
  · rw [hopened]
    decide +kernel
  · rw [hopened]
    decide +kernel
  · obtain ⟨hnext, hnextBack, -⟩ := hend hitems more
    exact ⟨hnext, hnextBack _ rfl⟩

end Walk

end HttpFields
