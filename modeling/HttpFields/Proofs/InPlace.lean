import HttpFields.Proofs.Outcome

/-!
# Changes in place

A change can also be made in the store itself, step by step. A failure then leaves the store as the steps so far have
made it, and that it is the old store is no matter of types: each change asks all that it has to ask before its first
edit.

* `Fields.setAt` : a value is set at the index of the first field of its name, and later fields of that name are
  dropped by their index; `Fields.set_eq_setAt`
* `ChangeM` : computations that change a store; `ChangeM.apply` : the commands, each as its steps
* `ChangeM.Asks`, `ChangeM.Leaves` : what steps do against a computation that yields a new store
* `Store.inPlace` : what the caller hears of a command, and the store that is left; `Store.inPlace_eq`
-/

namespace HttpFields

open HttpFields.Field

set_option autoImplicit false

/-! ## Values set by index -/

namespace Fields

/-- Drops the fields of a name whose index is above `first`. The list begins at the index `i`. -/
def dropAbove (first : Nat) (n : Name) : Nat → Fields → Fields
  | _, [] => []
  | i, f :: fs =>
    if i ≤ first ∨ f.name ≠ n then f :: dropAbove first n (i + 1) fs else dropAbove first n (i + 1) fs

/-- Overwrites the first value of a name and drops the later ones. A name without a value gets the last place. -/
def setAt (fs : Fields) (n : Name) (v : Value) : Fields :=
  match fs.findIdx? (·.name = n) with
  | some first => dropAbove first n 0 (fs.modify first fun f => { f with value := v })
  | none => fs.append n v

theorem dropAbove_of_lt {first i : Nat} (h : first < i) (n : Name) (fs : Fields) :
    dropAbove first n i fs = fs.remove n := by
  induction fs generalizing i with
  | nil => rfl
  | cons f fs ih =>
    rw [dropAbove, ih (Nat.lt_succ_of_lt h), remove, remove, List.filter_cons]
    simp [Nat.not_le.2 h]

theorem dropAbove_succ (first : Nat) (n : Name) (i : Nat) (fs : Fields) :
    dropAbove (first + 1) n (i + 1) fs = dropAbove first n i fs := by
  induction fs generalizing i with
  | nil => rfl
  | cons f fs ih => simp only [dropAbove, ih, Nat.add_le_add_iff_right]

theorem set_eq_setAt (fs : Fields) (n : Name) (v : Value) : fs.set n v = fs.setAt n v := by
  induction fs with
  | nil => rfl
  | cons f fs ih =>
    by_cases hf : f.name = n
    · have hfirst : List.findIdx? (fun g : Field => decide (g.name = n)) (f :: fs) = some 0 := by
        rw [List.findIdx?_cons, if_pos (decide_eq_true hf)]
      rw [set, if_pos hf, setAt, hfirst]
      show _ = dropAbove 0 n 0 (⟨f.name, v⟩ :: fs)
      rw [dropAbove, if_pos (.inl (Nat.le_refl 0)), dropAbove_of_lt Nat.one_pos, hf]
    · have hlater : List.findIdx? (fun g : Field => decide (g.name = n)) (f :: fs) =
          (List.findIdx? (fun g : Field => decide (g.name = n)) fs).map (· + 1) := by
        rw [List.findIdx?_cons, if_neg (by simpa using hf)]
      rw [set, if_neg hf, ih, setAt, setAt, hlater]
      cases List.findIdx? (fun g : Field => decide (g.name = n)) fs with
      | none => rfl
      | some first =>
        show _ = dropAbove (first + 1) n 0 (f :: fs.modify first _)
        rw [dropAbove, if_pos (.inl (Nat.zero_le _)), dropAbove_succ]

end Fields

/-! ## Changes as steps -/

/-- A computation that changes a store. It may fail, notes events, and leaves a store in any case. -/
abbrev ChangeM := ExceptT Failure (StateT Store Logged)

/-- What the caller hears of an outcome, and the store that it leaves. -/
def Store.settle (s : Store) : Except Failure Store → Except Failure Unit × Store
  | .ok t => (.ok (), t)
  | .error failure => (.error failure, s)

namespace ChangeM

def note (e : Event) : ChangeM Unit := ExceptT.lift (StateT.lift (Logged.note e))

def edit (change : Fields → Fields) : ChangeM Unit := modify fun s => { s with fields := change s.fields }

def askGuard (op : Operation) (n : Name) : ChangeM Unit := do
  let s ← get
  match s.policy.check s.guard n with
  | .ok () => pure ()
  | .error refusal => do
    note (.refused op s.guard refusal)
    throw ⟨op, .refused refusal⟩

def append (name value : String) : ChangeM Unit := do
  let f ← Operation.append.readField name value
  askGuard .append f.name
  edit (·.append f.name f.value)

def appendIfAbsent (name value : String) : ChangeM Unit := do
  let f ← Operation.append.readField name value
  askGuard .append f.name
  let s ← get
  if s.fields.has f.name then return ()
  edit (·.append f.name f.value)

def set (name value : String) : ChangeM Unit := do
  let f ← Operation.set.readField name value
  askGuard .set f.name
  edit (·.setAt f.name f.value)

def delete (name : String) : ChangeM Unit := do
  let n ← Operation.delete.readName name
  askGuard .delete n
  edit (·.remove n)

def extend (fields : Fields) : ChangeM Unit := do
  fields.forM fun f => askGuard .append f.name
  edit (· ++ fields)

def clear : ChangeM Unit := do
  let s ← get
  s.fields.forM fun f => askGuard .delete f.name
  if s.guard = .immutable then throw ⟨.delete, .refused .immutable⟩
  edit fun _ => []

def underGuard (guard : Guard) (policy : Policy) : ChangeM Unit := do
  match policy.rule guard with
  | none => pure ()
  | some rule => do
    edit (·.retain rule.permits)
    let s ← get
    note (.guarded guard s.fields.length)
  modify fun s => { s with guard, policy }

def apply : Command → ChangeM Unit
  | .append name value => append name value
  | .appendIfAbsent name value => appendIfAbsent name value
  | .set name value => set name value
  | .delete name => delete name
  | .extend fields => extend fields
  | .clear => clear
  | .underGuard guard policy => underGuard guard policy

/-! ## Steps that ask, and steps that edit -/

variable {α : Type} {s : Store}

/-- The steps yield and note what the other computation does, and leave the store as it is. -/
def Asks (s : Store) (x : ChangeM α) (y : StoreM α) : Prop :=
  x.run.run s = ⟨(y.run.value, s), y.run.events⟩

/-- The steps leave the store that the other computation yields, or the old one if it fails, and note the same. -/
def Leaves (s : Store) (x : ChangeM Unit) (y : StoreM Store) : Prop :=
  x.run.run s = ⟨s.settle y.run.value, y.run.events⟩

theorem asks_read (s : Store) (x : Except Failure α) : Asks s (liftM x) (liftM x) := by
  cases x <;> rfl

theorem asks_guard (s : Store) (op : Operation) (n : Name) : Asks s (askGuard op n) (s.askGuard op n) := by
  have hget : (askGuard op n).run.run s = (match s.policy.check s.guard n with
      | .ok () => pure ()
      | .error refusal => do
        note (.refused op s.guard refusal)
        throw ⟨op, .refused refusal⟩ : ChangeM Unit).run.run s := rfl
  rw [Asks, hget, Store.askGuard]
  cases s.policy.check s.guard n <;> rfl

/-- As long as the steps only ask, a failure leaves the old store. -/
theorem Asks.bind_leaves {x : ChangeM α} {y : StoreM α} {f : α → ChangeM Unit} {g : α → StoreM Store}
    (hx : Asks s x y) (hf : ∀ a, Leaves s (f a) (g a)) : Leaves s (x >>= f) (y >>= g) := by
  rw [Leaves, ExceptT.run_bind, StateT.run_bind, hx, ExceptT.run_bind]
  rcases y.run with ⟨failure | a, events⟩
  · rfl
  · have hrest : (f a).run.run s = ⟨s.settle (g a).run.value, (g a).run.events⟩ := hf a
    show (⟨((f a).run.run s).value, events ++ ((f a).run.run s).events⟩ : Logged _) = _
    rw [hrest]
    rfl

theorem Leaves.forM_bind {x : ChangeM Unit} {y : StoreM Store} (h : Leaves s x y) (op : Operation) (fs : Fields) :
    Leaves s ((fs.forM fun f => askGuard op f.name) >>= fun _ => x)
      ((fs.forM fun f => s.askGuard op f.name) >>= fun _ => y) := by
  induction fs with
  | nil => exact h
  | cons f fs ih =>
    have hsteps := (asks_guard s op f.name).bind_leaves fun _ => ih
    rw [← bind_assoc, ← bind_assoc] at hsteps
    exact hsteps

theorem leaves_get {x : Store → ChangeM Unit} {y : StoreM Store} (h : Leaves s (x s) y) :
    Leaves s (get >>= x) y := h

theorem leaves_edit (s : Store) (change : Fields → Fields) :
    Leaves s (edit change) (pure { s with fields := change s.fields }) := rfl

/-- Each command asks before it edits. -/
theorem leaves_apply (s : Store) (c : Command) : Leaves s (apply c) (s.apply c) := by
  cases c with
  | append name value =>
    exact (asks_read s _).bind_leaves fun f => (asks_guard s _ _).bind_leaves fun _ => leaves_edit s _
  | appendIfAbsent name value =>
    refine (asks_read s _).bind_leaves fun f => (asks_guard s _ _).bind_leaves fun _ => ?_
    refine leaves_get ?_
    split
    · rfl
    · exact leaves_edit s _
  | set name value =>
    refine (asks_read s _).bind_leaves fun f => (asks_guard s _ _).bind_leaves fun _ => ?_
    rw [Fields.set_eq_setAt]
    exact leaves_edit s _
  | delete name =>
    exact (asks_read s _).bind_leaves fun n => (asks_guard s _ _).bind_leaves fun _ => leaves_edit s _
  | extend fields => exact (leaves_edit s _).forM_bind _ fields
  | clear =>
    refine leaves_get (Leaves.forM_bind ?_ .delete s.fields)
    split
    · rfl
    · exact leaves_edit s _
  | underGuard guard policy =>
    -- Here nothing is asked, so nothing can fail.
    rw [Leaves, apply, underGuard, Store.apply, Store.underGuard]
    cases policy.rule guard <;> rfl

end ChangeM

/-! ## Commands in place -/

namespace Store

/-- What the caller hears of a command that is carried out in the store itself, and the store that is left. -/
def inPlace (s : Store) (c : Command) : Except Failure Unit × Store := ((ChangeM.apply c).run.run s).value

theorem inPlace_eq (s : Store) (c : Command) : s.inPlace c = (s.reply c, s.after c) := by
  rw [inPlace, ChangeM.leaves_apply s c, reply, outcome, StoreM.result, after]
  cases (s.apply c).run.value <;> rfl

variable {s t : Store} {c : Command} {failure : Failure}

theorem inPlace_of_ok (h : s.outcome c = .ok t) : s.inPlace c = (.ok (), t) := by
  rw [inPlace_eq, after_of_ok h, reply_eq_ok_iff.2 ⟨t, h⟩]

/-- A command that fails leaves the store in which it was carried out. -/
theorem inPlace_of_error (h : s.outcome c = .error failure) : s.inPlace c = (.error failure, s) := by
  rw [inPlace_eq, after_of_error h, reply_eq_error_iff.2 h]

end Store

end HttpFields
