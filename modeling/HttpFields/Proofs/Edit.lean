import HttpFields.Proofs.Outcome

/-!
# Edits of one name

To append a value, to append it if there is none, to replace all values and to delete them is alike: the texts
are read, the guard is asked about the name, and then the fields of that name are edited.

* `Edit` : the edits; `Edit.onFields` : what an edit makes of a field list, `Edit.onValues` : what it makes of
  the values of its name
* `Edit.valuesOf_onFields` : the values of all other names stay
* `Edit.retain_onFields` : fields may be dropped before an edit as well as after it
* `Command.name?` : the text of the one name that a command is on
* `Command.exists_edits` : such a command reads an edit, asks the guard and makes the edit; `Edits.after_ok`
-/

namespace HttpFields

open HttpFields.Field

set_option autoImplicit false

/-! ## Dropped fields -/

namespace Fields

theorem retain_cons (f : Field) (fs : Fields) (keeps : Name → Bool) :
    Fields.retain (f :: fs) keeps = if keeps f.name then f :: fs.retain keeps else fs.retain keeps := by
  cases h : keeps f.name <;> simp [retain, h]

theorem retain_append (fs : Fields) (keeps : Name → Bool) (n : Name) (v : Value) :
    (fs.append n v).retain keeps = if keeps n then (fs.retain keeps).append n v else fs.retain keeps := by
  cases hn : keeps n <;> simp [append, retain, hn]

theorem retain_remove (fs : Fields) (keeps : Name → Bool) (n : Name) :
    (fs.remove n).retain keeps = if keeps n then (fs.retain keeps).remove n else fs.retain keeps := by
  have hswap : (fs.remove n).retain keeps = (fs.retain keeps).remove n := by
    simp only [remove, retain, List.filter_filter, Bool.and_comm]
  rw [hswap]
  cases hn : keeps n with
  | true => rfl
  | false =>
    refine List.filter_eq_self.2 fun f hf => decide_eq_true fun hfn => ?_
    have hkept : keeps f.name = true := (List.mem_filter.1 hf).2
    rw [hfn, hn] at hkept
    cases hkept

theorem retain_set (fs : Fields) (keeps : Name → Bool) (n : Name) (v : Value) :
    (fs.set n v).retain keeps = if keeps n then (fs.retain keeps).set n v else fs.retain keeps := by
  induction fs with
  | nil =>
    have hnil : Fields.retain [] keeps = [] := rfl
    rw [set, retain_cons, hnil]
    rfl
  | cons f fs ih =>
    by_cases hf : f.name = n
    · -- The new value stands where the first field of the name was, kept or dropped as that was.
      have hset : Fields.set (f :: fs) n v = ⟨n, v⟩ :: Fields.remove fs n := if_pos hf
      rw [hset, retain_cons, retain_cons, retain_remove, hf]
      cases hn : keeps n with
      | true => exact (if_pos hf).symm
      | false => rfl
    · have hset : ∀ gs : Fields, Fields.set (f :: gs) n v = f :: gs.set n v := fun gs => if_neg hf
      rw [hset, retain_cons, retain_cons, ih]
      cases keeps f.name with
      | true =>
        cases hn : keeps n with
        | true => exact (hset _).symm
        | false => rfl
      | false => rfl

theorem has_retain {keeps : Name → Bool} {n : Name} (hn : keeps n = true) (fs : Fields) :
    (fs.retain keeps).has n = fs.has n := by
  rw [Bool.eq_iff_iff, has_eq_true_iff, has_eq_true_iff, valuesOf_retain, if_pos hn]

end Fields

/-! ## Edits -/

/-- A change of the fields of one name. -/
inductive Edit where
  | append (f : Field)
  | appendIfAbsent (f : Field)
  | set (f : Field)
  | delete (n : Name)

namespace Edit

def name : Edit → Name
  | .append f | .appendIfAbsent f | .set f => f.name
  | .delete n => n

def operation : Edit → Operation
  | .append _ | .appendIfAbsent _ => .append
  | .set _ => .set
  | .delete _ => .delete

def onFields (fs : Fields) : Edit → Fields
  | .append f => fs.append f.name f.value
  | .appendIfAbsent f => if fs.has f.name then fs else fs.append f.name f.value
  | .set f => fs.set f.name f.value
  | .delete n => fs.remove n

def onValues (vs : List Value) : Edit → List Value
  | .append f => vs ++ [f.value]
  | .appendIfAbsent f => if vs = [] then [f.value] else vs
  | .set f => [f.value]
  | .delete _ => []

theorem valuesOf_onFields (fs : Fields) (e : Edit) (m : Name) :
    (e.onFields fs).valuesOf m = if e.name = m then e.onValues (fs.valuesOf m) else fs.valuesOf m := by
  cases e with
  | append f =>
    rw [onFields, Fields.valuesOf_append]
    by_cases h : f.name = m <;> simp [name, onValues, h]
  | appendIfAbsent f =>
    rw [onFields]
    by_cases hf : fs.valuesOf f.name = []
    · have hnot : ¬ fs.has f.name = true := fun hh => (Fields.has_eq_true_iff _ _).1 hh hf
      rw [if_neg hnot, Fields.valuesOf_append]
      by_cases h : f.name = m
      · subst h
        simp [name, onValues, hf]
      · simp [name, h]
    · rw [if_pos ((Fields.has_eq_true_iff _ _).2 hf)]
      by_cases h : f.name = m
      · subst h
        simp [name, onValues, hf]
      · simp [name, h]
  | set f => exact Fields.valuesOf_set fs f.name f.value m
  | delete n =>
    rw [onFields, Fields.valuesOf_remove]
    by_cases h : n = m
    · simp [name, onValues, h]
    · have hm : m ≠ n := fun e => h e.symm
      simp [name, h, hm]

/-- An edit of a name that is kept can be made after the others are dropped, and one of a name that is dropped
leaves no trace. -/
theorem retain_onFields (fs : Fields) (keeps : Name → Bool) (e : Edit) :
    (e.onFields fs).retain keeps =
      if keeps e.name then e.onFields (fs.retain keeps) else fs.retain keeps := by
  cases e with
  | append f => exact Fields.retain_append fs keeps f.name f.value
  | appendIfAbsent f =>
    have happend := Fields.retain_append fs keeps f.name f.value
    cases hn : keeps f.name with
    | true =>
      rw [hn, if_pos rfl] at happend
      simp only [onFields, name, hn, if_true, Fields.has_retain hn]
      split
      · rfl
      · exact happend
    | false =>
      rw [hn, if_neg Bool.false_ne_true] at happend
      simp only [onFields, name, hn, Bool.false_eq_true, if_false]
      split
      · rfl
      · exact happend
  | set f => exact Fields.retain_set fs keeps f.name f.value
  | delete n => exact Fields.retain_remove fs keeps n

end Edit

/-! ## Commands on one name -/

/-- The text of the name that a command is on, if that is one name. -/
def Command.name? : Command → Option String
  | .append name _ | .appendIfAbsent name _ | .set name _ | .delete name => some name
  | .extend _ | .clear | .underGuard _ _ => none

namespace Operation

theorem ofText_of_readName {op : Operation} {text : String} {n : Name} (h : op.readName text = .ok n) :
    Name.ofText text = .ok n := by
  unfold readName at h
  split at h
  · next m hm =>
    cases h
    exact hm
  · cases h

theorem ofText_of_readField {op : Operation} {name value : String} {f : Field}
    (h : op.readField name value = .ok f) : Name.ofText name = .ok f.name := by
  obtain ⟨n, hn, h⟩ := bind_eq_ok_iff.1 h
  obtain ⟨v, -, h⟩ := bind_eq_ok_iff.1 h
  cases h
  exact ofText_of_readName hn

theorem ofText_of_edit {op : Operation} {name value : String} {make : Field → Edit}
    (hmake : ∀ f, (make f).name = f.name) {e : Edit} (h : make <$> op.readField name value = .ok e) :
    Name.ofText name = .ok e.name := by
  rw [map_eq_pure_bind] at h
  obtain ⟨f, hf, he⟩ := bind_eq_ok_iff.1 h
  cases he
  rw [hmake]
  exact ofText_of_readField hf

end Operation

/-- On every store the command reads an edit with this result, asks the guard about its name, and makes it. -/
def Command.Edits (c : Command) (read : Except Failure Edit) : Prop :=
  ∀ s : Store, s.outcome c = do
    let e ← read
    s.permit e.operation e.name
    return { s with fields := e.onFields s.fields }

namespace Command

/-- A command on one name makes an edit of that name, if it can be read. -/
theorem exists_edits {c : Command} {text : String} (h : c.name? = some text) :
    ∃ read, c.Edits read ∧ ∀ e, read = .ok e → Name.ofText text = .ok e.name := by
  cases c with
  | append name value =>
    cases h
    refine ⟨Edit.append <$> Operation.append.readField text value, fun s => ?_, ?_⟩
    · rw [Store.outcome, Store.apply, Store.result_append, bind_map_left]
      rfl
    · exact fun e => Operation.ofText_of_edit fun f => rfl
  | appendIfAbsent name value =>
    cases h
    refine ⟨Edit.appendIfAbsent <$> Operation.append.readField text value, fun s => ?_, ?_⟩
    · rw [Store.outcome, Store.apply, Store.result_appendIfAbsent, bind_map_left]
      refine bind_congr fun f => bind_congr fun _ => congrArg Except.ok ?_
      rw [Edit.onFields]
      split <;> rfl
    · exact fun e => Operation.ofText_of_edit fun f => rfl
  | set name value =>
    cases h
    refine ⟨Edit.set <$> Operation.set.readField text value, fun s => ?_, ?_⟩
    · rw [Store.outcome, Store.apply, Store.result_set, bind_map_left]
      rfl
    · exact fun e => Operation.ofText_of_edit fun f => rfl
  | delete name =>
    cases h
    refine ⟨Edit.delete <$> Operation.delete.readName text, fun s => ?_, fun e he => ?_⟩
    · rw [Store.outcome, Store.apply, Store.result_delete, bind_map_left]
      rfl
    · rw [map_eq_pure_bind] at he
      obtain ⟨n, hn, he⟩ := bind_eq_ok_iff.1 he
      cases he
      exact Operation.ofText_of_readName hn
  | extend fields => cases h
  | clear => cases h
  | underGuard guard policy => cases h

variable {c : Command}

theorem Edits.after_error {failure : Failure} (h : c.Edits (.error failure)) (s : Store) : s.after c = s :=
  Store.after_of_error (h s)

theorem Edits.after_ok {e : Edit} (h : c.Edits (.ok e)) (s : Store) :
    s.after c = if s.guard ≠ .immutable ∧ s.policy.keeps s.guard e.name = true
      then { s with fields := e.onFields s.fields } else s := by
  have houtcome : s.outcome c = (s.permit e.operation e.name >>= fun _ =>
      .ok { s with fields := e.onFields s.fields }) := h s
  split
  · next hpermit =>
    refine Store.after_of_ok ?_
    rw [houtcome, Store.permit_eq_ok_iff.2 hpermit]
    rfl
  · next hrefuse =>
    cases hp : s.permit e.operation e.name with
    | ok _ => exact absurd (Store.permit_eq_ok_iff.1 hp) hrefuse
    | error failure =>
      refine Store.after_of_error (e := failure) ?_
      rw [houtcome, hp]
      rfl

end Command

theorem Store.guard_after (s : Store) {c : Command} (hc : ∀ guard policy, c ≠ .underGuard guard policy) :
    (s.after c).guard = s.guard ∧ (s.after c).policy = s.policy :=
  after_induction (P := fun t => t.guard = s.guard ∧ t.policy = s.policy) ⟨rfl, rfl⟩ fun _ ht =>
    guard_of_becomes (becomes_of_outcome ht) hc

end HttpFields
