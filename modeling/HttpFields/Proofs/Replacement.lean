import HttpFields.Proofs.Verdict

/-!
# Values set in place

To set a name is to put the new value in the place of the first one and to remove those behind it. A name without
a value gets the last place. So only the value that was set last counts.

* `Fields.FirstAt` : where the first value of a name stands; `Fields.absent_or_firstAt` : there is one, or none at
  all
* `Fields.set_of_firstAt`, `Fields.set_of_absent` : what becomes of the list
* `Fields.set_set` : a value that is set again leaves no trace
* `Store.set_in_place` : what the command leaves in a store, and what is found there
-/

namespace HttpFields

open HttpFields.Field

set_option autoImplicit false

namespace Fields

variable {fs front back : Fields} {n : Name} {w : Value}

/-! ## The first value of a name -/

/-- The first value of the name is `w`, with these fields in front of it and those behind it. -/
structure FirstAt (fs : Fields) (n : Name) (front : Fields) (w : Value) (back : Fields) : Prop where
  split : fs = front ++ ⟨n, w⟩ :: back
  fresh : ∀ f ∈ front, f.name ≠ n

theorem absent_or_firstAt (fs : Fields) (n : Name) :
    (∀ f ∈ fs, f.name ≠ n) ∨ ∃ front w back, fs.FirstAt n front w back := by
  cases h : fs.find? (·.name = n) with
  | none =>
    left
    intro f hf hn
    exact List.find?_eq_none.1 h f hf (decide_eq_true hn)
  | some f =>
    right
    obtain ⟨hn, front, back, hsplit, hfront⟩ := List.find?_eq_some_iff_append.1 h
    obtain rfl : f.name = n := of_decide_eq_true hn
    refine ⟨front, f.value, back, hsplit, fun g hg => ?_⟩
    simpa using hfront g hg

/-! ## What becomes of the list -/

theorem remove_of_absent (h : ∀ f ∈ fs, f.name ≠ n) : fs.remove n = fs :=
  List.filter_eq_self.2 fun f hf => decide_eq_true (h f hf)

theorem remove_remove (fs : Fields) (n : Name) : (fs.remove n).remove n = fs.remove n :=
  remove_of_absent fun _ hf => of_decide_eq_true (List.mem_filter.1 hf).2

theorem set_of_absent (h : ∀ f ∈ fs, f.name ≠ n) (v : Value) : fs.set n v = fs ++ [⟨n, v⟩] := by
  induction fs with
  | nil => rfl
  | cons f fs ih =>
    obtain ⟨hf, hfs⟩ := List.forall_mem_cons.1 h
    rw [set, if_neg hf, ih hfs]
    rfl

theorem set_of_firstAt (h : fs.FirstAt n front w back) (v : Value) :
    fs.set n v = front ++ ⟨n, v⟩ :: back.remove n := by
  obtain ⟨rfl, hfresh⟩ := h
  induction front with
  | nil => exact if_pos rfl
  | cons f front ih =>
    obtain ⟨hf, hfront⟩ := List.forall_mem_cons.1 hfresh
    rw [List.cons_append, set, if_neg hf, ih hfront]
    rfl

theorem FirstAt.set (h : fs.FirstAt n front w back) (v : Value) :
    (fs.set n v).FirstAt n front v (back.remove n) :=
  ⟨set_of_firstAt h v, h.fresh⟩

/-- A value that is set again leaves no trace, wherever the name stood before. -/
theorem set_set (fs : Fields) (n : Name) (v v' : Value) : (fs.set n v).set n v' = fs.set n v' := by
  rcases fs.absent_or_firstAt n with habsent | ⟨front, w, back, hfirst⟩
  · have hlast : (fs.set n v).FirstAt n fs v [] := ⟨set_of_absent habsent v, habsent⟩
    rw [set_of_firstAt hlast, set_of_absent habsent]
    rfl
  · rw [set_of_firstAt (hfirst.set v), set_of_firstAt hfirst, remove_remove]

end Fields

/-! ## Values set in a store -/

namespace Store

variable {name value : String} {n : Name} {v : Value}

theorem outcome_set_of_permit {s : Store} (hname : Name.ofText name = .ok n)
    (hvalue : Value.normalize value = .ok v) (hpermit : s.permit .set n = .ok ()) :
    s.outcome (.set name value) = .ok { s with fields := s.fields.set n v } := by
  have hread : Operation.set.readField name value = .ok ⟨n, v⟩ :=
    Operation.readField_of_isReadAs (p := (name, value)) ⟨hname, hvalue⟩
  have houtcome : s.outcome (.set name value) =
      (s.permit .set n >>= fun _ => .ok { s with fields := s.fields.set n v }) := by
    rw [outcome, apply, result_set, hread]
    rfl
  rw [houtcome, hpermit]
  rfl

theorem items_getAll {s : Store} {text : String} (h : Name.ofText text = .ok n) :
    ValueScan.items <$> s.getAll text = .ok (s.fields.valuesOf n) := by
  simp only [getAll_eq_multimap, Multimap.getAll, Operation.readName, h]
  rfl

/-- A value that is in order, set under a name that the guard permits, goes behind all fields if the name has no
value. If it has some, the new value stands in the place of the first of them and the others are gone, while no
other field is moved. A walk over the values of the name then finds that value alone. To set another value after
it leaves the same store as to set that one at once. -/
theorem set_in_place (s : Store) {rule : NameRule} (hname : Name.ofText name = .ok n)
    (hvalue : Value.normalize value = .ok v) (hrule : s.policy.rule s.guard = some rule)
    (hpermits : rule.permits n = true) :
    ∃ t, s.outcome (.set name value) = .ok t ∧ s.after (.set name value) = t ∧
      s.inPlace (.set name value) = (.ok (), t) ∧
      ((∀ f ∈ s.fields, f.name ≠ n) → t.fields = s.fields ++ [⟨n, v⟩]) ∧
      ((∃ f ∈ s.fields, f.name = n) → ∃ front w back, s.fields.FirstAt n front w back) ∧
      (∀ front w back, s.fields.FirstAt n front w back →
        t.fields = front ++ ⟨n, v⟩ :: back.filter (·.name ≠ n)) ∧
      (∀ text, Name.ofText text = .ok n → ValueScan.items <$> t.getAll text = .ok [v]) ∧
      ∀ again other v', Name.ofText again = .ok n → Value.normalize other = .ok v' →
        ∃ u, s.outcome (.set again other) = .ok u ∧ t.outcome (.set again other) = .ok u ∧
          ∀ text, Name.ofText text = .ok n → ValueScan.items <$> u.getAll text = .ok [v'] := by
  have hpermit : s.permit .set n = .ok () := permit_of_rule hrule hpermits
  have hset := outcome_set_of_permit hname hvalue hpermit
  have hone : ∀ (v : Value) (text : String), Name.ofText text = .ok n →
      ValueScan.items <$> getAll { s with fields := s.fields.set n v } text = .ok [v] := by
    intro v text htext
    rw [items_getAll htext, Fields.valuesOf_set, if_pos rfl]
  refine ⟨_, hset, after_of_ok hset, inPlace_of_ok hset, fun h => Fields.set_of_absent h v,
    fun ⟨f, hf, hn⟩ => ?_, fun front w back h => Fields.set_of_firstAt h v, hone v,
    fun again other v' hagain hother => ?_⟩
  · exact (s.fields.absent_or_firstAt n).resolve_left fun habsent => habsent f hf hn
  · -- The guard is the same after the first value, so both are set or neither is.
    have htwice := outcome_set_of_permit (s := { s with fields := s.fields.set n v }) hagain hother hpermit
    rw [Fields.set_set] at htwice
    exact ⟨_, outcome_set_of_permit hagain hother hpermit, htwice, hone v'⟩

/-- Of three values of a name in a request the first is replaced and the others go, wherever they stand. -/
theorem set_in_place_request :
    ∃ (s : Store) (n : Name), s.guard = .request ∧
      s.fields = [⟨.accept, ⟨"0"⟩⟩, ⟨n, ⟨"1"⟩⟩, ⟨n, ⟨"2"⟩⟩, ⟨.range, ⟨"3"⟩⟩, ⟨n, ⟨"4"⟩⟩] ∧
      (s.after (.set "X-Id" " 5 ")).fields = [⟨.accept, ⟨"0"⟩⟩, ⟨n, ⟨"5"⟩⟩, ⟨.range, ⟨"3"⟩⟩] := by
  let n : Name := .ofLower "x-id"
  let back : Fields := [⟨n, ⟨"2"⟩⟩, ⟨.range, ⟨"3"⟩⟩, ⟨n, ⟨"4"⟩⟩]
  let s : Store := ⟨⟨.accept, ⟨"0"⟩⟩ :: ⟨n, ⟨"1"⟩⟩ :: back, .request, .standard⟩
  have hname : Name.ofText "X-Id" = .ok n := by decide +kernel
  have hvalue : Value.normalize " 5 " = .ok ⟨"5"⟩ := by decide +kernel
  have hrule : s.policy.rule s.guard = some Policy.standard.request := rfl
  have hfirst : s.fields.FirstAt n [⟨.accept, ⟨"0"⟩⟩] ⟨"1"⟩ back := ⟨rfl, by decide +kernel⟩
  obtain ⟨t, -, hafter, -, -, -, hplaced, -⟩ := Store.set_in_place s hname hvalue hrule (by decide +kernel)
  refine ⟨s, n, rfl, rfl, ?_⟩
  rw [hafter, hplaced _ _ _ hfirst]
  rfl

end Store

end HttpFields
