import HttpFields.Proofs.Replacement

/-!
# Scans for the values of one name

A scan goes through the fields of all names and yields the values of one. So where it stands is told by the value that
it found last, and of what is to come only a bound is known.

* `Fields.ValueAt` : where the value of a name with a given number stands
* `ValueScan.StandsAt` : where a scan stands after so many calls
* `ValueScan.StandsAt.found_or_none` : what the next call finds; `ValueScan.standsAt_after` : where any number of calls
  leads to
* `Store.getAll_finds_values` : what a scan finds and how it is bounded, and that the other look-ups find the same
-/

namespace HttpFields

open HttpFields.Field

set_option autoImplicit false

/-! ## Where the values of a name stand -/

namespace Fields

variable {fs front back : Fields} {n : Name} {v : Value} {i : Nat}

theorem valuesOf_append_fields (front back : Fields) (n : Name) :
    Fields.valuesOf (front ++ back) n = front.valuesOf n ++ back.valuesOf n := by
  rw [valuesOf, List.filter_append, List.map_append, valuesOf, valuesOf]

/-- The value of the name with so many others before it is `v`, with these fields in front and those behind it. -/
structure ValueAt (fs : Fields) (n : Name) (i : Nat) (front : Fields) (v : Value) (back : Fields) : Prop where
  split : fs = front ++ ⟨n, v⟩ :: back
  earlier : (front.valuesOf n).length = i

theorem ValueAt.valuesOf_eq (h : fs.ValueAt n i front v back) :
    fs.valuesOf n = front.valuesOf n ++ v :: back.valuesOf n := by
  rw [h.split, valuesOf_append_fields, valuesOf_cons, if_pos rfl, List.singleton_append]

theorem ValueAt.getElem? (h : fs.ValueAt n i front v back) : (fs.valuesOf n)[i]? = some v := by
  simp [h.valuesOf_eq, ← h.earlier]

theorem ValueAt.drop (h : fs.ValueAt n i front v back) : (fs.valuesOf n).drop (i + 1) = back.valuesOf n := by
  simp [h.valuesOf_eq, ← h.earlier, List.drop_append]

theorem FirstAt.valueAt (h : fs.FirstAt n front v back) : fs.ValueAt n 0 front v back :=
  ⟨h.split, by rw [valuesOf_eq_nil_of_forall h.fresh, List.length_nil]⟩

theorem ValueAt.next {between later : Fields} {w : Value} (h : fs.ValueAt n i front v back)
    (hback : back.FirstAt n between w later) : fs.ValueAt n (i + 1) (front ++ ⟨n, v⟩ :: between) w later := by
  constructor
  · rw [h.split, hback.split, List.append_assoc, List.cons_append]
  · rw [valuesOf_append_fields, valuesOf_cons, if_pos rfl, valuesOf_eq_nil_of_forall hback.fresh, List.length_append,
      h.earlier]
    rfl

theorem combined_eq_intercalate (fs : Fields) {n : Name} (h : n ≠ Name.setCookie) :
    fs.combined n =
      if fs.valuesOf n = [] then none else some ⟨", ".intercalate ((fs.valuesOf n).map (·.text))⟩ := by
  rw [combined_eq_head?_listed]
  cases fs.valuesOf n with
  | nil => simp
  | cons v more =>
    rw [listed_cons h]
    rfl

end Fields

/-! ## Calls of a scan -/

namespace ValueScan

variable {fs front back : Fields} {n : Name} {v : Value} {scan : ValueScan} {k : Nat}

theorem next_of_firstAt (h : fs.FirstAt n front v back) : next ⟨fs, n⟩ = (some v, ⟨back, n⟩) := by
  have hdrop : fs.dropWhile (·.name ≠ n) = ⟨n, v⟩ :: back := by
    rw [h.split, List.dropWhile_append_of_pos fun f hf => decide_eq_true (h.fresh f hf)]
    simp
  simp only [next, hdrop]

theorem next_of_absent (h : ∀ f ∈ fs, f.name ≠ n) : next ⟨fs, n⟩ = (none, ⟨[], n⟩) := by
  have hdrop : fs.dropWhile (·.name ≠ n) = [] :=
    List.dropWhile_eq_nil_iff.2 fun f hf => decide_eq_true (h f hf)
  simp only [next, hdrop]

def after (scan : ValueScan) (k : Nat) : ValueScan := Nat.iterate (fun s => s.next.2) k scan

theorem after_succ (scan : ValueScan) (k : Nat) : scan.after (k + 1) = (scan.after k).next.2 :=
  Function.iterate_succ_apply' _ k scan

/-- Where a scan for the name stands after so many calls: in front of all fields if there was no call yet, behind the
value that the last call found, or at the end if that found none. -/
inductive StandsAt (fs : Fields) (n : Name) : Nat → ValueScan → Prop where
  | start : StandsAt fs n 0 ⟨fs, n⟩
  | behind {i : Nat} {front back : Fields} {v : Value} (h : fs.ValueAt n i front v back) :
    StandsAt fs n (i + 1) ⟨back, n⟩
  | past {k : Nat} (h : (fs.valuesOf n).length < k) : StandsAt fs n k ⟨[], n⟩

theorem StandsAt.found_or_none (h : StandsAt fs n k scan) :
    (∃ front v back, fs.ValueAt n k front v back ∧ scan.next = (some v, ⟨back, n⟩)) ∨
      (fs.valuesOf n).length ≤ k ∧ scan.next = (none, ⟨[], n⟩) := by
  cases h with
  | start =>
    rcases fs.absent_or_firstAt n with habsent | ⟨front, v, back, hfirst⟩
    · refine .inr ⟨?_, next_of_absent habsent⟩
      rw [Fields.valuesOf_eq_nil_of_forall habsent, List.length_nil]
    · exact .inl ⟨front, v, back, hfirst.valueAt, next_of_firstAt hfirst⟩
  | @behind i front back v hvalue =>
    -- Nothing in front of the last value found matters any more: the next one is the first behind it.
    rcases back.absent_or_firstAt n with habsent | ⟨between, w, later, hfirst⟩
    · refine .inr ⟨?_, next_of_absent habsent⟩
      rw [hvalue.valuesOf_eq, Fields.valuesOf_eq_nil_of_forall habsent, List.length_append, hvalue.earlier,
        List.length_singleton]
    · exact .inl ⟨_, w, later, hvalue.next hfirst, next_of_firstAt hfirst⟩
  | past hpast => exact .inr ⟨hpast.le, next_of_absent nofun⟩

theorem StandsAt.step (h : StandsAt fs n k scan) : StandsAt fs n (k + 1) scan.next.2 := by
  rcases h.found_or_none with ⟨front, v, back, hvalue, hnext⟩ | ⟨hend, hnext⟩
  · rw [hnext]
    exact .behind hvalue
  · rw [hnext]
    exact .past (Nat.lt_succ_of_le hend)

theorem standsAt_after (fs : Fields) (n : Name) (k : Nat) : StandsAt fs n k (after ⟨fs, n⟩ k) := by
  induction k with
  | zero => exact .start
  | succ k ih =>
    rw [after_succ]
    exact ih.step

theorem StandsAt.next_fst (h : StandsAt fs n k scan) : scan.next.1 = (fs.valuesOf n)[k]? := by
  rcases h.found_or_none with ⟨front, v, back, hvalue, hnext⟩ | ⟨hend, hnext⟩
  · rw [hnext, hvalue.getElem?]
  · rw [hnext, List.getElem?_eq_none hend]

theorem StandsAt.items_eq (h : StandsAt fs n k scan) : scan.items = (fs.valuesOf n).drop k := by
  cases h with
  | start => exact items_eq_valuesOf fs n
  | behind hvalue => rw [hvalue.drop, items_eq_valuesOf]
  | past hpast =>
    rw [List.drop_eq_nil_of_le hpast.le]
    exact items_eq_valuesOf [] n

theorem length_items_le (scan : ValueScan) : scan.items.length ≤ scan.bounds.2 := by
  obtain ⟨rest, n⟩ := scan
  rw [items_eq_valuesOf, Fields.valuesOf, List.length_map]
  exact List.length_filter_le _ rest

end ValueScan

/-! ## All values of a name -/

namespace Store

theorem getAll_of_ofText {s : Store} {text : String} {n : Name} (h : Name.ofText text = .ok n) :
    s.getAll text = .ok ⟨s.fields, n⟩ := by
  simp only [getAll, Operation.readName, h]
  rfl

/-- A scan for a name, in any spelling, finds the values of the name one after the other and then none for ever. It
promises nothing but bounds what is to come by the number of fields ahead: by that of all fields before the first call,
then by that of the fields behind the value found last, and by nothing at the end. The values, set in a row with commas
between them, are what a look-up of the name yields, and those of `set-cookie` are its cookies. -/
theorem getAll_finds_values (s : Store) {text : String} {n : Name} (h : Name.ofText text = .ok n) :
    ∃ scan, s.getAll text = .ok scan ∧
      (∀ k, (scan.after k).next.1 = (s.fields.valuesOf n)[k]? ∧ (scan.after k).items = (s.fields.valuesOf n).drop k) ∧
      scan.bounds = (0, s.size) ∧
      (∀ k, (∃ front v back, s.fields.ValueAt n k front v back ∧ (scan.after k).next.1 = some v ∧
          (scan.after (k + 1)).bounds = (0, back.length)) ∨
        (s.fields.valuesOf n).length ≤ k ∧ (scan.after k).next.1 = none ∧ (scan.after (k + 1)).bounds = (0, 0)) ∧
      (∀ k, (scan.after k).items.length ≤ (scan.after k).bounds.2) ∧
      (n ≠ Name.setCookie → ∀ spelling, Name.ofText spelling = .ok n → s.get spelling =
        .ok (if scan.items = [] then none else some ⟨", ".intercalate (scan.items.map (·.text))⟩)) ∧
      (n = Name.setCookie → scan.items = s.setCookies) := by
  have hitems : ValueScan.items ⟨s.fields, n⟩ = s.fields.valuesOf n := ValueScan.items_eq_valuesOf s.fields n
  have hstands := ValueScan.standsAt_after s.fields n
  refine ⟨⟨s.fields, n⟩, getAll_of_ofText h, fun k => ⟨(hstands k).next_fst, (hstands k).items_eq⟩, rfl, fun k => ?_,
    fun k => ValueScan.length_items_le _, fun hn spelling hspelling => ?_, fun hn => ?_⟩
  · rw [ValueScan.after_succ]
    rcases (hstands k).found_or_none with ⟨front, v, back, hvalue, hnext⟩ | ⟨hend, hnext⟩
    · rw [hnext]
      exact .inl ⟨front, v, back, hvalue, rfl, rfl⟩
    · rw [hnext]
      exact .inr ⟨hend, rfl, rfl⟩
  · rw [get_of_ofText hspelling, Fields.combined_eq_intercalate s.fields hn, hitems]
  · rw [hitems, hn, setCookies]

/-- Of the five fields two have the name, and between them stands another one. -/
theorem getAll_finds_values_between :
    ∃ (s : Store) (scan : ValueScan), s.size = 5 ∧ s.getAll "X-ID" = .ok scan ∧ scan.bounds = (0, 5) ∧
      (scan.after 0).next.1 = some ⟨"2"⟩ ∧ (scan.after 1).next.1 = some ⟨"4"⟩ ∧
      (∀ k, (scan.after (k + 2)).next.1 = none ∧ (scan.after (k + 3)).bounds = (0, 0)) ∧
      s.get "x-Id" = .ok (some ⟨"2, 4"⟩) := by
  let n : Name := .ofLower "x-id"
  let s : Store := .ofFields [⟨.range, ⟨"1"⟩⟩, ⟨n, ⟨"2"⟩⟩, ⟨.accept, ⟨"3"⟩⟩, ⟨n, ⟨"4"⟩⟩, ⟨.range, ⟨"5"⟩⟩]
  have hname : Name.ofText "X-ID" = .ok n := by decide +kernel
  have hspelling : Name.ofText "x-Id" = .ok n := by decide +kernel
  have hvalues : s.fields.valuesOf n = [⟨"2"⟩, ⟨"4"⟩] := by decide +kernel
  obtain ⟨scan, hscan, hfinds, hbounds, hcalls, -, hjoined, -⟩ := getAll_finds_values s hname
  rw [hvalues] at hfinds
  have hitems : scan.items = [⟨"2"⟩, ⟨"4"⟩] := (hfinds 0).2
  refine ⟨s, scan, rfl, hscan, hbounds, (hfinds 0).1, (hfinds 1).1, fun k => ?_, ?_⟩
  · have hnone : (scan.after (k + 2)).next.1 = none := (hfinds (k + 2)).1
    rcases hcalls (k + 2) with ⟨front, v, back, -, hsome, -⟩ | ⟨-, -, hend⟩
    · rw [hnone] at hsome
      cases hsome
    · exact ⟨hnone, hend⟩
  · rw [hjoined (by decide +kernel) "x-Id" hspelling, hitems]
    rfl

end Store

end HttpFields
