import Mathlib.Data.Finset.Card
import HttpFields.Store.Basic

/-!
# The snapshot and the look-ups agree

A snapshot sorts the fields and folds the runs of one name; a look-up picks the values of one name and
joins them. Both show the same.

* `Fields.Sorted` : the names of a list do not descend; `eq_of_sorted` : a sorted list is determined by
  the values of its names
* `Fields.valuesOf_sorted` : the sort is stable, so it keeps the values of each name in list order
* `Fields.listed` : what a snapshot shows of the values of one name
* `Fields.joinRuns` : the runs made one field each from the front; `Fields.foldRuns_eq_joinRuns`
* `Fields.sorted_snapshot`, `Fields.valuesOf_snapshot` : a snapshot is sorted and shows just that
* `Fields.Settled` : sorted and without a second value of a name, cookies apart; these lists are their own
  snapshots
-/

namespace HttpFields

open HttpFields.Field

set_option autoImplicit false

/-! ## The order of names -/

namespace Field.Name

protected theorem le_refl (a : Name) : a ≤ a := List.le_refl a.bytes

protected theorem le_trans {a b c : Name} (hab : a ≤ b) (hbc : b ≤ c) : a ≤ c :=
  show a.bytes ≤ c.bytes from List.le_trans hab hbc

protected theorem le_total (a b : Name) : a ≤ b ∨ b ≤ a := List.le_total a.bytes b.bytes

protected theorem le_antisymm {a b : Name} (hab : a ≤ b) (hba : b ≤ a) : a = b := by
  cases a
  cases b
  exact congrArg Name.mk (List.le_antisymm hab hba)

end Field.Name

namespace Fields

/-! ## Names and values of a list -/

theorem mem_names_iff (fs : Fields) (n : Name) : n ∈ fs.map (·.name) ↔ fs.valuesOf n ≠ [] := by
  simp [valuesOf, List.filter_eq_nil_iff]

theorem valuesOf_eq_nil_of_forall {fs : Fields} {n : Name} (h : ∀ f ∈ fs, f.name ≠ n) :
    fs.valuesOf n = [] := by
  simpa [valuesOf, List.filter_eq_nil_iff] using h

theorem valuesOf_name_ne_nil {f : Field} {fs : Fields} (hf : f ∈ fs) : fs.valuesOf f.name ≠ [] :=
  (mem_names_iff fs f.name).1 (List.mem_map_of_mem hf)

theorem filter_name_eq (fs : Fields) (n : Name) :
    fs.filter (·.name = n) = (fs.valuesOf n).map fun v => ⟨n, v⟩ := by
  induction fs with
  | nil => rfl
  | cons f fs ih =>
    rw [valuesOf_cons, List.filter_cons, ih]
    by_cases h : f.name = n
    · subst h
      simp
    · simp [h]

/-! ## Sorted lists -/

def Sorted (fs : Fields) : Prop := fs.Pairwise fun f g => f.name ≤ g.name

instance (fs : Fields) : Decidable fs.Sorted :=
  inferInstanceAs (Decidable (fs.Pairwise fun f g => f.name ≤ g.name))

theorem nameLe_trans (f g h : Field) (hfg : decide (f.name ≤ g.name) = true)
    (hgh : decide (g.name ≤ h.name) = true) : decide (f.name ≤ h.name) = true :=
  decide_eq_true (Name.le_trans (of_decide_eq_true hfg) (of_decide_eq_true hgh))

theorem nameLe_total (f g : Field) : (decide (f.name ≤ g.name) || decide (g.name ≤ f.name)) = true := by
  simpa using Name.le_total f.name g.name

theorem sorted_sorted (fs : Fields) : fs.sorted.Sorted := by
  simpa [Sorted, sorted] using List.pairwise_mergeSort nameLe_trans nameLe_total fs

theorem filter_sorted (fs : Fields) (n : Name) :
    fs.sorted.filter (·.name = n) = fs.filter (·.name = n) := by
  have hpair : (fs.filter (·.name = n)).Pairwise fun f g => decide (f.name ≤ g.name) = true := by
    rw [List.pairwise_filter]
    refine List.pairwise_of_forall fun f g hf hg => ?_
    rw [of_decide_eq_true hf, of_decide_eq_true hg]
    exact decide_eq_true (Name.le_refl n)
  have hsub : (fs.filter (·.name = n)).Sublist fs.sorted :=
    List.sublist_mergeSort nameLe_trans nameLe_total hpair List.filter_sublist
  have hin : (fs.filter (·.name = n)).Sublist (fs.sorted.filter (·.name = n)) := by
    simpa using hsub.filter (·.name = n)
  exact (hin.eq_of_length ((List.mergeSort_perm fs _).filter _).length_eq.symm).symm

theorem valuesOf_sorted (fs : Fields) (n : Name) : fs.sorted.valuesOf n = fs.valuesOf n := by
  rw [valuesOf, filter_sorted, valuesOf]

/-- The first name of a sorted list is the least one, so it is the same in two lists with the same
names. -/
theorem name_eq_of_sorted {f g : Field} {fs gs : Fields} (hf : Sorted (f :: fs)) (hg : Sorted (g :: gs))
    (h : ∀ n, Fields.valuesOf (f :: fs) n = Fields.valuesOf (g :: gs) n) : f.name = g.name := by
  have least : ∀ {a b : Field} {as bs : Fields}, Sorted (a :: as) →
      Fields.valuesOf (a :: as) b.name = Fields.valuesOf (b :: bs) b.name → a.name ≤ b.name := by
    intro a b as bs ha heq
    have hmem : b.name ∈ (a :: as).map (·.name) := by
      rw [mem_names_iff, heq]
      exact valuesOf_name_ne_nil List.mem_cons_self
    obtain ⟨c, hc, hcb⟩ := List.mem_map.1 hmem
    rw [← hcb]
    rcases List.mem_cons.1 hc with rfl | hc
    · exact Name.le_refl _
    · exact (List.pairwise_cons.1 ha).1 c hc
  exact Name.le_antisymm (least hf (h g.name)) (least hg (h f.name).symm)

theorem eq_of_sorted {fs gs : Fields} (hf : fs.Sorted) (hg : gs.Sorted)
    (h : ∀ n, fs.valuesOf n = gs.valuesOf n) : fs = gs := by
  induction fs generalizing gs with
  | nil =>
    cases gs with
    | nil => rfl
    | cons g gs => exact absurd (h g.name).symm (valuesOf_name_ne_nil List.mem_cons_self)
  | cons f fs ih =>
    cases gs with
    | nil => exact absurd (h f.name) (valuesOf_name_ne_nil List.mem_cons_self)
    | cons g gs =>
      have hname : f.name = g.name := name_eq_of_sorted hf hg h
      obtain ⟨hvalue, htail⟩ : f.value = g.value ∧ valuesOf fs g.name = valuesOf gs g.name := by
        simpa [valuesOf_cons, hname] using h g.name
      have hfg : f = g := by
        cases f
        cases g
        simp_all
      rw [hfg, ih (List.pairwise_cons.1 hf).2 (List.pairwise_cons.1 hg).2]
      intro n
      by_cases hn : g.name = n
      · exact hn ▸ htail
      · simpa [valuesOf_cons, hname, hn] using h n

/-! ## Folded runs -/

/-- What a reader sees of the values of a name, one field for each: all of them joined, but those of
`set-cookie` apart. -/
def listed (n : Name) (vs : List Value) : List Value :=
  if n = Name.setCookie then vs
  else match vs with
    | [] => []
    | v :: more => [v.join more]

@[simp] theorem listed_nil (n : Name) : listed n [] = [] := by
  by_cases h : n = Name.setCookie <;> simp [listed, h]

@[simp] theorem listed_setCookie (vs : List Value) : listed Name.setCookie vs = vs := by
  simp [listed]

theorem listed_cons {n : Name} (h : n ≠ Name.setCookie) (v : Value) (more : List Value) :
    listed n (v :: more) = [v.join more] := by
  simp [listed, h]

theorem listed_eq_nil_iff (n : Name) (vs : List Value) : listed n vs = [] ↔ vs = [] := by
  by_cases h : n = Name.setCookie
  · simp [h]
  · cases vs with
    | nil => simp
    | cons v more => simp [listed_cons h]

theorem combined_eq_head?_listed (fs : Fields) (n : Name) :
    fs.combined n = (listed n (fs.valuesOf n)).head? := by
  unfold combined
  by_cases h : n = Name.setCookie
  · cases hvs : fs.valuesOf n <;> simp [h]
  · cases hvs : fs.valuesOf n <;> simp [h, listed_cons]

theorem valuesOf_eq_nil_iff_of_listed {fs gs : Fields} (h : ∀ n, gs.valuesOf n = listed n (fs.valuesOf n))
    (n : Name) : gs.valuesOf n = [] ↔ fs.valuesOf n = [] := by
  rw [h, listed_eq_nil_iff]

theorem name_mem_of_listed {fs gs : Fields} (h : ∀ n, gs.valuesOf n = listed n (fs.valuesOf n)) {g : Field}
    (hg : g ∈ gs) : ∃ f ∈ fs, f.name = g.name := by
  have hne : fs.valuesOf g.name ≠ [] := by
    rw [Ne, ← valuesOf_eq_nil_iff_of_listed h]
    exact valuesOf_name_ne_nil hg
  exact List.mem_map.1 ((mem_names_iff fs g.name).2 hne)

theorem join_join (v w : Value) (more : List Value) : v.join [w.join more] = v.join (w :: more) := by
  simp only [Value.join, List.map_cons, List.map_nil, String.intercalate_cons_cons, String.intercalate_singleton]

theorem join_listed {n : Name} (h : n ≠ Name.setCookie) (v : Value) (vs : List Value) :
    v.join (listed n vs) = v.join vs := by
  cases vs with
  | nil => simp
  | cons w more => rw [listed_cons h, join_join]

theorem foldInto_setCookie {f : Field} (hf : f.name = Name.setCookie) (gs : Fields) :
    foldInto f gs = f :: gs := by
  cases gs with
  | nil => rfl
  | cons g gs => exact if_neg fun h => h.2 hf

theorem sorted_foldInto {f : Field} {gs : Fields} (hle : ∀ g ∈ gs, f.name ≤ g.name) (hgs : gs.Sorted) :
    (foldInto f gs).Sorted := by
  cases gs with
  | nil => exact List.pairwise_singleton _ _
  | cons g gs =>
    rw [foldInto]
    split
    · exact List.pairwise_cons.2
        ⟨fun h hh => hle h (List.mem_cons_of_mem g hh), (List.pairwise_cons.1 hgs).2⟩
    · exact List.pairwise_cons.2 ⟨hle, hgs⟩

theorem valuesOf_foldInto_of_ne {f : Field} {n : Name} (hn : f.name ≠ n) (gs : Fields) :
    (foldInto f gs).valuesOf n = gs.valuesOf n := by
  cases gs with
  | nil => simp [foldInto, valuesOf, hn]
  | cons g gs =>
    rw [foldInto]
    split
    · next hg => simp only [valuesOf_cons, hg.1, if_neg hn]
    · simp only [valuesOf_cons f, if_neg hn, List.nil_append]

/-- A field that is put in front of a sorted list is joined with the value of its name. If the first name
of the list is another one then the name has no value there, since the list is sorted. -/
theorem valuesOf_foldInto_self {f : Field} (hf : f.name ≠ Name.setCookie) {gs : Fields} (hgs : gs.Sorted)
    (hle : ∀ g ∈ gs, f.name ≤ g.name) (hone : (gs.valuesOf f.name).length ≤ 1) :
    (foldInto f gs).valuesOf f.name = [f.value.join (gs.valuesOf f.name)] := by
  cases gs with
  | nil => simp [foldInto, valuesOf]
  | cons g gs =>
    by_cases hg : g.name = f.name
    · have hcons : Fields.valuesOf (g :: gs) f.name = g.value :: Fields.valuesOf gs f.name := by
        rw [valuesOf_cons, if_pos hg, List.singleton_append]
      have hnone : Fields.valuesOf gs f.name = [] := by
        rw [hcons, List.length_cons] at hone
        exact List.eq_nil_of_length_eq_zero (by omega)
      rw [hcons, hnone, foldInto, if_pos ⟨hg, hf⟩, valuesOf_cons, if_pos rfl, hnone, List.append_nil]
    · have hnone : Fields.valuesOf (g :: gs) f.name = [] := by
        refine valuesOf_eq_nil_of_forall fun x hx hxf => hg ?_
        have hgx : g.name ≤ x.name := by
          rcases List.mem_cons.1 hx with rfl | hx
          · exact Name.le_refl _
          · exact (List.pairwise_cons.1 hgs).1 x hx
        exact Name.le_antisymm (hxf ▸ hgx) (hle g List.mem_cons_self)
      rw [foldInto, if_neg fun h => hg h.1, valuesOf_cons f, if_pos rfl, hnone, Value.join_nil,
        List.singleton_append]

theorem length_listed_le {n : Name} (h : n ≠ Name.setCookie) (vs : List Value) :
    (listed n vs).length ≤ 1 := by
  cases vs with
  | nil => simp
  | cons v more => simp [listed_cons h]

/-- Folding the runs of a sorted list keeps it sorted, and lists the values of each name. -/
theorem foldRuns_spec {fs : Fields} (hfs : fs.Sorted) :
    fs.foldRuns.Sorted ∧ ∀ n, fs.foldRuns.valuesOf n = listed n (fs.valuesOf n) := by
  induction fs with
  | nil => exact ⟨List.Pairwise.nil, fun n => (listed_nil n).symm⟩
  | cons f fs ih =>
    obtain ⟨hle, hfs⟩ := List.pairwise_cons.1 hfs
    obtain ⟨hsorted, hvalues⟩ := ih hfs
    have hle' : ∀ g ∈ foldRuns fs, f.name ≤ g.name := by
      intro g hg
      obtain ⟨x, hx, hxg⟩ := name_mem_of_listed hvalues hg
      exact hxg ▸ hle x hx
    have hfold : foldRuns (f :: fs) = foldInto f (foldRuns fs) := rfl
    rw [hfold]
    -- The fold works from the back, so the values behind `f` are listed already and `f` joins their first.
    refine ⟨sorted_foldInto hle' hsorted, fun n => ?_⟩
    by_cases hn : f.name = n
    · subst hn
      have hcons : Fields.valuesOf (f :: fs) f.name = f.value :: Fields.valuesOf fs f.name := by
        rw [valuesOf_cons, if_pos rfl, List.singleton_append]
      by_cases hc : f.name = Name.setCookie
      · rw [foldInto_setCookie hc, hcons, valuesOf_cons, if_pos rfl, hvalues, hc, listed_setCookie,
          listed_setCookie, List.singleton_append]
      · rw [valuesOf_foldInto_self hc hsorted hle' (hvalues _ ▸ length_listed_le hc _), hvalues,
          join_listed hc, hcons, listed_cons hc]
    · rw [valuesOf_foldInto_of_ne hn, hvalues, valuesOf_cons f, if_neg hn, List.nil_append]

/-! ## Runs from the front -/

/-- How many fields at the front of the list have the name of the field before it. -/
def runLength (f : Field) (tail : Fields) : Nat := (tail.takeWhile (·.name = f.name)).length

/-- Makes one field of each run, run by run: the fields behind the first that have its name are counted off, joined
with it, and skipped. -/
def joinRuns : Fields → Fields
  | [] => []
  | f :: tail =>
    if f.name = Name.setCookie then f :: joinRuns tail
    else
      ⟨f.name, if runLength f tail = 0 then f.value
        else f.value.join ((tail.take (runLength f tail)).map (·.value))⟩ :: joinRuns (tail.drop (runLength f tail))
termination_by fs => fs.length
decreasing_by
  · exact Nat.lt_succ_self _
  · exact Nat.lt_succ_of_le (List.length_drop ▸ Nat.sub_le _ _)

theorem take_runLength (f : Field) (tail : Fields) :
    tail.take (runLength f tail) = tail.takeWhile (·.name = f.name) :=
  (List.prefix_iff_eq_take.1 (List.takeWhile_prefix _)).symm

theorem drop_runLength (f : Field) (tail : Fields) :
    tail.drop (runLength f tail) = tail.dropWhile (·.name = f.name) := by
  have hsplit : tail.take (runLength f tail) ++ tail.drop (runLength f tail) =
      tail.takeWhile (·.name = f.name) ++ tail.dropWhile (·.name = f.name) := by
    rw [List.take_append_drop, List.takeWhile_append_dropWhile]
  rw [take_runLength] at hsplit
  exact List.append_cancel_left hsplit

theorem head?_foldRuns_name (fs : Fields) : fs.foldRuns.head?.map (·.name) = fs.head?.map (·.name) := by
  cases fs with
  | nil => rfl
  | cons f fs =>
    show (foldInto f (foldRuns fs)).head?.map (·.name) = some f.name
    cases foldRuns fs with
    | nil => rfl
    | cons g gs =>
      rw [foldInto]
      split <;> rfl

theorem foldRuns_run {f : Field} (hf : f.name ≠ Name.setCookie) {run rest : Fields}
    (hrun : ∀ g ∈ run, g.name = f.name) (hrest : ∀ g ∈ rest.head?, g.name ≠ f.name) :
    foldRuns (f :: (run ++ rest)) = ⟨f.name, f.value.join (run.map (·.value))⟩ :: foldRuns rest := by
  induction run generalizing f with
  | nil =>
    have hhead := head?_foldRuns_name rest
    show foldInto f (foldRuns rest) = ⟨f.name, f.value.join []⟩ :: foldRuns rest
    rw [Value.join_nil]
    cases hfold : foldRuns rest with
    | nil => rfl
    | cons g gs =>
      rw [hfold, List.head?_cons, Option.map_some] at hhead
      obtain ⟨r, hr, hname⟩ := Option.map_eq_some_iff.1 hhead.symm
      exact if_neg fun h => hrest r hr (hname.trans h.1)
  | cons g run ih =>
    obtain ⟨hg, hrun⟩ := List.forall_mem_cons.1 hrun
    have htail := ih (hg ▸ hf) (fun x hx => (hrun x hx).trans hg.symm) fun x hx => hg ▸ hrest x hx
    show foldInto f (foldRuns (g :: (run ++ rest))) = _
    rw [htail]
    show foldInto f (⟨g.name, g.value.join (run.map (·.value))⟩ :: foldRuns rest) = _
    rw [foldInto, if_pos ⟨hg, hf⟩, join_join, List.map_cons]

/-- To fold the runs from the back is to join them from the front. -/
theorem foldRuns_eq_joinRuns (fs : Fields) : fs.foldRuns = fs.joinRuns := by
  induction fs using joinRuns.induct with
  | case1 => rw [joinRuns, foldRuns, List.foldr_nil]
  | case2 f tail hf ih =>
    rw [joinRuns, if_pos hf, ← ih]
    exact foldInto_setCookie hf _
  | case3 f tail hf ih =>
    have hrun : ∀ g ∈ tail.take (runLength f tail), g.name = f.name := by
      rw [take_runLength]
      exact fun g hg => of_decide_eq_true (List.all_eq_true.1 List.all_takeWhile g hg)
    have hrest : ∀ g ∈ (tail.drop (runLength f tail)).head?, g.name ≠ f.name := by
      intro g hg
      have hnot := List.head?_dropWhile_not (fun g : Field => decide (g.name = f.name)) tail
      rw [← drop_runLength, hg] at hnot
      exact of_decide_eq_false hnot
    have hfold := foldRuns_run hf hrun hrest
    rw [List.take_append_drop] at hfold
    rw [joinRuns, if_neg hf, hfold, ih]
    split
    · next hzero => rw [hzero, List.take_zero, List.map_nil, Value.join_nil]
    · rfl

/-! ## Snapshots -/

theorem sorted_snapshot (fs : Fields) : fs.snapshot.Sorted := (foldRuns_spec (sorted_sorted fs)).1

theorem snapshot_of_sorted {fs : Fields} (h : fs.Sorted) : fs.snapshot = fs.foldRuns := by
  have hsorted : fs.sorted = fs := eq_of_sorted (sorted_sorted fs) h (valuesOf_sorted fs)
  rw [snapshot, hsorted]

theorem valuesOf_snapshot (fs : Fields) (n : Name) : fs.snapshot.valuesOf n = listed n (fs.valuesOf n) := by
  rw [snapshot, (foldRuns_spec (sorted_sorted fs)).2, valuesOf_sorted]

/-- A snapshot depends on the values of each name alone. -/
theorem snapshot_congr {fs gs : Fields} (h : ∀ n, fs.valuesOf n = gs.valuesOf n) :
    fs.snapshot = gs.snapshot :=
  eq_of_sorted (sorted_snapshot fs) (sorted_snapshot gs) fun n => by
    rw [valuesOf_snapshot, valuesOf_snapshot, h]

theorem length_congr {fs gs : Fields} (h : ∀ n, fs.valuesOf n = gs.valuesOf n) : fs.length = gs.length := by
  have hsorted : fs.sorted = gs.sorted :=
    eq_of_sorted (sorted_sorted fs) (sorted_sorted gs) fun n => by
      rw [valuesOf_sorted, valuesOf_sorted, h]
  have hlen := congrArg List.length hsorted
  simpa [sorted, List.length_mergeSort] using hlen

/-! ## Lists that are their own snapshots -/

/-- The list is sorted, and no name but `set-cookie` is in it twice. -/
structure Settled (fs : Fields) : Prop where
  sorted : fs.Sorted
  single : ∀ n ≠ Name.setCookie, (fs.valuesOf n).length ≤ 1

theorem settled_snapshot (fs : Fields) : fs.snapshot.Settled := by
  refine ⟨sorted_snapshot fs, fun n hn => ?_⟩
  rw [valuesOf_snapshot]
  exact length_listed_le hn _

/-- Of several values only cookies are listed as they are. -/
theorem listed_eq_self_iff (n : Name) (vs : List Value) :
    listed n vs = vs ↔ (n ≠ Name.setCookie → vs.length ≤ 1) := by
  constructor
  · intro h hn
    rw [← h]
    exact length_listed_le hn vs
  · intro h
    by_cases hn : n = Name.setCookie
    · rw [hn, listed_setCookie]
    · cases vs with
      | nil => exact listed_nil n
      | cons v more =>
        obtain rfl : more = [] := by simpa using h hn
        rw [listed_cons hn, Value.join_nil]

/-- There is nothing to sort and nothing to fold just in the settled lists. -/
theorem snapshot_eq_self_iff (fs : Fields) : fs.snapshot = fs ↔ fs.Settled := by
  constructor
  · intro h
    rw [← h]
    exact settled_snapshot fs
  · intro h
    refine eq_of_sorted (sorted_snapshot fs) h.sorted fun n => ?_
    rw [valuesOf_snapshot, listed_eq_self_iff]
    exact h.single n

/-! ## How many fields a snapshot has -/

theorem mem_snapshot_names_iff (fs : Fields) (n : Name) :
    n ∈ fs.snapshot.map (·.name) ↔ n ∈ fs.map (·.name) := by
  rw [mem_names_iff, mem_names_iff, Ne, valuesOf_eq_nil_iff_of_listed (valuesOf_snapshot fs)]

theorem nodup_snapshot_names (fs : Fields) :
    ((fs.snapshot.map (·.name)).filter (· ≠ Name.setCookie)).Nodup := by
  rw [List.nodup_iff_count_le_one]
  intro n
  by_cases h : n = Name.setCookie
  · rw [List.count_eq_zero_of_not_mem (by simp [h])]
    exact Nat.zero_le 1
  · rw [List.count_filter (by simpa using h)]
    have hlen : (fs.snapshot.map (·.name)).count n = (fs.snapshot.valuesOf n).length := by
      rw [List.count_eq_length_filter, List.filter_map, List.length_map, valuesOf, List.length_map]
      rfl
    rw [hlen, valuesOf_snapshot]
    exact length_listed_le h _

theorem length_snapshot (fs : Fields) :
    fs.snapshot.length =
      ((fs.map (·.name)).toFinset.erase Name.setCookie).card + (fs.valuesOf Name.setCookie).length := by
  have hcookies : (fs.snapshot.filter (·.name = Name.setCookie)).length =
      (fs.valuesOf Name.setCookie).length := by
    rw [filter_name_eq, List.length_map, valuesOf_snapshot, listed_setCookie]
  have hothers : (fs.snapshot.filter (·.name ≠ Name.setCookie)).length =
      ((fs.map (·.name)).toFinset.erase Name.setCookie).card := by
    have hset : (fs.map (·.name)).toFinset.erase Name.setCookie =
        ((fs.snapshot.map (·.name)).filter (· ≠ Name.setCookie)).toFinset := by
      ext n
      rw [Finset.mem_erase, List.mem_toFinset, List.mem_toFinset, List.mem_filter,
        mem_snapshot_names_iff, decide_eq_true_iff, and_comm]
    rw [hset, List.toFinset_card_of_nodup (nodup_snapshot_names fs), List.filter_map, List.length_map]
    rfl
  rw [← hcookies, ← hothers, Nat.add_comm]
  simpa using List.length_eq_length_filter_add (l := fs.snapshot) fun f => decide (f.name = Name.setCookie)

end Fields

/-! ## Snapshots and look-ups -/

namespace Store

theorem get_of_ofText {s : Store} {text : String} {n : Name} (h : Name.ofText text = .ok n) :
    s.get text = .ok (s.fields.combined n) := by
  simp only [get, Operation.readName, h]
  rfl

/-- A snapshot is sorted by the bytes of the names and shows what the look-ups show: a name once, with the
value that `get` yields, but `set-cookie` once for each of its values. Its length follows. It comes of joining the
runs of the sorted fields from the front, and does not depend on how the fields of different names are mixed. -/
theorem snapshot_agrees_with_lookups (s : Store) :
    (s.snapshot.Pairwise fun f g => f.name.bytes ≤ g.name.bytes) ∧
    (∀ f ∈ s.fields, f.name ≠ Name.setCookie → ∃ v, s.snapshot.filter (·.name = f.name) = [⟨f.name, v⟩] ∧
      s.fields.combined f.name = some v ∧
      ∀ text, Name.ofText text = .ok f.name → s.get text = .ok (some v)) ∧
    (s.snapshot.filter (·.name = Name.setCookie)).map (·.value) = s.setCookies ∧
    (∀ f ∈ s.snapshot, ∃ g ∈ s.fields, g.name = f.name) ∧
    s.snapshot.length =
      ((s.fields.map (·.name)).toFinset.erase Name.setCookie).card + s.setCookies.length ∧
    s.snapshot = s.fields.sorted.joinRuns ∧
    ∀ t : Store, (∀ n, t.fields.valuesOf n = s.fields.valuesOf n) → t.snapshot = s.snapshot := by
  refine ⟨s.fields.sorted_snapshot, fun f hf hc => ?_, ?_, fun f hf => ?_, s.fields.length_snapshot,
    Fields.foldRuns_eq_joinRuns _, fun t h => Fields.snapshot_congr h⟩
  · obtain ⟨v, more, hvs⟩ := List.exists_cons_of_ne_nil (Fields.valuesOf_name_ne_nil hf)
    have hcombined : s.fields.combined f.name = some (v.join more) := by
      rw [Fields.combined_eq_head?_listed, hvs, Fields.listed_cons hc, List.head?_cons]
    refine ⟨v.join more, ?_, hcombined, fun text h => ?_⟩
    · rw [snapshot, Fields.filter_name_eq, Fields.valuesOf_snapshot, hvs, Fields.listed_cons hc,
        List.map_singleton]
    · rw [get_of_ofText h, hcombined]
  · have hcookies := s.fields.valuesOf_snapshot Name.setCookie
    rwa [Fields.listed_setCookie] at hcookies
  · exact Fields.name_mem_of_listed s.fields.valuesOf_snapshot hf

end Store

end HttpFields
