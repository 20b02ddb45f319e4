import HttpFields.Proofs.History
import HttpFields.Proofs.Snapshot
import HttpFields.Script.Ordinary

/-!
# Stores rebuilt from their snapshots

A snapshot is written as an array of pairs of texts, and a store is made from that array. The reader strips
the padding of each value, so a value that ends in a blank does not come back as it was.

* `Fill.result_pairs` : the pairs of such an array are the pairs that it was made from
* `Store.rebuilt` : the store that is made from a snapshot; `Store.rebuilt_eq` : its fields
* `Value.endsInBlank_join_iff` : a joined value ends in a blank when its last part does, and also when that
  part is empty
* `Store.rebuilt_snapshot` : the store can always be rebuilt, and `Store.ReadsBack` says exactly when it shows
  the same again
-/

namespace HttpFields

open HttpFields.Field Script

set_option autoImplicit false

/-! ## Arrays of pairs -/

namespace Fill

open FillM

variable {φ σ : Type} (foreign : World φ (Ordinary φ) σ)

theorem result_pairOf_pair (index : Nat) (p : String × String) (state : σ) :
    result (pairOf (Ordinary.world foreign) index (.object (.pair p.1 p.2))) state = (.ok p, state) := rfl

theorem result_pairsFrom_pairs (ps : List (String × String)) (index : Nat) (state : σ) :
    result (pairsFrom (Ordinary.world foreign) index (ps.map fun p => .object (.pair p.1 p.2))) state =
      (.ok ps, state) := by
  induction ps generalizing index with
  | nil => rfl
  | cons p ps ih =>
    rw [List.map_cons, pairsFrom, result_bind_ok (result_pairOf_pair foreign index p state),
      result_bind_ok (ih (index + 1)), result_pure]

theorem result_pairs (ps : List (String × String)) (state : σ) :
    result (pairs (Ordinary.world foreign) (.object (.pairs ps))) state = (.ok ps, state) := by
  have hstart : result (pairs (Ordinary.world foreign) (.object (.pairs ps))) state =
      result (pairsFrom (Ordinary.world foreign) 0 (ps.map fun p => .object (.pair p.1 p.2))) state := rfl
  rw [hstart, result_pairsFrom_pairs]

end Fill

/-! ## Blanks at the end of values -/

namespace Field.Value

/-- The last character is a blank. -/
def EndsInBlank (v : Value) : Prop := v.text.toList.getLast?.any Text.isBlank = true

instance (v : Value) : Decidable v.EndsInBlank := inferInstanceAs (Decidable (_ = true))

/-- A value that callers can have is read back unless it ends in a blank, for it never begins with one. -/
theorem stripped_eq_self_iff_of_obtained {v : Value} (h : v.Obtained) : v.stripped = v ↔ ¬ v.EndsInBlank := by
  rw [stripped_eq_self_iff, Text.Unpadded, and_iff_right h.head_not_blank, EndsInBlank, Option.any_eq_true]
  simp

/-- A joined value ends in a blank when its last part does. It also does when that part is empty: then the
last comma has only its space behind it. -/
theorem endsInBlank_join_iff {v w : Value} {more : List Value} (hw : w ∈ (v :: more).getLast?) :
    (v.join more).EndsInBlank ↔ w.EndsInBlank ∨ w.text = "" ∧ more ≠ [] := by
  rw [EndsInBlank, getLast?_join v more hw, EndsInBlank]
  by_cases hempty : w.text = ""
  · -- An empty last part leaves the end to the separator in front of it, if there is one.
    have hlast : w.text.toList.getLast? = none := by rw [hempty]; rfl
    rw [hlast, Option.none_or]
    by_cases hmore : more = []
    · simp [hmore]
    · rw [if_neg hmore]
      exact iff_of_true rfl (.inr ⟨hempty, hmore⟩)
  · have hne : w.text.toList ≠ [] := by simpa using hempty
    rw [List.getLast?_eq_some_getLast hne]
    simp [hempty]

theorem obtained_listed {n : Name} {vs : List Value} (h : ∀ v ∈ vs, v.Obtained) :
    ∀ v ∈ Fields.listed n vs, v.Obtained := by
  by_cases hn : n = Name.setCookie
  · rwa [hn, Fields.listed_setCookie]
  · cases vs with
    | nil => rwa [Fields.listed_nil]
    | cons v more =>
      obtain ⟨hv, hmore⟩ := List.forall_mem_cons.1 h
      rw [Fields.listed_cons hn]
      exact List.forall_mem_singleton.2 (.joined hv hmore)

end Field.Value

namespace Fields

theorem mem_valuesOf_iff {fs : Fields} {n : Name} {v : Value} : v ∈ fs.valuesOf n ↔ ⟨n, v⟩ ∈ fs := by
  rw [valuesOf, List.mem_map]
  constructor
  · rintro ⟨f, hf, rfl⟩
    obtain ⟨hf, hn⟩ := List.mem_filter.1 hf
    rwa [← of_decide_eq_true hn]
  · exact fun h => ⟨⟨n, v⟩, List.mem_filter.2 ⟨h, decide_eq_true rfl⟩, rfl⟩

theorem obtained_snapshot {fs : Fields} (h : fs.Obtained) : fs.snapshot.Obtained := by
  intro f hf
  obtain ⟨g, hg, hname⟩ := name_mem_of_listed fs.valuesOf_snapshot hf
  refine ⟨hname ▸ (h g hg).1, ?_⟩
  have hvalue : f.value ∈ fs.snapshot.valuesOf f.name := mem_valuesOf_iff.2 hf
  rw [valuesOf_snapshot] at hvalue
  exact Value.obtained_listed (fun v hv => (h _ (mem_valuesOf_iff.1 hv)).2) _ hvalue

/-! ## Stripped lists -/

def stripped (fs : Fields) : Fields := fs.map fun f => ⟨f.name, f.value.stripped⟩

theorem valuesOf_stripped (fs : Fields) (n : Name) :
    fs.stripped.valuesOf n = (fs.valuesOf n).map Value.stripped := by
  induction fs with
  | nil => rfl
  | cons f fs ih =>
    rw [stripped, List.map_cons, valuesOf_cons, valuesOf_cons, List.map_append, ← ih]
    congr 1
    by_cases h : f.name = n <;> simp [h]

theorem Settled.stripped {fs : Fields} (h : fs.Settled) : fs.stripped.Settled := by
  refine ⟨List.pairwise_map.2 h.sorted, fun n hn => ?_⟩
  rw [valuesOf_stripped, List.length_map]
  exact h.single n hn

theorem stripped_eq_self_iff (fs : Fields) : fs.stripped = fs ↔ ∀ f ∈ fs, f.value.stripped = f.value := by
  conv_lhs => rhs; rw [← List.map_id fs]
  rw [stripped, List.map_inj_left]
  refine forall₂_congr fun f _ => ?_
  cases f
  simp

theorem stripped_stripped (fs : Fields) : fs.stripped.stripped = fs.stripped := by
  rw [stripped_eq_self_iff]
  intro f hf
  obtain ⟨g, -, rfl⟩ := List.mem_map.1 hf
  exact g.value.stripped_stripped

/-- A snapshot with its values stripped is its own snapshot, since no name but `set-cookie` is in it twice. -/
theorem snapshot_stripped_snapshot (fs : Fields) : fs.snapshot.stripped.snapshot = fs.snapshot.stripped :=
  (snapshot_eq_self_iff _).2 (settled_snapshot fs).stripped

end Fields

/-! ## Rebuilt stores -/

theorem Fields.mapM_readField_texts {op : Operation} {fs : Fields} (h : fs.Obtained) :
    (fs.map fun f => (f.name.text, f.value.text)).mapM (fun p => op.readField p.1 p.2) =
      .ok fs.stripped := by
  induction fs with
  | nil => rfl
  | cons f fs ih =>
    obtain ⟨⟨hname, hvalue⟩, hfs⟩ := List.forall_mem_cons.1 h
    have hf : op.readField f.name.text f.value.text = .ok ⟨f.name, f.value.stripped⟩ := by
      simp only [Operation.readField, Operation.readName, Operation.readValue,
        Name.ofText_text hname.wellFormed, Value.normalize_text hvalue.wellFormed]
      rfl
    rw [List.map_cons, List.mapM_cons, hf, ih hfs]
    rfl

namespace Store

variable {φ σ : Type} (foreign : World φ (Ordinary φ) σ) (state : σ)

/-- The store that is made from the snapshot of a store, given as an array of pairs of texts. -/
def rebuilt (s : Store) : Except Failure Store :=
  made (Ordinary.world foreign) state
    (.value (.object (.pairs (s.snapshot.map fun f => (f.name.text, f.value.text)))))

theorem rebuilt_eq {s : Store} (h : s.fields.Obtained) :
    s.rebuilt foreign state = .ok (ofFields s.snapshot.stripped) := by
  rw [rebuilt, made_value, Fill.result_pairs]
  exact ofPairs_eq_ok_iff.2 ⟨_, Fields.mapM_readField_texts (Fields.obtained_snapshot h), rfl⟩

/-- No value that a snapshot shows ends in a blank: the last value of a name does not, and it is not empty
unless it is the only one. Of `set-cookie` that is said of each value. -/
def ReadsBack (s : Store) : Prop :=
  (∀ v ∈ s.setCookies, ¬ v.EndsInBlank) ∧
  ∀ n ≠ Name.setCookie, ∀ v ∈ (s.fields.valuesOf n).getLast?,
    ¬ v.EndsInBlank ∧ (v.text = "" → (s.fields.valuesOf n).length = 1)

end Store

theorem Fields.not_endsInBlank_listed_iff {n : Name} (hn : n ≠ Name.setCookie) (vs : List Value) :
    (∀ v ∈ listed n vs, ¬ v.EndsInBlank) ↔
      ∀ v ∈ vs.getLast?, ¬ v.EndsInBlank ∧ (v.text = "" → vs.length = 1) := by
  cases vs with
  | nil => simp
  | cons v more =>
    have hlast : (v :: more).getLast (List.cons_ne_nil v more) ∈ (v :: more).getLast? :=
      List.getLast?_eq_some_getLast _
    have hlength : (v :: more).length = 1 ↔ more = [] := by
      rw [List.length_cons, Nat.add_eq_right, List.length_eq_zero_iff]
    rw [listed_cons hn, List.forall_mem_singleton, Value.endsInBlank_join_iff hlast, not_or,
      not_and_not_right, hlength, Option.mem_def.1 hlast]
    exact ⟨fun h w hw => Option.some.inj hw ▸ h, fun h => h _ rfl⟩

theorem Store.readsBack_iff (s : Store) : s.ReadsBack ↔ ∀ f ∈ s.snapshot, ¬ f.value.EndsInBlank := by
  have hlisted : (∀ f ∈ s.snapshot, ¬ f.value.EndsInBlank) ↔
      ∀ n, ∀ v ∈ Fields.listed n (s.fields.valuesOf n), ¬ v.EndsInBlank := by
    simp only [← Fields.valuesOf_snapshot, Fields.mem_valuesOf_iff]
    exact ⟨fun h n v hv => h ⟨n, v⟩ hv, fun h f hf => h f.name f.value hf⟩
  rw [hlisted]
  constructor
  · intro h n
    by_cases hn : n = Name.setCookie
    · rw [hn, Fields.listed_setCookie]
      exact h.1
    · exact (Fields.not_endsInBlank_listed_iff hn _).2 (h.2 n hn)
  · intro h
    refine ⟨?_, fun n hn => (Fields.not_endsInBlank_listed_iff hn _).1 (h n)⟩
    have hcookies := h Name.setCookie
    rwa [Fields.listed_setCookie] at hcookies

theorem Store.readsBack_of_values {s : Store}
    (h : ∀ f ∈ s.fields, ¬ f.value.EndsInBlank ∧ f.value.text ≠ "") : s.ReadsBack := by
  constructor
  · intro v hv
    exact (h _ (Fields.mem_valuesOf_iff.1 hv)).1
  · intro n _ v hv
    have hf := h _ (Fields.mem_valuesOf_iff.1 (List.mem_of_getLast? hv))
    exact ⟨hf.1, fun hempty => absurd hempty hf.2⟩

/-- The snapshot of a store can always be read back. The new store shows the same names and the same values
without their padding, those of `set-cookie` apart and in order. It shows the same snapshot just when no value
there ends in a blank. -/
theorem Store.rebuilt_snapshot {φ σ : Type} (foreign : World φ (Ordinary φ) σ) (state : σ) {s : Store}
    (h : Reachable s) :
    ∃ t, s.rebuilt foreign state = .ok t ∧
      t.snapshot = s.snapshot.map (fun f => ⟨f.name, f.value.stripped⟩) ∧
      t.setCookies = s.setCookies.map Value.stripped ∧
      (t.snapshot = s.snapshot ↔ s.ReadsBack) := by
  have hsnapshot : (ofFields s.snapshot.stripped).snapshot = s.snapshot.stripped :=
    s.fields.snapshot_stripped_snapshot
  refine ⟨_, rebuilt_eq foreign state h.obtained, hsnapshot, ?_, ?_⟩
  · have hcookies := s.snapshot.valuesOf_stripped Name.setCookie
    rwa [snapshot, Fields.valuesOf_snapshot, Fields.listed_setCookie] at hcookies
  · rw [hsnapshot, Fields.stripped_eq_self_iff, readsBack_iff]
    exact forall₂_congr fun f hf =>
      Value.stripped_eq_self_iff_of_obtained (Fields.obtained_snapshot h.obtained f hf).2

/-- Two cookies and two kinds of content read back. -/
theorem Store.rebuilt_snapshot_cookies_accept :
    ∃ s t : Store, Reachable s ∧
      s.fields =
        [⟨.setCookie, ⟨"a=1"⟩⟩, ⟨.accept, ⟨"text/html"⟩⟩, ⟨.setCookie, ⟨"b=2"⟩⟩, ⟨.accept, ⟨"*/*"⟩⟩] ∧
      s.rebuilt (φ := Unit) World.vacant () = .ok t ∧
      t.snapshot = s.snapshot ∧ t.setCookies = [⟨"a=1"⟩, ⟨"b=2"⟩] := by
  let s : Store := .ofFields
    [⟨.setCookie, ⟨"a=1"⟩⟩, ⟨.accept, ⟨"text/html"⟩⟩, ⟨.setCookie, ⟨"b=2"⟩⟩, ⟨.accept, ⟨"*/*"⟩⟩]
  have hreach : Reachable s :=
    ⟨Unit, Unit, World.vacant,
      .ofPairs [("Set-Cookie", "a=1"), ("accept", "text/html"), ("set-cookie", "b=2"), ("accept", "*/*")],
      trivial, rfl⟩
  obtain ⟨t, ht, -, hcookies, hiff⟩ := Store.rebuilt_snapshot (φ := Unit) World.vacant () hreach
  exact ⟨s, t, hreach, rfl, ht, hiff.2 (readsBack_of_values (by decide)), hcookies.trans rfl⟩

/-- Two empty values of a name are shown as a comma and a space, and the space is not read back. -/
theorem Store.rebuilt_snapshot_ne_of_empty_values :
    ∃ s t : Store, Reachable s ∧ s.fields = [⟨.ofLower "a", ⟨""⟩⟩, ⟨.ofLower "a", ⟨""⟩⟩] ∧
      s.rebuilt (φ := Unit) World.vacant () = .ok t ∧
      s.snapshot = [⟨.ofLower "a", ⟨", "⟩⟩] ∧ t.snapshot = [⟨.ofLower "a", ⟨","⟩⟩] := by
  let s : Store := .ofFields [⟨.ofLower "a", ⟨""⟩⟩, ⟨.ofLower "a", ⟨""⟩⟩]
  have hreach : Reachable s := ⟨Unit, Unit, World.vacant, .ofPairs [("a", ""), ("a", "")], trivial, rfl⟩
  have hsnapshot : s.snapshot = [⟨.ofLower "a", ⟨", "⟩⟩] := by
    rw [snapshot, Fields.snapshot_of_sorted (by decide)]
    rfl
  refine ⟨s, _, hreach, rfl, rebuilt_eq World.vacant () hreach.obtained, hsnapshot, ?_⟩
  have hread : (ofFields s.snapshot.stripped).snapshot = s.snapshot.stripped :=
    s.fields.snapshot_stripped_snapshot
  rw [hread, hsnapshot]
  rfl

/-! ## Stores rebuilt twice -/

namespace Store

variable {φ σ : Type} (foreign : World φ (Ordinary φ) σ) (state : σ)

theorem reachable_of_rebuilt {s t : Store} (h : s.rebuilt foreign state = .ok t) : Reachable t :=
  ⟨Ordinary φ, σ, Ordinary.world foreign, .ofValue state _, trivial, h⟩

/-- The snapshot of a store can always be read back, and what is stored then are its fields in their order, each
value without the blanks in front and behind. That store is its own snapshot, and rebuilt once more it stays as it
is. -/
theorem rebuilt_settles {s : Store} (h : Reachable s) :
    ∃ t, s.rebuilt foreign state = .ok t ∧
      List.Forall₂ (fun f g => g.name = f.name ∧ Text.IsInside g.value.text.toList f.value.text.toList)
        s.snapshot t.fields ∧
      t.snapshot = t.fields ∧ ∀ next, t.rebuilt foreign next = .ok t := by
  have hmade : s.rebuilt foreign state = .ok (ofFields s.snapshot.stripped) := rebuilt_eq foreign state h.obtained
  have hsettled : (ofFields s.snapshot.stripped).snapshot = s.snapshot.stripped :=
    s.fields.snapshot_stripped_snapshot
  refine ⟨_, hmade, ?_, hsettled, fun next => ?_⟩
  · exact List.forall₂_map_right_iff.2 (List.forall₂_same.2 fun f _ => ⟨rfl, f.value.isInside_stripped⟩)
  · -- There is no padding left to strip, and nothing left to sort or to fold.
    rw [rebuilt_eq foreign next (reachable_of_rebuilt foreign state hmade).obtained, hsettled,
      Fields.stripped_stripped]

/-- The space behind a last comma goes when the store is rebuilt, and the comma stays from then on. -/
theorem rebuilt_settles_comma :
    ∃ s t : Store, Reachable s ∧ s.fields = [⟨.accept, ⟨"a"⟩⟩, ⟨.accept, ⟨""⟩⟩] ∧
      s.snapshot = [⟨.accept, ⟨"a, "⟩⟩] ∧ s.rebuilt (φ := Unit) World.vacant () = .ok t ∧
      t.fields = [⟨.accept, ⟨"a,"⟩⟩] ∧ t.rebuilt (φ := Unit) World.vacant () = .ok t := by
  let s : Store := .ofFields [⟨.accept, ⟨"a"⟩⟩, ⟨.accept, ⟨""⟩⟩]
  have hreach : Reachable s :=
    ⟨Unit, Unit, World.vacant, .ofPairs [("accept", "a"), ("accept", "")], trivial, rfl⟩
  have hsnapshot : s.snapshot = [⟨.accept, ⟨"a, "⟩⟩] := by
    rw [snapshot, Fields.snapshot_of_sorted (by decide)]
    rfl
  obtain ⟨t, ht, hpairs, -, hagain⟩ := Store.rebuilt_settles (φ := Unit) World.vacant () hreach
  refine ⟨s, t, hreach, rfl, hsnapshot, ht, ?_, hagain ()⟩
  rw [hsnapshot] at hpairs
  obtain ⟨⟨n, ⟨text⟩⟩, rest, ⟨rfl, hinside⟩, hrest, hfields⟩ := List.forall₂_cons_left_iff.1 hpairs
  obtain rfl := List.forall₂_nil_left_iff.1 hrest
  have htext : text.toList = ['a', ','] := hinside.eq_strip.trans (by decide)
  rw [hfields, ← String.ofList_toList (s := text), htext]

end Store

end HttpFields
