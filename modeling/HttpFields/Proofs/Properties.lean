import Mathlib.Data.List.GetD
import Mathlib.Data.List.Nodup
import HttpFields.Proofs.Definitions

/-!
# The properties of objects in memory

An array lists the numerals of its indices and, as its one hidden property, its length. A look-up reads the key as a
number, so it also finds an item under the numeral behind zeros or behind a plus sign, which no listed key has. A
record lists the keys that were defined, and under each key it has the last definition.

* `World.Presents` : the answers of an object to the calls for its properties
* `Key.Pads` : the key is the numeral of an index with more in front of it; `Key.index?_eq_some_iff` : the keys that
  are read as an index
* `Items.visibility?_ne_none_iff`, `Items.read_of_index?` : what is found in an array, and what is read
* `Ordinary.array_properties` : what an array answers for each key
* `Record.lastOf_eq_some_iff`, `Record.pairwise_definedKeys` : the last definition of a key, and the order of the
  first ones; `Record.lastOf_filter` : definitions of other keys do not matter
* `Ordinary.record_properties` : what a record answers for each key
-/

namespace HttpFields.Script

set_option autoImplicit false

/-- The answers of an object to the calls for its properties. None of these calls throws or changes the world. -/
structure World.Presents {ω ν σ : Type} (world : World ω ν σ) (o : ω) (keys : List Key)
    (visibility? : Key → Option Visibility) (value : Key → Value ν) : Prop where
  ownKeys : world (.ownKeys o) = (pure keys : ScriptM σ (List Key))
  ownProperty (key : Key) : world (.ownProperty o key) = (pure (visibility? key) : ScriptM σ (Option Visibility))
  read (key : Key) : world (.read o key) = (pure (value key) : ScriptM σ (Value ν))

/-! ## Rows of digits -/

theorem digitChar_of_isDigit {c : Char} (hc : c.isDigit = true) :
    c.toNat - '0'.toNat < 10 ∧ Nat.digitChar (c.toNat - '0'.toNat) = c := by
  obtain ⟨hlow, hhigh⟩ := Char.isDigit_iff_toNat.1 hc
  have hzero : '0'.toNat = 48 := rfl
  have hnine : '9'.toNat = 57 := rfl
  have hdigit : c.toNat - '0'.toNat < 10 := by omega
  refine ⟨hdigit, ?_⟩
  apply Char.toNat_inj.1
  rw [Nat.toNat_digitChar_of_lt_ten hdigit]
  omega

theorem toDigits_append_digits {n : Nat} {cs : List Char} (hn : 0 < n) (hcs : ∀ c ∈ cs, c.isDigit = true) :
    Nat.toDigits 10 n ++ cs = Nat.toDigits 10 (Nat.ofDigitChars 10 cs n) := by
  induction cs generalizing n with
  | nil => rw [List.append_nil, Nat.ofDigitChars_nil]
  | cons c cs ih =>
    obtain ⟨hc, hcs⟩ := List.forall_mem_cons.1 hcs
    obtain ⟨hdigit, hchar⟩ := digitChar_of_isDigit hc
    calc
      Nat.toDigits 10 n ++ c :: cs = Nat.toDigits 10 n ++ Nat.toDigits 10 (c.toNat - '0'.toNat) ++ cs := by
        rw [Nat.toDigits_of_lt_base hdigit, hchar, List.append_assoc, List.singleton_append]
      _ = Nat.toDigits 10 (10 * n + (c.toNat - '0'.toNat)) ++ cs := by
        rw [Nat.toDigits_append_toDigits (by decide) hn hdigit]
      _ = Nat.toDigits 10 (Nat.ofDigitChars 10 (c :: cs) n) := by
        rw [ih (by omega) hcs, Nat.ofDigitChars_cons]

def row (zeros n : Nat) : List Char := List.replicate zeros '0' ++ Nat.toDigits 10 n

/-- Digits are the numeral of the number that they stand for, perhaps behind zeros. -/
theorem isDigit_row_iff {cs : List Char} {i : Nat} :
    (cs ≠ [] ∧ (∀ c ∈ cs, c.isDigit = true) ∧ Nat.ofDigitChars 10 cs 0 = i) ↔ ∃ zeros, cs = row zeros i := by
  constructor
  · rintro ⟨hne, hcs, rfl⟩
    induction cs with
    | nil => contradiction
    | cons c cs ih =>
      obtain ⟨hc, htail⟩ := List.forall_mem_cons.1 hcs
      obtain ⟨hdigit, hchar⟩ := digitChar_of_isDigit hc
      by_cases hzero : c = '0'
      · subst hzero
        cases cs with
        | nil => exact ⟨0, rfl⟩
        | cons d cs =>
          obtain ⟨zeros, hzeros⟩ := ih (List.cons_ne_nil d cs) htail
          exact ⟨zeros + 1, congrArg ('0' :: ·) hzeros⟩
      · -- From a digit other than zero on, nothing is lost.
        have hpos : 0 < c.toNat - '0'.toNat := by
          apply Nat.pos_of_ne_zero
          intro h
          rw [h] at hchar
          exact hzero hchar.symm
        have hnumeral : c :: cs = Nat.toDigits 10 (Nat.ofDigitChars 10 (c :: cs) 0) := by
          rw [Nat.ofDigitChars_cons, Nat.mul_zero, Nat.zero_add, ← toDigits_append_digits hpos htail,
            Nat.toDigits_of_lt_base hdigit, hchar]
          rfl
        exact ⟨0, hnumeral⟩
  · rintro ⟨zeros, rfl⟩
    unfold row
    refine ⟨by simp [Nat.toDigits_ne_nil], fun c hc => ?_, ?_⟩
    · rcases List.mem_append.1 hc with hc | hc
      · rw [List.eq_of_mem_replicate hc]
        rfl
      · exact Nat.isDigit_of_mem_toDigits (by decide) (by decide) hc
    · rw [Nat.ofDigitChars_append, Nat.ofDigitChars_replicate_zero, Nat.mul_zero, Nat.ofDigitChars_ten_toDigits]

/-! ## Keys that are read as an index -/

namespace Key

/-- The key is the numeral of an index behind zeros, or behind a plus sign and perhaps zeros. -/
inductive Pads (i : Nat) : Key → Prop where
  | zeros (n : Nat) : Pads i (.string (String.ofList (row (n + 1) i)))
  | plus (n : Nat) : Pads i (.string (String.ofList ('+' :: row n i)))

theorem index?_string_eq_some_iff {text : String} {i : Nat} :
    index? (.string text) = some i ↔ ∃ zeros, text.toList = row zeros i ∨ text.toList = '+' :: row zeros i := by
  have hread : ∀ cs : List Char, (if cs.isEmpty || !cs.all Char.isDigit then none
      else some (cs.foldl (fun n c => 10 * n + (c.toNat - '0'.toNat)) 0)) = some i ↔ ∃ zeros, cs = row zeros i := by
    intro cs
    rw [← Nat.ofDigitChars_eq_foldl]
    refine Iff.trans ?_ isDigit_row_iff
    simp [and_assoc]
  have hplus : ∀ cs zeros, '+' :: cs ≠ row zeros i := by
    intro cs zeros h
    have hdigits := (isDigit_row_iff.2 ⟨zeros, h⟩).2.1 '+' List.mem_cons_self
    contradiction
  unfold index?
  dsimp only
  split
  · next cs htext =>
    rw [htext, hread]
    simp [hplus]
  · next cs hnot =>
    rw [hread]
    exact exists_congr fun zeros => (or_iff_left (hnot (row zeros i))).symm

theorem index?_eq_some_iff {key : Key} {i : Nat} : key.index? = some i ↔ key = .ofIndex i ∨ Pads i key := by
  cases key with
  | symbol description =>
    constructor
    · intro h
      cases h
    · rintro (h | h) <;> cases h
  | string text =>
    rw [index?_string_eq_some_iff]
    constructor
    · rintro ⟨zeros, htext | htext⟩
      · rw [← String.ofList_toList (s := text), htext]
        cases zeros with
        | zero => exact .inl rfl
        | succ n => exact .inr (.zeros n)
      · rw [← String.ofList_toList (s := text), htext]
        exact .inr (.plus zeros)
    · rintro (h | h)
      · cases h
        exact ⟨0, .inl String.toList_ofList⟩
      · cases h with
        | zeros n => exact ⟨n + 1, .inl String.toList_ofList⟩
        | plus n => exact ⟨n, .inr String.toList_ofList⟩

theorem index?_ofIndex (i : Nat) : (ofIndex i).index? = some i := index?_eq_some_iff.2 (.inl rfl)

theorem ofIndex_injective : Function.Injective ofIndex := by
  intro i j h
  have hindex := congrArg index? h
  rw [index?_ofIndex, index?_ofIndex] at hindex
  exact Option.some.inj hindex

theorem ne_length_of_index? {key : Key} {i : Nat} (h : key.index? = some i) : key ≠ length := by
  rintro rfl
  cases h

theorem ofIndex_ne_length (i : Nat) : ofIndex i ≠ length := ne_length_of_index? (index?_ofIndex i)

theorem Pads.index? {key : Key} {i : Nat} (h : Pads i key) : key.index? = some i := index?_eq_some_iff.2 (.inr h)

theorem Pads.ne_ofIndex {key : Key} {i : Nat} (h : Pads i key) (j : Nat) : key ≠ ofIndex j := by
  rintro rfl
  have hij : some j = some i := (index?_ofIndex j).symm.trans h.index?
  obtain rfl := Option.some.inj hij
  -- What stands in front of the numeral makes the text longer.
  generalize hkey : ofIndex j = key at h
  cases h with
  | zeros n =>
    have htext : Nat.toDigits 10 j = row (n + 1) j := String.ofList_injective (Key.string.inj hkey)
    have hlength := congrArg List.length htext
    rw [row, List.length_append, List.length_replicate] at hlength
    omega
  | plus n =>
    have htext : Nat.toDigits 10 j = '+' :: row n j := String.ofList_injective (Key.string.inj hkey)
    have hlength := congrArg List.length htext
    rw [row, List.length_cons, List.length_append] at hlength
    omega

end Key

/-! ## Listing and look-up -/

namespace Items

variable {α φ : Type} {key : Key} {i : Nat}

theorem mem_keys_iff {items : Items α} :
    key ∈ keys items ↔ key = .length ∨ ∃ i < List.length items, key = .ofIndex i := by
  simp only [keys, List.mem_append, List.mem_map, List.mem_range, List.mem_singleton, eq_comm (b := key)]
  exact Or.comm

theorem nodup_keys (items : Items α) : (keys items).Nodup := by
  rw [keys, ← List.concat_eq_append]
  refine (List.nodup_range.map Key.ofIndex_injective).concat ?_
  intro h
  obtain ⟨i, -, hi⟩ := List.mem_map.1 h
  exact Key.ofIndex_ne_length i hi

theorem getElem?_keys {items : Items α} (hi : i < List.length items) : (keys items)[i]? = some (.ofIndex i) := by
  rw [keys, List.getElem?_append_left (by simpa using hi), List.getElem?_map, List.getElem?_range hi]
  rfl

theorem visibility?_length (items : Items α) : visibility? items .length = some .hidden := if_pos rfl

theorem visibility?_of_index? {items : Items α} (hi : i < List.length items) (hkey : key.index? = some i) :
    visibility? items key = some .enumerable := by
  unfold visibility?
  rw [if_neg (Key.ne_length_of_index? hkey), hkey]
  exact if_pos hi

theorem read_of_index? {items : Items (Value φ)} (hi : i < List.length items) (hkey : key.index? = some i) :
    read items key = items[i] := by
  unfold read
  rw [if_neg (Key.ne_length_of_index? hkey), hkey]
  exact List.getD_eq_getElem items Value.undefined hi

section Absent

variable (hlength : key ≠ .length)

include hlength

theorem visibility?_of_no_index {items : Items α} (h : ∀ i < List.length items, key.index? ≠ some i) :
    visibility? items key = none := by
  unfold visibility?
  rw [if_neg hlength]
  cases hkey : key.index? with
  | none => rfl
  | some i => exact if_neg fun hi => h i hi hkey

theorem read_of_no_index {items : Items (Value φ)} (h : ∀ i < List.length items, key.index? ≠ some i) :
    read items key = .undefined := by
  unfold read
  rw [if_neg hlength]
  cases hkey : key.index? with
  | none => rfl
  | some i =>
    have hi : List.length items ≤ i := Nat.le_of_not_lt fun hi => h i hi hkey
    exact List.getD_eq_default items Value.undefined hi

end Absent

theorem index?_ne_of_not_listed {items : Items α} (hkey : key ∉ keys items)
    (hpads : ∀ i < List.length items, ¬ Key.Pads i key) : ∀ i < List.length items, key.index? ≠ some i := by
  intro i hi hindex
  rcases Key.index?_eq_some_iff.1 hindex with rfl | h
  · exact hkey (mem_keys_iff.2 (.inr ⟨i, hi, rfl⟩))
  · exact hpads i hi h

theorem visibility?_ne_none_iff {items : Items α} :
    visibility? items key ≠ none ↔ key ∈ keys items ∨ ∃ i < List.length items, Key.Pads i key := by
  constructor
  · intro hfound
    by_contra hnot
    rw [not_or] at hnot
    obtain ⟨hkey, hpads⟩ := hnot
    have hlength : key ≠ .length := fun h => hkey (mem_keys_iff.2 (.inl h))
    have hindex := index?_ne_of_not_listed hkey fun i hi h => hpads ⟨i, hi, h⟩
    exact hfound (visibility?_of_no_index hlength hindex)
  · rintro (hkey | ⟨i, hi, h⟩)
    · rcases mem_keys_iff.1 hkey with rfl | ⟨i, hi, rfl⟩
      · rw [visibility?_length]
        exact Option.some_ne_none _
      · rw [visibility?_of_index? hi (Key.index?_ofIndex i)]
        exact Option.some_ne_none _
    · rw [visibility?_of_index? hi h.index?]
      exact Option.some_ne_none _

/-- Of the listed keys that of the length is the hidden one. -/
theorem visibility?_of_mem_keys {items : Items α} (hkey : key ∈ keys items) :
    visibility? items key = some (if key = .length then .hidden else .enumerable) := by
  rcases mem_keys_iff.1 hkey with rfl | ⟨i, hi, rfl⟩
  · exact visibility?_length items
  · rw [visibility?_of_index? hi (Key.index?_ofIndex i), if_neg (Key.ofIndex_ne_length i)]

theorem not_mem_keys_of_pads {items : Items α} (h : Key.Pads i key) : key ∉ keys items := by
  intro hkey
  rcases mem_keys_iff.1 hkey with hlength | ⟨j, -, hj⟩
  · exact Key.ne_length_of_index? h.index? hlength
  · exact h.ne_ofIndex j hj

end Items

/-! ## The answers of arrays -/

namespace Ordinary

variable {φ σ : Type} (foreign : World φ (Ordinary φ) σ) (items : List (Value (Ordinary φ)))

theorem presents_array : World.Presents (world foreign) (.array items) (Items.keys items) (Items.visibility? items)
    (Items.read items) where
  ownKeys := rfl
  ownProperty _ := rfl
  read _ := rfl

/-- An array lists no key twice, its items come first and in their order, and its length, the only hidden property,
is last. What is listed is found, and an item is read under its key. Nothing else is found, and `undefined` is read,
with one exception: the numeral of an item behind zeros or a plus sign is not listed, but the item is found and read
under it. -/
theorem array_properties :
    World.Presents (world foreign) (.array items) (Items.keys items) (Items.visibility? items) (Items.read items) ∧
    world foreign (.iterate (.array items)) = (pure items : ScriptM σ (List (Value (Ordinary φ)))) ∧
    (∀ key, Items.visibility? items key ≠ none ↔ key ∈ Items.keys items ∨ ∃ i < items.length, Key.Pads i key) ∧
    (Items.keys items).Nodup ∧
    (∀ key ∉ Items.keys items, (∀ i < items.length, ¬ Key.Pads i key) → Items.read items key = .undefined) ∧
    (∀ i (hi : i < items.length), (Items.keys items)[i]? = some (.ofIndex i) ∧
      Items.read items (.ofIndex i) = items[i] ∧
      ∀ key, Key.Pads i key → key ∉ Items.keys items ∧ Items.visibility? items key = some .enumerable ∧
        Items.read items key = items[i]) ∧
    Key.length ∈ Items.keys items ∧
    ∀ key ∈ Items.keys items,
      Items.visibility? items key = some (if key = .length then .hidden else .enumerable) := by
  refine ⟨presents_array foreign items, rfl, fun key => Items.visibility?_ne_none_iff, Items.nodup_keys items, ?_, ?_,
    Items.mem_keys_iff.2 (.inl rfl), fun key => Items.visibility?_of_mem_keys⟩
  · intro key hkey hpads
    have hlength : key ≠ .length := fun h => hkey (Items.mem_keys_iff.2 (.inl h))
    exact Items.read_of_no_index hlength (Items.index?_ne_of_not_listed hkey hpads)
  · intro i hi
    refine ⟨Items.getElem?_keys hi, Items.read_of_index? hi (Key.index?_ofIndex i), fun key h => ?_⟩
    exact ⟨Items.not_mem_keys_of_pads h, Items.visibility?_of_index? hi h.index?, Items.read_of_index? hi h.index?⟩

/-- The second of two items is read under `+01`, too, which is no key of the array. Under a symbol nothing is found. -/
theorem array_properties_padded :
    ∃ (items : List (Value (Ordinary Unit))) (padded symbol : Key),
      items = [.string "a", .string "b"] ∧ padded = .string "+01" ∧ symbol = .symbol "1" ∧
      Items.keys items = [.string "0", .string "1", .string "length"] ∧
      Items.read items (.string "1") = .string "b" ∧ padded ∉ Items.keys items ∧
      Items.visibility? items padded ≠ none ∧ Items.read items padded = .string "b" ∧
      Items.read items symbol = .undefined ∧ Items.visibility? items (.string "length") = some .hidden := by
  let items : List (Value (Ordinary Unit)) := [.string "a", .string "b"]
  have hkeys : Items.keys items = [.string "0", .string "1", .string "length"] := by decide
  have hpads : Key.Pads 1 (.string "+01") := .plus 1
  have hsymbol : Key.symbol "1" ∉ Items.keys items := by decide
  obtain ⟨-, -, hfound, -, habsent, hitem, hlength, hlisted⟩ := array_properties (σ := Unit) World.vacant items
  obtain ⟨-, hread, hpadded⟩ := hitem 1 (by decide)
  obtain ⟨hnot, -, hvalue⟩ := hpadded _ hpads
  have hundefined : Items.read items (.symbol "1") = .undefined := habsent _ hsymbol fun i _ h => nomatch h
  exact ⟨items, _, _, rfl, rfl, rfl, hkeys, hread, hnot, (hfound _).2 (.inr ⟨1, by decide, hpads⟩), hvalue, hundefined,
    hlisted _ hlength⟩

/-- An item is found and read under a key that the array does not list. -/
theorem array_finds_unlisted :
    ∃ (items : List (Value (Ordinary Unit))) (key : Key), items = [.string "x"] ∧ key = .string "+0" ∧
      Items.keys items = [.string "0", .string "length"] ∧ Items.visibility? items key = some .enumerable ∧
      Items.read items key = .string "x" := by
  refine ⟨[.string "x"], .string "+0", rfl, rfl, ?_, ?_, ?_⟩
  · decide
  · decide
  · rfl

end Ordinary

/-! ## Definitions of several keys -/

namespace Record

variable {α : Type}

theorem mem_definedKeys_iff {ds : List (Property α)} {key : Key} :
    key ∈ definedKeys ds ↔ ∃ d ∈ ds, d.key = key := by
  rw [definedKeys, List.mem_eraseDups, List.mem_map]

theorem pairwise_definedKeys (ds : List (Property α)) :
    (definedKeys ds).Pairwise fun a b => (ds.map (·.key)).idxOf a < (ds.map (·.key)).idxOf b := by
  induction ds using List.reverseRec with
  | nil => exact List.Pairwise.nil
  | append_singleton ds p ih =>
    have hmem : ∀ key ∈ definedKeys ds, key ∈ ds.map (·.key) := fun key hkey =>
      List.mem_map.2 (mem_definedKeys_iff.1 hkey)
    -- A further definition does not move the first ones.
    have hfirst : ∀ key ∈ definedKeys ds, ((ds ++ [p]).map (·.key)).idxOf key = (ds.map (·.key)).idxOf key := by
      intro key hkey
      rw [List.map_append, List.idxOf_append_of_mem (hmem key hkey)]
    have hfront : (definedKeys ds).Pairwise fun a b =>
        ((ds ++ [p]).map (·.key)).idxOf a < ((ds ++ [p]).map (·.key)).idxOf b := by
      refine ih.imp_of_mem ?_
      intro a b ha hb hab
      rwa [hfirst a ha, hfirst b hb]
    rw [definedKeys_concat]
    split
    · exact hfront
    · next hp =>
      refine List.pairwise_append.2 ⟨hfront, List.pairwise_singleton _ _, ?_⟩
      intro a ha b hb
      obtain rfl := List.mem_singleton.1 hb
      have hnew : p.key ∉ ds.map (·.key) := fun h => hp (mem_definedKeys_iff.2 (List.mem_map.1 h))
      have hlast : ((ds ++ [p]).map (·.key)).idxOf p.key = (ds.map (·.key)).length := by
        rw [List.map_append, List.idxOf_append_of_notMem hnew]
        simp
      rw [hfirst a ha, hlast]
      exact List.idxOf_lt_length_iff.2 (hmem a ha)

theorem lastOf_eq_some_iff {ds : List (Property α)} {key : Key} {d : Property α} :
    lastOf ds key = some d ↔
      ∃ before behind, ds = before ++ d :: behind ∧ d.key = key ∧ ∀ e ∈ behind, e.key ≠ key := by
  rw [lastOf, List.getLast?_eq_some_iff]
  constructor
  · rintro ⟨front, h⟩
    obtain ⟨first, rest, rfl, -, hrest⟩ := List.filter_eq_append_iff.1 h
    obtain ⟨middle, behind, rfl, -, hd, hbehind⟩ := List.filter_eq_cons_iff.1 hrest
    refine ⟨first ++ middle, behind, (List.append_assoc _ _ _).symm, by simpa using hd, fun e he => ?_⟩
    simpa using List.filter_eq_nil_iff.1 hbehind e he
  · rintro ⟨before, behind, rfl, rfl, hbehind⟩
    have hnone : behind.filter (·.key = d.key) = [] :=
      List.filter_eq_nil_iff.2 fun e he => by simpa using hbehind e he
    exact ⟨before.filter (·.key = d.key), by simp [hnone]⟩

theorem lastOf_eq_none_iff {ds : List (Property α)} {key : Key} : lastOf ds key = none ↔ key ∉ definedKeys ds := by
  rw [lastOf, List.getLast?_eq_none_iff, List.filter_eq_nil_iff, mem_definedKeys_iff]
  simp

section Filter

variable (ds : List (Property α)) (p : Key → Bool)

theorem lastOf_filter {key : Key} (hp : p key = true) : lastOf (ds.filter (p ·.key)) key = lastOf ds key := by
  rw [lastOf, List.filter_filter, lastOf]
  congr 1
  refine List.filter_congr fun d _ => ?_
  by_cases h : d.key = key
  · simp [h, hp]
  · simp [h]

theorem definedKeys_filter : definedKeys (ds.filter (p ·.key)) = (definedKeys ds).filter p := by
  induction ds using List.reverseRec with
  | nil => rfl
  | append_singleton ds d ih =>
    rw [List.filter_append, definedKeys_concat]
    by_cases hd : p d.key = true
    · have hone : [d].filter (p ·.key) = [d] := by simp [hd]
      have hkey : [d.key].filter p = [d.key] := by simp [hd]
      rw [hone, definedKeys_concat, ih]
      simp only [List.mem_filter, hd, and_true]
      split
      · rfl
      · rw [List.filter_append, hkey]
    · have hone : [d].filter (p ·.key) = [] := by simp [hd]
      have hkey : [d.key].filter p = [] := by simp [hd]
      rw [hone, List.append_nil, ih]
      split
      · rfl
      · rw [List.filter_append, hkey, List.append_nil]

end Filter

/-! ## The answers of records -/

def keys (r : Record α) : List Key := r.map (·.key)

def visibility? (r : Record α) (key : Key) : Option Visibility := (r.find? key).map (·.visibility)

def read {ω : Type} (r : Record (Value ω)) (key : Key) : Value ω := ((r.find? key).map (·.value)).getD .undefined

theorem visibility?_ofList (ds : List (Property α)) (key : Key) :
    visibility? (ofList ds) key = (lastOf ds key).map (·.visibility) := by
  rw [visibility?, find?_ofList]

theorem read_ofList {ω : Type} (ds : List (Property (Value ω))) (key : Key) :
    read (ofList ds) key = ((lastOf ds key).map (·.value)).getD .undefined := by
  rw [read, find?_ofList]

end Record

namespace Ordinary

variable {φ σ : Type} (foreign : World φ (Ordinary φ) σ)

theorem presents_record (r : Record (Value (Ordinary φ))) :
    World.Presents (world foreign) (.record r) r.keys r.visibility? r.read where
  ownKeys := rfl
  ownProperty _ := rfl
  read _ := rfl

/-- A record lists no key twice, and the keys in the order in which they were first defined. What is listed is found,
with the visibility and the value of its last definition. Nothing else is found, and `undefined` is read. For some of
the keys, the definitions of the others do not matter: without them the record lists those keys in the same order and
answers the same for each of them. So a string and a symbol, which are two keys whatever their texts, have nothing to
do with each other. -/
theorem record_properties (ds : List (Property (Value (Ordinary φ)))) :
    World.Presents (world foreign) (.record (Record.ofList ds)) (Record.ofList ds).keys
      (Record.ofList ds).visibility? (Record.ofList ds).read ∧
    (Record.ofList ds).keys.Nodup ∧
    (∀ key, key ∈ (Record.ofList ds).keys ↔ ∃ d ∈ ds, d.key = key) ∧
    (Record.ofList ds).keys.Pairwise (fun a b => (ds.map (·.key)).idxOf a < (ds.map (·.key)).idxOf b) ∧
    (∀ key, (Record.ofList ds).visibility? key ≠ none ↔ key ∈ (Record.ofList ds).keys) ∧
    (∀ key ∈ (Record.ofList ds).keys, ∃ before d behind, ds = before ++ d :: behind ∧ d.key = key ∧
      (∀ e ∈ behind, e.key ≠ key) ∧ (Record.ofList ds).visibility? key = some d.visibility ∧
      (Record.ofList ds).read key = d.value) ∧
    (∀ key ∉ (Record.ofList ds).keys, (Record.ofList ds).read key = .undefined) ∧
    (∀ p : Key → Bool, (Record.ofList (ds.filter (p ·.key))).keys = (Record.ofList ds).keys.filter p ∧
      ∀ key, p key = true →
        (Record.ofList (ds.filter (p ·.key))).visibility? key = (Record.ofList ds).visibility? key ∧
        (Record.ofList (ds.filter (p ·.key))).read key = (Record.ofList ds).read key) ∧
    ∀ name description, Key.string name ≠ .symbol description := by
  have hkeys : ∀ ds : List (Property (Value (Ordinary φ))), (Record.ofList ds).keys = Record.definedKeys ds :=
    Record.keys_ofList
  simp only [hkeys, Record.visibility?_ofList, Record.read_ofList]
  refine ⟨?_, Record.nodup_definedKeys ds, fun key => Record.mem_definedKeys_iff, Record.pairwise_definedKeys ds,
    fun key => ?_, fun key hkey => ?_, fun key hkey => ?_, fun p => ⟨Record.definedKeys_filter ds p, fun key hp => ?_⟩,
    fun name description h => nomatch h⟩
  · rw [← hkeys]
    exact presents_record foreign _
  · rw [ne_eq, Option.map_eq_none_iff, Record.lastOf_eq_none_iff, not_not]
  · obtain ⟨d, hd⟩ := Option.ne_none_iff_exists'.1 (mt Record.lastOf_eq_none_iff.1 (not_not.2 hkey))
    obtain ⟨before, behind, hds, hdkey, hbehind⟩ := Record.lastOf_eq_some_iff.1 hd
    refine ⟨before, d, behind, hds, hdkey, hbehind, ?_, ?_⟩
    · rw [hd, Option.map_some]
    · rw [hd, Option.map_some, Option.getD_some]
  · rw [Record.lastOf_eq_none_iff.2 hkey]
    rfl
  · rw [Record.lastOf_filter ds p hp]
    exact ⟨rfl, rfl⟩

/-- The string and the symbol have the same text. The string is hidden in the end and keeps its place in front of the
symbol, and without the symbol nothing changes for it. -/
theorem record_properties_redefined :
    ∃ (ds : List (Property (Value (Ordinary Unit)))) (name symbol : Key),
      name = .string "Symbol(a)" ∧ symbol = .symbol "a" ∧ name.text = symbol.text ∧
      ds = [⟨name, .enumerable, .string "1"⟩, ⟨symbol, .enumerable, .string "2"⟩, ⟨name, .hidden, .string "3"⟩] ∧
      (Record.ofList ds).keys = [name, symbol] ∧ (Record.ofList ds).visibility? name ≠ none ∧
      (∃ before d behind, ds = before ++ d :: behind ∧ d.key = name ∧ (∀ e ∈ behind, e.key ≠ name) ∧
        (Record.ofList ds).visibility? name = some d.visibility ∧ (Record.ofList ds).read name = d.value) ∧
      (Record.ofList ds).read (.string "a") = .undefined ∧
      (Record.ofList (ds.filter (·.key ≠ symbol))).visibility? name = (Record.ofList ds).visibility? name := by
  let name : Key := .string "Symbol(a)"
  let symbol : Key := .symbol "a"
  let ds : List (Property (Value (Ordinary Unit))) :=
    [⟨name, .enumerable, .string "1"⟩, ⟨symbol, .enumerable, .string "2"⟩, ⟨name, .hidden, .string "3"⟩]
  have hkeys : (Record.ofList ds).keys = [name, symbol] := by decide
  have hname : name ∈ (Record.ofList ds).keys := by decide
  have habsent : Key.string "a" ∉ (Record.ofList ds).keys := by decide
  obtain ⟨-, -, -, -, hfound, hlast, hundefined, hothers, -⟩ := record_properties (σ := Unit) World.vacant ds
  obtain ⟨-, hwithout⟩ := hothers fun key => decide (key ≠ symbol)
  exact ⟨ds, name, symbol, rfl, rfl, rfl, rfl, hkeys, (hfound name).2 hname, hlast name hname,
    hundefined _ habsent, (hwithout name (by decide)).1⟩

end Ordinary

end HttpFields.Script
