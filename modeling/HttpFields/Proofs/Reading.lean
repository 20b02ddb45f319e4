import Mathlib.Data.List.DropRight
import HttpFields.Store.Basic

/-!
# Names and values as texts

What a reader makes of a name or a value that is written as a text again.

* `Field.Name.ofText_text` : a well-formed name is read back from its spelling
* `Text.Unpadded` : a text without a blank at either end; `Text.unpadded_strip`, `Text.strip_eq_self_iff`
* `Text.IsInside` : one text is the other without its padding; `Text.isInside_strip`, `Text.IsInside.eq_strip`
* `Field.Value.stripped` : a value without its padding; `Field.Value.normalize_text` : what is read back from
  a value
* `Field.Value.head?_join`, `Field.Value.getLast?_join` : the ends of a joined value
-/

namespace HttpFields

open HttpFields.Field

set_option autoImplicit false

/-! ## Spellings of names -/

namespace Text

theorem utf8_ofList (cs : List Char) : utf8 (String.ofList cs) = cs.flatMap String.utf8EncodeChar := by
  simp [utf8, String.toUTF8, String.ofList, List.utf8Encode]

theorem utf8EncodeChar_of_isLowerToken :
    ∀ b, isLowerToken b = true → String.utf8EncodeChar (Char.ofUInt8 b) = [b] :=
  forall_byte (by decide +kernel)

theorem isToken_of_isLowerToken {b : UInt8} (h : isLowerToken b = true) : isToken b = true := by
  rw [isToken, h, Bool.or_true]

end Text

namespace Field.Name

theorem utf8_text {n : Name} (h : n.WellFormed) : Text.utf8 n.text = n.bytes := by
  rw [text, Text.utf8_ofList, List.flatMap_map]
  conv_rhs => rw [← List.flatMap_singleton' n.bytes]
  exact List.flatMap_congr fun b hb => Text.utf8EncodeChar_of_isLowerToken b (h.2 b hb)

theorem ofText_text {n : Name} (h : n.WellFormed) : ofText n.text = .ok n := by
  have hempty : n.bytes.isEmpty = false := by simpa using h.1
  have hall : n.bytes.all Text.isToken = true :=
    List.all_eq_true.2 fun b hb => Text.isToken_of_isLowerToken (h.2 b hb)
  have hmap : n.bytes.map Text.toLower = n.bytes :=
    (List.map_congr_left fun b hb => Text.toLower_of_isLowerToken b (h.2 b hb)).trans (List.map_id' _)
  simp [ofText, utf8_text h, parse, hempty, hall, hmap]

end Field.Name

/-! ## Padding -/

namespace Text

def Unpadded (cs : List Char) : Prop :=
  (∀ c ∈ cs.head?, isBlank c = false) ∧ ∀ c ∈ cs.getLast?, isBlank c = false

theorem isBlank_of_mem_head?_dropWhile {cs : List Char} {c : Char} (h : c ∈ (cs.dropWhile isBlank).head?) :
    isBlank c = false := by
  have hnot := List.head?_dropWhile_not isBlank cs
  rwa [Option.mem_def.1 h] at hnot

theorem strip_eq_rdropWhile (cs : List Char) : strip cs = (cs.dropWhile isBlank).rdropWhile isBlank := rfl

theorem unpadded_strip (cs : List Char) : Unpadded (strip cs) := by
  constructor
  · intro c hc
    obtain ⟨rest, hrest⟩ := List.rdropWhile_prefix isBlank (cs.dropWhile isBlank)
    rw [← strip_eq_rdropWhile] at hrest
    have hhead : c ∈ (cs.dropWhile isBlank).head? := by
      rw [← hrest, List.head?_append, Option.mem_def.1 hc]
      rfl
    exact isBlank_of_mem_head?_dropWhile hhead
  · intro c hc
    rw [strip, List.getLast?_reverse] at hc
    exact isBlank_of_mem_head?_dropWhile hc

/-- The inner text is the whole one without the blanks in front and behind. -/
structure IsInside (inner cs : List Char) : Prop where
  split : ∃ front behind, cs = front ++ inner ++ behind ∧ ∀ c ∈ front ++ behind, isBlank c = true
  unpadded : Unpadded inner

theorem isInside_strip (cs : List Char) : IsInside (strip cs) cs := by
  refine ⟨⟨cs.takeWhile isBlank, (cs.dropWhile isBlank).rtakeWhile isBlank, ?_, fun c hc => ?_⟩, unpadded_strip cs⟩
  · rw [strip_eq_rdropWhile, List.append_assoc, List.rdropWhile_append_rtakeWhile, List.takeWhile_append_dropWhile]
  · rcases List.mem_append.1 hc with hc | hc
    · exact List.mem_takeWhile_imp hc
    · exact List.mem_rtakeWhile_imp hc

theorem dropWhile_append_of_blank {front rest : List Char} (hfront : ∀ c ∈ front, isBlank c = true)
    (hrest : ∀ c ∈ rest.head?, isBlank c = false) : (front ++ rest).dropWhile isBlank = rest := by
  rw [List.dropWhile_append_of_pos hfront]
  cases rest with
  | nil => rfl
  | cons c rest =>
    rw [List.dropWhile_cons, hrest c rfl]
    rfl

theorem IsInside.eq_strip {inner cs : List Char} (h : IsInside inner cs) : inner = strip cs := by
  obtain ⟨⟨front, behind, rfl, hblank⟩, hhead, hlast⟩ := h
  cases inner with
  | nil =>
    -- Where nothing is left, front and behind are one row of blanks.
    have hall : (front ++ [] ++ behind).dropWhile isBlank = [] := by
      rw [List.append_nil, List.dropWhile_eq_nil_iff]
      exact hblank
    rw [strip, hall]
    rfl
  | cons c inner =>
    obtain ⟨hfront, hbehind⟩ := List.forall_mem_append.1 hblank
    have hdrop : (front ++ (c :: inner) ++ behind).dropWhile isBlank = (c :: inner) ++ behind := by
      rw [List.append_assoc]
      exact dropWhile_append_of_blank hfront hhead
    have hback : (behind.reverse ++ (c :: inner).reverse).dropWhile isBlank = (c :: inner).reverse := by
      refine dropWhile_append_of_blank (fun d hd => hbehind d (List.mem_reverse.1 hd)) ?_
      rwa [List.head?_reverse]
    rw [strip, hdrop, List.reverse_append, hback, List.reverse_reverse]

theorem strip_of_unpadded {cs : List Char} (h : Unpadded cs) : strip cs = cs :=
  (IsInside.eq_strip ⟨⟨[], [], (List.append_nil cs).symm, nofun⟩, h⟩).symm

theorem strip_eq_self_iff (cs : List Char) : strip cs = cs ↔ Unpadded cs :=
  ⟨fun h => h ▸ unpadded_strip cs, strip_of_unpadded⟩

theorem mem_of_mem_strip {cs : List Char} {c : Char} (h : c ∈ strip cs) : c ∈ cs :=
  (List.dropWhile_suffix isBlank).subset ((List.rdropWhile_prefix isBlank _).subset h)

end Text

namespace Field.Value

/-- The value without its padding. -/
def stripped (v : Value) : Value := ⟨String.ofList (Text.strip v.text.toList)⟩

theorem normalize_text {v : Value} (h : v.WellFormed) : normalize v.text = .ok v.stripped := by
  have hany : (Text.strip v.text.toList).any breaksLine = false := by
    rw [List.any_eq_false]
    intro c hc
    simp [h c (Text.mem_of_mem_strip hc)]
  simp [normalize, hany, stripped]

theorem unpadded_of_normalize {s : String} {v : Value} (h : normalize s = .ok v) :
    Text.Unpadded v.text.toList := by
  unfold normalize at h
  simp only at h
  split at h
  · cases h
  · cases h
    rw [String.toList_ofList]
    exact Text.unpadded_strip s.toList

theorem unpadded_of_ofNormalized {s : String} {v : Value} (h : ofNormalized s = .ok v) :
    Text.Unpadded v.text.toList := by
  unfold ofNormalized at h
  simp only at h
  split at h
  · cases h
  · next hb =>
    cases h
    simp only [Bool.or_eq_true, not_or, Option.any_eq_true, not_exists, not_and, Bool.not_eq_true] at hb
    exact ⟨hb.1.1, hb.1.2⟩

theorem stripped_eq_self_iff (v : Value) : v.stripped = v ↔ Text.Unpadded v.text.toList := by
  cases v with
  | mk text =>
    rw [← Text.strip_eq_self_iff]
    constructor
    · intro h
      simpa [stripped] using congrArg (fun w : Value => w.text.toList) h
    · intro h
      simp [stripped, h]

theorem isInside_stripped (v : Value) : Text.IsInside v.stripped.text.toList v.text.toList := by
  rw [stripped, String.toList_ofList]
  exact Text.isInside_strip v.text.toList

theorem stripped_stripped (v : Value) : v.stripped.stripped = v.stripped :=
  (stripped_eq_self_iff v.stripped).2 v.isInside_stripped.unpadded

/-! ## The ends of a joined value -/

theorem text_join_cons (v w : Value) (more : List Value) :
    (v.join (w :: more)).text.toList = v.text.toList ++ (", ".toList ++ (w.join more).text.toList) := by
  simp [join, String.intercalate_cons_cons, String.toList_append, List.append_assoc]

theorem head?_join (v : Value) (more : List Value) :
    (v.join more).text.toList.head? = v.text.toList.head?.or (if more = [] then none else some ',') := by
  cases more with
  | nil => simp
  | cons w more =>
    rw [text_join_cons, List.head?_append, if_neg (List.cons_ne_nil w more)]
    rfl

theorem getLast?_join (v : Value) (more : List Value) {w : Value} (hw : w ∈ (v :: more).getLast?) :
    (v.join more).text.toList.getLast? =
      w.text.toList.getLast?.or (if more = [] then none else some ' ') := by
  induction more generalizing v with
  | nil =>
    obtain rfl : v = w := by simpa using hw
    simp
  | cons u more ih =>
    rw [List.getLast?_cons_cons] at hw
    rw [text_join_cons, List.getLast?_append, List.getLast?_append, ih u hw,
      if_neg (List.cons_ne_nil u more)]
    cases w.text.toList.getLast? with
    | some c => rfl
    | none => by_cases h : more = [] <;> simp [h]

theorem wellFormed_join {v : Value} (hv : v.WellFormed) {more : List Value}
    (hmore : ∀ w ∈ more, w.WellFormed) : (v.join more).WellFormed := by
  induction more generalizing v with
  | nil => rwa [join_nil]
  | cons w more ih =>
    obtain ⟨hw, hmore⟩ := List.forall_mem_cons.1 hmore
    intro c hc
    rw [text_join_cons, List.mem_append, List.mem_append] at hc
    rcases hc with hc | hc | hc
    · exact hv c hc
    · have hsep : ", ".toList = [',', ' '] := rfl
      rw [hsep, List.mem_pair] at hc
      rcases hc with rfl | rfl <;> rfl
    · exact ih hw hmore c hc

end Field.Value

end HttpFields
