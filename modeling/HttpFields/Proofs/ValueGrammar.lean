import HttpFields.Proofs.Alphabet

/-!
# Which texts are values

A value can be recognized by its characters or by its bytes. All that is forbidden in it is ASCII, and no byte of
any other character is, so both ways agree.

* `Text.onChar` : what a test of bytes says of a character; `Text.isBlank_eq_onChar`, `Field.breaksLine_eq_onChar`
* `Text.any_utf8`, `Text.head?_utf8`, `Text.getLast?_utf8` : a test of the bytes of a text is one of its characters
* `Field.Value.ofNormalized_eq_bytes` : a value without padding is recognized by its bytes
* `Field.Value.normalize_grammar` : which texts are read as values, with padding and without
-/

namespace HttpFields

open HttpFields.Field

set_option autoImplicit false

/-! ## Tests of bytes and of characters -/

namespace Text

/-- What a test of bytes says of a character. One beyond ASCII does not pass, whatever its lowest byte is. -/
def onChar (p : UInt8 → Bool) (c : Char) : Bool := decide (c.val.toNat < 0x80) && p c.toUInt8

def isBlankByte (b : UInt8) : Bool := b == 0x09 || b == 0x0a || b == 0x0d || b == 0x20

def OnlyAscii (p : UInt8 → Bool) : Prop := ∀ b, p b = true → b < 0x80

theorem onlyAscii_isBlankByte : OnlyAscii isBlankByte := by
  intro b hb
  simp only [isBlankByte, Bool.or_eq_true, beq_iff_eq] at hb
  rcases hb with ((rfl | rfl) | rfl) | rfl
  all_goals decide

theorem onlyAscii_endsLine : OnlyAscii endsLine := by
  intro b hb
  simp only [endsLine, Bool.or_eq_true, beq_iff_eq] at hb
  rcases hb with (rfl | rfl) | rfl
  all_goals decide

/-- Each byte of a character passes the test just when the character does: it is one ASCII byte, or no byte of it
is ASCII. -/
theorem test_of_mem_utf8EncodeChar {p : UInt8 → Bool} (hp : OnlyAscii p) {c : Char} {b : UInt8}
    (hb : b ∈ String.utf8EncodeChar c) : p b = onChar p c := by
  by_cases hascii : c.val.toNat < 0x80
  · have hself : String.utf8EncodeChar c = [UInt8.ofNat c.val.toNat] := by
      simp only [String.utf8EncodeChar]
      rw [if_pos (by omega)]
    rw [hself, List.mem_singleton] at hb
    rw [hb, onChar, decide_eq_true hascii, Bool.true_and]
    rfl
  · have hbeyond : 0x80 ≤ b := le_of_mem_utf8EncodeChar (by omega) hb
    rw [onChar, decide_eq_false hascii, Bool.false_and, ← Bool.not_eq_true]
    exact fun hpass => UInt8.not_lt.2 hbeyond (hp b hpass)

section Tests

variable {p : UInt8 → Bool}

theorem any_utf8 (hp : OnlyAscii p) (s : String) : (utf8 s).any p = s.toList.any (onChar p) := by
  have hchar : ∀ c, (String.utf8EncodeChar c).any p = onChar p c := by
    intro c
    obtain ⟨b, hb⟩ := List.exists_mem_of_ne_nil _ (String.utf8EncodeChar_ne_nil (c := c))
    rw [Bool.eq_iff_iff, List.any_eq_true]
    constructor
    · rintro ⟨a, ha, hpass⟩
      rwa [← test_of_mem_utf8EncodeChar hp ha]
    · intro hpass
      exact ⟨b, hb, by rwa [test_of_mem_utf8EncodeChar hp hb]⟩
  rw [utf8_eq_flatMap, List.any_flatMap]
  exact congrArg s.toList.any (funext hchar)

theorem head?_utf8 (hp : OnlyAscii p) (s : String) : (utf8 s).head?.any p = s.toList.head?.any (onChar p) := by
  rw [utf8_eq_flatMap]
  cases s.toList with
  | nil => rfl
  | cons c cs =>
    obtain ⟨b, bs, hbytes⟩ := List.exists_cons_of_ne_nil (String.utf8EncodeChar_ne_nil (c := c))
    have hb : b ∈ String.utf8EncodeChar c := hbytes ▸ List.mem_cons_self
    rw [List.flatMap_cons, hbytes]
    exact test_of_mem_utf8EncodeChar hp hb

theorem getLast?_utf8 (hp : OnlyAscii p) (s : String) :
    (utf8 s).getLast?.any p = s.toList.getLast?.any (onChar p) := by
  rw [utf8_eq_flatMap]
  rcases List.eq_nil_or_concat s.toList with hnil | ⟨cs, c, hlast⟩
  · rw [hnil]
    rfl
  · have hne := String.utf8EncodeChar_ne_nil (c := c)
    have hb := List.getLast_mem hne
    rw [hlast, List.concat_eq_append, List.flatMap_append, List.getLast?_append, List.getLast?_append,
      List.flatMap_singleton, List.getLast?_eq_some_getLast hne]
    exact test_of_mem_utf8EncodeChar hp hb

end Tests

theorem eq_onChar {p : UInt8 → Bool} {q : Char → Bool} (hascii : ∀ c, q c = true → c.val.toNat < 0x80)
    (hbyte : ∀ b, q (Char.ofUInt8 b) = p b) : q = onChar p := by
  funext c
  by_cases hc : c.val.toNat < 0x80
  · have hself : Char.ofUInt8 c.toUInt8 = c := by
      rw [Char.ext_iff, ← UInt32.toNat_inj, toNat_val_ofUInt8, Char.toUInt8, UInt32.toNat_toUInt8]
      exact Nat.mod_eq_of_lt (by omega)
    rw [onChar, decide_eq_true hc, Bool.true_and, ← hbyte, hself]
  · rw [onChar, decide_eq_false hc, Bool.false_and, ← Bool.not_eq_true]
    exact fun hq => hc (hascii c hq)

theorem isBlank_eq_onChar : isBlank = onChar isBlankByte := by
  refine eq_onChar (fun c hc => ?_) (forall_byte (by decide +kernel))
  simp only [isBlank, Bool.or_eq_true, beq_iff_eq] at hc
  rcases hc with ((rfl | rfl) | rfl) | rfl
  all_goals decide

end Text

theorem Field.breaksLine_eq_onChar : breaksLine = Text.onChar Text.endsLine := by
  refine Text.eq_onChar (fun c hc => ?_) (Text.forall_byte (by decide +kernel))
  simp only [breaksLine, Bool.or_eq_true, beq_iff_eq] at hc
  rcases hc with (rfl | rfl) | rfl
  all_goals decide

/-! ## Which texts are values -/

namespace Field.Value

variable {s : String} {v : Value} {fault : Fault}

/-- A value without padding is recognized by its bytes: by the first, by the last, and by each of them. -/
theorem ofNormalized_eq_bytes (s : String) :
    ofNormalized s =
      if (Text.utf8 s).head?.any Text.isBlankByte || (Text.utf8 s).getLast?.any Text.isBlankByte ||
        (Text.utf8 s).any Text.endsLine then .error .malformed else .ok ⟨s⟩ := by
  rw [Text.head?_utf8 Text.onlyAscii_isBlankByte, Text.getLast?_utf8 Text.onlyAscii_isBlankByte,
    Text.any_utf8 Text.onlyAscii_endsLine, ← Text.isBlank_eq_onChar, ← breaksLine_eq_onChar]
  rfl

theorem normalize_eq_ok_iff :
    normalize s = .ok v ↔ v.text.toList = Text.strip s.toList ∧ ∀ c ∈ Text.strip s.toList, breaksLine c = false := by
  have hline : (Text.strip s.toList).any breaksLine = true ↔ ¬ ∀ c ∈ Text.strip s.toList, breaksLine c = false := by
    simp
  have htext : (⟨String.ofList (Text.strip s.toList)⟩ : Value) = v ↔ v.text.toList = Text.strip s.toList := by
    constructor
    · rintro rfl
      exact String.toList_ofList
    · intro h
      rw [← h, String.ofList_toList]
  simp only [normalize]
  split
  · next h => simp [hline.1 h]
  · next h => rw [Except.ok.injEq, htext, and_iff_left (not_not.1 (mt hline.2 h))]

theorem normalize_eq_error_iff :
    normalize s = .error fault ↔ fault = .malformed ∧ ∃ c ∈ Text.strip s.toList, breaksLine c = true := by
  have hline : (Text.strip s.toList).any breaksLine = true ↔ ∃ c ∈ Text.strip s.toList, breaksLine c = true :=
    List.any_eq_true
  simp only [normalize]
  split
  · next h => rw [Except.error.injEq, and_iff_left (hline.1 h), eq_comm]
  · next h => simp [mt hline.2 h]

theorem ofNormalized_eq_ok_iff :
    ofNormalized s = .ok v ↔ v.text = s ∧ Text.Unpadded s.toList ∧ ∀ c ∈ s.toList, breaksLine c = false := by
  constructor
  · intro h
    have hunpadded := unpadded_of_ofNormalized h
    have hline := wellFormed_of_ofNormalized h
    simp only [ofNormalized] at h
    split at h
    · cases h
    · cases h
      exact ⟨rfl, hunpadded, hline⟩
  · rintro ⟨rfl, ⟨hhead, hlast⟩, hline⟩
    have hhead' : v.text.toList.head?.any Text.isBlank = false := by
      rwa [Option.any_eq_false]
    have hlast' : v.text.toList.getLast?.any Text.isBlank = false := by
      rwa [Option.any_eq_false]
    have hline' : v.text.toList.any breaksLine = false := by
      simpa using hline
    simp only [ofNormalized, hhead', hlast', hline']
    rfl

theorem ofNormalized_eq_error_iff :
    ofNormalized s = .error fault ↔ fault = .malformed ∧ ∀ v, ofNormalized s ≠ .ok v := by
  simp only [ofNormalized]
  split
  · simp [eq_comm]
  · simp

theorem ofNormalized_eq_ok_iff_normalize :
    ofNormalized s = .ok v ↔ normalize s = .ok v ∧ Text.strip s.toList = s.toList := by
  rw [ofNormalized_eq_ok_iff, normalize_eq_ok_iff, Text.strip_eq_self_iff]
  constructor
  · rintro ⟨rfl, hunpadded, hline⟩
    rw [Text.strip_of_unpadded hunpadded]
    exact ⟨⟨rfl, hline⟩, hunpadded⟩
  · rintro ⟨⟨htext, hline⟩, hunpadded⟩
    rw [Text.strip_of_unpadded hunpadded] at htext hline
    exact ⟨String.toList_inj.1 htext, hunpadded, hline⟩

theorem ofNormalized_of_normalize (h : normalize s = .ok v) : ofNormalized v.text = .ok v :=
  ofNormalized_eq_ok_iff.2 ⟨rfl, unpadded_of_normalize h, wellFormed_of_normalize h⟩

/-- A text is read as a value just when no line ends in what is left of it without the blanks in front and behind,
and that is the value. It is taken as it stands just when it is read and there were no blanks to take away, so just
when it is read from some text; the bytes show whether it is. What is not taken is malformed, and not empty. -/
theorem normalize_grammar (s : String) :
    ∃ inner : List Char, (∀ other, Text.IsInside other s.toList ↔ other = inner) ∧
      (∀ v, normalize s = .ok v ↔ v.text.toList = inner ∧ ∀ c ∈ inner, breaksLine c = false) ∧
      (∀ fault, normalize s = .error fault ↔ fault = .malformed ∧ ∃ c ∈ inner, breaksLine c = true) ∧
      (∀ v, ofNormalized s = .ok v ↔ normalize s = .ok v ∧ inner = s.toList) ∧
      (∀ fault, ofNormalized s = .error fault ↔ fault = .malformed ∧ ∀ v, ofNormalized s ≠ .ok v) ∧
      (∀ v, ofLiteral s = .ok v ↔ ofNormalized s = .ok v) ∧
      (∀ message, ofLiteral s = .error message ↔
        message = Fault.malformed.message ∧ ∀ v, ofNormalized s ≠ .ok v) ∧
      (∀ v, normalize s = .ok v → normalize v.text = .ok v) ∧
      ((∃ v, ofNormalized s = .ok v) ↔ ∃ t v, normalize t = .ok v ∧ v.text = s) ∧
      ofNormalized s =
        if (Text.utf8 s).head?.any Text.isBlankByte || (Text.utf8 s).getLast?.any Text.isBlankByte ||
          (Text.utf8 s).any Text.endsLine then .error .malformed else .ok ⟨s⟩ := by
  refine ⟨Text.strip s.toList, fun other => ⟨Text.IsInside.eq_strip, ?_⟩, fun v => normalize_eq_ok_iff,
    fun fault => normalize_eq_error_iff, fun v => ofNormalized_eq_ok_iff_normalize,
    fun fault => ofNormalized_eq_error_iff, fun v => ?_, fun message => ?_, fun v hv => ?_, ?_,
    ofNormalized_eq_bytes s⟩
  · rintro rfl
    exact Text.isInside_strip s.toList
  · exact mapError_eq_ok_iff
  · rw [ofLiteral, mapError_eq_error_iff]
    simp only [ofNormalized_eq_error_iff]
    exact ⟨fun ⟨_, ⟨hfault, hnone⟩, hmessage⟩ => ⟨hfault ▸ hmessage, hnone⟩,
      fun ⟨hmessage, hnone⟩ => ⟨.malformed, ⟨rfl, hnone⟩, hmessage⟩⟩
  · exact (ofNormalized_eq_ok_iff_normalize.1 (ofNormalized_of_normalize hv)).1
  · constructor
    · rintro ⟨v, hv⟩
      exact ⟨s, v, (ofNormalized_eq_ok_iff_normalize.1 hv).1, (ofNormalized_eq_ok_iff.1 hv).1⟩
    · rintro ⟨t, v, hv, rfl⟩
      exact ⟨v, ofNormalized_of_normalize hv⟩

end Field.Value

end HttpFields
