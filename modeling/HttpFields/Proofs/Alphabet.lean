import HttpFields.Proofs.Multimap
import HttpFields.Proofs.Rebuild

/-!
# Names and values keep to their alphabets

Whichever way a field came into a store, its name is a token in lower case and its value stays on one line. So is
what the store shows of it, joined values included, and no field can break out of its line in a message.

* `Text.mem_utf8_iff` : an ASCII character stands in a text just when its byte stands among the bytes
* `Field.Value.wellFormed_iff_bytes` : a value stays on its line just when no byte of it ends one
* `Store.Opened` : the cursors of walks over a store
* `Store.YieldsName`, `Store.YieldsValue` : what the reads of a store yield
* `Reachable.yields_no_break` : all of it keeps to the alphabets
-/

namespace HttpFields

open HttpFields.Field

set_option autoImplicit false

/-! ## Bytes of a text -/

namespace Text

/-- The bytes are those of some text. -/
def IsUtf8 (bytes : List UInt8) : Prop := ByteArray.IsValidUTF8 ⟨bytes.toArray⟩

theorem isUtf8_utf8 (s : String) : IsUtf8 (utf8 s) := by
  have hbytes : (⟨(utf8 s).toArray⟩ : ByteArray) = s.toByteArray := by
    simp [utf8]
  rw [IsUtf8, hbytes]
  exact s.isValidUTF8

theorem utf8_eq_flatMap (s : String) : utf8 s = s.toList.flatMap String.utf8EncodeChar := by
  conv_lhs => rw [← String.ofList_toList (s := s)]
  exact utf8_ofList s.toList

theorem toNat_val_ofUInt8 (b : UInt8) : (Char.ofUInt8 b).val.toNat = b.toNat := UInt8.toNat_toUInt32 b

theorem le_of_mem_utf8EncodeChar {b : UInt8} {c : Char} (h : 0x7f < c.val.toNat)
    (hb : b ∈ String.utf8EncodeChar c) : 0x80 ≤ b := by
  have hmarked : ∀ n k : Nat, 0x80 ≤ k → n + k < 256 → b = UInt8.ofNat (n + k) → 0x80 ≤ b := by
    intro n k hk hsum hbn
    have hnat : b.toNat = n + k := by
      rw [hbn, UInt8.toNat_ofNat']
      omega
    rw [UInt8.le_iff_toNat_le, hnat]
    show 128 ≤ n + k
    omega
  simp only [String.utf8EncodeChar] at hb
  rw [if_neg (by omega)] at hb
  split at hb
  · simp only [List.mem_cons, List.not_mem_nil, or_false] at hb
    rcases hb with hb | hb
    all_goals exact hmarked _ _ (by omega) (by omega) hb
  · split at hb
    · simp only [List.mem_cons, List.not_mem_nil, or_false] at hb
      rcases hb with hb | hb | hb
      all_goals exact hmarked _ _ (by omega) (by omega) hb
    · simp only [List.mem_cons, List.not_mem_nil, or_false] at hb
      rcases hb with hb | hb | hb | hb
      all_goals exact hmarked _ _ (by omega) (by omega) hb

theorem mem_utf8EncodeChar_iff {b : UInt8} (hb : b < 0x80) {c : Char} :
    b ∈ String.utf8EncodeChar c ↔ c = Char.ofUInt8 b := by
  have hsmall : b.toNat < 0x80 := UInt8.lt_iff_toNat_lt.1 hb
  by_cases h : c.val.toNat ≤ 0x7f
  · have hself : String.utf8EncodeChar c = [UInt8.ofNat c.val.toNat] := by
      simp only [String.utf8EncodeChar]
      rw [if_pos h]
    rw [hself, List.mem_singleton, Char.ext_iff, ← UInt32.toNat_inj, toNat_val_ofUInt8, ← UInt8.toNat_inj,
      UInt8.toNat_ofNat']
    omega
  · refine iff_of_false (fun hmem => ?_) ?_
    · have hhigh := le_of_mem_utf8EncodeChar (by omega) hmem
      exact absurd hb (UInt8.not_lt.2 hhigh)
    · rintro rfl
      rw [toNat_val_ofUInt8] at h
      omega

theorem mem_utf8_iff {b : UInt8} (hb : b < 0x80) {s : String} : b ∈ utf8 s ↔ Char.ofUInt8 b ∈ s.toList := by
  rw [utf8_eq_flatMap, List.mem_flatMap]
  simp [mem_utf8EncodeChar_iff hb]

/-- A carriage return, a line feed or a NUL. -/
def endsLine (b : UInt8) : Bool := b == 0x0d || b == 0x0a || b == 0x00

end Text

/-- A value stays on its line just when no byte of it ends one. -/
theorem Field.Value.wellFormed_iff_bytes (v : Value) :
    v.WellFormed ↔ ∀ b ∈ Text.utf8 v.text, Text.endsLine b = false := by
  have hreturn : 0x0d ∈ Text.utf8 v.text ↔ '\r' ∈ v.text.toList := Text.mem_utf8_iff (by decide)
  have hfeed : 0x0a ∈ Text.utf8 v.text ↔ '\n' ∈ v.text.toList := Text.mem_utf8_iff (by decide)
  have hnul : 0x00 ∈ Text.utf8 v.text ↔ '\x00' ∈ v.text.toList := Text.mem_utf8_iff (by decide)
  have hchars : v.WellFormed ↔ '\r' ∉ v.text.toList ∧ '\n' ∉ v.text.toList ∧ '\x00' ∉ v.text.toList := by
    simp only [WellFormed, breaksLine, Bool.or_eq_false_iff, beq_eq_false_iff_ne]
    constructor
    · intro h
      exact ⟨fun hc => (h _ hc).1.1 rfl, fun hc => (h _ hc).1.2 rfl, fun hc => (h _ hc).2 rfl⟩
    · rintro ⟨h1, h2, h3⟩ c hc
      exact ⟨⟨fun e => h1 (e ▸ hc), fun e => h2 (e ▸ hc)⟩, fun e => h3 (e ▸ hc)⟩
  rw [hchars, ← hreturn, ← hfeed, ← hnul]
  simp only [Text.endsLine, Bool.or_eq_false_iff, beq_eq_false_iff_ne]
  constructor
  · rintro ⟨h1, h2, h3⟩ b hb
    exact ⟨⟨fun e => h1 (e ▸ hb), fun e => h2 (e ▸ hb)⟩, fun e => h3 (e ▸ hb)⟩
  · intro h
    exact ⟨fun hb => (h _ hb).1.1 rfl, fun hb => (h _ hb).1.2 rfl, fun hb => (h _ hb).2 rfl⟩

/-! ## What a store shows -/

namespace Store

/-- The cursors of walks over the store, from both ends and as far as one likes. -/
inductive Opened (s : Store) : Cursor → Prop where
  | opened : Opened s s.cursor
  | next {c : Cursor} (h : Opened s c) : Opened s c.next.2
  | nextBack {c : Cursor} (h : Opened s c) : Opened s c.nextBack.2

/-- The name is stored, or a read of the store yields it. -/
inductive YieldsName (s : Store) : Name → Prop where
  | stored {f : Field} (h : f ∈ s.fields) : YieldsName s f.name
  | snapshot {f : Field} (h : f ∈ s.snapshot) : YieldsName s f.name
  | names {n : Name} (h : n ∈ s.names) : YieldsName s n
  | next {c : Cursor} {f : Field} (hc : s.Opened c) (h : c.next.1 = some f) : YieldsName s f.name
  | nextBack {c : Cursor} {f : Field} (hc : s.Opened c) (h : c.nextBack.1 = some f) : YieldsName s f.name
  | nextName {c : Cursor} {n : Name} (hc : s.Opened c) (h : c.nextName.1 = some n) : YieldsName s n

/-- The value is stored, or a read of the store yields it. -/
inductive YieldsValue (s : Store) : Value → Prop where
  | stored {f : Field} (h : f ∈ s.fields) : YieldsValue s f.value
  | get {name : String} {v : Value} (h : s.get name = .ok (some v)) : YieldsValue s v
  | getAll {name : String} {scan : ValueScan} {v : Value} (hscan : s.getAll name = .ok scan)
    (h : v ∈ scan.items) : YieldsValue s v
  | setCookies {v : Value} (h : v ∈ s.setCookies) : YieldsValue s v
  | snapshot {f : Field} (h : f ∈ s.snapshot) : YieldsValue s f.value
  | values {v : Value} (h : v ∈ s.values) : YieldsValue s v
  | next {c : Cursor} {f : Field} (hc : s.Opened c) (h : c.next.1 = some f) : YieldsValue s f.value
  | nextBack {c : Cursor} {f : Field} (hc : s.Opened c) (h : c.nextBack.1 = some f) : YieldsValue s f.value
  | nextValue {c : Cursor} {v : Value} (hc : s.Opened c) (h : c.nextValue.1 = some v) : YieldsValue s v

variable {s : Store}

theorem Opened.mem_snapshot {c : Cursor} (hc : s.Opened c) {f : Field} (hf : f ∈ c.rest) : f ∈ s.snapshot := by
  induction hc with
  | opened => exact hf
  | next _ ih => exact ih (List.mem_of_mem_tail hf)
  | nextBack _ ih => exact ih (List.mem_of_mem_dropLast hf)

theorem Opened.next_mem {c : Cursor} (hc : s.Opened c) {f : Field} (h : c.next.1 = some f) : f ∈ s.snapshot :=
  hc.mem_snapshot (List.mem_of_mem_head? h)

theorem Opened.nextBack_mem {c : Cursor} (hc : s.Opened c) {f : Field} (h : c.nextBack.1 = some f) :
    f ∈ s.snapshot :=
  hc.mem_snapshot (List.mem_of_getLast? h)

/-- No read makes up a name. -/
theorem YieldsName.stored_of {n : Name} (h : s.YieldsName n) : ∃ f ∈ s.fields, f.name = n := by
  have hshown : ∀ f ∈ s.snapshot, ∃ g ∈ s.fields, g.name = f.name := fun f hf =>
    Fields.name_mem_of_listed s.fields.valuesOf_snapshot hf
  cases h with
  | stored h => exact ⟨_, h, rfl⟩
  | snapshot h => exact hshown _ h
  | names h =>
    obtain ⟨f, hf, rfl⟩ := List.mem_map.1 h
    exact hshown f hf
  | next hc h => exact hshown _ (hc.next_mem h)
  | nextBack hc h => exact hshown _ (hc.nextBack_mem h)
  | nextName hc h =>
    obtain ⟨f, hf, rfl⟩ := Option.map_eq_some_iff.1 h
    exact hshown f (hc.next_mem hf)

/-- What is shown was obtained, as a reading or as a join of readings, if all that is stored was. -/
theorem YieldsValue.obtained (hs : s.fields.Obtained) {v : Value} (h : s.YieldsValue v) : v.Obtained := by
  have hvalues : ∀ n, ∀ w ∈ s.fields.valuesOf n, w.Obtained := fun n w hw =>
    (hs _ (Fields.mem_valuesOf_iff.1 hw)).2
  have hshown : ∀ f ∈ s.snapshot, f.value.Obtained := fun f hf => (Fields.obtained_snapshot hs f hf).2
  cases h with
  | stored h => exact (hs _ h).2
  | get h =>
    obtain ⟨n, _, h⟩ := bind_eq_ok_iff.1 h
    have hcombined : v ∈ (Fields.listed n (s.fields.valuesOf n)).head? := by
      rw [← Fields.combined_eq_head?_listed]
      exact Except.ok.inj h
    exact Value.obtained_listed (hvalues n) v (List.mem_of_mem_head? hcombined)
  | getAll hscan h =>
    obtain ⟨n, _, hscan⟩ := bind_eq_ok_iff.1 hscan
    cases hscan
    rw [ValueScan.items_eq_valuesOf] at h
    exact hvalues n v h
  | setCookies h => exact hvalues Name.setCookie v h
  | snapshot h => exact hshown _ h
  | values h =>
    obtain ⟨f, hf, rfl⟩ := List.mem_map.1 h
    exact hshown f hf
  | next hc h => exact hshown _ (hc.next_mem h)
  | nextBack hc h => exact hshown _ (hc.nextBack_mem h)
  | nextValue hc h =>
    obtain ⟨f, hf, rfl⟩ := Option.map_eq_some_iff.1 h
    exact hshown f (hc.next_mem hf)

end Store

/-! ## No line breaks -/

/-- A well-formed name has no other spelling in lower case, so two of them differ in more than case. -/
theorem Field.Name.eq_of_map_toLower {n m : Name} (hn : n.WellFormed) (hm : m.WellFormed)
    (h : n.bytes.map Text.toLower = m.bytes.map Text.toLower) : n = m := by
  have hlower : ∀ k : Name, k.WellFormed → k.bytes.map Text.toLower = k.bytes := by
    intro k hk
    conv_rhs => rw [← List.map_id k.bytes]
    exact List.map_congr_left fun b hb => Text.toLower_of_isLowerToken b (hk.2 b hb)
  rw [hlower n hn, hlower m hm] at h
  cases n
  cases m
  exact congrArg Name.mk h

theorem Field.Name.Obtained.isUtf8 {n : Name} (h : n.Obtained) :
    Text.IsUtf8 n.bytes ∧ Text.utf8 n.text = n.bytes := by
  have htext : Text.utf8 n.text = n.bytes := utf8_text h.wellFormed
  exact ⟨htext ▸ Text.isUtf8_utf8 n.text, htext⟩

/-- Every name that is stored or shown is a token in lower case, so no two of them differ in case alone. Every
value that is stored or shown is a text without a carriage return, a line feed or a NUL, also where it joins
several. The names and values that callers have keep to the same alphabets, and the bytes of each are a text. -/
theorem Reachable.yields_no_break {s : Store} (h : Reachable s) :
    (∀ n, s.YieldsName n → n.Obtained ∧ n.WellFormed) ∧
    (∀ n m, s.YieldsName n → s.YieldsName m → n.bytes.map Text.toLower = m.bytes.map Text.toLower → n = m) ∧
    (∀ v, s.YieldsValue v → v.Obtained ∧ ∀ b ∈ Text.utf8 v.text, Text.endsLine b = false) ∧
    (∀ n : Name, n.Obtained → Text.IsUtf8 n.bytes ∧ Text.utf8 n.text = n.bytes) ∧
    ∀ v : Value, v.Obtained →
      Text.IsUtf8 (Text.utf8 v.text) ∧ ∀ b ∈ Text.utf8 v.text, Text.endsLine b = false := by
  have hname : ∀ n, s.YieldsName n → n.Obtained := by
    intro n hn
    obtain ⟨f, hf, rfl⟩ := hn.stored_of
    exact (h.obtained f hf).1
  have hvalue : ∀ v : Value, v.Obtained → ∀ b ∈ Text.utf8 v.text, Text.endsLine b = false := fun v hv =>
    v.wellFormed_iff_bytes.1 hv.wellFormed
  refine ⟨fun n hn => ⟨hname n hn, (hname n hn).wellFormed⟩, fun n m hn hm hcase => ?_, fun v hv => ?_,
    fun n hn => hn.isUtf8, fun v hv => ⟨Text.isUtf8_utf8 v.text, hvalue v hv⟩⟩
  · exact Name.eq_of_map_toLower (hname n hn).wellFormed (hname m hm).wellFormed hcase
  · have hobtained : v.Obtained := hv.obtained h.obtained
    exact ⟨hobtained, hvalue v hobtained⟩

/-- Two values whose characters have the low bytes of a line feed and of a space are joined. -/
theorem Reachable.yields_no_break_accept :
    ∃ s : Store, Reachable s ∧ s.get "Accept" = .ok (some ⟨"\u010a, é\u0120"⟩) ∧
      s.YieldsValue ⟨"\u010a, é\u0120"⟩ ∧
      ∀ b ∈ Text.utf8 "\u010a, é\u0120", Text.endsLine b = false := by
  let s : Store := .ofFields [⟨.accept, ⟨"\u010a"⟩⟩, ⟨.accept, ⟨"é\u0120"⟩⟩]
  have hreach : Reachable s :=
    ⟨Unit, Unit, Script.World.vacant, .ofPairs [("ACCEPT", "\r\n\u010a "), ("accept", "\té\u0120")], trivial, rfl⟩
  have hget : s.get "Accept" = .ok (some ⟨"\u010a, é\u0120"⟩) := by decide +kernel
  have hyields : s.YieldsValue ⟨"\u010a, é\u0120"⟩ := .get hget
  exact ⟨s, hreach, hget, hyields, (hreach.yields_no_break.2.2.1 _ hyields).2⟩

end HttpFields
