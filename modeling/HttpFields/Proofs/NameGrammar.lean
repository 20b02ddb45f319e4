import HttpFields.Proofs.Alphabet
import HttpFields.Proofs.Spelling

/-!
# Which bytes are names, and which names are the same

A name is a token, and it is the token in small letters that counts. So two texts are one name just when they have
the same letters, and a text that is no token is no name at all.

* `Text.tokenCharacters` : the token characters, written out
* `Field.Name.reading` : what a reader with a given alphabet makes of bytes
* `Field.Name.scan` : reads byte by byte through a table, up to the first byte that is not in the alphabet
* `Field.Name.parse_grammar` : which bytes are read as names, by each of the readers
* `Field.Name.isSpelling_iff`, `Field.Name.isText_iff` : which texts a name is equal to
* `Field.Name.same_iff_letters` : which texts are read as the same name
-/

namespace HttpFields

open HttpFields.Field

set_option autoImplicit false

namespace Text

/-- The characters of a token: fifteen marks, the digits and the letters. -/
def tokenCharacters : List Char :=
  "!#$%&'*+-.^_`|~".toList ++ "0123456789".toList ++ "ABCDEFGHIJKLMNOPQRSTUVWXYZ".toList ++
    "abcdefghijklmnopqrstuvwxyz".toList

def IsTokenByte (b : UInt8) : Prop := Char.ofUInt8 b ∈ tokenCharacters

theorem isToken_iff (b : UInt8) : isToken b = true ↔ IsTokenByte b := by
  have htoken : ∀ b, isToken b = true → IsTokenByte b := forall_byte (by unfold IsTokenByte; decide +kernel)
  have hcharacter : (tokenCharacters.all fun c => isToken c.toUInt8) = true := by decide +kernel
  have hbyte : (Char.ofUInt8 b).toUInt8 = b := UInt8.toUInt8_toUInt32 b
  refine ⟨htoken b, fun hb => ?_⟩
  rw [← hbyte]
  exact List.all_eq_true.1 hcharacter (Char.ofUInt8 b) hb

/-- The case map of bytes is that of the characters. -/
theorem ofUInt8_toLower : ∀ b, Char.ofUInt8 (toLower b) = (Char.ofUInt8 b).toLower :=
  forall_byte (by decide +kernel)

end Text

namespace Field.Name

open Text

variable {bytes : List UInt8} {n m : Name} {fault : Fault}

/-! ## The readers -/

/-- What a reader with this alphabet makes of bytes that stand for this name. -/
def reading (alphabet : UInt8 → Bool) (n : Name) (bytes : List UInt8) : Except Fault Name :=
  if bytes.isEmpty then .error .empty
  else if bytes.all alphabet then .ok n
  else .error .malformed

theorem parse_eq_reading (bytes : List UInt8) : parse bytes = reading isToken ⟨bytes.map toLower⟩ bytes := rfl

theorem parseLower_eq_reading (bytes : List UInt8) : parseLower bytes = reading isLowerToken ⟨bytes⟩ bytes := rfl

section Reading

variable {alphabet : UInt8 → Bool}

theorem reading_eq_ok_iff :
    reading alphabet n bytes = .ok m ↔ bytes ≠ [] ∧ (∀ b ∈ bytes, alphabet b = true) ∧ n = m := by
  unfold reading
  split
  · next h => simp [List.isEmpty_iff.1 h]
  · next h =>
    have hne : bytes ≠ [] := mt List.isEmpty_iff.2 h
    split
    · next hall => rw [Except.ok.injEq, and_iff_right hne, and_iff_right (List.all_eq_true.1 hall)]
    · next hall => simp [mt List.all_eq_true.2 hall]

theorem reading_eq_empty_iff : reading alphabet n bytes = .error .empty ↔ bytes = [] := by
  unfold reading
  split
  · next h => simp [List.isEmpty_iff.1 h]
  · next h =>
    have hne : bytes ≠ [] := mt List.isEmpty_iff.2 h
    split <;> simp [hne]

theorem reading_eq_malformed_iff :
    reading alphabet n bytes = .error .malformed ↔ bytes ≠ [] ∧ ∃ b ∈ bytes, alphabet b = false := by
  unfold reading
  split
  · next h => simp [List.isEmpty_iff.1 h]
  · next h =>
    have hne : bytes ≠ [] := mt List.isEmpty_iff.2 h
    split
    · next hall => simpa [hne] using hall
    · next hall => simpa [hne] using hall

end Reading

theorem parse_eq_ok_iff :
    parse bytes = .ok n ↔ bytes ≠ [] ∧ (∀ b ∈ bytes, isToken b = true) ∧ n.bytes = bytes.map toLower := by
  rw [parse_eq_reading, reading_eq_ok_iff]
  refine and_congr_right fun _ => and_congr_right fun _ => ?_
  cases n
  rw [mk.injEq, eq_comm]

theorem toList_text_of_parse (h : parse bytes = .ok n) :
    n.text.toList = bytes.map fun b => (Char.ofUInt8 b).toLower := by
  rw [text, String.toList_ofList, (parse_eq_ok_iff.1 h).2.2, List.map_map]
  exact List.map_congr_left fun b _ => ofUInt8_toLower b

theorem parseLower_eq_ok_iff :
    parseLower bytes = .ok n ↔ bytes ≠ [] ∧ (∀ b ∈ bytes, isLowerToken b = true) ∧ n.bytes = bytes := by
  rw [parseLower_eq_reading, reading_eq_ok_iff]
  refine and_congr_right fun _ => and_congr_right fun _ => ?_
  cases n
  rw [mk.injEq, eq_comm]

/-- A token is read without capitals just when it is read in any case and nothing changes. -/
theorem parseLower_eq_ok_iff_parse : parseLower bytes = .ok n ↔ parse bytes = .ok n ∧ n.bytes = bytes := by
  constructor
  · intro h
    obtain ⟨hne, hlower, hbytes⟩ := parseLower_eq_ok_iff.1 h
    refine ⟨parse_eq_ok_iff.2 ⟨hne, fun b hb => isToken_of_isLowerToken (hlower b hb), ?_⟩, hbytes⟩
    rw [hbytes]
    conv_lhs => rw [← List.map_id bytes]
    exact List.map_congr_left fun b hb => (toLower_of_isLowerToken b (hlower b hb)).symm
  · rintro ⟨h, rfl⟩
    have hwell := wellFormed_of_parse h
    exact parseLower_eq_ok_iff.2 ⟨hwell.1, hwell.2, rfl⟩

theorem parseLower_bytes (h : n.WellFormed) : parseLower n.bytes = .ok n :=
  parseLower_eq_ok_iff.2 ⟨h.1, h.2, rfl⟩

theorem parse_bytes (h : n.WellFormed) : parse n.bytes = .ok n :=
  (parseLower_eq_ok_iff_parse.1 (parseLower_bytes h)).1

/-! ## Reading byte by byte -/

/-- The table of the reader: what a byte becomes in a name. The highest bit marks a byte that no token has. -/
def table (b : UInt8) : UInt8 := if isToken b then toLower b else 0x80

def isMarked (b : UInt8) : Bool := b &&& 0x80 == 0x80

theorem isMarked_table : ∀ b, isMarked (table b) = !isToken b := forall_byte (by decide +kernel)

/-- Looks the bytes up one by one, and stops at the first that is marked. -/
def scan : List UInt8 → Option (List UInt8)
  | [] => some []
  | b :: bs => if isMarked (table b) then none else (scan bs).map (table b :: ·)

theorem scan_eq (bytes : List UInt8) :
    scan bytes = if bytes.all isToken then some (bytes.map toLower) else none := by
  induction bytes with
  | nil => rfl
  | cons b bs ih =>
    rw [scan, isMarked_table, ih, List.all_cons, List.map_cons]
    cases hb : isToken b with
    | false => rfl
    | true =>
      have htable : table b = toLower b := by rw [table, hb, if_pos rfl]
      rw [htable]
      cases bs.all isToken <;> rfl

theorem parse_eq_scan (bytes : List UInt8) :
    parse bytes =
      if bytes = [] then .error .empty
      else match scan bytes with
        | some looked => .ok ⟨looked⟩
        | none => .error .malformed := by
  rw [parse, scan_eq]
  by_cases hempty : bytes = []
  · rw [hempty]
    rfl
  · rw [if_neg hempty, if_neg (mt List.isEmpty_iff.1 hempty)]
    split
    · rfl
    · rfl

/-- Bytes are read as a name just when they are a token, and the name is the token in small letters. Nothing else is
read if capitals are refused, but that the token has none. Both readers, and literals with them, fail for want of
bytes or else because the bytes are malformed. The spelling of a name is read as that name again. -/
theorem parse_grammar (bytes : List UInt8) :
    ((parse bytes = .error .empty ↔ bytes = []) ∧
      (parse bytes = .error .malformed ↔ bytes ≠ [] ∧ ∃ b ∈ bytes, ¬ IsTokenByte b) ∧
      (∀ n, parse bytes = .ok n ↔ bytes ≠ [] ∧ (∀ b ∈ bytes, IsTokenByte b) ∧ n.bytes = bytes.map toLower) ∧
      (∀ n, parse bytes = .ok n → n.text.toList = bytes.map fun b => (Char.ofUInt8 b).toLower) ∧
      parse bytes =
        if bytes = [] then .error .empty
        else match scan bytes with
          | some looked => .ok ⟨looked⟩
          | none => .error .malformed) ∧
    ((parseLower bytes = .error .empty ↔ bytes = []) ∧
      (parseLower bytes = .error .malformed ↔ bytes ≠ [] ∧ ∀ n, parseLower bytes ≠ .ok n) ∧
      ∀ n, parseLower bytes = .ok n ↔ parse bytes = .ok n ∧ n.bytes = bytes) ∧
    ((∀ n, ofLiteral bytes = .ok n ↔ parseLower bytes = .ok n) ∧
      ∀ message, ofLiteral bytes = .error message ↔
        ∃ fault, parseLower bytes = .error fault ∧ message = fault.message) ∧
    ∀ n : Name, n.Obtained → parse (utf8 n.text) = .ok n ∧ parseLower (utf8 n.text) = .ok n := by
  refine ⟨⟨reading_eq_empty_iff, ?_, fun n => ?_, fun n => toList_text_of_parse, parse_eq_scan bytes⟩,
    ⟨reading_eq_empty_iff, ?_, fun n => parseLower_eq_ok_iff_parse⟩,
    ⟨fun n => mapError_eq_ok_iff, fun message => mapError_eq_error_iff⟩, fun n hn => ?_⟩
  · rw [parse_eq_reading, reading_eq_malformed_iff]
    simp only [← isToken_iff, Bool.not_eq_true]
  · simp only [parse_eq_ok_iff, isToken_iff]
  · cases hread : parseLower bytes with
    | ok n => simp
    | error fault =>
      cases fault with
      | empty => simp [reading_eq_empty_iff.1 hread]
      | malformed => simpa using (reading_eq_malformed_iff.1 hread).1
  · rw [utf8_text hn.wellFormed]
    exact ⟨parse_bytes hn.wellFormed, parseLower_bytes hn.wellFormed⟩

/-! ## Equal names -/

/-- A name is spelled by a text, in whatever case, just when the text is read as that name. So only tokens spell
one. -/
theorem isSpelling_iff (h : n.WellFormed) (t : String) : n.isSpelling t = true ↔ ofText t = .ok n := by
  rw [isSpelling, beq_iff_eq]
  constructor
  · intro hletters
    rw [ofText, ← parse_map_toLower, hletters, parse_map_toLower, parse_bytes h]
  · intro hread
    rw [(parse_eq_ok_iff.1 hread).2.2, List.map_map]
    exact (List.map_congr_left fun b _ => toLower_toLower b).symm

theorem isText_iff (h : n.WellFormed) (t : String) : n.isText t = true ↔ parseLower (utf8 t) = .ok n := by
  rw [isText, beq_iff_eq]
  constructor
  · rintro hbytes
    rw [hbytes, parseLower_bytes h]
  · intro hread
    exact (parseLower_eq_ok_iff.1 hread).2.2.symm

theorem compare_eq_eq_iff (n m : Name) : compare n m = .eq ↔ n = m := by
  have hself : ¬ n < n := List.lt_irrefl n.bytes
  show compareOfLessAndEq n m = .eq ↔ n = m
  unfold compareOfLessAndEq
  constructor
  · intro h
    split at h
    · cases h
    · split at h
      · assumption
      · cases h
  · rintro rfl
    rw [if_neg hself, if_pos rfl]

theorem eq_iff_letters {a b : List UInt8} (hn : parse a = .ok n) (hm : parse b = .ok m) :
    n = m ↔ a.map toLower = b.map toLower := by
  cases n
  cases m
  rw [mk.injEq, ← (parse_eq_ok_iff.1 hn).2.2, ← (parse_eq_ok_iff.1 hm).2.2]

theorem exists_eq_ok_iff {read : Except Fault Name} : (∃ m, read = .ok m ∧ (m == n) = true) ↔ read = .ok n := by
  constructor
  · rintro ⟨m, hread, hm⟩
    rwa [← eq_of_beq hm]
  · exact fun hread => ⟨n, hread, beq_self_eq_true n⟩

/-- A text is equal to a name, but for the case of letters, just when it is read as that name, and exactly equal
just when it is read so without capitals. Two texts that are read are one name just when they have the same letters:
then the names are equal, neither comes before the other, and both have the same hash. -/
theorem same_iff_letters :
    (∀ (n : Name) (t : String), n.Obtained →
      (n.isSpelling t = true ↔ ∃ m, ofText t = .ok m ∧ (m == n) = true) ∧
      (n.isText t = true ↔ ∃ m, parseLower (utf8 t) = .ok m ∧ (m == n) = true)) ∧
    ∀ (a b : List UInt8) (n m : Name), parse a = .ok n → parse b = .ok m →
      ((n == m) = true ↔ a.map toLower = b.map toLower) ∧
      (compare n m = .eq ↔ a.map toLower = b.map toLower) ∧
      (a.map toLower = b.map toLower → hash n = hash m) := by
  refine ⟨fun n t hn => ⟨?_, ?_⟩, fun a b n m hn hm => ⟨?_, ?_, fun hletters => ?_⟩⟩
  · rw [exists_eq_ok_iff, isSpelling_iff hn.wellFormed]
  · rw [exists_eq_ok_iff, isText_iff hn.wellFormed]
  · rw [beq_iff_eq, eq_iff_letters hn hm]
  · rw [compare_eq_eq_iff, eq_iff_letters hn hm]
  · rw [(eq_iff_letters hn hm).2 hletters]

/-- A standard name is spelled in mixed case, and two texts that differ in it are read as names with one hash. -/
theorem same_iff_letters_accept :
    accept.Obtained ∧ accept.isSpelling "ACCept" = true ∧ accept.isText "ACCept" = false ∧
      ∃ n m, parse (utf8 "aCCEPT") = .ok n ∧ parse (utf8 "Accept") = .ok m ∧ compare n m = .eq ∧ hash n = hash m := by
  have hn : accept.Obtained := .inr (.inr (by decide +kernel))
  have hread : ofText "ACCept" = .ok accept := by decide +kernel
  have ha : parse (utf8 "aCCEPT") = .ok accept := by decide +kernel
  have hb : parse (utf8 "Accept") = .ok accept := by decide +kernel
  have hletters : (utf8 "aCCEPT").map toLower = (utf8 "Accept").map toLower := by decide +kernel
  obtain ⟨htexts, htokens⟩ := same_iff_letters
  obtain ⟨-, hcompare, hhash⟩ := htokens _ _ _ _ ha hb
  refine ⟨hn, (htexts accept "ACCept" hn).1.2 ⟨accept, hread, beq_self_eq_true accept⟩, ?_, accept, accept, ha, hb,
    hcompare.2 hletters, hhash hletters⟩
  rw [← Bool.not_eq_true, (htexts accept "ACCept" hn).2, exists_eq_ok_iff]
  decide +kernel

end Field.Name

end HttpFields
