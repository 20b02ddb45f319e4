/-!
# Characters of names and values

Field names are written in the token alphabet: letters, digits and fifteen marks, all of them ASCII. Four blank
characters pad a field value.

* `isToken` : the token alphabet; `isLowerToken` : the alphabet without the capital letters
* `toLower` : the ASCII case map, which keeps every other byte
* `utf8` : the bytes of a text
* `isBlank` : tab, line feed, carriage return and space; `strip` : a text without the blanks around it
-/

namespace HttpFields.Text

set_option autoImplicit false

/-! ## Tokens -/

def isUpper (b : UInt8) : Bool := 0x41 ≤ b && b ≤ 0x5a

def isLower (b : UInt8) : Bool := 0x61 ≤ b && b ≤ 0x7a

def isDigit (b : UInt8) : Bool := 0x30 ≤ b && b ≤ 0x39

/-- The marks of the alphabet, in byte order: `! # $ % & ' * + - . ^ _`, the grave accent, `|` and `~`. -/
def tokenMarks : List UInt8 :=
  [0x21, 0x23, 0x24, 0x25, 0x26, 0x27, 0x2a, 0x2b, 0x2d, 0x2e, 0x5e, 0x5f, 0x60, 0x7c, 0x7e]

def isLowerToken (b : UInt8) : Bool := isLower b || isDigit b || tokenMarks.contains b

def isToken (b : UInt8) : Bool := isUpper b || isLowerToken b

def toLower (b : UInt8) : UInt8 := if isUpper b then b + 0x20 else b

theorem forall_byte {p : UInt8 → Prop} (h : ∀ n : Fin 256, p ⟨⟨n⟩⟩) (b : UInt8) : p b := h b.toFin

theorem isLowerToken_toLower : ∀ b, isToken b = true → isLowerToken (toLower b) = true :=
  forall_byte (by decide +kernel)

theorem toLower_of_isLowerToken : ∀ b, isLowerToken b = true → toLower b = b :=
  forall_byte (by decide +kernel)

def utf8 (s : String) : List UInt8 := s.toUTF8.data.toList

/-! ## Blanks -/

def isBlank (c : Char) : Bool := c == '\t' || c == '\n' || c == '\r' || c == ' '

/-- A text without the blanks in front of it and behind it; inner blanks stay. -/
def strip (cs : List Char) : List Char :=
  ((cs.dropWhile isBlank).reverse.dropWhile isBlank).reverse

end HttpFields.Text
