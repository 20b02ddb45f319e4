import HttpFields.Text.Unprintable

/-!
# Diagnostic forms

A diagnostic shows how a value is built, on one line. Its form is a small tree, and all forms are
written by the same rules.

* `Text.escape`, `Text.quoted` : a text between quotation marks, with an escape for each character that would not be
  seen
* `Form` : the trees
* `Form.write` : the text of a form
-/

namespace HttpFields

set_option autoImplicit false

/-! ## Quoted texts -/

namespace Text

/-- What stands for a character between the quotation marks: a letter behind a backslash, its code
point in hexadecimal, or the character itself. -/
def escape (c : Char) : List Char :=
  match c with
  | '"' => ['\\', '"']
  | '\\' => ['\\', '\\']
  | '\n' => ['\\', 'n']
  | '\r' => ['\\', 'r']
  | '\t' => ['\\', 't']
  | '\x00' => ['\\', '0']
  | c =>
    if isUnprintable c then "\\u\x7b".toList ++ Nat.toDigits 16 c.toNat ++ ['\x7d']
    else [c]

def quoted (s : String) : String := String.ofList ('"' :: (s.toList.flatMap escape ++ ['"']))

example : quoted "a\"\n\u0301é" = "\"a\\\"\\n\\u\x7b301\x7dé\"" := by decide +kernel

end Text

/-! ## Forms -/

namespace Diagnostic

/-- How a value is built. -/
inductive Form where
  | word (text : String)
  | quoted (text : String)
  | entry (key value : Form)
  /-- Parts in a fixed order, under a name that may be empty. -/
  | tuple (name : String) (parts : List Form)
  | block (name : String) (parts : List Form)
  | list (parts : List Form)
  | map (parts : List Form)

namespace Form

mutual

def write : Form → String
  | .word text => text
  | .quoted text => Text.quoted text
  | .entry key value => write key ++ ": " ++ write value
  | .tuple name parts => name ++ "(" ++ ", ".intercalate (writeAll parts) ++ ")"
  | .block name parts => name ++ " \x7b " ++ ", ".intercalate (writeAll parts) ++ " \x7d"
  | .list parts => "[" ++ ", ".intercalate (writeAll parts) ++ "]"
  | .map parts => "\x7b" ++ ", ".intercalate (writeAll parts) ++ "\x7d"

def writeAll : List Form → List String
  | [] => []
  | form :: forms => write form :: writeAll forms

end

def part (label : String) (value : Form) : Form := .entry (.word label) value

def natural (n : Nat) : Form := .word (String.ofList (Nat.toDigits 10 n))

end Form

end Diagnostic

end HttpFields
