import HttpFields.Diagnostic.Form
import HttpFields.Store.Basic

/-!
# Diagnostics of values, stores and failures

The forms of script values, keys and exceptions; of names, values, stores and cursors; and of failures with all that
can lie behind one. Of an object no more is shown than that it is one, and a store is shown by its snapshot.
-/

namespace HttpFields

open Diagnostic

set_option autoImplicit false

/-! ## Script values -/

namespace Script

def Key.form : Key → Form
  | .string text => .tuple "String" [.quoted text]
  | .symbol description => .tuple "Symbol" [.quoted description]

def Thrown.form (e : Thrown) : Form := .block "HostError" [.part "message" (.quoted e.message)]

/-- Numbers have their diagnostic numeral. -/
def Primitive.form : Primitive → Form
  | .undefined => .word "undefined"
  | .null => .word "null"
  | .boolean b => .word (if b then "true" else "false")
  | .number x => .word (Decimal.Layout.diagnostic.write x)
  | .string text => .quoted text

def Value.form {ω : Type} : Value ω → Form
  | .primitive p => p.form
  | .object _ => .word "[object]"

end Script

/-! ## Fields and stores -/

namespace Field

def Name.form (n : Name) : Form := .tuple "HeaderName" [.quoted n.text]

def Value.form (v : Value) : Form := .tuple "HeaderValue" [.quoted v.text]

end Field

def Store.form (s : Store) : Form :=
  .map (s.snapshot.map fun f => .entry (.quoted f.name.text) (.quoted f.value.text))

namespace Cursor

def form (c : Cursor) : Form :=
  .block "Iter" [.part "iter"
    (.tuple "IntoIter" [.list (c.rest.map fun f => .tuple "" [f.name.form, f.value.form])])]

def namesForm (c : Cursor) : Form := .block "Keys" [.part "iter" c.form]

def valuesForm (c : Cursor) : Form := .block "Values" [.part "iter" c.form]

end Cursor

/-! ## Failures -/

def Field.Fault.form : Field.Fault → Form
  | .empty => .word "Empty"
  | .malformed => .word "Invalid"

def Refusal.form : Refusal → Form
  | .immutable => .word "Immutable"
  | .forbidden name => .tuple "Forbidden" [name.form]

def ShapeFault.form : ShapeFault → Form
  | .notObject => .word "NotObject"
  | .notPair index => .block "NotPair" [.part "index" (.natural index)]
  | .pairLength index items =>
    .block "PairLength" [.part "index" (.natural index), .part "len" (.natural items)]
  | .symbolKey => .word "SymbolKey"

def Cause.form : Cause → Form
  | .badName fault => .tuple "InvalidName" [fault.form]
  | .badValue fault => .tuple "InvalidValue" [fault.form]
  | .refused refusal => .tuple "Guard" [refusal.form]
  | .badShape fault => .tuple "Shape" [fault.form]
  | .thrown exception => .tuple "Host" [exception.form]

def Failure.form (f : Failure) : Form :=
  .block "HeadersError" [.part "operation" (.quoted f.operation.label), .part "kind" f.cause.form]

end HttpFields
