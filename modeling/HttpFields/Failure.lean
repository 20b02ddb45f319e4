import HttpFields.Field.Name
import HttpFields.Policy
import HttpFields.Script.Value

/-!
# Failures of store operations

A failure says which operation failed, and for what cause.

* `Operation` : the operations that can fail
* `ShapeFault` : what is wrong with an initial value that is no list of pairs
* `Cause` : the causes
* `Failure.message` : the text of a failure, and `Failure.source` : the text of a deeper cause
-/

namespace HttpFields

open HttpFields.Field

set_option autoImplicit false

/-! ## Operations -/

inductive Operation where
  | construct
  | append
  | set
  | delete
  | get
  | has
  deriving DecidableEq

def Operation.label : Operation → String
  | .construct => "Headers"
  | .append => "Headers.append"
  | .set => "Headers.set"
  | .delete => "Headers.delete"
  | .get => "Headers.get"
  | .has => "Headers.has"

/-! ## Causes -/

/-- What is wrong with an initial value that yields no list of pairs. -/
inductive ShapeFault where
  | notObject
  | notPair (index : Nat)
  | pairLength (index items : Nat)
  | symbolKey
  deriving DecidableEq

def ShapeFault.message : ShapeFault → String
  | .notObject => "init must be a sequence of pairs or a record"
  | .notPair index => s!"element {index} is not a header pair"
  | .pairLength index items => s!"element {index} must contain exactly 2 items, found {items}"
  | .symbolKey => "record key cannot be a symbol"

/-- Why an operation failed. -/
inductive Cause where
  | badName (fault : Fault)
  | badValue (fault : Fault)
  | refused (refusal : Refusal)
  | badShape (fault : ShapeFault)
  | thrown (exception : Script.Thrown)
  deriving DecidableEq

namespace Cause

def message : Cause → String
  | .badName fault => s!"invalid header name, {fault.message}"
  | .badValue fault => s!"invalid header value, {fault.message}"
  | .refused refusal => refusal.message
  | .badShape fault => fault.message
  | .thrown exception => exception.message

/-- The text of what lies behind a cause, if that is something of its own. -/
def source : Cause → Option String
  | .badName fault | .badValue fault => some fault.message
  | .refused _ | .badShape _ => none
  | .thrown exception => some exception.message

def isValidation : Cause → Bool
  | .badName _ | .badValue _ => true
  | _ => false

def isRefusal : Cause → Bool
  | .refused _ => true
  | _ => false

def isShape : Cause → Bool
  | .badShape _ => true
  | _ => false

end Cause

/-! ## Failures -/

structure Failure where
  operation : Operation
  cause : Cause
  deriving DecidableEq

namespace Failure

def message (f : Failure) : String := s!"{f.operation.label}: {f.cause.message}"

def source (f : Failure) : Option String := f.cause.source

end Failure

end HttpFields
