import HttpFields.Field.Standard

/-!
# Guards and policies

The owner of a field store puts a guard over it, which says what the store is for and so which changes it takes. A
policy says for each guard which names a store under that guard may change.

* `Guard` : the guards
* `NameRule.permits` : the names that a rule lets through
* `Policy.rule` : the rule of a guard, of which `immutable` has none
* `Policy.check` : lets a change of a name pass, or gives the reason against it
* `Policy.standard`, `Policy.permissive` : the policy of stores whose owner gave none, and the one
  that forbids no name
-/

namespace HttpFields

open HttpFields.Field

set_option autoImplicit false

/-! ## Guards -/

/-- What a store is for. -/
inductive Guard where
  /-- The fields of a message that has arrived: no change at all. -/
  | immutable
  | request
  /-- The fields of a request that is to be sent without a cross-origin check. -/
  | requestNoCors
  | response
  /-- Fields of no message: every change. -/
  | none
  deriving DecidableEq

namespace Guard

instance : Inhabited Guard := ⟨.none⟩

def label : Guard → String
  | .immutable => "Immutable"
  | .request => "Request"
  | .requestNoCors => "RequestNoCors"
  | .response => "Response"
  | .none => "None"

end Guard

/-! ## Rules on names -/

inductive NameRule where
  | any
  | deny (names : List Name)
  | allowOnly (names : List Name)
  deriving DecidableEq

namespace NameRule

instance : Inhabited NameRule := ⟨.any⟩

def permits : NameRule → Name → Bool
  | .any, _ => true
  | .deny names, n => !names.contains n
  | .allowOnly names, n => names.contains n

end NameRule

/-! ## Reasons against a change -/

/-- Why a store does not take a change. -/
inductive Refusal where
  | immutable
  | forbidden (name : Name)
  deriving DecidableEq

def Refusal.message : Refusal → String
  | .immutable => "headers are immutable"
  | .forbidden name => s!"header \x60{name.text}\x60 is forbidden"

/-! ## Policies -/

/-- The rules of the three guards that an owner may want to rule on. -/
structure Policy where
  request : NameRule := .any
  requestNoCors : NameRule := .any
  response : NameRule := .any
  deriving DecidableEq

namespace Policy

/-- The rule of a guard. Under `immutable` no name matters, and under `none` every name is permitted. -/
def rule (p : Policy) : Guard → Option NameRule
  | .immutable => none
  | .request => some p.request
  | .requestNoCors => some p.requestNoCors
  | .response => some p.response
  | .none => some .any

def check (p : Policy) (g : Guard) (n : Name) : Except Refusal Unit :=
  match p.rule g with
  | none => .error .immutable
  | some rule => if rule.permits n then .ok () else .error (.forbidden n)

def permissive : Policy := {}

/-- Keeps the names that only the sender itself may set out of requests, and all but the harmless
ones out of requests without a cross-origin check. -/
def standard : Policy where
  request := .deny [
    .acceptCharset, .acceptEncoding, .accessControlRequestHeaders, .accessControlRequestMethod,
    .connection, .contentLength, .cookie, .cookie2, .date, .dnt, .expect, .host, .keepAlive, .origin,
    .referer, .setCookie, .te, .trailer, .transferEncoding, .upgrade, .via]
  requestNoCors := .allowOnly [.accept, .acceptLanguage, .contentLanguage, .contentType, .range]
  response := .any

instance : Inhabited Policy := ⟨standard⟩

end Policy

end HttpFields
