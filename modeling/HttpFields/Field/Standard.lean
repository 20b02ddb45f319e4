import HttpFields.Field.Name

/-!
# Standard field names

The registered names that the store and its policies speak of. `setCookie` is the one name whose
values are never joined.
-/

namespace HttpFields.Field.Name

set_option autoImplicit false

/-- A name from its spelling, for spellings that are known to be tokens in lower case. -/
def ofLower (s : String) : Name := ⟨Text.utf8 s⟩

/-! ## Cookies -/

def setCookie : Name := ofLower "set-cookie"
def cookie : Name := ofLower "cookie"
def cookie2 : Name := ofLower "cookie2"

/-! ## Content negotiation -/

def accept : Name := ofLower "accept"
def acceptCharset : Name := ofLower "accept-charset"
def acceptEncoding : Name := ofLower "accept-encoding"
def acceptLanguage : Name := ofLower "accept-language"

/-! ## Message body -/

def contentLength : Name := ofLower "content-length"
def contentType : Name := ofLower "content-type"
def contentLanguage : Name := ofLower "content-language"
def transferEncoding : Name := ofLower "transfer-encoding"

/-! ## Cross-origin requests -/

def accessControlRequestHeaders : Name := ofLower "access-control-request-headers"
def accessControlRequestMethod : Name := ofLower "access-control-request-method"
def origin : Name := ofLower "origin"

/-! ## Connection management -/

def connection : Name := ofLower "connection"
def keepAlive : Name := ofLower "keep-alive"
def host : Name := ofLower "host"
def upgrade : Name := ofLower "upgrade"

/-! ## Other fields -/

def date : Name := ofLower "date"
def dnt : Name := ofLower "dnt"
def expect : Name := ofLower "expect"
def range : Name := ofLower "range"
def referer : Name := ofLower "referer"
def te : Name := ofLower "te"
def trailer : Name := ofLower "trailer"
def via : Name := ofLower "via"

def standard : List Name :=
  [setCookie, cookie, cookie2, accept, acceptCharset, acceptEncoding, acceptLanguage, contentLength,
    contentType, contentLanguage, transferEncoding, accessControlRequestHeaders,
    accessControlRequestMethod, origin, connection, keepAlive, host, upgrade, date, dnt, expect,
    range, referer, te, trailer, via]

theorem wellFormed_of_mem_standard : ∀ n ∈ standard, n.WellFormed := by
  have hall : (standard.all fun n => !n.bytes.isEmpty && n.bytes.all Text.isLowerToken) = true := by decide +kernel
  intro n hn
  have h := List.all_eq_true.mp hall n hn
  rw [Bool.and_eq_true, Bool.not_eq_true', List.isEmpty_eq_false_iff] at h
  exact ⟨h.1, List.all_eq_true.mp h.2⟩

end HttpFields.Field.Name
