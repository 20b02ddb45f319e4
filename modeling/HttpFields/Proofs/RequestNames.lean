import HttpFields.Proofs.Guarding
import HttpFields.Proofs.Verdict

/-!
# Names that are forbidden in requests

A request may not set the names that are up to the sender: some that are listed one by one, and two families of
names with a common beginning. The standard policy knows the listed ones only.

* `Name.Listed`, `Name.InFamily` : the names that are forbidden in requests
* `Policy.permits_standard_request_iff` : the names that the standard policy lets through
* `Name.not_listed_of_inFamily` : no name of the families is among the listed ones
* `Store.standard_request_refuses` : what a request under the standard policy refuses, and what it drops
-/

namespace HttpFields

open HttpFields.Field

set_option autoImplicit false

/-! ## Forbidden names -/

namespace Field.Name

/-- The names that are forbidden one by one. -/
def forbiddenSpellings : List String :=
  ["accept-charset", "accept-encoding", "access-control-request-headers", "access-control-request-method",
    "connection", "content-length", "cookie", "cookie2", "date", "dnt", "expect", "host", "keep-alive", "origin",
    "referer", "set-cookie", "te", "trailer", "transfer-encoding", "upgrade", "via"]

/-- The beginnings of the names that are forbidden as a family. -/
def forbiddenBeginnings : List String := ["proxy-", "sec-"]

def Listed (n : Name) : Prop := ∃ spelling ∈ forbiddenSpellings, n.bytes = Text.utf8 spelling

def InFamily (n : Name) : Prop := ∃ beginning ∈ forbiddenBeginnings, Text.utf8 beginning <+: n.bytes

instance (n : Name) : Decidable n.Listed :=
  inferInstanceAs (Decidable (∃ spelling ∈ forbiddenSpellings, n.bytes = Text.utf8 spelling))

instance (n : Name) : Decidable n.InFamily :=
  inferInstanceAs (Decidable (∃ beginning ∈ forbiddenBeginnings, Text.utf8 beginning <+: n.bytes))

theorem not_listed_of_inFamily {n : Name} (h : n.InFamily) : ¬ n.Listed := by
  have hapart : (forbiddenSpellings.all fun spelling => forbiddenBeginnings.all fun beginning =>
      !(Text.utf8 beginning).isPrefixOf (Text.utf8 spelling)) = true := by decide +kernel
  rintro ⟨spelling, hspelling, hbytes⟩
  obtain ⟨beginning, hbeginning, hfront⟩ := h
  have hnot := List.all_eq_true.1 (List.all_eq_true.1 hapart spelling hspelling) beginning hbeginning
  rw [hbytes, ← List.isPrefixOf_iff_prefix] at hfront
  rw [hfront] at hnot
  contradiction

end Field.Name

/-! ## The standard policy -/

namespace Policy

theorem permits_standard_request_iff (n : Name) : standard.request.permits n = true ↔ ¬ n.Listed := by
  have hrule : standard.request = .deny (Name.forbiddenSpellings.map Name.ofLower) := rfl
  rw [hrule, NameRule.permits, Bool.not_eq_true', List.contains_eq_mem, decide_eq_false_iff_not, List.mem_map,
    not_iff_not]
  refine exists_congr fun spelling => and_congr_right fun _ => ?_
  cases n
  rw [Name.ofLower, Name.mk.injEq]
  exact eq_comm

theorem keeps_standard_request (n : Name) : standard.keeps .request n = decide (¬ n.Listed) :=
  Bool.eq_iff_iff.2 ((permits_standard_request_iff n).trans decide_eq_true_iff.symm)

end Policy

/-! ## Requests under the standard policy -/

namespace Store

theorem after_underGuard_standard (t : Store) :
    t.after (.underGuard .request .standard) =
      ⟨t.fields.filter fun f => decide (¬ f.name.Listed), .request, .standard⟩ := by
  have hkeeps : Policy.standard.keeps .request = fun n => decide (¬ n.Listed) :=
    funext Policy.keeps_standard_request
  rw [after_underGuard, hkeeps]
  rfl

/-- A request under the standard policy refuses a command on one name just when the name, which is the text in small
letters, is listed, and carries it out if not. No name of the families is listed. The guard drops the stored fields
with listed names, so those with names of the families stay. -/
theorem standard_request_refuses {s : Store} (hguard : s.guard = .request) (hpolicy : s.policy = .standard)
    {c : Command} {op : Operation} {name : String} {value? : Option String}
    (hc : c.parts? = some (op, name, value?)) {n : Name} (hname : Name.ofText name = .ok n)
    (hvalue : ∀ value ∈ value?, ∃ v, Value.normalize value = .ok v) :
    n.bytes = (Text.utf8 name).map Text.toLower ∧
    (s.outcome c = .error ⟨op, .refused (.forbidden n)⟩ ↔ n.Listed) ∧
    ((∃ t, s.outcome c = .ok t) ↔ ¬ n.Listed) ∧
    (n.InFamily → ¬ n.Listed) ∧
    ∀ t : Store, t.after (.underGuard .request .standard) =
        ⟨t.fields.filter (fun f => decide (¬ f.name.Listed)), .request, .standard⟩ ∧
      ∀ f ∈ t.fields, f.name.InFamily → f ∈ (t.after (.underGuard .request .standard)).fields := by
  have hverdict := s.verdict_reply hc
  have hrule : s.policy.rule s.guard = some Policy.standard.request := by
    rw [hguard, hpolicy]
    rfl
  have hpermits := Policy.permits_standard_request_iff n
  refine ⟨Name.bytes_of_ofText hname, ?_, ?_, Name.not_listed_of_inFamily, fun t => ⟨after_underGuard_standard t, ?_⟩⟩
  · rw [← reply_eq_error_iff, hverdict.eq_forbidden_iff hname hvalue, hrule]
    simp [← Bool.not_eq_true, hpermits]
  · rw [← reply_eq_ok_iff, hverdict.eq_ok_iff hname hvalue, hrule]
    simp [hpermits]
  · intro f hf hfamily
    rw [after_underGuard_standard]
    exact List.mem_filter.2 ⟨hf, decide_eq_true (Name.not_listed_of_inFamily hfamily)⟩

/-- A request refuses `Host`, and drops it. It takes `Proxy-Authorization`, and keeps it. -/
theorem standard_request_refuses_host :
    ∃ (s t : Store) (n : Name), s = ⟨[], .request, .standard⟩ ∧ n = .ofLower "proxy-authorization" ∧ n.InFamily ∧
      s.outcome (.append "Host" "a") = .error ⟨.append, .refused (.forbidden .host)⟩ ∧
      (∃ u, s.outcome (.append "Proxy-Authorization" "a") = .ok u) ∧
      t.fields = [⟨.host, ⟨"a"⟩⟩, ⟨n, ⟨"a"⟩⟩] ∧
      (t.after (.underGuard .request .standard)).fields = [⟨n, ⟨"a"⟩⟩] := by
  let s : Store := ⟨[], .request, .standard⟩
  let n : Name := .ofLower "proxy-authorization"
  let t : Store := .ofFields [⟨.host, ⟨"a"⟩⟩, ⟨n, ⟨"a"⟩⟩]
  have hlisted : Name.host.Listed := ⟨"host", by simp [Name.forbiddenSpellings], rfl⟩
  have hfamily : n.InFamily := ⟨"proxy-", List.mem_cons_self, by
    rw [← List.isPrefixOf_iff_prefix]
    decide +kernel⟩
  have hvalue : ∀ value ∈ some "a", ∃ v, Value.normalize value = .ok v :=
    fun _ h => Option.mem_some.1 h ▸ ⟨⟨"a"⟩, by decide +kernel⟩
  obtain ⟨-, hrefused, -⟩ := standard_request_refuses (s := s) rfl rfl (c := .append "Host" "a") rfl
    (n := .host) (by decide +kernel) hvalue
  obtain ⟨-, -, hpassed, hnot, hguarded⟩ := standard_request_refuses (s := s) rfl rfl
    (c := .append "Proxy-Authorization" "a") rfl (n := n) (by decide +kernel) hvalue
  refine ⟨s, t, n, rfl, rfl, hfamily, hrefused.2 hlisted, hpassed.2 (hnot hfamily), rfl, ?_⟩
  rw [(hguarded t).1]
  simp [t, ofFields, hlisted, hnot hfamily]

/-- A request takes a name of the second family, and keeps one of the first. -/
theorem standard_request_takes_family :
    ∃ (s t : Store) (sec proxy : Name), s = ⟨[], .request, .standard⟩ ∧ sec = .ofLower "sec-fetch-mode" ∧
      proxy = .ofLower "proxy-authorization" ∧ sec.InFamily ∧ proxy.InFamily ∧
      s.outcome (.append "Sec-Fetch-Mode" "cors") = .ok ⟨[⟨sec, ⟨"cors"⟩⟩], .request, .standard⟩ ∧
      t.fields = [⟨proxy, ⟨"a"⟩⟩] ∧ t.after (.underGuard .request .standard) = ⟨t.fields, .request, .standard⟩ := by
  refine ⟨⟨[], .request, .standard⟩, .ofFields [⟨.ofLower "proxy-authorization", ⟨"a"⟩⟩], _, _,
    rfl, rfl, rfl, ?_, ?_, ?_, rfl, ?_⟩
  · decide +kernel
  · decide +kernel
  · decide +kernel
  · decide +kernel

end Store

end HttpFields
