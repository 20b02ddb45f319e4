import HttpFields.Proofs.Independence
import HttpFields.Proofs.InPlace
import HttpFields.Proofs.Pairs

/-!
# Verdicts on commands

A command on one name fails with the first thing that is wrong: its name, then its value, then what the guard
says about the name. What is stored plays no part in that, and no field of another name is touched.

* `Command.parts?` : the operation and the texts of a command on one name
* `Store.Verdict` : the rules by which the caller is answered; `Store.verdict_reply` : commands keep to them
* `Store.Verdict.unique` : no more than one rule applies; `Store.Verdict.eq_badName_iff` and its like : when
* `Edit.filter_onFields` : an edit keeps the fields of all other names
* `Store.outcome_of_parts` : when a command fails and with what, and what a successful one leaves alone
-/

namespace HttpFields

open HttpFields.Field

set_option autoImplicit false

/-! ## The parts of a command -/

/-- The operation, the name and the value of a command on one name. A deletion has no value. -/
def Command.parts? : Command → Option (Operation × String × Option String)
  | .append name value | .appendIfAbsent name value => some (.append, name, some value)
  | .set name value => some (.set, name, some value)
  | .delete name => some (.delete, name, none)
  | .extend _ | .clear | .underGuard _ _ => none

theorem Command.name?_of_parts? {c : Command} {op : Operation} {name : String} {value? : Option String}
    (h : c.parts? = some (op, name, value?)) : c.name? = some name := by
  cases c with
  | append name value | appendIfAbsent name value | set name value | delete name =>
    cases h
    rfl
  | extend fields | clear | underGuard guard policy => cases h

theorem Field.Name.bytes_of_ofText {text : String} {n : Name} (h : ofText text = .ok n) :
    n.bytes = (Text.utf8 text).map Text.toLower := by
  unfold ofText parse at h
  split at h
  · cases h
  · split at h
    · cases h
      rfl
    · cases h

/-! ## Verdicts -/

namespace Store

/-- What the caller is to hear of an operation on a name and perhaps a value: the first thing that is wrong. -/
inductive Verdict (s : Store) (op : Operation) (name : String) (value? : Option String) :
    Except Failure Unit → Prop where
  | badName {fault : Fault} (h : Name.ofText name = .error fault) :
    Verdict s op name value? (.error ⟨op, .badName fault⟩)
  | badValue {n : Name} {value : String} {fault : Fault} (hname : Name.ofText name = .ok n)
    (hvalue : value ∈ value?) (h : Value.normalize value = .error fault) :
    Verdict s op name value? (.error ⟨op, .badValue fault⟩)
  | immutable {n : Name} (hname : Name.ofText name = .ok n)
    (hvalue : ∀ value ∈ value?, ∃ v, Value.normalize value = .ok v) (h : s.guard = .immutable) :
    Verdict s op name value? (.error ⟨op, .refused .immutable⟩)
  | forbidden {n : Name} {rule : NameRule} (hname : Name.ofText name = .ok n)
    (hvalue : ∀ value ∈ value?, ∃ v, Value.normalize value = .ok v)
    (hrule : s.policy.rule s.guard = some rule) (h : rule.permits n = false) :
    Verdict s op name value? (.error ⟨op, .refused (.forbidden n)⟩)
  | permitted {n : Name} {rule : NameRule} (hname : Name.ofText name = .ok n)
    (hvalue : ∀ value ∈ value?, ∃ v, Value.normalize value = .ok v)
    (hrule : s.policy.rule s.guard = some rule) (h : rule.permits n = true) :
    Verdict s op name value? (.ok ())

variable {s : Store} {c : Command} {op : Operation} {name : String} {value? : Option String}

theorem verdict_permit {n : Name} (hname : Name.ofText name = .ok n)
    (hvalue : ∀ value ∈ value?, ∃ v, Value.normalize value = .ok v) :
    s.Verdict op name value? (s.permit op n) := by
  unfold permit Policy.permit Policy.check
  cases hrule : s.policy.rule s.guard with
  | none => exact .immutable hname hvalue (Policy.rule_eq_none_iff.1 hrule)
  | some rule =>
    cases hn : rule.permits n with
    | true => simpa [hn] using Verdict.permitted hname hvalue hrule hn
    | false => simpa [hn] using Verdict.forbidden hname hvalue hrule hn

theorem map_ask_then_return (ask : Except Failure Unit) (t : Store) :
    Except.map (fun _ => ()) (ask >>= fun _ => .ok t) = ask := by
  cases ask <;> rfl

theorem verdict_field (s : Store) (op : Operation) (name value : String) (make : Field → Store) :
    Verdict s op name (some value) (Except.map (fun _ => ()) do
      let f ← op.readField name value
      s.permit op f.name
      return make f) := by
  rcases Field.isReadAs_or_faulty (name, value) with ⟨f, hf⟩ | ⟨cause, hfaulty⟩
  · have hread : op.readField name value = .ok f := Operation.readField_of_isReadAs hf
    have hpermit : Verdict s op name (some value) (s.permit op f.name) :=
      verdict_permit hf.1 fun _ hv => Option.mem_some.1 hv ▸ ⟨f.value, hf.2⟩
    -- What is made of the field is not heard, so the answer is that of the guard.
    rw [hread]
    rwa [← map_ask_then_return (s.permit op f.name) (make f)] at hpermit
  · have hread : op.readField name value = .error ⟨op, cause⟩ := Operation.readField_of_faulty hfaulty
    rw [hread]
    cases hfaulty with
    | name h => exact .badName h
    | value hname h => exact .badValue hname rfl h

theorem verdict_name (s : Store) (op : Operation) (name : String) (make : Name → Store) :
    Verdict s op name none (Except.map (fun _ => ()) do
      let n ← op.readName name
      s.permit op n
      return make n) := by
  cases hname : Name.ofText name with
  | error fault =>
    have hread : op.readName name = .error ⟨op, .badName fault⟩ := by rw [Operation.readName, hname]
    rw [hread]
    exact .badName hname
  | ok n =>
    have hread : op.readName name = .ok n := by rw [Operation.readName, hname]
    have hpermit : Verdict s op name none (s.permit op n) :=
      verdict_permit hname fun value hvalue => absurd hvalue (Option.not_mem_none value)
    rw [hread]
    rwa [← map_ask_then_return (s.permit op n) (make n)] at hpermit

theorem verdict_reply (s : Store) (hc : c.parts? = some (op, name, value?)) :
    s.Verdict op name value? (s.reply c) := by
  cases c with
  | append name value =>
    cases hc
    rw [reply, outcome, apply, result_append]
    exact s.verdict_field _ _ _ _
  | appendIfAbsent name value =>
    cases hc
    rw [reply, outcome, apply, result_appendIfAbsent]
    exact s.verdict_field _ _ _ _
  | set name value =>
    cases hc
    rw [reply, outcome, apply, result_set]
    exact s.verdict_field _ _ _ _
  | delete name =>
    cases hc
    rw [reply, outcome, apply, result_delete]
    exact s.verdict_name _ _ _
  | extend fields => cases hc
  | clear => cases hc
  | underGuard guard policy => cases hc

/-- The rules exclude each other. -/
theorem Verdict.unique {x y : Except Failure Unit} (hx : s.Verdict op name value? x)
    (hy : s.Verdict op name value? y) : x = y := by
  cases hx with
  | badName h => cases hy <;> simp_all
  | badValue hname hvalue h => cases hy <;> simp_all
  | immutable hname hvalue h => cases hy <;> simp_all [Policy.rule]
  | forbidden hname hvalue hrule h => cases hy <;> simp_all [Policy.rule]
  | permitted hname hvalue hrule h => cases hy <;> simp_all [Policy.rule]

section

variable {x : Except Failure Unit} {n : Name}

theorem Verdict.eq_badName_iff {fault : Fault} (hx : s.Verdict op name value? x) :
    x = .error ⟨op, .badName fault⟩ ↔ Name.ofText name = .error fault := by
  refine ⟨?_, fun h => hx.unique (.badName h)⟩
  rintro rfl
  cases hx with
  | badName h => exact h

theorem Verdict.eq_badValue_iff {fault : Fault} (hx : s.Verdict op name value? x)
    (hname : Name.ofText name = .ok n) :
    x = .error ⟨op, .badValue fault⟩ ↔ ∃ value ∈ value?, Value.normalize value = .error fault := by
  refine ⟨?_, fun ⟨value, hvalue, h⟩ => hx.unique (.badValue hname hvalue h)⟩
  rintro rfl
  cases hx with
  | badValue _ hvalue h => exact ⟨_, hvalue, h⟩

theorem Verdict.eq_immutable_iff (hx : s.Verdict op name value? x) (hname : Name.ofText name = .ok n)
    (hvalue : ∀ value ∈ value?, ∃ v, Value.normalize value = .ok v) :
    x = .error ⟨op, .refused .immutable⟩ ↔ s.guard = .immutable := by
  refine ⟨?_, fun h => hx.unique (.immutable hname hvalue h)⟩
  rintro rfl
  cases hx with
  | immutable _ _ h => exact h

theorem Verdict.eq_forbidden_iff {m : Name} (hx : s.Verdict op name value? x) (hname : Name.ofText name = .ok n)
    (hvalue : ∀ value ∈ value?, ∃ v, Value.normalize value = .ok v) :
    x = .error ⟨op, .refused (.forbidden m)⟩ ↔
      m = n ∧ ∃ rule, s.policy.rule s.guard = some rule ∧ rule.permits n = false := by
  constructor
  · rintro rfl
    cases hx with
    | forbidden hm _ hrule h =>
      obtain rfl : m = n := Except.ok.inj (hm.symm.trans hname)
      exact ⟨rfl, _, hrule, h⟩
  · rintro ⟨rfl, rule, hrule, h⟩
    exact hx.unique (.forbidden hname hvalue hrule h)

theorem Verdict.eq_ok_iff (hx : s.Verdict op name value? x) (hname : Name.ofText name = .ok n)
    (hvalue : ∀ value ∈ value?, ∃ v, Value.normalize value = .ok v) :
    x = .ok () ↔ ∃ rule, s.policy.rule s.guard = some rule ∧ rule.permits n = true := by
  refine ⟨?_, fun ⟨rule, hrule, h⟩ => hx.unique (.permitted hname hvalue hrule h)⟩
  rintro rfl
  cases hx with
  | permitted hm _ hrule h =>
    cases hm.symm.trans hname
    exact ⟨_, hrule, h⟩

theorem Verdict.ne_forbidden (hx : s.Verdict op name value? x) (hguard : s.guard = .none) (m : Name) :
    x ≠ .error ⟨op, .refused (.forbidden m)⟩ := by
  rintro rfl
  cases hx with
  | forbidden _ _ hrule h =>
    rw [hguard] at hrule
    cases hrule
    cases h

end

end Store

/-! ## The fields of other names -/

theorem Edit.filter_onFields (e : Edit) (fs : Fields) :
    (e.onFields fs).filter (·.name ≠ e.name) = fs.filter (·.name ≠ e.name) := by
  have hretain := e.retain_onFields fs fun n => decide (n ≠ e.name)
  rwa [if_neg (by simp)] at hretain

theorem Store.edited_of_outcome {s t : Store} {c : Command} {name : String} {n : Name} (hc : c.name? = some name)
    (hname : Name.ofText name = .ok n) (h : s.outcome c = .ok t) :
    ∃ e : Edit, e.name = n ∧ t = { s with fields := e.onFields s.fields } := by
  obtain ⟨read, hedits, hread⟩ := Command.exists_edits hc
  obtain ⟨e, he, -, rfl⟩ := ask_then_eq_ok_iff.1 ((hedits s).symm.trans h)
  refine ⟨e, ?_, rfl⟩
  rw [hread e he] at hname
  exact Except.ok.inj hname

/-! ## When commands fail -/

/-- A command on one name fails for its name just when that is none. Its name is then the text in small letters,
and the command fails for its value just when that is none. If neither is at fault then the guard decides: the
command fails because the guard is `immutable`, or because the rule of the guard does not let the name through, or
it succeeds. A failed command leaves the store as it is, also if it is carried out in the store itself, and a
successful one leaves the guard, the policy and the fields of all other names. -/
theorem Store.outcome_of_parts (s : Store) {c : Command} {op : Operation} {name : String}
    {value? : Option String} (hc : c.parts? = some (op, name, value?)) :
    (∀ fault, s.outcome c = .error ⟨op, .badName fault⟩ ↔ Name.ofText name = .error fault) ∧
    (∀ n, Name.ofText name = .ok n → n.bytes = (Text.utf8 name).map Text.toLower ∧
      (∀ fault, s.outcome c = .error ⟨op, .badValue fault⟩ ↔
        ∃ value ∈ value?, Value.normalize value = .error fault) ∧
      ((∀ value ∈ value?, ∃ v, Value.normalize value = .ok v) →
        (s.outcome c = .error ⟨op, .refused .immutable⟩ ↔ s.guard = .immutable) ∧
        (∀ m, s.outcome c = .error ⟨op, .refused (.forbidden m)⟩ ↔
          m = n ∧ ∃ rule, s.policy.rule s.guard = some rule ∧ rule.permits n = false) ∧
        ((∃ t, s.outcome c = .ok t) ↔
          ∃ rule, s.policy.rule s.guard = some rule ∧ rule.permits n = true)) ∧
      ∀ t, s.outcome c = .ok t → s.after c = t ∧ s.inPlace c = (.ok (), t) ∧ t.guard = s.guard ∧
        t.policy = s.policy ∧ t.fields.filter (·.name ≠ n) = s.fields.filter (·.name ≠ n)) ∧
    (s.guard = .none → ∀ m, s.outcome c ≠ .error ⟨op, .refused (.forbidden m)⟩) ∧
    ∀ failure, s.outcome c = .error failure → s.after c = s ∧ s.inPlace c = (.error failure, s) := by
  have hverdict : s.Verdict op name value? (s.reply c) := s.verdict_reply hc
  simp only [← reply_eq_error_iff, ← reply_eq_ok_iff, ne_eq]
  refine ⟨fun fault => hverdict.eq_badName_iff, fun n hname => ⟨Name.bytes_of_ofText hname, fun fault => ?_,
    fun hvalue => ⟨?_, fun m => ?_, ?_⟩, fun t ht => ?_⟩, fun hguard m => ?_, fun failure h => ?_⟩
  · exact hverdict.eq_badValue_iff hname
  · exact hverdict.eq_immutable_iff hname hvalue
  · exact hverdict.eq_forbidden_iff hname hvalue
  · exact hverdict.eq_ok_iff hname hvalue
  · obtain ⟨e, rfl, rfl⟩ := edited_of_outcome (Command.name?_of_parts? hc) hname ht
    exact ⟨after_of_ok ht, inPlace_of_ok ht, rfl, rfl, e.filter_onFields s.fields⟩
  · exact hverdict.ne_forbidden hguard m
  · have herror := reply_eq_error_iff.1 h
    exact ⟨after_of_error herror, inPlace_of_error herror⟩

/-- A request refuses a further `host` even where one is stored, so that there is nothing to add. -/
theorem Store.outcome_of_parts_host :
    ∃ (s : Store) (c : Command), s.fields = [⟨.host, ⟨"a"⟩⟩] ∧ s.guard = .request ∧
      c = .appendIfAbsent "HOST" "b" ∧ c.parts? = some (.append, "HOST", some "b") ∧
      s.outcome c = .error ⟨.append, .refused (.forbidden .host)⟩ ∧ s.after c = s ∧
      s.inPlace c = (.error ⟨.append, .refused (.forbidden .host)⟩, s) := by
  let s : Store := ⟨[⟨.host, ⟨"a"⟩⟩], .request, .standard⟩
  let c : Command := .appendIfAbsent "HOST" "b"
  have hparts : c.parts? = some (.append, "HOST", some "b") := rfl
  have hname : Name.ofText "HOST" = .ok .host := by decide +kernel
  have hvalue : ∀ value ∈ some "b", ∃ v, Value.normalize value = .ok v :=
    fun _ h => Option.mem_some.1 h ▸ ⟨⟨"b"⟩, by decide +kernel⟩
  obtain ⟨-, hread, -, hfailed⟩ := Store.outcome_of_parts s hparts
  have hforbidden := ((hread .host hname).2.2.1 hvalue).2.1 .host
  have hout : s.outcome c = .error ⟨.append, .refused (.forbidden .host)⟩ :=
    hforbidden.2 ⟨rfl, _, rfl, by decide +kernel⟩
  exact ⟨s, c, rfl, rfl, rfl, hparts, hout, hfailed _ hout⟩

end HttpFields
