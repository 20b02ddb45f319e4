import HttpFields.Proofs.Edit
import HttpFields.Proofs.History

/-!
# Guards over whole runs

A guard is asked about every change, and drops what it does not permit when it is put over a store. So it does
not matter whether a store is guarded from the start or in the end.

* `Reachable.permits_stored` : the guard lets every stored name through, so every field can be removed unless
  the store is immutable
* `Store.after_underGuard_comm` : a guard may be put over a store before a command as well as after it
* `Store.run_underGuard_comm` : and so for a run
-/

namespace HttpFields

open HttpFields.Field Script

set_option autoImplicit false

/-! ## What a guarded store lets through -/

namespace Policy

variable {p : Policy} {g : Guard} {rule : NameRule}

theorem ne_immutable_of_rule (h : p.rule g = some rule) : g ≠ .immutable := by
  rintro rfl
  cases h

theorem keeps_of_rule (h : p.rule g = some rule) (n : Name) : p.keeps g n = rule.permits n := by
  rw [keeps, h]

end Policy

namespace Store

theorem rule_of_guarded {s : Store} (h : s.Guarded) (hg : s.guard ≠ .immutable) :
    ∃ rule, s.policy.rule s.guard = some rule ∧ ∀ f ∈ s.fields, rule.permits f.name = true := by
  cases hrule : s.policy.rule s.guard with
  | none => exact absurd (Policy.rule_eq_none_iff.1 hrule) hg
  | some rule =>
    refine ⟨rule, rfl, fun f hf => ?_⟩
    rw [← Policy.keeps_of_rule hrule]
    exact h f hf

theorem outcome_delete_of_guarded {s : Store} (h : s.Guarded) {f : Field} (hf : f ∈ s.fields) {text : String}
    (htext : Name.ofText text = .ok f.name) :
    s.outcome (.delete text) =
      if s.guard = .immutable then .error ⟨.delete, .refused .immutable⟩
      else .ok { s with fields := s.fields.remove f.name } := by
  have hread : Operation.delete.readName text = .ok f.name := by
    rw [Operation.readName, htext]
  rw [outcome, apply, result_delete, hread]
  by_cases hg : s.guard = .immutable
  · rw [if_pos hg]
    show (s.permit .delete f.name >>= fun _ => _) = _
    rw [permit_immutable hg]
    rfl
  · rw [if_neg hg]
    show (s.permit .delete f.name >>= fun _ => _) = _
    rw [permit_eq_ok_iff.2 ⟨hg, h f hf⟩]
    rfl

end Store

theorem ite_error_eq_ok_iff {ε α : Type} {p : Prop} [Decidable p] {e : ε} {a : α} :
    (∃ b, (if p then .error e else .ok a : Except ε α) = .ok b) ↔ ¬ p := by
  by_cases h : p <;> simp [h]

/-- However a store came about, its guard lets every stored name through unless it is `immutable`. So the store
can be cleared, and each stored name deleted, under every other guard; and no name is ever the reason why a
store cannot be cleared. -/
theorem Reachable.permits_stored {s : Store} (h : Reachable s) :
    (s.guard ≠ .immutable →
      ∃ rule, s.policy.rule s.guard = some rule ∧ ∀ f ∈ s.fields, rule.permits f.name = true) ∧
    ((∃ t, s.outcome .clear = .ok t) ↔ s.guard ≠ .immutable) ∧
    (∀ t, s.outcome .clear = .ok t → t.fields = []) ∧
    (∀ failure, s.outcome .clear = .error failure → failure = ⟨.delete, .refused .immutable⟩) ∧
    ∀ f ∈ s.fields, Name.ofText f.name.text = .ok f.name ∧
      ∀ text, Name.ofText text = .ok f.name →
        ((∃ t, s.outcome (.delete text) = .ok t) ↔ s.guard ≠ .immutable) := by
  have hclear := Store.outcome_clear_of_guarded h.guarded
  have hempty : ∀ t, s.outcome .clear = .ok t → t.fields = [] := by
    intro t ht
    rw [hclear] at ht
    split at ht
    · cases ht
    · cases ht
      rfl
  have hreason : ∀ failure, s.outcome .clear = .error failure → failure = ⟨.delete, .refused .immutable⟩ := by
    intro failure hfailure
    rw [hclear] at hfailure
    split at hfailure
    · cases hfailure
      rfl
    · cases hfailure
  refine ⟨Store.rule_of_guarded h.guarded, ?_, hempty, hreason, fun f hf => ⟨?_, fun text htext => ?_⟩⟩
  · rw [hclear]
    exact ite_error_eq_ok_iff
  · exact Name.ofText_text (h.obtained f hf).1.wellFormed
  · rw [Store.outcome_delete_of_guarded h.guarded hf htext]
    exact ite_error_eq_ok_iff

/-- A store that was immutable, and so kept a field that no request may have, loses that field when it becomes a
request. The other one can be removed. -/
theorem Reachable.permits_stored_request :
    ∃ s : Store, Reachable s ∧ s.guard = .request ∧ s.fields = [⟨.accept, ⟨"*/*"⟩⟩] ∧
      (∃ t, s.outcome .clear = .ok t) ∧ ∃ t, s.outcome (.delete "Accept") = .ok t := by
  let s : Store := ⟨[⟨.accept, ⟨"*/*"⟩⟩], .request, .standard⟩
  have hreach : Reachable s :=
    ⟨Unit, Unit, World.vacant,
      .change (.change (.ofPairs [("Host", "a"), ("Accept", "*/*")]) (.underGuard .immutable .standard))
        (.underGuard .request .standard),
      ⟨⟨trivial, trivial⟩, trivial⟩, rfl⟩
  have hguard : s.guard ≠ .immutable := by decide
  obtain ⟨-, hclear, -, -, hdelete⟩ := Reachable.permits_stored hreach
  obtain ⟨-, hdelete⟩ := hdelete ⟨.accept, ⟨"*/*"⟩⟩ List.mem_cons_self
  exact ⟨s, hreach, rfl, rfl, hclear.2 hguard, (hdelete "Accept" rfl).2 hguard⟩

/-! ## Guarding in the end and from the start -/

namespace Store

variable {guard : Guard} {policy : Policy}

theorem after_underGuard (s : Store) (guard : Guard) (policy : Policy) :
    s.after (.underGuard guard policy) = ⟨s.fields.retain (policy.keeps guard), guard, policy⟩ :=
  after_of_ok (s.outcome_underGuard guard policy)

theorem after_clear_of_guarded {s : Store} (h : s.Guarded) (hg : s.guard ≠ .immutable) :
    s.after .clear = { s with fields := [] } := by
  have hclear := outcome_clear_of_guarded h
  rw [if_neg hg] at hclear
  exact after_of_ok hclear

/-- A stricter guard may be put over a store before a command as well as after it: a field that it forbids is
either not brought in or dropped later. -/
theorem after_underGuard_comm {s : Store} (hs : s.Guarded) (hguard : guard ≠ .immutable)
    (hopen : s.guard ≠ .immutable)
    (hwider : ∀ n : Name, n.WellFormed → policy.keeps guard n = true → s.policy.keeps s.guard n = true)
    {c : Command} (hc : c = .clear ∨ ∃ text, c.name? = some text) :
    (s.after c).after (.underGuard guard policy) = (s.after (.underGuard guard policy)).after c := by
  rcases hc with rfl | ⟨text, htext⟩
  · have hstrict := guarded_after hs (.underGuard guard policy)
    rw [after_underGuard] at hstrict
    rw [after_clear_of_guarded hs hopen, after_underGuard, after_underGuard,
      after_clear_of_guarded hstrict hguard]
    rfl
  · obtain ⟨read, hedits, hname⟩ := Command.exists_edits htext
    cases read with
    | error failure => rw [hedits.after_error, hedits.after_error]
    | ok e =>
      have hwell : e.name.WellFormed := Name.wellFormed_of_parse (hname e rfl)
      rw [hedits.after_ok, hedits.after_ok, after_underGuard, after_underGuard]
      by_cases hkeeps : policy.keeps guard e.name = true
      · rw [if_pos ⟨hopen, hwider e.name hwell hkeeps⟩, if_pos ⟨hguard, hkeeps⟩]
        simp only [Edit.retain_onFields, if_pos hkeeps]
      · -- The stricter guard refuses the edit, and drops what the edit does under the other one.
        have hdropped : (e.onFields s.fields).retain (policy.keeps guard) =
            s.fields.retain (policy.keeps guard) := by
          rw [Edit.retain_onFields, if_neg hkeeps]
        have hrefuse : ¬ (guard ≠ .immutable ∧ policy.keeps guard e.name = true) := fun h => hkeeps h.2
        rw [if_neg hrefuse]
        split
        · exact congrArg (Store.mk · guard policy) hdropped
        · rfl

theorem run_after_underGuard_comm {s : Store} (hs : s.Guarded) (hguard : guard ≠ .immutable)
    (hopen : s.guard ≠ .immutable)
    (hwider : ∀ n : Name, n.WellFormed → policy.keeps guard n = true → s.policy.keeps s.guard n = true)
    {cs : List Command} (hcs : ∀ c ∈ cs, c = .clear ∨ ∃ text, c.name? = some text) :
    (s.run cs).after (.underGuard guard policy) = (s.after (.underGuard guard policy)).run cs := by
  induction cs generalizing s with
  | nil => rfl
  | cons c cs ih =>
    obtain ⟨hc, hcs⟩ := List.forall_mem_cons.1 hcs
    have hkind : ∀ guard policy, c ≠ .underGuard guard policy := by
      rintro guard policy rfl
      rcases hc with hc | ⟨text, hc⟩ <;> cases hc
    obtain ⟨hsame, hpolicy⟩ := s.guard_after hkind
    have hrest := ih (guarded_after hs c) (hsame ▸ hopen) (by rw [hsame, hpolicy]; exact hwider) hcs
    calc (s.run (c :: cs)).after (.underGuard guard policy)
        = ((s.after c).run cs).after (.underGuard guard policy) := rfl
      _ = ((s.after c).after (.underGuard guard policy)).run cs := hrest
      _ = ((s.after (.underGuard guard policy)).after c).run cs := by
          rw [after_underGuard_comm hs hguard hopen hwider hc]
      _ = (s.after (.underGuard guard policy)).run (c :: cs) := rfl

/-- To run commands and then to put a guard over the store leaves the same fields, in the same order, as to put
the guard over it first, if its rule lets no name through that the rule of the store does not. So a store without
a guard that is guarded in the end is the store that was guarded from the start. Only `immutable` has no rule. -/
theorem run_underGuard_comm {s : Store} (hs : Reachable s) {strict wide : NameRule}
    (hstrict : policy.rule guard = some strict) (hwide : s.policy.rule s.guard = some wide)
    (hle : ∀ n : Name, n.WellFormed → strict.permits n = true → wide.permits n = true) {cs : List Command}
    (hcs : ∀ c ∈ cs, c = .clear ∨ ∃ text, c.name? = some text) :
    s.run (cs ++ [.underGuard guard policy]) = s.run (.underGuard guard policy :: cs) ∧
    run {} (cs ++ [.underGuard guard policy]) = run { guard, policy } cs := by
  have hguard : guard ≠ .immutable := Policy.ne_immutable_of_rule hstrict
  have hopen : s.guard ≠ .immutable := Policy.ne_immutable_of_rule hwide
  have hwider : ∀ n : Name, n.WellFormed → policy.keeps guard n = true → s.policy.keeps s.guard n = true := by
    intro n hn hkeeps
    rw [Policy.keeps_of_rule hstrict] at hkeeps
    rw [Policy.keeps_of_rule hwide]
    exact hle n hn hkeeps
  have hlast : ∀ t : Store, t.run (cs ++ [.underGuard guard policy]) =
      (t.run cs).after (.underGuard guard policy) := by
    intro t
    rw [run, List.foldl_append]
    rfl
  have hnew : after {} (.underGuard guard policy) = { guard, policy } := by
    rw [after_underGuard]
    rfl
  constructor
  · rw [hlast, run_after_underGuard_comm hs.guarded hguard hopen hwider hcs]
    rfl
  · rw [hlast, run_after_underGuard_comm (guarded_empty _ _) hguard (by decide) (fun _ _ _ => rfl) hcs, hnew]

/-- A request takes a field of its own that it loses when it is to be sent without a cross-origin check. -/
theorem run_underGuard_comm_noCors :
    ∃ (s : Store) (cs : List Command), Reachable s ∧ s.guard = .request ∧
      (s.run cs).fields = [⟨.accept, ⟨"a"⟩⟩, ⟨.ofLower "x-id", ⟨"1"⟩⟩, ⟨.accept, ⟨"c"⟩⟩] ∧
      s.run (cs ++ [.underGuard .requestNoCors .standard]) =
        s.run (.underGuard .requestNoCors .standard :: cs) ∧
      (s.run (.underGuard .requestNoCors .standard :: cs)).fields =
        [⟨.accept, ⟨"a"⟩⟩, ⟨.accept, ⟨"c"⟩⟩] := by
  let s : Store := ⟨[⟨.accept, ⟨"a"⟩⟩], .request, .standard⟩
  let cs : List Command :=
    [.set "X-Id" "1", .append "host" "b", .append "Accept" "c", .appendIfAbsent "x-id" "2", .delete "range"]
  have hreach : Reachable s :=
    ⟨Unit, Unit, World.vacant, .change (.ofPairs [("Accept", "a")]) (.underGuard .request .standard),
      ⟨trivial, trivial⟩, rfl⟩
  have hle : ∀ n : Name, n.WellFormed → Policy.standard.requestNoCors.permits n = true →
      Policy.standard.request.permits n = true := by
    intro n _ hn
    have hmem : n ∈ [Name.accept, .acceptLanguage, .contentLanguage, .contentType, .range] :=
      List.contains_iff_mem.1 hn
    have hall : ∀ m ∈ [Name.accept, .acceptLanguage, .contentLanguage, .contentType, .range],
        Policy.standard.request.permits m = true := by decide +kernel
    exact hall n hmem
  have hcs : ∀ c ∈ cs, c = .clear ∨ ∃ text, c.name? = some text := by
    simp [cs, Command.name?]
  have hstrict : Policy.standard.rule .requestNoCors = some Policy.standard.requestNoCors := rfl
  have hcomm := (run_underGuard_comm hreach hstrict rfl hle hcs).1
  exact ⟨s, cs, hreach, rfl, by decide +kernel, hcomm, by decide +kernel⟩

end Store

end HttpFields
