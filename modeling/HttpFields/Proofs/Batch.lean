import HttpFields.Proofs.Verdict

/-!
# Batches of fields

To extend a store by several fields is to append them one after the other, but all or none. The guard is asked
about all names before any field is stored, and its answers do not depend on what is stored. So the first name that
it does not permit decides, as it does for the single commands.

* `Field.IsRead` : readers yielded the name and the value; `Field.IsRead.isReadAs` : they are read back from their
  texts
* `Fields.appends` : the commands that append the fields one by one
* `forM_eq_error_iff` : a walk over a list fails with the first element that fails
* `Store.run_appends` : what the single commands leave if all names are permitted
* `Store.extend_agrees_with_appends` : the batch against the single commands
-/

namespace HttpFields

open HttpFields.Field

set_option autoImplicit false

/-! ## Fields that are read -/

/-- Readers yielded the name and the value. -/
structure Field.IsRead (f : Field) : Prop where
  name : ∃ bytes, Name.parse bytes = .ok f.name
  value : ∃ text, Value.normalize text = .ok f.value

/-- Such a field is read back from its texts: its name is in small letters and its value has no padding. -/
theorem Field.IsRead.isReadAs {f : Field} (h : f.IsRead) : Field.IsReadAs (f.name.text, f.value.text) f := by
  obtain ⟨⟨bytes, hname⟩, ⟨text, hvalue⟩⟩ := h
  refine ⟨Name.ofText_text (Name.wellFormed_of_parse hname), ?_⟩
  have hsame : f.value.stripped = f.value :=
    (Value.stripped_eq_self_iff f.value).2 (Value.unpadded_of_normalize hvalue)
  rw [Value.normalize_text (Value.wellFormed_of_normalize hvalue), hsame]

/-- The command that appends a field, which it is given as texts. -/
def Command.appendField (f : Field) : Command := .append f.name.text f.value.text

def Fields.appends (fs : Fields) : List Command := fs.map Command.appendField

/-! ## Walks that can fail -/

theorem exists_split_cons_iff {α : Type} {P : List α → α → Prop} {x : α} {xs : List α} :
    (∃ front y back, x :: xs = front ++ y :: back ∧ P front y) ↔
      P [] x ∨ ∃ front y back, xs = front ++ y :: back ∧ P (x :: front) y := by
  constructor
  · rintro ⟨front, y, back, h, hp⟩
    cases front with
    | nil =>
      obtain ⟨rfl, rfl⟩ := List.cons.inj h
      exact .inl hp
    | cons z front =>
      obtain ⟨rfl, rfl⟩ := List.cons.inj h
      exact .inr ⟨front, y, back, rfl, hp⟩
  · rintro (hp | ⟨front, y, back, rfl, hp⟩)
    · exact ⟨[], x, xs, rfl, hp⟩
    · exact ⟨x :: front, y, back, rfl, hp⟩

theorem forM_eq_error_iff {ε α : Type} {ask : α → Except ε Unit} {xs : List α} {e : ε} :
    xs.forM ask = .error e ↔
      ∃ sound x behind, xs = sound ++ x :: behind ∧ (∀ y ∈ sound, ask y = .ok ()) ∧ ask x = .error e := by
  induction xs with
  | nil =>
    refine iff_of_false nofun ?_
    rintro ⟨sound, x, behind, h, -⟩
    cases sound <;> cases h
  | cons x xs ih =>
    have hstep : (x :: xs).forM ask = ask x >>= fun _ => xs.forM ask := rfl
    rw [hstep, exists_split_cons_iff]
    simp only [List.forall_mem_cons]
    cases hx : ask x with
    | error e' =>
      -- Nothing is asked behind the first that fails.
      show Except.error e' = Except.error e ↔ _
      simp
    | ok _ =>
      show xs.forM ask = Except.error e ↔ _
      rw [ih]
      simp

namespace Store

variable {s : Store} {f : Field} {fs : Fields} {failure : Failure}

/-! ## The single commands -/

theorem outcome_appendField (s : Store) (hf : f.IsRead) : s.outcome (.appendField f) =
    s.permit .append f.name >>= fun _ => .ok { s with fields := s.fields ++ [f] } := by
  have hread : Operation.append.readField f.name.text f.value.text = .ok f :=
    Operation.readField_of_isReadAs hf.isReadAs
  rw [Command.appendField, outcome, apply, result_append, hread]
  rfl

theorem reply_appendField (s : Store) (hf : f.IsRead) :
    s.reply (.appendField f) = s.permit .append f.name := by
  rw [reply, outcome_appendField s hf]
  exact map_ask_then_return _ _

/-- The answers are those of the guard, as it stands before the first command. -/
theorem replies_appends (s : Store) (hfs : ∀ f ∈ fs, f.IsRead) :
    s.replies fs.appends = fs.map fun f => s.permit .append f.name := by
  have hname : ∀ c ∈ fs.appends, ∃ text, c.name? = some text := by
    intro c hc
    obtain ⟨f, -, rfl⟩ := List.mem_map.1 hc
    exact ⟨f.name.text, rfl⟩
  rw [replies_eq_map s hname, Fields.appends, List.map_map]
  exact List.map_congr_left fun f hf => s.reply_appendField (hfs f hf)

theorem replies_appends_ok_iff (hfs : ∀ f ∈ fs, f.IsRead) :
    (∀ r ∈ s.replies fs.appends, r = .ok ()) ↔ ∀ f ∈ fs, s.permit .append f.name = .ok () := by
  rw [replies_appends s hfs, List.forall_mem_map]

theorem run_appends (hfs : ∀ f ∈ fs, f.IsRead) (h : ∀ f ∈ fs, s.permit .append f.name = .ok ()) :
    s.run fs.appends = { s with fields := s.fields ++ fs } := by
  induction fs generalizing s with
  | nil =>
    show s = { s with fields := s.fields ++ [] }
    rw [List.append_nil]
  | cons f fs ih =>
    obtain ⟨hf, hfs⟩ := List.forall_mem_cons.1 hfs
    obtain ⟨hpermit, h⟩ := List.forall_mem_cons.1 h
    have hone : s.after (.appendField f) = { s with fields := s.fields ++ [f] } := by
      refine after_of_ok ?_
      rw [outcome_appendField s hf, hpermit]
      rfl
    -- The guard is the same after the first field, so the others are permitted as before.
    have hrest := ih (s := { s with fields := s.fields ++ [f] }) hfs h
    show (s.after (.appendField f)).run (Fields.appends fs) = _
    rw [hone, hrest, List.append_assoc, List.singleton_append]

/-! ## The batch -/

theorem outcome_extend (s : Store) (fs : Fields) : s.outcome (.extend fs) =
    (fs.forM fun f => s.permit .append f.name) >>= fun _ => .ok { s with fields := s.fields ++ fs } :=
  s.result_extend fs

theorem outcome_extend_eq_ok_iff {t : Store} : s.outcome (.extend fs) = .ok t ↔
    (∀ f ∈ fs, s.permit .append f.name = .ok ()) ∧ t = { s with fields := s.fields ++ fs } := by
  rw [outcome_extend, bind_eq_ok_iff, ← permit_all_eq_ok_iff]
  exact ⟨fun ⟨_, hall, ht⟩ => ⟨hall, (Except.ok.inj ht).symm⟩, fun ⟨hall, ht⟩ => ⟨(), hall, ht ▸ rfl⟩⟩

theorem outcome_extend_eq_error_iff : s.outcome (.extend fs) = .error failure ↔
    ∃ sound f behind, fs = sound ++ f :: behind ∧ (∀ g ∈ sound, s.permit .append g.name = .ok ()) ∧
      s.permit .append f.name = .error failure := by
  rw [outcome_extend, ← forM_eq_error_iff]
  cases fs.forM fun f => s.permit .append f.name with
  | error failure' =>
    show Except.error failure' = Except.error failure ↔ _
    rw [Except.error.injEq, Except.error.injEq]
  | ok _ => exact iff_of_false nofun nofun

/-- To extend a store by fields that were read succeeds just when each of the single commands, one after the other,
succeeds, and then it leaves the store that they leave. It fails just when one of them does, with the failure of
the first that fails, and then it leaves the store as it was, also if it is carried out in the store itself. To extend
a store by nothing always succeeds. -/
theorem extend_agrees_with_appends (s : Store) (hfs : ∀ f ∈ fs, f.IsRead) :
    ((∃ t, s.outcome (.extend fs) = .ok t) ↔ ∀ r ∈ s.replies fs.appends, r = .ok ()) ∧
    (∀ t, s.outcome (.extend fs) = .ok t → s.after (.extend fs) = t ∧ s.run fs.appends = t ∧
      s.inPlace (.extend fs) = (.ok (), t)) ∧
    (∀ failure, s.outcome (.extend fs) = .error failure ↔ ∃ sound f behind, fs = sound ++ f :: behind ∧
      (∀ r ∈ s.replies (Fields.appends sound), r = .ok ()) ∧
      (s.run (Fields.appends sound)).outcome (.append f.name.text f.value.text) = .error failure) ∧
    (∀ failure, s.outcome (.extend fs) = .error failure → s.after (.extend fs) = s ∧
      s.inPlace (.extend fs) = (.error failure, s)) ∧
    ∀ u : Store, u.outcome (.extend []) = .ok u := by
  refine ⟨?_, fun t ht => ?_, fun failure => ?_, fun failure h => ⟨after_of_error h, inPlace_of_error h⟩,
    fun u => ?_⟩
  · rw [replies_appends_ok_iff hfs]
    exact ⟨fun ⟨_, ht⟩ => (outcome_extend_eq_ok_iff.1 ht).1, fun h => ⟨_, outcome_extend_eq_ok_iff.2 ⟨h, rfl⟩⟩⟩
  · obtain ⟨hall, rfl⟩ := outcome_extend_eq_ok_iff.1 ht
    exact ⟨after_of_ok ht, run_appends hfs hall, inPlace_of_ok ht⟩
  · rw [outcome_extend_eq_error_iff]
    refine exists_congr fun sound => exists_congr fun f => exists_congr fun behind => and_congr_right ?_
    rintro rfl
    obtain ⟨hsound, hrest⟩ := List.forall_mem_append.1 hfs
    rw [replies_appends_ok_iff hsound]
    refine and_congr_right fun hall => ?_
    -- What the commands in front have stored does not change the answer.
    have hreply : (s.run (Fields.appends sound)).reply (.appendField f) = s.permit .append f.name := by
      rw [run_appends hsound hall]
      exact reply_appendField _ (hrest f List.mem_cons_self)
    rw [← hreply, reply_eq_error_iff]
    rfl
  · refine outcome_extend_eq_ok_iff.2 ⟨nofun, ?_⟩
    rw [List.append_nil]

/-- A request takes `accept` and `range` one by one, but none of them in a batch with `host`. -/
theorem extend_agrees_with_appends_host :
    ∃ (s : Store) (fs : Fields), s.guard = .request ∧
      fs = [⟨.accept, ⟨"*/*"⟩⟩, ⟨.host, ⟨"a"⟩⟩, ⟨.range, ⟨"b"⟩⟩] ∧ (∀ f ∈ fs, f.IsRead) ∧
      s.outcome (.extend fs) = .error ⟨.append, .refused (.forbidden .host)⟩ ∧ s.after (.extend fs) = s ∧
      s.inPlace (.extend fs) = (.error ⟨.append, .refused (.forbidden .host)⟩, s) ∧
      (s.run fs.appends).fields = [⟨.accept, ⟨"*/*"⟩⟩, ⟨.range, ⟨"b"⟩⟩] := by
  let s : Store := ⟨[], .request, .standard⟩
  let fs : Fields := [⟨.accept, ⟨"*/*"⟩⟩, ⟨.host, ⟨"a"⟩⟩, ⟨.range, ⟨"b"⟩⟩]
  have hfs : ∀ f ∈ fs, f.IsRead := by
    have hread : ∀ f ∈ fs, Name.parse f.name.bytes = .ok f.name ∧ Value.normalize f.value.text = .ok f.value := by
      decide +kernel
    exact fun f hf => ⟨⟨_, (hread f hf).1⟩, ⟨_, (hread f hf).2⟩⟩
  obtain ⟨-, -, hfails, hkept, -⟩ := Store.extend_agrees_with_appends s hfs
  have hout : s.outcome (.extend fs) = .error ⟨.append, .refused (.forbidden .host)⟩ := by
    refine (hfails _).2 ⟨[⟨.accept, ⟨"*/*"⟩⟩], ⟨.host, ⟨"a"⟩⟩, [⟨.range, ⟨"b"⟩⟩], rfl, ?_, ?_⟩
    · decide +kernel
    · decide +kernel
  obtain ⟨hafter, hinPlace⟩ := hkept _ hout
  exact ⟨s, fs, rfl, rfl, hfs, hout, hafter, hinPlace, by decide +kernel⟩

end Store

end HttpFields
