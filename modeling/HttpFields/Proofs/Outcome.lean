import HttpFields.Store.Change

/-!
# Outcomes of commands

What a command makes of a store, with the events on the way left out.

* `StoreM.result` : what a computation on stores yields
* `Policy.permit` : the answer of a guard; `Policy.keeps` : the names that stay when a guard is put over a
  store
* `Store.result_append` and its like : each change as a computation that can only fail
* `Store.outcome` : the store that a command yields, or its failure; `Store.reply` : what the caller hears of it
* `Store.Guarded` : every stored name is permitted; `Store.guarded_after` : commands keep it so
-/

namespace HttpFields

open HttpFields.Field

set_option autoImplicit false

/-! ## Results without events -/

theorem bind_eq_ok_iff {ε α β : Type} {x : Except ε α} {f : α → Except ε β} {b : β} :
    x >>= f = .ok b ↔ ∃ a, x = .ok a ∧ f a = .ok b := by
  cases x with
  | error e => exact ⟨fun h => (nomatch h), fun ⟨_, h, _⟩ => (nomatch h)⟩
  | ok a => exact ⟨fun h => ⟨a, rfl, h⟩, fun ⟨_, h, hf⟩ => Except.ok.inj h ▸ hf⟩

theorem mapError_eq_ok_iff {ε δ α : Type} {x : Except ε α} {f : ε → δ} {a : α} :
    x.mapError f = .ok a ↔ x = .ok a := by
  cases x with
  | error e => exact ⟨fun h => (nomatch h), fun h => (nomatch h)⟩
  | ok b => exact ⟨fun h => congrArg _ (Except.ok.inj h), fun h => congrArg _ (Except.ok.inj h)⟩

theorem mapError_eq_error_iff {ε δ α : Type} {x : Except ε α} {f : ε → δ} {d : δ} :
    x.mapError f = .error d ↔ ∃ e, x = .error e ∧ d = f e := by
  cases x with
  | error e =>
    constructor
    · exact fun h => ⟨e, rfl, (Except.error.inj h).symm⟩
    · rintro ⟨_, h, rfl⟩
      cases h
      rfl
  | ok b => exact ⟨fun h => (nomatch h), fun ⟨_, h, _⟩ => (nomatch h)⟩

section

variable {ε α β γ : Type} {read : Except ε α} {ask : α → Except ε Unit} {make : α → β}

theorem ask_then_eq_ok_iff {b : β} :
    (do let a ← read; ask a; return make a) = .ok b ↔ ∃ a, read = .ok a ∧ ask a = .ok () ∧ b = make a := by
  rw [bind_eq_ok_iff]
  refine exists_congr fun a => and_congr_right fun _ => ?_
  rw [bind_eq_ok_iff]
  exact ⟨fun ⟨_, hask, hb⟩ => ⟨hask, (Except.ok.inj hb).symm⟩, fun ⟨hask, hb⟩ => ⟨(), hask, hb ▸ rfl⟩⟩

/-- What is made may be changed further by another computation that reads and asks the same. -/
theorem map_ask_then {g : β → γ} {change : α → γ} (h : ∀ a, g (make a) = change a) :
    g <$> (do let a ← read; ask a; return make a) = do let a ← read; ask a; return change a := by
  rw [map_bind]
  refine bind_congr fun a => ?_
  rw [map_bind]
  exact bind_congr fun _ => congrArg Except.ok (h a)

end

theorem mem_of_mapM_eq_ok {ε α β : Type} {f : α → Except ε β} {xs : List α} {ys : List β}
    (h : xs.mapM f = .ok ys) {y : β} (hy : y ∈ ys) : ∃ x ∈ xs, f x = .ok y := by
  induction xs generalizing ys with
  | nil =>
    cases h
    cases hy
  | cons x xs ih =>
    rw [List.mapM_cons] at h
    obtain ⟨z, hz, h⟩ := bind_eq_ok_iff.1 h
    obtain ⟨zs, hzs, h⟩ := bind_eq_ok_iff.1 h
    cases h
    rcases List.mem_cons.1 hy with rfl | hy
    · exact ⟨x, List.mem_cons_self, hz⟩
    · obtain ⟨w, hw, hwy⟩ := ih hzs hy
      exact ⟨w, List.mem_cons_of_mem x hw, hwy⟩

namespace StoreM

variable {α β : Type}

def result (x : StoreM α) : Except Failure α := x.run.value

@[simp] theorem result_pure (a : α) : result (pure a) = .ok a := rfl

@[simp] theorem result_throw (f : Failure) : result (throw f : StoreM α) = .error f := rfl

@[simp] theorem result_read (x : Except Failure α) : result (liftM x) = x := rfl

@[simp] theorem result_bind (x : StoreM α) (f : α → StoreM β) :
    result (x >>= f) = result x >>= fun a => result (f a) := by
  unfold result
  rw [ExceptT.run_bind, Logged.value_bind]
  cases x.run.value <;> rfl

theorem result_forM (fs : Fields) (f : Field → StoreM Unit) :
    result (fs.forM f) = fs.forM fun x => result (f x) := by
  induction fs with
  | nil => rfl
  | cons x fs ih =>
    have hstep : result (f x >>= fun _ => fs.forM f) =
        result (f x) >>= fun _ => fs.forM fun y => result (f y) := by
      rw [result_bind, ih]
    exact hstep

end StoreM

/-! ## The answer of the guard -/

/-- The names that stay when a guard is put over a store. Under `immutable` all of them stay. -/
def Policy.keeps (p : Policy) (g : Guard) (n : Name) : Bool :=
  match p.rule g with
  | none => true
  | some rule => rule.permits n

def Policy.permit (p : Policy) (g : Guard) (op : Operation) (n : Name) : Except Failure Unit :=
  match p.check g n with
  | .ok () => .ok ()
  | .error refusal => .error ⟨op, .refused refusal⟩

theorem Policy.rule_eq_none_iff {p : Policy} {g : Guard} : p.rule g = none ↔ g = .immutable := by
  cases g <;> simp [rule]

namespace Store

open StoreM

def permit (s : Store) (op : Operation) (n : Name) : Except Failure Unit := s.policy.permit s.guard op n

@[simp] theorem result_askGuard (s : Store) (op : Operation) (n : Name) :
    result (s.askGuard op n) = s.permit op n := by
  unfold askGuard permit Policy.permit
  cases s.policy.check s.guard n <;> rfl

theorem permit_immutable {s : Store} (h : s.guard = .immutable) (op : Operation) (n : Name) :
    s.permit op n = .error ⟨op, .refused .immutable⟩ := by
  simp [permit, Policy.permit, Policy.check, h, Policy.rule]

theorem permit_eq_ok_iff {s : Store} {op : Operation} {n : Name} :
    s.permit op n = .ok () ↔ s.guard ≠ .immutable ∧ s.policy.keeps s.guard n = true := by
  unfold permit Policy.permit Policy.check Policy.keeps
  rw [Ne, ← Policy.rule_eq_none_iff (p := s.policy)]
  cases s.policy.rule s.guard with
  | none => simp
  | some rule => cases hp : rule.permits n <;> simp [hp]

theorem permit_of_rule {s : Store} {op : Operation} {n : Name} {rule : NameRule}
    (hrule : s.policy.rule s.guard = some rule) (h : rule.permits n = true) : s.permit op n = .ok () := by
  simp [permit, Policy.permit, Policy.check, hrule, h]

theorem permit_all_eq_ok_iff {s : Store} {op : Operation} {fs : Fields} :
    (fs.forM fun f => s.permit op f.name) = .ok () ↔ ∀ f ∈ fs, s.permit op f.name = .ok () := by
  induction fs with
  | nil => exact ⟨fun _ f hf => (nomatch hf), fun _ => rfl⟩
  | cons f fs ih =>
    have hstep : (f :: fs).forM (fun f => s.permit op f.name) =
        s.permit op f.name >>= fun _ => fs.forM fun f => s.permit op f.name := rfl
    rw [hstep, bind_eq_ok_iff, List.forall_mem_cons, ← ih]
    exact ⟨fun ⟨_, hf, hfs⟩ => ⟨hf, hfs⟩, fun ⟨hf, hfs⟩ => ⟨(), hf, hfs⟩⟩

/-! ## Results of the changes -/

theorem result_append (s : Store) (name value : String) :
    result (s.append name value) = do
      let f ← Operation.append.readField name value
      s.permit .append f.name
      return { s with fields := s.fields.append f.name f.value } := by
  simp only [append, result_bind, result_read, result_askGuard, result_pure]
  rfl

theorem result_appendIfAbsent (s : Store) (name value : String) :
    result (s.appendIfAbsent name value) = do
      let f ← Operation.append.readField name value
      s.permit .append f.name
      return if s.fields.has f.name then s else { s with fields := s.fields.append f.name f.value } := by
  have hif : ∀ f : Field, result (if s.fields.has f.name = true then pure s
      else pure { s with fields := s.fields.append f.name f.value }) =
      .ok (if s.fields.has f.name = true then s
        else { s with fields := s.fields.append f.name f.value }) := by
    intro f
    split <;> rfl
  simp only [appendIfAbsent, result_bind, result_read, result_askGuard, hif]
  rfl

theorem result_set (s : Store) (name value : String) :
    result (s.set name value) = do
      let f ← Operation.set.readField name value
      s.permit .set f.name
      return { s with fields := s.fields.set f.name f.value } := by
  simp only [set, result_bind, result_read, result_askGuard, result_pure]
  rfl

theorem result_delete (s : Store) (name : String) :
    result (s.delete name) = do
      let n ← Operation.delete.readName name
      s.permit .delete n
      return { s with fields := s.fields.remove n } := by
  simp only [delete, result_bind, result_read, result_askGuard, result_pure]
  rfl

theorem result_extend (s : Store) (fields : Fields) :
    result (s.extend fields) = do
      fields.forM fun f => s.permit .append f.name
      return { s with fields := s.fields ++ fields } := by
  simp only [extend, result_bind, result_forM, result_askGuard, result_pure]
  rfl

theorem result_clear (s : Store) :
    result s.clear =
      (s.fields.forM fun f => s.permit .delete f.name) >>= fun _ =>
        if s.guard = .immutable then .error ⟨.delete, .refused .immutable⟩
        else .ok { s with fields := [] } := by
  have hif : result (if s.guard = .immutable then throw ⟨.delete, .refused .immutable⟩
      else pure { s with fields := [] }) =
      if s.guard = .immutable then .error ⟨.delete, .refused .immutable⟩
      else .ok { s with fields := [] } := by
    split <;> rfl
  rw [← hif]
  simp only [clear, result_bind, result_forM, result_askGuard]
  congr 1

theorem value_underGuard (s : Store) (guard : Guard) (policy : Policy) :
    (s.underGuard guard policy).value = ⟨s.fields.retain (policy.keeps guard), guard, policy⟩ := by
  unfold underGuard Policy.keeps
  cases policy.rule guard with
  | none => exact congrArg (Store.mk · guard policy) (List.filter_eq_self.2 fun _ _ => rfl).symm
  | some rule => rfl

/-! ## Outcomes -/

def outcome (s : Store) (c : Command) : Except Failure Store := result (s.apply c)

/-- What the caller hears of a command. -/
def reply (s : Store) (c : Command) : Except Failure Unit := (s.outcome c).map fun _ => ()

theorem reply_eq_ok_iff {s : Store} {c : Command} : s.reply c = .ok () ↔ ∃ t, s.outcome c = .ok t := by
  rw [reply]
  cases s.outcome c <;> simp [Except.map]

theorem reply_eq_error_iff {s : Store} {c : Command} {failure : Failure} :
    s.reply c = .error failure ↔ s.outcome c = .error failure := by
  rw [reply]
  cases s.outcome c <;> simp [Except.map]

theorem outcome_underGuard (s : Store) (guard : Guard) (policy : Policy) :
    s.outcome (.underGuard guard policy) = .ok ⟨s.fields.retain (policy.keeps guard), guard, policy⟩ :=
  congrArg Except.ok (value_underGuard s guard policy)

theorem after_of_ok {s t : Store} {c : Command} (h : s.outcome c = .ok t) : s.after c = t := by
  have hvalue : (s.apply c).run.value = .ok t := h
  rw [after, hvalue]

theorem after_of_error {s : Store} {c : Command} {e : Failure} (h : s.outcome c = .error e) :
    s.after c = s := by
  have hvalue : (s.apply c).run.value = .error e := h
  rw [after, hvalue]

/-- What holds of a store and of all that a command can make of it holds afterwards. -/
theorem after_induction {P : Store → Prop} {s : Store} {c : Command} (hs : P s)
    (hc : ∀ t, s.outcome c = .ok t → P t) : P (s.after c) := by
  cases h : s.outcome c with
  | ok t => exact after_of_ok h ▸ hc t h
  | error e => exact (after_of_error h).symm ▸ hs

/-- What a command makes of a store when it succeeds. -/
def Becomes (s : Store) : Command → Store → Prop
  | .append name value, t => ∃ f, Operation.append.readField name value = .ok f ∧
    s.permit .append f.name = .ok () ∧ t = { s with fields := s.fields.append f.name f.value }
  | .appendIfAbsent name value, t => ∃ f, Operation.append.readField name value = .ok f ∧
    s.permit .append f.name = .ok () ∧
    t = if s.fields.has f.name then s else { s with fields := s.fields.append f.name f.value }
  | .set name value, t => ∃ f, Operation.set.readField name value = .ok f ∧
    s.permit .set f.name = .ok () ∧ t = { s with fields := s.fields.set f.name f.value }
  | .delete name, t => ∃ n, Operation.delete.readName name = .ok n ∧
    s.permit .delete n = .ok () ∧ t = { s with fields := s.fields.remove n }
  | .extend fields, t => (∀ f ∈ fields, s.permit .append f.name = .ok ()) ∧
    t = { s with fields := s.fields ++ fields }
  | .clear, t => (∀ f ∈ s.fields, s.permit .delete f.name = .ok ()) ∧ s.guard ≠ .immutable ∧
    t = { s with fields := [] }
  | .underGuard guard policy, t => t = ⟨s.fields.retain (policy.keeps guard), guard, policy⟩

theorem becomes_of_outcome {s t : Store} {c : Command} (h : s.outcome c = .ok t) : s.Becomes c t := by
  cases c with
  | append name value =>
    rw [outcome, apply, result_append] at h
    exact ask_then_eq_ok_iff.1 h
  | appendIfAbsent name value =>
    rw [outcome, apply, result_appendIfAbsent] at h
    exact ask_then_eq_ok_iff.1 h
  | set name value =>
    rw [outcome, apply, result_set] at h
    exact ask_then_eq_ok_iff.1 h
  | delete name =>
    rw [outcome, apply, result_delete] at h
    exact ask_then_eq_ok_iff.1 h
  | extend fields =>
    rw [outcome, apply, result_extend] at h
    obtain ⟨_, hfs, h⟩ := bind_eq_ok_iff.1 h
    exact ⟨permit_all_eq_ok_iff.1 hfs, (Except.ok.inj h).symm⟩
  | clear =>
    rw [outcome, apply, result_clear] at h
    obtain ⟨_, hfs, h⟩ := bind_eq_ok_iff.1 h
    split at h
    · cases h
    · next hg => exact ⟨permit_all_eq_ok_iff.1 hfs, hg, (Except.ok.inj h).symm⟩
  | underGuard guard policy =>
    rw [outcome_underGuard] at h
    exact (Except.ok.inj h).symm

end Store

/-! ## Where fields come from -/

/-- The fields that a command may bring into a store. -/
def Command.Brings : Command → Field → Prop
  | .append name value, f => Operation.append.readField name value = .ok f
  | .appendIfAbsent name value, f => Operation.append.readField name value = .ok f
  | .set name value, f => Operation.set.readField name value = .ok f
  | .extend fields, f => f ∈ fields
  | .delete _, _ | .clear, _ | .underGuard _ _, _ => False

theorem Fields.mem_append {fs : Fields} {f g : Field} (hg : g ∈ fs.append f.name f.value) : g ∈ fs ∨ g = f :=
  (List.mem_append.1 hg).imp_right List.mem_singleton.1

theorem Fields.mem_set {fs : Fields} {f g : Field} (hg : g ∈ fs.set f.name f.value) : g ∈ fs ∨ g = f := by
  induction fs with
  | nil => exact .inr (List.mem_singleton.1 hg)
  | cons x fs ih =>
    rw [Fields.set] at hg
    split at hg
    · rcases List.mem_cons.1 hg with hg | hg
      · exact .inr hg
      · exact .inl (List.mem_cons_of_mem x (List.mem_filter.1 hg).1)
    · rcases List.mem_cons.1 hg with rfl | hg
      · exact .inl List.mem_cons_self
      · exact (ih hg).imp_left (List.mem_cons_of_mem x)

namespace Store

/-- A field of the new store was in the old one, or the command brings it and it got past the guard. -/
theorem mem_of_becomes {s t : Store} {c : Command} (h : s.Becomes c t) {f : Field} (hf : f ∈ t.fields) :
    f ∈ s.fields ∨ c.Brings f ∧ ∃ op, s.permit op f.name = .ok () := by
  cases c with
  | append name value =>
    obtain ⟨g, hg, hp, rfl⟩ := h
    rcases Fields.mem_append hf with hf | rfl
    · exact .inl hf
    · exact .inr ⟨hg, _, hp⟩
  | appendIfAbsent name value =>
    obtain ⟨g, hg, hp, rfl⟩ := h
    split at hf
    · exact .inl hf
    · rcases Fields.mem_append hf with hf | rfl
      · exact .inl hf
      · exact .inr ⟨hg, _, hp⟩
  | set name value =>
    obtain ⟨g, hg, hp, rfl⟩ := h
    rcases Fields.mem_set hf with hf | rfl
    · exact .inl hf
    · exact .inr ⟨hg, _, hp⟩
  | delete name =>
    obtain ⟨n, -, -, rfl⟩ := h
    exact .inl (List.mem_filter.1 hf).1
  | extend fields =>
    obtain ⟨hp, rfl⟩ := h
    exact (List.mem_append.1 hf).imp_right fun hf => ⟨hf, _, hp f hf⟩
  | clear =>
    obtain ⟨-, -, rfl⟩ := h
    cases hf
  | underGuard guard policy =>
    cases h
    exact .inl (List.mem_filter.1 hf).1

theorem guard_of_becomes {s t : Store} {c : Command} (h : s.Becomes c t)
    (hc : ∀ guard policy, c ≠ .underGuard guard policy) : t.guard = s.guard ∧ t.policy = s.policy := by
  cases c with
  | append name value =>
    obtain ⟨g, -, -, rfl⟩ := h
    exact ⟨rfl, rfl⟩
  | appendIfAbsent name value =>
    obtain ⟨g, -, -, rfl⟩ := h
    split <;> exact ⟨rfl, rfl⟩
  | set name value =>
    obtain ⟨g, -, -, rfl⟩ := h
    exact ⟨rfl, rfl⟩
  | delete name =>
    obtain ⟨n, -, -, rfl⟩ := h
    exact ⟨rfl, rfl⟩
  | extend fields =>
    obtain ⟨-, rfl⟩ := h
    exact ⟨rfl, rfl⟩
  | clear =>
    obtain ⟨-, -, rfl⟩ := h
    exact ⟨rfl, rfl⟩
  | underGuard guard policy => exact absurd rfl (hc guard policy)

/-! ## Guarded stores -/

def Guarded (s : Store) : Prop := ∀ f ∈ s.fields, s.policy.keeps s.guard f.name = true

theorem guarded_empty (guard : Guard) (policy : Policy) : Guarded ⟨[], guard, policy⟩ :=
  fun _ hf => nomatch hf

theorem guarded_ofFields (fs : Fields) : Guarded (.ofFields fs) := fun _ _ => rfl

/-- Commands keep a store guarded: a name comes in only past the guard, and a new guard drops what it does
not let through. -/
theorem guarded_after {s : Store} (h : s.Guarded) (c : Command) : (s.after c).Guarded := by
  refine after_induction h fun t ht => ?_
  have hbecomes := becomes_of_outcome ht
  by_cases hc : ∃ guard policy, c = .underGuard guard policy
  · obtain ⟨guard, policy, rfl⟩ := hc
    cases hbecomes
    exact fun f hf => (List.mem_filter.1 hf).2
  · have hguard := guard_of_becomes hbecomes fun guard policy he => hc ⟨guard, policy, he⟩
    intro f hf
    rw [hguard.1, hguard.2]
    rcases mem_of_becomes hbecomes hf with hf | ⟨-, op, hp⟩
    · exact h f hf
    · exact (permit_eq_ok_iff.1 hp).2

theorem guarded_run {s : Store} (h : s.Guarded) (cs : List Command) : (s.run cs).Guarded := by
  induction cs generalizing s with
  | nil => exact h
  | cons c cs ih => exact ih (guarded_after h c)

theorem outcome_clear_of_guarded {s : Store} (h : s.Guarded) :
    s.outcome .clear =
      if s.guard = .immutable then .error ⟨.delete, .refused .immutable⟩
      else .ok { s with fields := [] } := by
  rw [outcome, apply, result_clear]
  by_cases hg : s.guard = .immutable
  · simp only [if_pos hg]
    cases hfs : s.fields with
    | nil => rfl
    | cons f fs =>
      have hstep : (f :: fs).forM (fun f => s.permit .delete f.name) =
          s.permit .delete f.name >>= fun _ => fs.forM fun f => s.permit .delete f.name := rfl
      rw [hstep, permit_immutable hg]
      rfl
  · rw [permit_all_eq_ok_iff.2 fun f hf => permit_eq_ok_iff.2 ⟨hg, h f hf⟩]
    rfl

end Store

end HttpFields
