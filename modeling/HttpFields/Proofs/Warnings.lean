import HttpFields.Proofs.Pairs

/-!
# Warnings

A guard that refuses a change notes so, with the operation, itself and the reason. So a command that is refused has
noted one warning, and every other command none. There is one exception: that an immutable store without fields is
not cleared is noted nowhere, since there is no name that the guard could be asked about.

* `StoreM.warnings` : the warnings that a computation notes
* `Failure.warnings` : those that should go with a failure; `StoreM.WarnsOnce` : a computation notes just these
* `StoreM.WarnsOnce.bind`, `StoreM.warnsOnce_forM` : that is kept when computations are put together
* `Store.warnings_apply` : the warnings of a command
-/

namespace HttpFields

open HttpFields.Field

set_option autoImplicit false

/-! ## Warnings of a computation -/

/-- The warnings that go with a failure: one if a guard refused, and else none. -/
def Failure.warnings (guard : Guard) : Failure → List Event
  | ⟨op, .refused refusal⟩ => [.refused op guard refusal]
  | ⟨_, .badName _⟩ | ⟨_, .badValue _⟩ | ⟨_, .badShape _⟩ | ⟨_, .thrown _⟩ => []

namespace StoreM

variable {α β : Type} {guard : Guard}

/-- The warnings among the events of a computation. -/
def warnings (x : StoreM α) : List Event := x.run.events.filter (·.level = .warn)

theorem warnings_bind (x : StoreM α) (f : α → StoreM β) :
    warnings (x >>= f) = warnings x ++ match result x with
      | .ok a => warnings (f a)
      | .error _ => [] := by
  unfold warnings result
  rw [ExceptT.run_bind, Logged.events_bind, List.filter_append]
  cases x.run.value <;> rfl

/-- The warnings of a computation are those that go with its failure. -/
def WarnsOnce (guard : Guard) (x : StoreM α) : Prop :=
  x.warnings = match result x with
    | .ok _ => []
    | .error failure => failure.warnings guard

theorem warnsOnce_pure (a : α) : WarnsOnce guard (pure a) := rfl

theorem warnsOnce_read {x : Except Failure α} (h : ∀ failure, x = .error failure → failure.warnings guard = []) :
    WarnsOnce guard (liftM x) := by
  cases x with
  | ok a => rfl
  | error failure => exact (h failure rfl).symm

/-- A computation stops at its first failure, so no more than one refusal is noted. -/
theorem WarnsOnce.bind {x : StoreM α} {f : α → StoreM β} (hx : WarnsOnce guard x)
    (hf : ∀ a, result x = .ok a → WarnsOnce guard (f a)) : WarnsOnce guard (x >>= f) := by
  rw [WarnsOnce] at hx ⊢
  rw [warnings_bind, result_bind, hx]
  cases h : result x with
  | error failure => exact List.append_nil _
  | ok a => exact hf a h

theorem warnsOnce_forM {fs : Fields} {f : Field → StoreM Unit} (h : ∀ x, WarnsOnce guard (f x)) :
    WarnsOnce guard (fs.forM f) := by
  induction fs with
  | nil => exact warnsOnce_pure ()
  | cons x fs ih => exact (h x).bind fun _ _ => ih

end StoreM

theorem Operation.warnings_of_readName {op : Operation} {name : String} {failure : Failure}
    (h : op.readName name = .error failure) (guard : Guard) : failure.warnings guard = [] := by
  unfold readName at h
  split at h
  · cases h
  · cases h
    rfl

theorem Operation.warnings_of_readField {op : Operation} {name value : String} {failure : Failure}
    (h : op.readField name value = .error failure) (guard : Guard) : failure.warnings guard = [] := by
  obtain ⟨cause, hfaulty, rfl⟩ := faulty_of_readField (p := (name, value)) h
  cases hfaulty <;> rfl

/-! ## Warnings of commands -/

namespace Store

open StoreM

variable (s : Store)

theorem warnsOnce_askGuard (op : Operation) (n : Name) : WarnsOnce s.guard (s.askGuard op n) := by
  unfold askGuard
  cases s.policy.check s.guard n <;> rfl

theorem warnsOnce_underGuard (guard : Guard) (policy : Policy) :
    WarnsOnce s.guard (s.apply (.underGuard guard policy)) := by
  rw [apply, underGuard]
  cases policy.rule guard <;> rfl

/-- Whether there is a field or not, a store that can be changed is cleared or refused by a question to the
guard. So is an immutable one if there is a field. -/
theorem warnsOnce_clear (h : s.guard = .immutable → s.fields ≠ []) : WarnsOnce s.guard s.clear := by
  rw [clear]
  refine (warnsOnce_forM fun f => s.warnsOnce_askGuard .delete f.name).bind fun _ hall => ?_
  split
  · next hg =>
    rw [result_forM] at hall
    obtain ⟨f, hf⟩ := List.exists_mem_of_ne_nil _ (h hg)
    have hpermit : s.permit .delete f.name = .ok () := by
      simp only [result_askGuard] at hall
      exact permit_all_eq_ok_iff.1 hall f hf
    -- The last test is reached only past all questions, and an immutable guard lets no name past.
    exact absurd hg (permit_eq_ok_iff.1 hpermit).1
  · exact warnsOnce_pure _

theorem warnsOnce_apply {c : Command} (h : c = .clear → s.guard = .immutable → s.fields ≠ []) :
    WarnsOnce s.guard (s.apply c) := by
  cases c with
  | append name value =>
    refine (warnsOnce_read fun _ hf => Operation.warnings_of_readField hf _).bind fun f _ => ?_
    exact (s.warnsOnce_askGuard .append f.name).bind fun _ _ => warnsOnce_pure _
  | appendIfAbsent name value =>
    refine (warnsOnce_read fun _ hf => Operation.warnings_of_readField hf _).bind fun f _ => ?_
    refine (s.warnsOnce_askGuard .append f.name).bind fun _ _ => ?_
    split <;> exact warnsOnce_pure _
  | set name value =>
    refine (warnsOnce_read fun _ hf => Operation.warnings_of_readField hf _).bind fun f _ => ?_
    exact (s.warnsOnce_askGuard .set f.name).bind fun _ _ => warnsOnce_pure _
  | delete name =>
    refine (warnsOnce_read fun _ hn => Operation.warnings_of_readName hn _).bind fun n _ => ?_
    exact (s.warnsOnce_askGuard .delete n).bind fun _ _ => warnsOnce_pure _
  | extend fields =>
    refine (warnsOnce_forM fun f => s.warnsOnce_askGuard .append f.name).bind fun _ _ => ?_
    exact warnsOnce_pure _
  | clear => exact s.warnsOnce_clear (h rfl)
  | underGuard guard policy => exact s.warnsOnce_underGuard guard policy

theorem outcome_clear_of_empty (h : s.fields = []) :
    s.outcome .clear =
      if s.guard = .immutable then .error ⟨.delete, .refused .immutable⟩ else .ok { s with fields := [] } := by
  refine outcome_clear_of_guarded fun f hf => ?_
  rw [h] at hf
  cases hf

theorem warnings_clear_of_empty (h : s.fields = []) : (s.apply .clear).warnings = [] := by
  rw [apply, clear, h]
  show warnings (if s.guard = .immutable then _ else _) = []
  split <;> rfl

/-- A command that a guard refuses notes one warning, with the operation and the reason of its failure, and a
command that succeeds or fails for any other cause notes none. Only when a store without fields is to be cleared
there is never a warning, although an immutable one refuses. -/
theorem warnings_apply (s : Store) (c : Command) :
    (∀ op refusal, s.outcome c = .error ⟨op, .refused refusal⟩ → (c = .clear → s.fields ≠ []) →
      (s.apply c).warnings = [.refused op s.guard refusal]) ∧
    ((∀ op refusal, s.outcome c ≠ .error ⟨op, .refused refusal⟩) → (s.apply c).warnings = []) ∧
    (s.fields = [] → (s.apply .clear).warnings = [] ∧
      (s.outcome .clear = .error ⟨.delete, .refused .immutable⟩ ↔ s.guard = .immutable)) := by
  refine ⟨fun op refusal hout hfields => ?_, fun hout => ?_, fun hempty => ⟨s.warnings_clear_of_empty hempty, ?_⟩⟩
  · have honce := s.warnsOnce_apply fun hc _ => hfields hc
    rwa [WarnsOnce, show result (s.apply c) = _ from hout] at honce
  · have hfields : c = .clear → s.guard = .immutable → s.fields ≠ [] := by
      rintro rfl hg hempty
      have hrefused := s.outcome_clear_of_empty hempty
      rw [if_pos hg] at hrefused
      exact hout _ _ hrefused
    rw [s.warnsOnce_apply hfields]
    cases hresult : result (s.apply c) with
    | ok t => rfl
    | error failure =>
      obtain ⟨op, cause⟩ := failure
      cases cause with
      | refused refusal => exact absurd hresult (hout op refusal)
      | badName fault | badValue fault | badShape fault | thrown exception => rfl
  · rw [s.outcome_clear_of_empty hempty]
    by_cases hg : s.guard = .immutable <;> simp [hg]

/-- An immutable store without fields refuses to be cleared, and notes nothing at all. -/
theorem events_clear_immutable :
    ∃ s : Store, Reachable s ∧ s.guard = .immutable ∧
      s.outcome .clear = .error ⟨.delete, .refused .immutable⟩ ∧ (s.apply .clear).run.events = [] :=
  ⟨⟨[], .immutable, .standard⟩, ⟨Unit, Unit, Script.World.vacant, .withGuard .immutable, trivial, rfl⟩, rfl, rfl, rfl⟩

end Store

end HttpFields
