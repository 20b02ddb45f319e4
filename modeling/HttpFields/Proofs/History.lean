import HttpFields.Proofs.Construction
import HttpFields.Proofs.Reading

/-!
# Histories of stores

A store comes about by a construction and the commands that follow it. What callers hand in as names and
values they have from a reader, or from a look-up in a store.

* `History` : how a store came about; `History.store` : the store in the end
* `Field.Name.Obtained`, `Field.Value.Obtained` : the names and values that callers can have
* `Reachable` : the stores that come about with such names and values
* `History.induction` : what holds of new stores and is kept by commands holds of every store
* `History.forall_fields` : what holds of every field that is read or handed in holds of every stored field
* `History.guarded`, `Reachable.obtained` : the guard lets every stored name through, and what is stored was
  obtained
-/

namespace HttpFields

open HttpFields.Field Script

set_option autoImplicit false

/-! ## Histories -/

/-- How a store came about, in a world with objects `ω` and states `σ`. A construction from a value finds the
world in any state. -/
inductive History (ω σ : Type) where
  | new
  | withGuard (guard : Guard)
  | withPolicy (guard : Guard) (policy : Policy)
  | ofPairs (pairs : List (String × String))
  | ofFields (fields : Fields)
  | ofAbsent (state : σ)
  | ofValue (state : σ) (v : Script.Value ω)
  | ofStore (state : σ) (source : History ω σ)
  | clone (original : History ω σ)
  /-- A command on a store. One that fails leaves the store as it is. -/
  | change (before : History ω σ) (c : Command)

namespace History

variable {ω σ : Type}

def store (world : World ω ω σ) : History ω σ → Except Failure Store
  | .new => .ok {}
  | .withGuard guard => .ok { guard }
  | .withPolicy guard policy => .ok { guard, policy }
  | .ofPairs pairs => Store.ofPairs pairs
  | .ofFields fields => .ok (.ofFields fields)
  | .ofAbsent state => Store.made world state .absent
  | .ofValue state v => Store.made world state (.value v)
  | .ofStore state source => do
    let s ← source.store world
    Store.made world state (.store s)
  | .clone original => original.store world
  | .change before c => do
    let s ← before.store world
    return s.after c

end History

/-! ## What callers hand in -/

/-- The field lists that a command hands in satisfy a condition. -/
def Command.Passes (allowed : Fields → Prop) : Command → Prop
  | .extend fields => allowed fields
  | _ => True

namespace History

variable {ω σ : Type}

def Passes (allowed : Fields → Prop) : History ω σ → Prop
  | .ofFields fields => allowed fields
  | .ofStore _ source => source.Passes allowed
  | .clone original => original.Passes allowed
  | .change before c => before.Passes allowed ∧ c.Passes allowed
  | _ => True

theorem passes_any (h : History ω σ) : h.Passes fun _ => True := by
  induction h with
  | ofStore state source ih => exact ih
  | clone original ih => exact ih
  | change before c ih => exact ⟨ih, by cases c <;> trivial⟩
  | _ => trivial

/-- What holds of every new store, and is kept by commands, holds of every store. -/
theorem induction {P : Store → Prop} {allowed : Fields → Prop} {world : World ω ω σ}
    (hempty : ∀ guard policy, P ⟨[], guard, policy⟩)
    (hread : ∀ ps s, Store.ofPairs ps = .ok s → P s)
    (hfields : ∀ fs, allowed fs → P (.ofFields fs))
    (hcopy : ∀ s, P s → P (.ofFields s.fields))
    (hafter : ∀ s c, c.Passes allowed → P s → P (s.after c))
    {h : History ω σ} {s : Store} (hpass : h.Passes allowed) (hs : h.store world = .ok s) : P s := by
  induction h generalizing s with
  | new =>
    cases hs
    exact hempty _ _
  | withGuard guard =>
    cases hs
    exact hempty _ _
  | withPolicy guard policy =>
    cases hs
    exact hempty _ _
  | ofPairs pairs => exact hread pairs s hs
  | ofFields fields =>
    cases hs
    exact hfields fields hpass
  | ofAbsent state =>
    cases hs
    exact hempty _ _
  | ofValue state v =>
    rw [store, Store.made_value] at hs
    obtain ⟨ps, _, hps⟩ := bind_eq_ok_iff.1 hs
    exact hread ps s hps
  | ofStore state source ih =>
    obtain ⟨t, ht, hts⟩ := bind_eq_ok_iff.1 hs
    cases hts
    exact hcopy t (ih hpass ht)
  | clone original ih => exact ih hpass hs
  | change before c ih =>
    obtain ⟨t, ht, hts⟩ := bind_eq_ok_iff.1 hs
    cases hts
    exact hafter t c hpass.2 (ih hpass.1 ht)

theorem guarded {world : World ω ω σ} {h : History ω σ} {s : Store} (hs : h.store world = .ok s) :
    s.Guarded := by
  refine induction Store.guarded_empty (fun ps s hps => ?_) (fun fs _ => Store.guarded_ofFields fs)
    (fun s _ => Store.guarded_ofFields s.fields) (fun s c _ h => Store.guarded_after h c) h.passes_any hs
  obtain ⟨fs, _, rfl⟩ := Store.ofPairs_eq_ok_iff.1 hps
  exact Store.guarded_ofFields fs

end History

/-! ## Where stored fields come from -/

section

variable {P : Field → Prop}

/-- A command brings in fields that it reads or that are handed in with it. -/
theorem Command.Brings.of_passes
    (hread : ∀ {op : Operation} {name value f}, op.readField name value = .ok f → P f) {c : Command}
    (hc : c.Passes fun fs => ∀ f ∈ fs, P f) {f : Field} (h : c.Brings f) : P f := by
  cases c with
  | append name value | appendIfAbsent name value | set name value => exact hread h
  | extend fields => exact hc f h
  | delete name | clear | underGuard guard policy => exact h.elim

/-- What holds of every field that is read, and of those that are handed in, holds of every stored field. -/
theorem History.forall_fields
    (hread : ∀ {op : Operation} {name value f}, op.readField name value = .ok f → P f) {ω σ : Type}
    {world : World ω ω σ} {h : History ω σ} {s : Store} (hpass : h.Passes fun fs => ∀ f ∈ fs, P f)
    (hs : h.store world = .ok s) : ∀ f ∈ s.fields, P f := by
  refine induction (P := fun s => ∀ f ∈ s.fields, P f) (fun _ _ f hf => nomatch hf) (fun ps s hps => ?_)
    (fun fs hfs => hfs) (fun s hs => hs) (fun s c hc hs => ?_) hpass hs
  · obtain ⟨fs, hfs, rfl⟩ := Store.ofPairs_eq_ok_iff.1 hps
    intro f hf
    obtain ⟨p, _, hp⟩ := mem_of_mapM_eq_ok hfs hf
    exact hread hp
  · refine Store.after_induction (P := fun s => ∀ f ∈ s.fields, P f) hs fun t ht f hf => ?_
    rcases Store.mem_of_becomes (Store.becomes_of_outcome ht) hf with hf | ⟨hf, _⟩
    · exact hs f hf
    · exact hf.of_passes hread hc

end

/-! ## Names and values that callers can have -/

/-- A name that callers can have: one that a reader yielded, or a standard one. -/
def Field.Name.Obtained (n : Name) : Prop :=
  (∃ bytes, Name.parse bytes = .ok n) ∨ (∃ bytes, Name.parseLower bytes = .ok n) ∨ n ∈ Name.standard

theorem Field.Name.Obtained.wellFormed {n : Name} (h : n.Obtained) : n.WellFormed := by
  rcases h with ⟨bytes, h⟩ | ⟨bytes, h⟩ | h
  · exact Name.wellFormed_of_parse h
  · exact Name.wellFormed_of_parseLower h
  · exact Name.wellFormed_of_mem_standard n h

/-- A value that callers can have: one that a reader yielded, or what a look-up made of such values. -/
inductive Field.Value.Obtained : Value → Prop where
  | normalized {text : String} {v : Value} (h : Value.normalize text = .ok v) : Obtained v
  | asIs {text : String} {v : Value} (h : Value.ofNormalized text = .ok v) : Obtained v
  | joined {v : Value} {more : List Value} (hv : Obtained v) (hmore : ∀ w ∈ more, Obtained w) :
    Obtained (v.join more)

namespace Field.Value.Obtained

theorem wellFormed {v : Value} (h : v.Obtained) : v.WellFormed := by
  induction h with
  | normalized h => exact wellFormed_of_normalize h
  | asIs h => exact wellFormed_of_ofNormalized h
  | joined _ _ hv hmore => exact wellFormed_join hv hmore

/-- A join begins like its first part or with a comma, so no such value begins with a blank. -/
theorem head_not_blank {v : Value} (h : v.Obtained) : ∀ c ∈ v.text.toList.head?, Text.isBlank c = false := by
  induction h with
  | normalized h => exact (unpadded_of_normalize h).1
  | asIs h => exact (unpadded_of_ofNormalized h).1
  | @joined v more _ _ hv _ =>
    intro c hc
    rw [head?_join] at hc
    cases hhead : v.text.toList.head? with
    | some d =>
      rw [hhead] at hc
      exact hv c (hhead.trans hc)
    | none =>
      rw [hhead, Option.none_or] at hc
      split at hc
      · cases hc
      · cases hc
        rfl

end Field.Value.Obtained

def Fields.Obtained (fs : Fields) : Prop := ∀ f ∈ fs, f.name.Obtained ∧ f.value.Obtained

theorem Operation.obtained_of_readField {op : Operation} {name value : String} {f : Field}
    (h : op.readField name value = .ok f) : f.name.Obtained ∧ f.value.Obtained := by
  obtain ⟨n, hn, h⟩ := bind_eq_ok_iff.1 h
  obtain ⟨v, hv, h⟩ := bind_eq_ok_iff.1 h
  obtain rfl : ⟨n, v⟩ = f := Except.ok.inj h
  rw [readName] at hn
  rw [readValue] at hv
  split at hn
  · next m hm =>
    split at hv
    · next w hw => exact ⟨.inl ⟨_, Except.ok.inj hn ▸ hm⟩, .normalized (Except.ok.inj hv ▸ hw)⟩
    · cases hv
  · cases hn

/-! ## Reachable stores -/

/-- The store comes about in some world, with names and values that callers can have. -/
def Reachable (s : Store) : Prop :=
  ∃ (ω σ : Type) (world : World ω ω σ) (h : History ω σ), h.Passes Fields.Obtained ∧ h.store world = .ok s

theorem Reachable.guarded {s : Store} (h : Reachable s) : s.Guarded := by
  obtain ⟨ω, σ, world, h, -, hs⟩ := h
  exact h.guarded hs

theorem Reachable.obtained {s : Store} (h : Reachable s) : s.fields.Obtained := by
  obtain ⟨ω, σ, world, h, hpass, hs⟩ := h
  exact h.forall_fields Operation.obtained_of_readField hpass hs

end HttpFields
