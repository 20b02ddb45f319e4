import HttpFields.Proofs.Pairs
import HttpFields.Proofs.Rebuild

/-!
# Padding of shown values

A value that was read has no padding. Several of them are shown as one, which is not read again. It begins like
its first part or with a comma, so never with a blank; but an empty last part leaves it with a space at its end.

* `Value.Normalized` : a value is taken as it stands; `Value.ofNormalized_of_obtained` : what becomes of the others
* `Value.Trails` : the values of a name end in a blank when they are shown as one
* `Value.ofNormalized_join` : which joins of normalized values are normalized
* `FromNormalized` : the stores that come about from texts and normalized values alone
* `Store.Shows` : what a look-up or a snapshot shows; `Reachable.padding_of_shows` : the ends of it
-/

namespace HttpFields

open HttpFields.Field Script

set_option autoImplicit false

/-! ## Normalized values -/

namespace Field.Value

/-- The value is taken as it stands. -/
def Normalized (v : Value) : Prop := ofNormalized v.text = .ok v

instance (v : Value) : Decidable v.Normalized := inferInstanceAs (Decidable (_ = _))

variable {v : Value}

theorem Normalized.obtained (h : v.Normalized) : v.Obtained := .asIs h

/-- Only a blank at the end can be wrong with a value that callers can have. -/
theorem ofNormalized_of_obtained (h : v.Obtained) :
    ofNormalized v.text = if v.EndsInBlank then .error .malformed else .ok v := by
  have hhead : v.text.toList.head?.any Text.isBlank = false := by
    rw [Option.any_eq_false]
    exact h.head_not_blank
  have hline : v.text.toList.any breaksLine = false := by
    rw [List.any_eq_false]
    exact fun c hc => Bool.eq_false_iff.1 (h.wellFormed c hc)
  simp only [ofNormalized, hhead, hline, Bool.false_or, Bool.or_false]
  rfl

theorem normalized_iff_of_obtained (h : v.Obtained) : v.Normalized ↔ ¬ v.EndsInBlank := by
  rw [Normalized, ofNormalized_of_obtained h]
  split <;> simp [*]

theorem Normalized.not_endsInBlank (h : v.Normalized) : ¬ v.EndsInBlank :=
  (normalized_iff_of_obtained h.obtained).1 h

theorem normalized_of_normalize {text : String} (h : normalize text = .ok v) : v.Normalized := by
  rw [normalized_iff_of_obtained (.normalized h), EndsInBlank, Bool.not_eq_true, Option.any_eq_false]
  exact (unpadded_of_normalize h).2

/-! ## Joined values -/

/-- Shown as one, the values end in a blank: the last of them does, or it is empty and stands behind others. -/
def Trails (vs : List Value) : Prop := (∃ w ∈ vs.getLast?, w.EndsInBlank) ∨ vs.tail.getLast? = some ⟨""⟩

theorem endsInBlank_join_iff_trails (v : Value) (more : List Value) :
    (v.join more).EndsInBlank ↔ Trails (v :: more) := by
  have hlast := List.getLast?_eq_some_getLast (List.cons_ne_nil v more)
  have hempty : ∀ w : Value, w = ⟨""⟩ ↔ w.text = "" := by
    rintro ⟨text⟩
    simp
  rw [endsInBlank_join_iff hlast, Trails, hlast]
  cases more with
  | nil => simp
  | cons w more =>
    -- The last of several values is the last of those behind the first.
    rw [List.tail_cons, ← List.getLast?_cons_cons (a := v), hlast]
    simp [hempty]

/-- Of normalized values none ends in a blank, so only an empty one can be at fault. -/
theorem trails_iff_of_normalized {vs : List Value} (h : ∀ w ∈ vs, w.Normalized) :
    Trails vs ↔ vs.tail.getLast? = some ⟨""⟩ := by
  refine or_iff_right fun ⟨w, hw, hends⟩ => ?_
  exact (h w (List.mem_of_getLast? hw)).not_endsInBlank hends

theorem ofNormalized_join {more : List Value} (h : ∀ w ∈ v :: more, w.Normalized) :
    ofNormalized (v.join more).text =
      if more.getLast? = some ⟨""⟩ then .error .malformed else .ok (v.join more) := by
  obtain ⟨hv, hmore⟩ := List.forall_mem_cons.1 h
  have hjoined : (v.join more).Obtained := .joined hv.obtained fun w hw => (hmore w hw).obtained
  have hends : (v.join more).EndsInBlank ↔ more.getLast? = some ⟨""⟩ :=
    (endsInBlank_join_iff_trails v more).trans (trails_iff_of_normalized h)
  rw [ofNormalized_of_obtained hjoined]
  simp only [hends]

end Field.Value

/-! ## Stores of normalized values -/

def Fields.Normalized (fs : Fields) : Prop := ∀ f ∈ fs, f.value.Normalized

instance (fs : Fields) : Decidable fs.Normalized :=
  inferInstanceAs (Decidable (∀ f ∈ fs, f.value.Normalized))

/-- The store comes about in some world, and every value that is handed in is normalized. -/
def FromNormalized (s : Store) : Prop :=
  ∃ (ω σ : Type) (world : World ω ω σ) (h : History ω σ), h.Passes Fields.Normalized ∧ h.store world = .ok s

theorem Operation.normalized_of_readField {op : Operation} {name value : String} {f : Field}
    (h : op.readField name value = .ok f) : f.value.Normalized :=
  Value.normalized_of_normalize (isReadAs_of_readField (p := (name, value)) h).2

theorem FromNormalized.normalized {s : Store} (h : FromNormalized s) : s.fields.Normalized := by
  obtain ⟨ω, σ, world, h, hpass, hs⟩ := h
  exact h.forall_fields Operation.normalized_of_readField hpass hs

/-! ## Shown values -/

namespace Store

/-- A look-up or a snapshot shows the value under the name. -/
inductive Shows (s : Store) (n : Name) (v : Value) : Prop where
  | lookup {text : String} (hn : Name.ofText text = .ok n) (h : s.get text = .ok (some v))
  | entry (h : ⟨n, v⟩ ∈ s.snapshot)

variable {s : Store} {n : Name} {v : Value}

theorem Shows.mem_listed (h : s.Shows n v) : v ∈ Fields.listed n (s.fields.valuesOf n) := by
  cases h with
  | lookup hn h =>
    rw [get_of_ofText hn, Fields.combined_eq_head?_listed] at h
    exact List.mem_of_mem_head? (Except.ok.inj h)
  | entry h =>
    rw [← Fields.valuesOf_snapshot]
    exact Fields.mem_valuesOf_iff.2 h

theorem Shows.obtained (h : s.Shows n v) (hs : s.fields.Obtained) : v.Obtained :=
  Value.obtained_listed (fun _ hw => (hs _ (Fields.mem_valuesOf_iff.1 hw)).2) v h.mem_listed

theorem Shows.endsInBlank_iff (h : s.Shows n v) :
    if n = Name.setCookie then v ∈ s.setCookies
    else (v.EndsInBlank ↔ Value.Trails (s.fields.valuesOf n)) := by
  have hmem := h.mem_listed
  split
  · next hn =>
    subst hn
    rwa [Fields.listed_setCookie] at hmem
  · next hn =>
    cases hvs : s.fields.valuesOf n with
    | nil =>
      rw [hvs, Fields.listed_nil] at hmem
      cases hmem
    | cons w more =>
      rw [hvs, Fields.listed_cons hn, List.mem_singleton] at hmem
      rw [hmem, Value.endsInBlank_join_iff_trails]

end Store

/-- No value that a store shows begins with a blank, and it is taken as it stands unless it ends in one. A cookie
is shown as it is stored. The values of another name end in a blank, shown as one, if the last of them does, or if
it is empty and there are others. Only the latter is left if all values that were handed in are normalized, and it
is all that can be wrong with a join of normalized values. -/
theorem Reachable.padding_of_shows {s : Store} (h : Reachable s) :
    (∀ n v, s.Shows n v → (∀ c ∈ v.text.toList.head?, Text.isBlank c = false) ∧
      Value.ofNormalized v.text = (if v.EndsInBlank then .error .malformed else .ok v) ∧
      if n = Name.setCookie then v ∈ s.setCookies
      else (v.EndsInBlank ↔ Value.Trails (s.fields.valuesOf n))) ∧
    (FromNormalized s → ∀ n v, s.Shows n v →
      (v.EndsInBlank ↔ n ≠ Name.setCookie ∧ (s.fields.valuesOf n).tail.getLast? = some ⟨""⟩)) ∧
    ∀ (v : Value) (more : List Value), (∀ w ∈ v :: more, w.Normalized) →
      Value.ofNormalized (v.join more).text =
        if more.getLast? = some ⟨""⟩ then .error .malformed else .ok (v.join more) := by
  refine ⟨fun n v hv => ?_, fun hplain n v hv => ?_, fun v more => Value.ofNormalized_join⟩
  · have hobtained := hv.obtained h.obtained
    exact ⟨hobtained.head_not_blank, Value.ofNormalized_of_obtained hobtained, hv.endsInBlank_iff⟩
  · have hnormalized : ∀ w ∈ s.fields.valuesOf n, w.Normalized := fun w hw =>
      hplain.normalized ⟨n, w⟩ (Fields.mem_valuesOf_iff.1 hw)
    have hends := hv.endsInBlank_iff
    by_cases hn : n = Name.setCookie
    · -- A cookie is never joined, so it is as normalized as it was when it came in.
      rw [if_pos hn, Store.setCookies, ← hn] at hends
      exact iff_of_false (hnormalized v hends).not_endsInBlank fun hlast => hlast.1 hn
    · rw [if_neg hn] at hends
      rw [hends, Value.trails_iff_of_normalized hnormalized, and_iff_right hn]

/-- An empty value between two others is joined with them, and the result is taken as it stands. -/
theorem Reachable.padding_of_shows_accept :
    ∃ s : Store, Reachable s ∧ s.fields = [⟨.accept, ⟨"a"⟩⟩, ⟨.accept, ⟨""⟩⟩, ⟨.accept, ⟨"b"⟩⟩] ∧
      s.Shows .accept ⟨"a, , b"⟩ ∧ ¬ Value.EndsInBlank ⟨"a, , b"⟩ ∧
      Value.ofNormalized "a, , b" = .ok ⟨"a, , b"⟩ := by
  let s : Store := .ofFields [⟨.accept, ⟨"a"⟩⟩, ⟨.accept, ⟨""⟩⟩, ⟨.accept, ⟨"b"⟩⟩]
  let made : History Unit Unit := .ofPairs [("Accept", "a "), ("accept", " "), ("accept", "\tb")]
  have hmade : made.store World.vacant = .ok s := rfl
  have hreach : Reachable s := ⟨Unit, Unit, World.vacant, made, trivial, hmade⟩
  have hplain : FromNormalized s := ⟨Unit, Unit, World.vacant, made, trivial, hmade⟩
  have hshows : s.Shows .accept ⟨"a, , b"⟩ :=
    .lookup (show Name.ofText "ACCEPT" = .ok .accept from rfl) (by decide +kernel)
  obtain ⟨hall, hends_iff, -⟩ := Reachable.padding_of_shows hreach
  have hends : ¬ Value.EndsInBlank ⟨"a, , b"⟩ := by
    rw [hends_iff hplain _ _ hshows]
    decide +kernel
  have htaken := (hall _ _ hshows).2.1
  rw [if_neg hends] at htaken
  exact ⟨s, hreach, rfl, hshows, hends, htaken⟩

/-- Two empty values are shown as a comma and a space. No reader takes that as it stands. -/
theorem Store.shows_trailing_space :
    ∃ s : Store, Reachable s ∧ s.fields = [⟨.ofLower "a", ⟨""⟩⟩, ⟨.ofLower "a", ⟨""⟩⟩] ∧ s.fields.Normalized ∧
      s.get "a" = .ok (some ⟨", "⟩) ∧ ⟨.ofLower "a", ⟨", "⟩⟩ ∈ s.snapshot ∧
      Value.EndsInBlank ⟨", "⟩ ∧ Value.ofNormalized ", " = .error .malformed := by
  let s : Store := .ofFields [⟨.ofLower "a", ⟨""⟩⟩, ⟨.ofLower "a", ⟨""⟩⟩]
  have hreach : Reachable s := ⟨Unit, Unit, World.vacant, .ofPairs [("a", ""), ("a", "")], trivial, rfl⟩
  have hsnapshot : s.snapshot = [⟨.ofLower "a", ⟨", "⟩⟩] := by
    rw [snapshot, Fields.snapshot_of_sorted (by decide)]
    rfl
  exact ⟨s, hreach, rfl, by decide, by decide +kernel, hsnapshot ▸ List.mem_singleton_self _, by decide, by decide⟩

end HttpFields
