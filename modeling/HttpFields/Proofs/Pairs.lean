import HttpFields.Proofs.Multimap
import HttpFields.Proofs.Rebuild

/-!
# Stores from pairs of texts

A list of pairs becomes a store in three ways: at once, as an array of a script, or pair by pair. All three stop
at the first pair that is no field, and give the same cause.

* `Field.IsReadAs` : the field that a pair of texts is read as; `Field.Faulty` : why a pair is none
* `Field.all_read_or_first_faulty` : every pair is read, or there is a first one that is not
* `Operation.mapM_readField_of_isReadAs`, `Operation.mapM_readField_of_faulty` : what an operation makes of a
  list of pairs
* `Store.appendAll` : appends pairs one after the other
* `Store.ofPairs_paths_agree` : the three ways agree
-/

namespace HttpFields

open HttpFields.Field Script

set_option autoImplicit false

/-! ## Reading one pair -/

def Field.IsReadAs (p : String × String) (f : Field) : Prop :=
  Name.ofText p.1 = .ok f.name ∧ Value.normalize p.2 = .ok f.value

/-- Why a pair of texts is no field. Its value only matters if its name is one. -/
inductive Field.Faulty (p : String × String) : Cause → Prop where
  | name {fault : Fault} (h : Name.ofText p.1 = .error fault) : Faulty p (.badName fault)
  | value {n : Name} {fault : Fault} (hname : Name.ofText p.1 = .ok n)
    (h : Value.normalize p.2 = .error fault) : Faulty p (.badValue fault)

theorem Field.isReadAs_or_faulty (p : String × String) :
    (∃ f, Field.IsReadAs p f) ∨ ∃ cause, Field.Faulty p cause := by
  cases hname : Name.ofText p.1 with
  | error fault => exact .inr ⟨.badName fault, .name hname⟩
  | ok n =>
    cases hvalue : Value.normalize p.2 with
    | error fault => exact .inr ⟨.badValue fault, .value hname hvalue⟩
    | ok v => exact .inl ⟨⟨n, v⟩, hname, hvalue⟩

theorem Field.all_read_or_first_faulty (ps : List (String × String)) :
    (∃ fs, List.Forall₂ Field.IsReadAs ps fs) ∨
      ∃ sound fs p behind cause, ps = sound ++ p :: behind ∧ List.Forall₂ Field.IsReadAs sound fs ∧
        Field.Faulty p cause := by
  induction ps with
  | nil => exact .inl ⟨[], .nil⟩
  | cons p ps ih =>
    rcases Field.isReadAs_or_faulty p with ⟨f, hf⟩ | ⟨cause, hfaulty⟩
    · rcases ih with ⟨fs, hfs⟩ | ⟨sound, fs, q, behind, cause, rfl, hfs, hfaulty⟩
      · exact .inl ⟨f :: fs, .cons hf hfs⟩
      · exact .inr ⟨p :: sound, f :: fs, q, behind, cause, rfl, .cons hf hfs, hfaulty⟩
    · exact .inr ⟨[], [], p, ps, cause, rfl, .nil, hfaulty⟩

/-! ## What an operation makes of pairs -/

namespace Operation

variable {op : Operation} {p : String × String}

theorem readField_of_isReadAs {f : Field} (h : Field.IsReadAs p f) : op.readField p.1 p.2 = .ok f := by
  obtain ⟨hname, hvalue⟩ := h
  simp only [readField, readName, readValue, hname, hvalue]
  rfl

theorem readField_of_faulty {cause : Cause} (h : Field.Faulty p cause) :
    op.readField p.1 p.2 = .error ⟨op, cause⟩ := by
  cases h with
  | name h =>
    simp only [readField, readName, h]
    rfl
  | value hname h =>
    simp only [readField, readName, readValue, hname, h]
    rfl

theorem isReadAs_of_readField {f : Field} (h : op.readField p.1 p.2 = .ok f) : Field.IsReadAs p f := by
  rcases Field.isReadAs_or_faulty p with ⟨g, hg⟩ | ⟨cause, hfaulty⟩
  · rw [readField_of_isReadAs hg] at h
    cases h
    exact hg
  · rw [readField_of_faulty hfaulty] at h
    cases h

theorem faulty_of_readField {failure : Failure} (h : op.readField p.1 p.2 = .error failure) :
    ∃ cause, Field.Faulty p cause ∧ failure = ⟨op, cause⟩ := by
  rcases Field.isReadAs_or_faulty p with ⟨f, hf⟩ | ⟨cause, hfaulty⟩
  · rw [readField_of_isReadAs hf] at h
    cases h
  · rw [readField_of_faulty hfaulty] at h
    cases h
    exact ⟨cause, hfaulty, rfl⟩

theorem mapM_readField_of_isReadAs {ps : List (String × String)} {fs : Fields}
    (h : List.Forall₂ Field.IsReadAs ps fs) : ps.mapM (fun p => op.readField p.1 p.2) = .ok fs := by
  induction h with
  | nil => rfl
  | cons hf _ ih =>
    rw [List.mapM_cons, readField_of_isReadAs hf, ih]
    rfl

theorem mapM_readField_of_faulty {sound behind : List (String × String)} {fs : Fields} {cause : Cause}
    (hsound : List.Forall₂ Field.IsReadAs sound fs) (h : Field.Faulty p cause) :
    (sound ++ p :: behind).mapM (fun p => op.readField p.1 p.2) = .error ⟨op, cause⟩ := by
  rw [List.mapM_append, mapM_readField_of_isReadAs hsound, List.mapM_cons, readField_of_faulty h]
  rfl

end Operation

/-! ## Appending pair by pair -/

namespace Store

open StoreM

def appendAll (s : Store) (ps : List (String × String)) : StoreM Store :=
  ps.foldlM (fun s p => s.append p.1 p.2) s

/-- Under no guard every name is permitted, so only the reading can fail. -/
theorem result_append_of_none {s : Store} (h : s.guard = .none) (name value : String) :
    result (s.append name value) = do
      let f ← Operation.append.readField name value
      return { s with fields := s.fields.append f.name f.value } := by
  rw [result_append]
  refine bind_congr fun f => ?_
  have hpermit : s.permit .append f.name = .ok () := by
    rw [permit_eq_ok_iff, h]
    exact ⟨nofun, rfl⟩
  rw [hpermit]
  rfl

theorem result_appendAll {s : Store} (h : s.guard = .none) (ps : List (String × String)) :
    result (s.appendAll ps) = do
      let fs ← ps.mapM fun p => Operation.append.readField p.1 p.2
      return { s with fields := s.fields ++ fs } := by
  induction ps generalizing s with
  | nil =>
    show Except.ok s = Except.ok { s with fields := s.fields ++ [] }
    rw [List.append_nil]
  | cons p ps ih =>
    rw [appendAll, List.foldlM_cons, result_bind, result_append_of_none h, List.mapM_cons]
    cases Operation.append.readField p.1 p.2 with
    | error failure => rfl
    | ok f =>
      -- What is appended first stands in front of all that follows.
      have hrest := ih (s := { s with fields := s.fields.append f.name f.value }) h
      rw [appendAll] at hrest
      show result (ps.foldlM _ { s with fields := s.fields.append f.name f.value }) = _
      rw [hrest]
      cases ps.mapM fun p => Operation.append.readField p.1 p.2 with
      | error failure => rfl
      | ok fs =>
        show Except.ok { s with fields := s.fields ++ [f] ++ fs } = Except.ok { s with fields := s.fields ++ f :: fs }
        rw [List.append_assoc, List.singleton_append]

/-- A list of pairs, the array of these pairs, and appending them one by one to a new store give the same. If
every pair is read as a field then those fields are stored in their order, under no guard. If not then the first
pair that is no field is the failure, its name before its value; what was appended by then are the fields in front
of it. The array answers all questions without a change of the world. -/
theorem ofPairs_paths_agree {φ σ : Type} (foreign : World φ (Ordinary φ) σ) (state : σ)
    (ps : List (String × String)) :
    FillM.result (ofSource (Ordinary.world foreign) (.value (.object (.pairs ps)))) state =
      (ofPairs ps, state) ∧
    ((∃ fs, List.Forall₂ Field.IsReadAs ps fs ∧ ofPairs ps = .ok ⟨fs, .none, .standard⟩ ∧
        result (appendAll {} ps) = .ok ⟨fs, .none, .standard⟩) ∨
      ∃ sound fs p behind cause, ps = sound ++ p :: behind ∧ List.Forall₂ Field.IsReadAs sound fs ∧
        Field.Faulty p cause ∧ ofPairs ps = .error ⟨.construct, cause⟩ ∧
        result (appendAll {} ps) = .error ⟨.append, cause⟩ ∧
        result (appendAll {} sound) = .ok ⟨fs, .none, .standard⟩) := by
  have happend : ∀ qs fs, List.Forall₂ Field.IsReadAs qs fs →
      result (appendAll {} qs) = .ok ⟨fs, .none, .standard⟩ := by
    intro qs fs hfs
    rw [result_appendAll rfl, Operation.mapM_readField_of_isReadAs hfs]
    rfl
  refine ⟨?_, ?_⟩
  · rw [result_ofSource_value, Fill.result_pairs]
    rfl
  · rcases Field.all_read_or_first_faulty ps with ⟨fs, hfs⟩ | ⟨sound, fs, p, behind, cause, rfl, hfs, hfaulty⟩
    · refine .inl ⟨fs, hfs, ?_, happend ps fs hfs⟩
      rw [ofPairs, Operation.mapM_readField_of_isReadAs hfs]
      rfl
    · refine .inr ⟨sound, fs, p, behind, cause, rfl, hfs, hfaulty, ?_, ?_, happend sound fs hfs⟩
      · rw [ofPairs, Operation.mapM_readField_of_faulty hfs hfaulty]
        rfl
      · rw [result_appendAll rfl, Operation.mapM_readField_of_faulty hfs hfaulty]
        rfl

end Store

end HttpFields
