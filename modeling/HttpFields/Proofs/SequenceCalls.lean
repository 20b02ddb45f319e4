import HttpFields.Proofs.Transcript
import HttpFields.Script.Ordinary

/-!
# The calls of a sequence construction

An object that can be iterated over is asked for its elements, and then each element in turn for its two items
and their texts. The first defect ends the construction.

* `Fill.ElementTranscript`, `Fill.ElementsTranscript`, `Fill.SequenceTranscript` : the transcripts of one
  element, of several, and of an object
* `Fill.conforms_ofSequence` : a sequence construction has such a transcript
* `Fill.ElementsTranscript.first_defect` : the defect that is reported is that of the first element with one
* `Failure.OfElement` : the failures of a construction that no exchange shows
* `Store.ofSource_sequence_calls` : the calls of the construction, and the store that it yields
-/

namespace HttpFields

open Script

set_option autoImplicit false

/-! ## Transcripts of sequences -/

namespace Fill

variable {ω σ : Type}

/-- What the element at an index is asked. No item is turned into a text before there are known to be two. -/
inductive ElementTranscript (index : Nat) :
    Script.Value ω → Transcript ω → Except Failure (String × String) → Prop where
  | notObject (p : Primitive) :
    ElementTranscript index (.primitive p) [] (.error ⟨.construct, .badShape (.notPair index)⟩)
  | askRaised (p : ω) (e : Thrown) :
    ElementTranscript index (.object p) [⟨.isIterable p, .error e⟩] (.error ⟨.construct, .thrown e⟩)
  | notIterable (p : ω) :
    ElementTranscript index (.object p) [⟨.isIterable p, .ok false⟩]
      (.error ⟨.construct, .badShape (.notPair index)⟩)
  | iterateRaised (p : ω) (e : Thrown) :
    ElementTranscript index (.object p) [⟨.isIterable p, .ok true⟩, ⟨.iterate p, .error e⟩]
      (.error ⟨.construct, .thrown e⟩)
  | badLength (p : ω) (items : List (Script.Value ω)) (hlength : items.length ≠ 2) :
    ElementTranscript index (.object p) [⟨.isIterable p, .ok true⟩, ⟨.iterate p, .ok items⟩]
      (.error ⟨.construct, .badShape (.pairLength index items.length)⟩)
  | nameRaised (p : ω) {name value : Script.Value ω} {talk : Transcript ω} {failure : Failure}
    (hname : TextTranscript name talk (.error failure)) :
    ElementTranscript index (.object p)
      (⟨.isIterable p, .ok true⟩ :: ⟨.iterate p, .ok [name, value]⟩ :: talk) (.error failure)
  | converted (p : ω) {name value : Script.Value ω} {first rest : Transcript ω} {nameText : String}
    {out : Except Failure String} (hname : TextTranscript name first (.ok nameText))
    (hvalue : TextTranscript value rest out) :
    ElementTranscript index (.object p)
      (⟨.isIterable p, .ok true⟩ :: ⟨.iterate p, .ok [name, value]⟩ :: (first ++ rest))
      (out.map fun valueText => (nameText, valueText))

/-- Elements are asked one after the other, the first at the given index, until one of them fails. -/
inductive ElementsTranscript : Nat → List (Script.Value ω) → Transcript ω →
    Except Failure (List (String × String)) → Prop where
  | done (index : Nat) : ElementsTranscript index [] [] (.ok [])
  | stopped {index : Nat} {v : Script.Value ω} {vs : List (Script.Value ω)} {talk : Transcript ω}
    {failure : Failure} (helement : ElementTranscript index v talk (.error failure)) :
    ElementsTranscript index (v :: vs) talk (.error failure)
  | next {index : Nat} {v : Script.Value ω} {vs : List (Script.Value ω)} {first rest : Transcript ω}
    {pair : String × String} {out : Except Failure (List (String × String))}
    (helement : ElementTranscript index v first (.ok pair))
    (helements : ElementsTranscript (index + 1) vs rest out) :
    ElementsTranscript index (v :: vs) (first ++ rest) (out.map (pair :: ·))

/-- An object is iterated over once, and then its elements are asked in that order. -/
inductive SequenceTranscript (o : ω) : Transcript ω → Except Failure (List (String × String)) → Prop where
  | raised (e : Thrown) : SequenceTranscript o [⟨.iterate o, .error e⟩] (.error ⟨.construct, .thrown e⟩)
  | iterated {elements : List (Script.Value ω)} {talk : Transcript ω}
    {out : Except Failure (List (String × String))} (helements : ElementsTranscript 0 elements talk out) :
    SequenceTranscript o (⟨.iterate o, .ok elements⟩ :: talk) out

variable (world : World ω ω σ)

theorem conforms_pairOf (index : Nat) (v : Script.Value ω) :
    Conforms world (pairOf world index v) (ElementTranscript index v) := by
  cases v with
  | primitive p => exact conforms_reject (.notObject p)
  | object p =>
    refine conforms_ask_bind (.askRaised p) fun isPair => ?_
    cases isPair with
    | false =>
      intro state
      exact ⟨[], _, state, .nil state, .notIterable p, rfl⟩
    | true =>
      refine conforms_ask_bind (.iterateRaised p) fun items => ?_
      -- Only a list of two items gets past the match.
      rcases items with _ | ⟨name, _ | ⟨value, _ | ⟨third, more⟩⟩⟩
      · exact conforms_reject (.badLength p [] (by simp))
      · exact conforms_reject (.badLength p [name] (by simp))
      · refine conforms_bind (conforms_text world name) (fun talk e h => .nameRaised p h)
          fun first nameText hname => ?_
        refine conforms_bind (conforms_text world value) (fun talk e h => .converted p hname h)
          fun rest valueText hvalue => ?_
        refine conforms_pure ?_
        rw [List.append_nil]
        exact .converted p hname hvalue
      · exact conforms_reject (.badLength p (name :: value :: third :: more) (by simp))

theorem conforms_pairsFrom (index : Nat) (vs : List (Script.Value ω)) :
    Conforms world (pairsFrom world index vs) (ElementsTranscript index vs) := by
  induction vs generalizing index with
  | nil => exact conforms_pure (.done index)
  | cons v vs ih =>
    refine conforms_bind (conforms_pairOf world index v) (fun talk e h => .stopped h)
      fun first pair helement => ?_
    refine conforms_bind (ih (index + 1)) (fun talk e h => .next helement h) fun rest pairs helements => ?_
    refine conforms_pure ?_
    rw [List.append_nil]
    exact .next helement helements

theorem conforms_ofSequence (o : ω) : Conforms world (ofSequence world o) (SequenceTranscript o) :=
  conforms_ask_bind .raised fun elements =>
    (conforms_pairsFrom world 0 elements).mono fun _ _ => .iterated

/-! ## The first defect -/

theorem ElementsTranscript.length_eq {index : Nat} {vs : List (Script.Value ω)} {talk : Transcript ω}
    {ps : List (String × String)} (h : ElementsTranscript index vs talk (.ok ps)) : ps.length = vs.length := by
  generalize hout : Except.ok ps = out at h
  induction h generalizing ps with
  | done index =>
    cases hout
    rfl
  | stopped _ => cases hout
  | @next index v vs first rest pair out _ _ ih =>
    cases out with
    | error failure => cases hout
    | ok qs =>
      cases hout
      rw [List.length_cons, List.length_cons, ih rfl]

/-- The elements in front of the defect have been turned into pairs, and no element behind it is asked. -/
theorem ElementsTranscript.first_defect {index : Nat} {vs : List (Script.Value ω)} {talk : Transcript ω}
    {failure : Failure} (h : ElementsTranscript index vs talk (.error failure)) :
    ∃ sound v behind before last pairs, vs = sound ++ v :: behind ∧ talk = before ++ last ∧
      ElementsTranscript index sound before (.ok pairs) ∧
      ElementTranscript (index + sound.length) v last (.error failure) := by
  generalize hout : Except.error failure = out at h
  induction h with
  | done index => cases hout
  | @stopped index v vs talk f helement =>
    cases hout
    exact ⟨[], v, vs, [], talk, [], rfl, rfl, .done index, helement⟩
  | @next index v vs first rest pair out helement _ ih =>
    cases out with
    | ok qs => cases hout
    | error f =>
      obtain ⟨sound, w, behind, before, last, pairs, rfl, rfl, hsound, hdefect⟩ := ih hout
      have hindex : index + (v :: sound).length = index + 1 + sound.length := by
        rw [List.length_cons]
        omega
      refine ⟨v :: sound, w, behind, first ++ before, last, pair :: pairs, rfl,
        (List.append_assoc first before last).symm, .next helement hsound, ?_⟩
      rw [hindex]
      exact hdefect

end Fill

/-! ## How a transcript ends -/

/-- An element is no pair. No exchange says so, since none tells the index. -/
inductive Failure.OfElement : Failure → Prop where
  | notPair (index : Nat) : OfElement ⟨.construct, .badShape (.notPair index)⟩
  | badLength (index items : Nat) : OfElement ⟨.construct, .badShape (.pairLength index items)⟩

namespace Fill

variable {ω : Type}

theorem ElementTranscript.endsWith {index : Nat} {v : Script.Value ω} {talk : Transcript ω}
    {out : Except Failure (String × String)} (h : ElementTranscript index v talk out) :
    talk.EndsWith Failure.OfElement out := by
  cases h with
  | notObject p => exact Transcript.endsWith_nil (.notPair index)
  | askRaised p e => exact Transcript.endsWith_singleton rfl
  | notIterable p => exact .cons rfl (Transcript.endsWith_nil (.notPair index))
  | iterateRaised p e => exact .cons rfl (Transcript.endsWith_singleton rfl)
  | badLength p items => exact .cons rfl (.cons rfl (Transcript.endsWith_nil (.badLength index _)))
  | nameRaised p hname => exact .cons rfl (.cons rfl hname.endsWith)
  | converted p hname hvalue =>
    exact .cons rfl (.cons rfl (hname.endsWith.append (hvalue.endsWith.map _)))

theorem ElementsTranscript.endsWith {index : Nat} {vs : List (Script.Value ω)} {talk : Transcript ω}
    {out : Except Failure (List (String × String))} (h : ElementsTranscript index vs talk out) :
    talk.EndsWith Failure.OfElement out := by
  induction h with
  | done index => exact fun x hx => nomatch hx
  | stopped helement => exact helement.endsWith
  | next helement _ ih => exact helement.endsWith.append (ih.map _)

theorem SequenceTranscript.endsWith {o : ω} {talk : Transcript ω}
    {out : Except Failure (List (String × String))} (h : SequenceTranscript o talk out) :
    talk.EndsWith Failure.OfElement out := by
  cases h with
  | raised e => exact Transcript.endsWith_singleton rfl
  | iterated helements => exact .cons rfl helements.endsWith

/-! ## Which calls occur -/

/-- The calls for an element: whether it can be iterated over, its items, or the text of some object. -/
def ElementCall (v : Script.Value ω) (call : Call ω) : Prop :=
  (∃ p, v = .object p ∧ (call = .isIterable p ∨ call = .iterate p)) ∨ ∃ q, call = .text q

theorem ElementTranscript.calls {index : Nat} {v : Script.Value ω} {talk : Transcript ω}
    {out : Except Failure (String × String)} (h : ElementTranscript index v talk out) :
    ∀ x ∈ talk, ElementCall v x.call := by
  have hask : ∀ p : ω, ElementCall (.object p) (.isIterable p) := fun p => .inl ⟨p, rfl, .inl rfl⟩
  have hiterate : ∀ p : ω, ElementCall (.object p) (.iterate p) := fun p => .inl ⟨p, rfl, .inr rfl⟩
  cases h with
  | notObject p => exact fun x hx => nomatch hx
  | askRaised p e => exact List.forall_mem_singleton.2 (hask p)
  | notIterable p => exact List.forall_mem_singleton.2 (hask p)
  | iterateRaised p e => exact List.forall_mem_cons.2 ⟨hask p, List.forall_mem_singleton.2 (hiterate p)⟩
  | badLength p items => exact List.forall_mem_cons.2 ⟨hask p, List.forall_mem_singleton.2 (hiterate p)⟩
  | nameRaised p hname =>
    refine List.forall_mem_cons.2 ⟨hask p, List.forall_mem_cons.2 ⟨hiterate p, fun x hx => ?_⟩⟩
    exact .inr (hname.calls x hx)
  | converted p hname hvalue =>
    refine List.forall_mem_cons.2 ⟨hask p, List.forall_mem_cons.2 ⟨hiterate p, fun x hx => ?_⟩⟩
    exact .inr ((List.mem_append.1 hx).elim (hname.calls x) (hvalue.calls x))

theorem ElementsTranscript.calls {index : Nat} {vs : List (Script.Value ω)} {talk : Transcript ω}
    {out : Except Failure (List (String × String))} (h : ElementsTranscript index vs talk out) :
    ∀ x ∈ talk, ∃ v ∈ vs, ElementCall v x.call := by
  induction h with
  | done index => exact fun x hx => nomatch hx
  | stopped helement => exact fun x hx => ⟨_, List.mem_cons_self, helement.calls x hx⟩
  | next helement _ ih =>
    intro x hx
    rcases List.mem_append.1 hx with hx | hx
    · exact ⟨_, List.mem_cons_self, helement.calls x hx⟩
    · obtain ⟨v, hv, hcall⟩ := ih x hx
      exact ⟨v, List.mem_cons_of_mem _ hv, hcall⟩

end Fill

/-! ## Constructions from sequences -/

/-- Whatever a world answers, an object that says it can be iterated over is iterated over once, and then its
elements are asked one by one as the transcripts say. The construction stops right after the first exception,
and at the first element that is no pair, with that for its failure; the elements before it are sound and those
behind it are not asked. If there is no such element then all pairs have been collected before the first of
them is read as a name and a value. -/
theorem Store.ofSource_sequence_calls {ω σ : Type} (world : World ω ω σ) (o : ω) {state asked : σ}
    (h : (world (.isIterable o)).run.run state = (.ok true, asked)) :
    ∃ talk out next, world.Answers asked talk next ∧ Fill.SequenceTranscript o talk out ∧
      FillM.result (ofSource world.recorded (.value (.object o))) (state, []) =
        (out >>= ofPairs, next, .isIterable o :: talk.map (·.call)) ∧
      talk.EndsWith Failure.OfElement out ∧
      ∀ elements rest, talk = ⟨.iterate o, .ok elements⟩ :: rest →
        Fill.ElementsTranscript 0 elements rest out ∧
        (∀ x ∈ rest, ∃ v ∈ elements, Fill.ElementCall v x.call) ∧
        (∀ ps, out = .ok ps → ps.length = elements.length) ∧
        ∀ failure, out = .error failure →
          ∃ sound v behind before last pairs, elements = sound ++ v :: behind ∧ rest = before ++ last ∧
            Fill.ElementsTranscript 0 sound before (.ok pairs) ∧
            Fill.ElementTranscript sound.length v last (.error failure) := by
  obtain ⟨talk, out, next, hanswers, hspec, hresult⟩ :=
    ofSource_object_calls h (Fill.conforms_ofSequence world.recorded o)
  refine ⟨talk, out, next, hanswers, hspec, hresult, hspec.endsWith, fun elements rest htalk => ?_⟩
  have helements : Fill.ElementsTranscript 0 elements rest out := by
    cases hspec with
    | raised e => cases htalk
    | iterated helements =>
      cases htalk
      exact helements
  refine ⟨helements, helements.calls, fun ps hps => ?_, fun failure hfailure => ?_⟩
  · subst hps
    exact helements.length_eq
  · subst hfailure
    obtain ⟨sound, v, behind, before, last, pairs, hsplit, hrest, hsound, hdefect⟩ := helements.first_defect
    rw [Nat.zero_add] at hdefect
    exact ⟨sound, v, behind, before, last, pairs, hsplit, hrest, hsound, hdefect⟩

/-- An element with one item fails the construction, and not the empty name in the element before it, although
that name alone would fail it too. -/
theorem Store.ofSource_sequence_calls_badLength :
    ∃ o p q : Ordinary Unit, (Ordinary.world World.vacant (.isIterable o)).run.run () = (.ok true, ()) ∧
      ofPairs [("", "1")] = .error ⟨.construct, .badName .empty⟩ ∧
      ∃ talk out, Fill.SequenceTranscript o talk out ∧
        out >>= ofPairs = .error ⟨.construct, .badShape (.pairLength 1 1)⟩ ∧
        talk.map (·.call) = [.iterate o, .isIterable p, .iterate p, .isIterable q, .iterate q] := by
  let p : Ordinary Unit := .pair "" "1"
  let q : Ordinary Unit := .array [.string "accept"]
  let o : Ordinary Unit := .array [.object p, .object q]
  have hask : (Ordinary.world World.vacant (.isIterable o)).run.run () = (.ok true, ()) := rfl
  obtain ⟨talk, out, next, -, hspec, hresult, -⟩ :=
    Store.ofSource_sequence_calls (Ordinary.world World.vacant) o hask
  have hrun : FillM.result (ofSource (Ordinary.world World.vacant).recorded (.value (.object o))) ((), []) =
      (.error ⟨.construct, .badShape (.pairLength 1 1)⟩, (), [.isIterable o, .iterate o, .isIterable p,
        .iterate p, .isIterable q, .iterate q]) := rfl
  rw [hrun] at hresult
  obtain ⟨hout, hrest⟩ := Prod.mk.inj hresult
  obtain ⟨-, hcalls⟩ := Prod.mk.inj hrest
  exact ⟨o, p, q, hask, rfl, talk, out, hspec, hout.symm, (List.cons.inj hcalls).2.symm⟩

end HttpFields
