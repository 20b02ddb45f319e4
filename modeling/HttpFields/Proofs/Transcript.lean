import HttpFields.Proofs.Construction

/-!
# Transcripts of constructions

A construction asks the objects of a world, which may answer as they like and may throw. A transcript holds
the calls with their answers, from first to last.

* `Script.Transcript` : a list of calls with their answers; `Script.World.Answers` : the world gives them
* `Script.World.answers_of_recorded` : what a recorded world records are the calls of the transcript
* `Fill.Conforms` : all transcripts of a computation, with what it yields, are as specified
* `Fill.conforms_bind`, `Fill.conforms_ask_bind` : how transcripts are put together
* `Transcript.EndsWith` : a failure comes from the last exchange; `Exchange.failure?` : the one that an exchange shows
* `Fill.TextTranscript` : the transcript of a value that is turned into a text
* `Store.ofSource_object_calls` : the calls of a construction from an object
-/

namespace HttpFields

open Script

set_option autoImplicit false

/-! ## Calls with their answers -/

namespace Script

/-- A call with its answer, or with what was thrown. -/
structure Exchange (ω : Type) where
  call : Call ω
  answer : Except Thrown (call.Answer ω)

abbrev Transcript (ω : Type) := List (Exchange ω)

namespace World

variable {ω σ : Type}

/-- In a state of the world these calls have these answers, and then the world is in another state. -/
inductive Answers (world : World ω ω σ) : σ → Transcript ω → σ → Prop where
  | nil (state : σ) : Answers world state [] state
  | cons {state middle next : σ} {call : Call ω} {answer : Except Thrown (call.Answer ω)}
    {talk : Transcript ω} (hcall : (world call).run.run state = (answer, middle))
    (htalk : Answers world middle talk next) : Answers world state (⟨call, answer⟩ :: talk) next

theorem Answers.append {world : World ω ω σ} {state middle next : σ} {first rest : Transcript ω}
    (hfirst : world.Answers state first middle) (hrest : world.Answers middle rest next) :
    world.Answers state (first ++ rest) next := by
  induction hfirst with
  | nil state => exact hrest
  | cons hcall _ ih => exact .cons hcall (ih hrest)

theorem answers_singleton {world : World ω ω σ} {state next : σ} {call : Call ω}
    {answer : Except Thrown (call.Answer ω)} (h : (world call).run.run state = (answer, next)) :
    world.Answers state [⟨call, answer⟩] next := .cons h (.nil next)

theorem run_recorded {ν : Type} (world : World ω ν σ) (call : Call ω) (state : σ) (calls : List (Call ω)) :
    (world.recorded call).run.run (state, calls) =
      (((world call).run.run state).1, ((world call).run.run state).2, calls ++ [call]) := rfl

theorem answers_of_recorded {world : World ω ω σ} {start finish : σ × List (Call ω)} {talk : Transcript ω}
    (h : world.recorded.Answers start talk finish) :
    world.Answers start.1 talk finish.1 ∧ finish.2 = start.2 ++ talk.map (·.call) := by
  induction h with
  | nil start => exact ⟨.nil start.1, (List.append_nil start.2).symm⟩
  | @cons start middle next call answer talk hcall _ ih =>
    have hanswer := hcall.symm.trans (run_recorded world call start.1 start.2)
    obtain ⟨rfl, rfl⟩ := Prod.mk.inj hanswer
    refine ⟨.cons rfl ih.1, ?_⟩
    rw [ih.2, List.map_cons, List.append_assoc, List.singleton_append]

end World

end Script

/-! ## How a transcript ends -/

namespace Script

variable {ω α β : Type}

/-- The failure with which an exchange ends a construction: an exception, or a listed symbol. -/
def Exchange.failure? : Exchange ω → Option Failure
  | ⟨_, .error e⟩ => some ⟨.construct, .thrown e⟩
  | ⟨.ownProperty _ (.symbol _), .ok visibility⟩ =>
    if visibility = some .enumerable then some ⟨.construct, .badShape .symbolKey⟩ else none
  | _ => none

namespace Transcript

/-- If the construction fails then its last exchange says so, and no exchange before it does. Only a failure that is
`silent` comes without such an exchange. -/
def EndsWith (silent : Failure → Prop) (talk : Transcript ω) : Except Failure α → Prop
  | .ok _ => ∀ x ∈ talk, x.failure? = none
  | .error failure =>
    (∃ before x, talk = before ++ [x] ∧ (∀ y ∈ before, y.failure? = none) ∧ x.failure? = some failure) ∨
      silent failure ∧ ∀ x ∈ talk, x.failure? = none

variable {silent : Failure → Prop} {talk first rest : Transcript ω} {out : Except Failure α}

theorem endsWith_singleton {x : Exchange ω} {failure : Failure} (h : x.failure? = some failure) :
    EndsWith silent [x] (.error failure : Except Failure α) :=
  .inl ⟨[], x, rfl, fun _ hy => (nomatch hy), h⟩

theorem endsWith_nil {failure : Failure} (h : silent failure) :
    EndsWith silent ([] : Transcript ω) (.error failure : Except Failure α) :=
  .inr ⟨h, fun _ hx => nomatch hx⟩

theorem EndsWith.append {b : β} (hfirst : EndsWith silent first (.ok b : Except Failure β))
    (hrest : EndsWith silent rest out) : EndsWith silent (first ++ rest) out := by
  cases out with
  | ok a => exact List.forall_mem_append.2 ⟨hfirst, hrest⟩
  | error failure =>
    rcases hrest with ⟨before, x, rfl, hbefore, hx⟩ | ⟨hsilent, hrest⟩
    · exact .inl ⟨first ++ before, x, (List.append_assoc _ _ _).symm,
        List.forall_mem_append.2 ⟨hfirst, hbefore⟩, hx⟩
    · exact .inr ⟨hsilent, List.forall_mem_append.2 ⟨hfirst, hrest⟩⟩

theorem EndsWith.cons {x : Exchange ω} (hx : x.failure? = none) (htalk : EndsWith silent talk out) :
    EndsWith silent (x :: talk) out := by
  have hfirst : EndsWith silent [x] (.ok () : Except Failure Unit) := List.forall_mem_singleton.2 hx
  exact hfirst.append htalk

theorem EndsWith.map (h : EndsWith silent talk out) (f : α → β) : EndsWith silent talk (out.map f) := by
  cases out with
  | ok a => exact h
  | error failure => exact h

end Transcript

end Script

/-! ## Specified transcripts -/

namespace Fill

open FillM

variable {ω σ : Type} (world : World ω ω σ)

/-- In every state of the world the computation has a transcript as specified, with what it yields. -/
def Conforms {α : Type} (x : FillM σ α) (spec : Transcript ω → Except Failure α → Prop) : Prop :=
  ∀ state, ∃ talk out next, world.Answers state talk next ∧ spec talk out ∧ result x state = (out, next)

section

variable {world} {α β : Type} {spec : Transcript ω → Except Failure β → Prop}

theorem Conforms.mono {x : FillM σ β} {narrow : Transcript ω → Except Failure β → Prop}
    (hx : Conforms world x narrow) (h : ∀ talk out, narrow talk out → spec talk out) :
    Conforms world x spec := by
  intro state
  obtain ⟨talk, out, next, htalk, hspec, hresult⟩ := hx state
  exact ⟨talk, out, next, htalk, h talk out hspec, hresult⟩

theorem conforms_pure {b : β} (h : spec [] (.ok b)) : Conforms world (pure b) spec :=
  fun state => ⟨[], .ok b, state, .nil state, h, rfl⟩

theorem conforms_reject {fault : ShapeFault} (h : spec [] (.error ⟨.construct, .badShape fault⟩)) :
    Conforms world (reject fault) spec :=
  fun state => ⟨[], _, state, .nil state, h, rfl⟩

/-- The transcript of two computations is that of the first, and then that of the second if the first does
not fail. -/
theorem conforms_bind {x : FillM σ α} {f : α → FillM σ β} {first : Transcript ω → Except Failure α → Prop}
    (hx : Conforms world x first) (hfail : ∀ talk e, first talk (.error e) → spec talk (.error e))
    (hf : ∀ before a, first before (.ok a) → Conforms world (f a) fun talk out => spec (before ++ talk) out) :
    Conforms world (x >>= f) spec := by
  intro state
  obtain ⟨before, out, middle, hbefore, hfirst, hresult⟩ := hx state
  cases out with
  | error e => exact ⟨before, .error e, middle, hbefore, hfail before e hfirst, result_bind_error hresult⟩
  | ok a =>
    obtain ⟨talk, out, next, htalk, hspec, hnext⟩ := hf before a hfirst middle
    exact ⟨before ++ talk, out, next, hbefore.append htalk, hspec, (result_bind_ok hresult).trans hnext⟩

theorem conforms_note_bind {e : Event} {f : Unit → FillM σ β} (hf : Conforms world (f ()) spec) :
    Conforms world (note e >>= f) spec := by
  intro state
  obtain ⟨talk, out, next, htalk, hspec, hresult⟩ := hf state
  exact ⟨talk, out, next, htalk, hspec, (result_bind_ok (result_note e state)).trans hresult⟩

/-- A call is the first exchange. If it throws it is the only one, and the exception is the cause of the
failure. -/
theorem conforms_ask_bind {call : Call ω} {f : call.Answer ω → FillM σ β}
    (hraised : ∀ e, spec [⟨call, .error e⟩] (.error ⟨.construct, .thrown e⟩))
    (hf : ∀ a, Conforms world (f a) fun talk out => spec (⟨call, .ok a⟩ :: talk) out) :
    Conforms world (ask (world call) >>= f) spec := by
  intro state
  have hask := result_ask (world call) state
  rcases hcall : (world call).run.run state with ⟨e | a, middle⟩
  · rw [hcall] at hask
    exact ⟨_, _, middle, World.answers_singleton hcall, hraised e, result_bind_error hask⟩
  · rw [hcall] at hask
    obtain ⟨talk, out, next, htalk, hspec, hnext⟩ := hf a middle
    exact ⟨_, out, next, .cons hcall htalk, hspec, (result_bind_ok hask).trans hnext⟩

end

/-! ## Texts of values -/

/-- A primitive value has its text without a call; an object is asked for it. -/
inductive TextTranscript : Script.Value ω → Transcript ω → Except Failure String → Prop where
  | primitive (p : Primitive) : TextTranscript (.primitive p) [] (.ok p.text)
  | object (o : ω) (text : String) : TextTranscript (.object o) [⟨.text o, .ok text⟩] (.ok text)
  | raised (o : ω) (e : Thrown) :
    TextTranscript (.object o) [⟨.text o, .error e⟩] (.error ⟨.construct, .thrown e⟩)

theorem conforms_text (v : Script.Value ω) : Conforms world (ask (v.text world)) (TextTranscript v) := by
  intro state
  cases v with
  | primitive p => exact ⟨[], .ok p.text, state, .nil state, .primitive p, rfl⟩
  | object o =>
    have hask := result_ask (world (.text o)) state
    rcases hcall : (world (.text o)).run.run state with ⟨e | text, next⟩
    · rw [hcall] at hask
      exact ⟨_, _, next, World.answers_singleton hcall, .raised o e, hask⟩
    · rw [hcall] at hask
      exact ⟨_, _, next, World.answers_singleton hcall, .object o text, hask⟩

theorem TextTranscript.calls {v : Script.Value ω} {talk : Transcript ω} {out : Except Failure String}
    (h : TextTranscript v talk out) : ∀ x ∈ talk, ∃ p, x.call = .text p := by
  cases h with
  | primitive p => exact fun x hx => nomatch hx
  | object o text => exact List.forall_mem_singleton.2 ⟨o, rfl⟩
  | raised o e => exact List.forall_mem_singleton.2 ⟨o, rfl⟩

theorem TextTranscript.endsWith {silent : Failure → Prop} {v : Script.Value ω} {talk : Transcript ω}
    {out : Except Failure String} (h : TextTranscript v talk out) : talk.EndsWith silent out := by
  cases h with
  | primitive p => exact fun x hx => nomatch hx
  | object o text => exact List.forall_mem_singleton.2 rfl
  | raised o e => exact Transcript.endsWith_singleton rfl

end Fill

/-! ## Constructions from objects -/

open Fill FillM in
/-- Whether an object can be iterated over is asked first. Then the recorded calls are those of the transcript
of its pairs, and the pairs are read when all of them are there. -/
theorem Store.ofSource_object_calls {ω σ : Type} {world : World ω ω σ} {o : ω} {state asked : σ}
    {isSequence : Bool} (h : (world (.isIterable o)).run.run state = (.ok isSequence, asked))
    {spec : Transcript ω → Except Failure (List (String × String)) → Prop}
    (hspec : Conforms world.recorded
      (if isSequence then ofSequence world.recorded o else ofRecord world.recorded o) spec) :
    ∃ talk out next, world.Answers asked talk next ∧ spec talk out ∧
      result (ofSource world.recorded (.value (.object o))) (state, []) =
        (out >>= ofPairs, next, .isIterable o :: talk.map (·.call)) := by
  have hask : result (ask (world.recorded (.isIterable o))) (state, []) =
      (.ok isSequence, asked, [.isIterable o]) := by
    rw [result_ask, World.run_recorded, h]
    rfl
  obtain ⟨talk, out, ⟨next, calls⟩, htalk, hout, hresult⟩ := hspec (asked, [.isIterable o])
  obtain ⟨hanswers, hcalls⟩ := World.answers_of_recorded htalk
  have hpairs : result (pairs world.recorded (.object o)) (state, []) =
      (out, next, .isIterable o :: talk.map (·.call)) := by
    have hcalls' : calls = .isIterable o :: talk.map (·.call) := hcalls
    rw [pairs, result_bind_ok hask, ← hcalls']
    cases isSequence with
    | true => exact (result_bind_ok (result_note _ _)).trans hresult
    | false => exact (result_bind_ok (result_note _ _)).trans hresult
  refine ⟨talk, out, next, hanswers, hout, ?_⟩
  rw [result_ofSource_value, hpairs]

end HttpFields
