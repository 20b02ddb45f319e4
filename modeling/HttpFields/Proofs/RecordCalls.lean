import HttpFields.Proofs.Transcript
import HttpFields.Script.Ordinary

/-!
# The calls of a record construction

An object that cannot be iterated over is asked for its keys, and then for each listed property in turn.

* `Fill.PropertyTranscript`, `Fill.KeysTranscript`, `Fill.RecordTranscript` : the transcripts of one property,
  of several, and of an object
* `Fill.conforms_ofRecord` : a record construction has such a transcript
* `Fill.RecordTranscript.endsWith` : an exception or a listed symbol ends it, and nothing else does
* `Store.ofSource_record_calls` : the calls of the construction, and the store that it yields
-/

namespace HttpFields

open Script

set_option autoImplicit false

/-! ## Transcripts of records -/

namespace Fill

variable {ω σ : Type}

/-- A property is looked up first. It is read and its value turned into a text if it is listed under a
string; a listed symbol fails the construction. -/
inductive PropertyTranscript (o : ω) :
    Key → Transcript ω → Except Failure (Option (String × String)) → Prop where
  | raised (key : Key) (e : Thrown) :
    PropertyTranscript o key [⟨.ownProperty o key, .error e⟩] (.error ⟨.construct, .thrown e⟩)
  | absent (key : Key) : PropertyTranscript o key [⟨.ownProperty o key, .ok none⟩] (.ok none)
  | hidden (key : Key) : PropertyTranscript o key [⟨.ownProperty o key, .ok (some .hidden)⟩] (.ok none)
  | symbol (description : String) :
    PropertyTranscript o (.symbol description)
      [⟨.ownProperty o (.symbol description), .ok (some .enumerable)⟩]
      (.error ⟨.construct, .badShape .symbolKey⟩)
  | readRaised (name : String) (e : Thrown) :
    PropertyTranscript o (.string name)
      [⟨.ownProperty o (.string name), .ok (some .enumerable)⟩, ⟨.read o (.string name), .error e⟩]
      (.error ⟨.construct, .thrown e⟩)
  | converted (name : String) {v : Script.Value ω} {talk : Transcript ω} {out : Except Failure String}
    (htext : TextTranscript v talk out) :
    PropertyTranscript o (.string name)
      (⟨.ownProperty o (.string name), .ok (some .enumerable)⟩ :: ⟨.read o (.string name), .ok v⟩ :: talk)
      (out.map fun text => some (name, text))

/-- The properties of several keys are asked for one after the other, until one of them fails. -/
inductive KeysTranscript (o : ω) :
    List Key → Transcript ω → Except Failure (List (String × String)) → Prop where
  | done : KeysTranscript o [] [] (.ok [])
  | stopped {key : Key} {keys : List Key} {talk : Transcript ω} {failure : Failure}
    (hkey : PropertyTranscript o key talk (.error failure)) :
    KeysTranscript o (key :: keys) talk (.error failure)
  | next {key : Key} {keys : List Key} {first rest : Transcript ω} {pair : Option (String × String)}
    {out : Except Failure (List (String × String))} (hkey : PropertyTranscript o key first (.ok pair))
    (hkeys : KeysTranscript o keys rest out) :
    KeysTranscript o (key :: keys) (first ++ rest) (out.map (pair.toList ++ ·))

/-- An object is asked for its keys, and then for their properties in that order. -/
inductive RecordTranscript (o : ω) : Transcript ω → Except Failure (List (String × String)) → Prop where
  | raised (e : Thrown) : RecordTranscript o [⟨.ownKeys o, .error e⟩] (.error ⟨.construct, .thrown e⟩)
  | listed {keys : List Key} {talk : Transcript ω} {out : Except Failure (List (String × String))}
    (hkeys : KeysTranscript o keys talk out) : RecordTranscript o (⟨.ownKeys o, .ok keys⟩ :: talk) out

variable (world : World ω ω σ)

theorem conforms_pairOfProperty (o : ω) (key : Key) :
    Conforms world (pairOfProperty world o key) (PropertyTranscript o key) := by
  refine conforms_ask_bind (.raised key) fun visibility => ?_
  rcases visibility with _ | _ | _
  · exact conforms_note_bind (conforms_pure (.absent key))
  · cases key with
    | symbol description => exact conforms_reject (.symbol description)
    | string name =>
      refine conforms_ask_bind (.readRaised name) fun v => ?_
      refine conforms_bind (conforms_text world v) (fun talk e h => .converted name h) fun talk text h => ?_
      refine conforms_pure ?_
      rw [List.append_nil]
      exact .converted name h
  · exact conforms_note_bind (conforms_pure (.hidden key))

theorem conforms_pairsOfKeys (o : ω) (keys : List Key) :
    Conforms world (pairsOfKeys world o keys) (KeysTranscript o keys) := by
  induction keys with
  | nil => exact conforms_pure .done
  | cons key keys ih =>
    refine conforms_bind (conforms_pairOfProperty world o key) (fun talk e h => .stopped h)
      fun first pair hkey => ?_
    refine conforms_bind ih (fun talk e h => .next hkey h) fun rest pairs hkeys => ?_
    refine conforms_pure ?_
    rw [List.append_nil]
    exact .next hkey hkeys

theorem conforms_ofRecord (o : ω) : Conforms world (ofRecord world o) (RecordTranscript o) :=
  conforms_ask_bind .raised fun keys => (conforms_pairsOfKeys world o keys).mono fun _ _ => .listed

/-! ## How a transcript ends -/

section

variable {silent : Failure → Prop}

theorem PropertyTranscript.endsWith {o : ω} {key : Key} {talk : Transcript ω}
    {out : Except Failure (Option (String × String))} (h : PropertyTranscript o key talk out) :
    talk.EndsWith silent out := by
  cases h with
  | raised e => exact Transcript.endsWith_singleton rfl
  | absent => exact List.forall_mem_singleton.2 (by cases key <;> rfl)
  | hidden => exact List.forall_mem_singleton.2 (by cases key <;> rfl)
  | symbol description => exact Transcript.endsWith_singleton rfl
  | readRaised name e =>
    exact .cons rfl (Transcript.endsWith_singleton rfl)
  | converted name htext =>
    exact .cons rfl (.cons rfl (htext.endsWith.map _))

theorem KeysTranscript.endsWith {o : ω} {keys : List Key} {talk : Transcript ω}
    {out : Except Failure (List (String × String))} (h : KeysTranscript o keys talk out) :
    talk.EndsWith silent out := by
  induction h with
  | done => exact fun x hx => nomatch hx
  | stopped hkey => exact hkey.endsWith
  | next hkey _ ih => exact hkey.endsWith.append (ih.map _)

theorem RecordTranscript.endsWith {o : ω} {talk : Transcript ω}
    {out : Except Failure (List (String × String))} (h : RecordTranscript o talk out) :
    talk.EndsWith silent out := by
  cases h with
  | raised e => exact Transcript.endsWith_singleton rfl
  | listed hkeys => exact .cons rfl hkeys.endsWith

end

/-! ## Which calls occur -/

/-- The calls for a property: it is looked up or read, or some object is asked for its text. -/
def PropertyCall (o : ω) (call : Call ω) : Prop :=
  (∃ key, call = .ownProperty o key) ∨ (∃ key, call = .read o key) ∨ ∃ p, call = .text p

theorem PropertyTranscript.calls {o : ω} {key : Key} {talk : Transcript ω}
    {out : Except Failure (Option (String × String))} (h : PropertyTranscript o key talk out) :
    ∀ x ∈ talk, PropertyCall o x.call := by
  have hlookup : ∀ key, PropertyCall o (.ownProperty o key) := fun key => .inl ⟨key, rfl⟩
  have hread : ∀ key, PropertyCall o (.read o key) := fun key => .inr (.inl ⟨key, rfl⟩)
  cases h with
  | raised e => exact List.forall_mem_singleton.2 (hlookup key)
  | absent => exact List.forall_mem_singleton.2 (hlookup key)
  | hidden => exact List.forall_mem_singleton.2 (hlookup key)
  | symbol description => exact List.forall_mem_singleton.2 (hlookup _)
  | readRaised name e =>
    exact List.forall_mem_cons.2 ⟨hlookup _, List.forall_mem_singleton.2 (hread _)⟩
  | converted name htext =>
    exact List.forall_mem_cons.2 ⟨hlookup _, List.forall_mem_cons.2
      ⟨hread _, fun x hx => .inr (.inr (htext.calls x hx))⟩⟩

theorem KeysTranscript.calls {o : ω} {keys : List Key} {talk : Transcript ω}
    {out : Except Failure (List (String × String))} (h : KeysTranscript o keys talk out) :
    ∀ x ∈ talk, PropertyCall o x.call := by
  induction h with
  | done => exact fun x hx => nomatch hx
  | stopped hkey => exact hkey.calls
  | next hkey _ ih => exact fun x hx => (List.mem_append.1 hx).elim (hkey.calls x) (ih x)

theorem RecordTranscript.calls {o : ω} {talk : Transcript ω}
    {out : Except Failure (List (String × String))} (h : RecordTranscript o talk out) :
    ∃ x rest, talk = x :: rest ∧ x.call = .ownKeys o ∧ ∀ y ∈ rest, PropertyCall o y.call := by
  cases h with
  | raised e => exact ⟨_, [], rfl, rfl, fun y hy => nomatch hy⟩
  | listed hkeys => exact ⟨_, _, rfl, rfl, hkeys.calls⟩

end Fill

/-! ## Constructions from records -/

/-- Whatever a world answers, an object that says it cannot be iterated over is asked for its keys once, and
then for their properties one by one as the transcripts say. The construction stops right after the first
exception or the first listed symbol, with that for its failure. If there is none then all pairs have been
collected before the first of them is read as a name and a value. -/
theorem Store.ofSource_record_calls {ω σ : Type} (world : World ω ω σ) (o : ω) {state asked : σ}
    (h : (world (.isIterable o)).run.run state = (.ok false, asked)) :
    ∃ talk out next, world.Answers asked talk next ∧ Fill.RecordTranscript o talk out ∧
      FillM.result (ofSource world.recorded (.value (.object o))) (state, []) =
        (out >>= ofPairs, next, .isIterable o :: talk.map (·.call)) ∧
      (∃ calls, talk.map (·.call) = .ownKeys o :: calls ∧ ∀ call ∈ calls, Fill.PropertyCall o call) ∧
      (∀ p, Call.iterate p ∉ talk.map (·.call)) ∧
      talk.EndsWith (fun _ => False) out := by
  obtain ⟨talk, out, next, hanswers, hspec, hresult⟩ :=
    ofSource_object_calls h (Fill.conforms_ofRecord world.recorded o)
  obtain ⟨x, rest, hsplit, hx, hrest⟩ := hspec.calls
  have hmap : talk.map (·.call) = .ownKeys o :: rest.map (·.call) := by
    rw [hsplit, List.map_cons, hx]
  refine ⟨talk, out, next, hanswers, hspec, hresult, ⟨_, hmap, List.forall_mem_map.2 hrest⟩, fun p hp => ?_,
    hspec.endsWith⟩
  rw [hmap] at hp
  rcases List.mem_cons.1 hp with hp | hp
  · cases hp
  · rcases List.forall_mem_map.2 hrest _ hp with ⟨_, hkey⟩ | ⟨_, hkey⟩ | ⟨_, hkey⟩ <;> cases hkey

/-- A record with a hidden property, a listed one and a listed symbol: the first is not read, the second is,
and the third ends the construction. -/
theorem Store.ofSource_record_calls_symbol :
    ∃ o : Ordinary Unit, (Ordinary.world World.vacant (.isIterable o)).run.run () = (.ok false, ()) ∧
      ∃ talk out, Fill.RecordTranscript o talk out ∧
        out >>= ofPairs = .error ⟨.construct, .badShape .symbolKey⟩ ∧
        talk.map (·.call) = [.ownKeys o, .ownProperty o (.string "hidden"), .ownProperty o (.string "accept"),
          .read o (.string "accept"), .ownProperty o (.symbol "iterator")] := by
  let o : Ordinary Unit := .record [⟨.string "hidden", .hidden, .string "1"⟩,
    ⟨.string "accept", .enumerable, .string "2"⟩, ⟨.symbol "iterator", .enumerable, .string "3"⟩]
  have hask : (Ordinary.world World.vacant (.isIterable o)).run.run () = (.ok false, ()) := rfl
  obtain ⟨talk, out, next, -, hspec, hresult, -⟩ :=
    Store.ofSource_record_calls (Ordinary.world World.vacant) o hask
  have hrun : FillM.result (ofSource (Ordinary.world World.vacant).recorded (.value (.object o))) ((), []) =
      (.error ⟨.construct, .badShape .symbolKey⟩, (), [.isIterable o, .ownKeys o,
        .ownProperty o (.string "hidden"), .ownProperty o (.string "accept"), .read o (.string "accept"),
        .ownProperty o (.symbol "iterator")]) := rfl
  rw [hrun] at hresult
  obtain ⟨hout, hrest⟩ := Prod.mk.inj hresult
  obtain ⟨-, hcalls⟩ := Prod.mk.inj hrest
  exact ⟨o, hask, talk, out, hspec, hout.symm, (List.cons.inj hcalls).2.symm⟩

end HttpFields
