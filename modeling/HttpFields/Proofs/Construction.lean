import HttpFields.Proofs.Outcome
import HttpFields.Store.Fill

/-!
# Constructions without events

What a construction yields in a world, with the events on the way left out.

* `FillM.result` : what a computation yields from a state of the world, and the state that it leaves
* `Store.made` : the store made from a source, and `Store.made_value` and its like : how it is made
* `Store.ofPairs_eq_ok_iff` : the fields of a store that is made from pairs
-/

namespace HttpFields

open HttpFields.Field Script

set_option autoImplicit false

/-- A world without objects, where no call is answered. -/
def Script.World.vacant {ω ν σ : Type} : World ω ν σ := fun _ => throw ⟨"no such object"⟩

namespace FillM

variable {σ α β : Type}

/-- What a computation yields from a state of the world, and the state that it leaves. -/
def result (x : FillM σ α) (state : σ) : Except Failure α × σ := (x.run.run state).value

@[simp] theorem result_pure (a : α) (state : σ) : result (pure a) state = (.ok a, state) := rfl

@[simp] theorem result_throw (f : Failure) (state : σ) :
    result (throw f : FillM σ α) state = (.error f, state) := rfl

@[simp] theorem result_read (x : Except Failure α) (state : σ) : result (liftM x) state = (x, state) := rfl

@[simp] theorem result_note (e : Event) (state : σ) : result (Fill.note e) state = (.ok (), state) := rfl

theorem result_bind (x : FillM σ α) (f : α → FillM σ β) (state : σ) :
    result (x >>= f) state =
      match result x state with
      | (.ok a, next) => result (f a) next
      | (.error e, next) => (.error e, next) := by
  unfold result
  rw [ExceptT.run_bind, StateT.run_bind, Logged.value_bind]
  rcases (x.run.run state).value with ⟨_ | a, next⟩ <;> rfl

theorem result_bind_ok {x : FillM σ α} {f : α → FillM σ β} {state next : σ} {a : α}
    (h : result x state = (.ok a, next)) : result (x >>= f) state = result (f a) next := by
  rw [result_bind, h]

theorem result_bind_error {x : FillM σ α} {f : α → FillM σ β} {state next : σ} {e : Failure}
    (h : result x state = (.error e, next)) : result (x >>= f) state = (.error e, next) := by
  rw [result_bind, h]

theorem result_ask (x : ScriptM σ α) (state : σ) :
    result (Fill.ask x) state =
      ((x.run.run state).1.mapError fun e => ⟨.construct, .thrown e⟩, (x.run.run state).2) := by
  unfold result Fill.ask
  rw [ExceptT.run_mk, StateT.run]
  rcases x.run.run state with ⟨_ | a, next⟩ <;> rfl

end FillM

namespace Store

open FillM

variable {ω σ : Type}

/-- The store made from a source in a world, whose state is found as given. -/
def made (world : World ω ω σ) (state : σ) (source : Source ω) : Except Failure Store :=
  (result (ofSource world source) state).1

/-- A store is made from a value in two steps: first all pairs are collected, then they are read. -/
theorem result_ofSource_value (world : World ω ω σ) (state : σ) (v : Script.Value ω) :
    result (ofSource world (.value v)) state =
      ((result (Fill.pairs world v) state).1 >>= ofPairs, (result (Fill.pairs world v) state).2) := by
  rw [ofSource, result_bind]
  rcases result (Fill.pairs world v) state with ⟨_ | ps, next⟩ <;> rfl

theorem made_value (world : World ω ω σ) (state : σ) (v : Script.Value ω) :
    made world state (.value v) = (result (Fill.pairs world v) state).1 >>= ofPairs := by
  rw [made, result_ofSource_value]

theorem ofPairs_eq_ok_iff {ps : List (String × String)} {s : Store} :
    ofPairs ps = .ok s ↔
      ∃ fs, ps.mapM (fun p => Operation.construct.readField p.1 p.2) = .ok fs ∧ s = .ofFields fs := by
  rw [ofPairs, bind_eq_ok_iff]
  exact exists_congr fun fs => and_congr_right fun _ => ⟨fun h => (Except.ok.inj h).symm, fun h => h ▸ rfl⟩

end Store

end HttpFields
