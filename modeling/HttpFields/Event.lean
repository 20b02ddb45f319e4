import HttpFields.Failure

/-!
# Events

What a store notes down about its work, each with a level of importance. A computation in `Logged` yields a value and
the events noted on the way to it, the earliest first. One that fails has its failure for a value, so the events
before the failure are kept.

* `Event`, `Event.line` : the events, and the line of each in a log
* `Logged` : computations that note events
-/

namespace HttpFields

set_option autoImplicit false

inductive Level where
  | trace
  | debug
  | warn
  deriving DecidableEq

def Level.label : Level → String
  | .trace => "TRACE"
  | .debug => "DEBUG"
  | .warn => "WARN"

inductive Event where
  | refused (operation : Operation) (guard : Guard) (refusal : Refusal)
  | guarded (guard : Guard) (kept : Nat)
  | copied (fields : Nat)
  | notObject (kind : Script.Kind)
  | fromSequence
  | fromRecord
  | collected (pairs : Nat)
  | vanished (key : Script.Key)
  | hidden (key : Script.Key)
  deriving DecidableEq

namespace Event

def level : Event → Level
  | .refused .. => .warn
  | .guarded .. | .copied _ | .notObject _ | .fromSequence | .fromRecord | .collected _ => .debug
  | .vanished _ | .hidden _ => .trace

def message : Event → String
  | .refused operation guard refusal =>
    s!"{operation.label} rejected by {guard.label} guard: {refusal.message}"
  | .guarded guard kept => s!"assigned {guard.label} guard, {kept} entries kept"
  | .copied fields => s!"init from headers, {fields} entries"
  | .notObject kind => s!"init rejected, {kind.label} is not an object"
  | .fromSequence => "init from sequence"
  | .fromRecord => "init from record"
  | .collected pairs => s!"init with {pairs} pairs"
  | .vanished key => s!"record key \x60{key.text}\x60 vanished, skipped"
  | .hidden key => s!"record key \x60{key.text}\x60 is not enumerable, skipped"

def line (e : Event) : String := s!"{e.level.label} {e.message}"

end Event

/-! ## Computations that note events -/

/-- A value, and the events noted on the way to it. -/
structure Logged (α : Type) where
  value : α
  events : List Event

namespace Logged

instance : Monad Logged where
  pure a := ⟨a, []⟩
  bind x f := ⟨(f x.value).value, x.events ++ (f x.value).events⟩

instance : LawfulMonad Logged := LawfulMonad.mk' Logged
  (fun ⟨a, es⟩ => by simp [Functor.map])
  (fun _ _ => by simp [bind, pure])
  (fun _ _ _ => by simp [bind])

def note (e : Event) : Logged Unit := ⟨(), [e]⟩

section

variable {α β : Type}

@[simp] theorem value_pure (a : α) : (pure a : Logged α).value = a := rfl

@[simp] theorem events_pure (a : α) : (pure a : Logged α).events = [] := rfl

@[simp] theorem value_bind (x : Logged α) (f : α → Logged β) :
    (x >>= f).value = (f x.value).value := rfl

@[simp] theorem events_bind (x : Logged α) (f : α → Logged β) :
    (x >>= f).events = x.events ++ (f x.value).events := rfl

@[simp] theorem events_note (e : Event) : (note e).events = [e] := rfl

end

end Logged

end HttpFields
