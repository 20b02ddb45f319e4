import HttpFields.Decimal.Numeral

/-!
# Script values and calls to objects

The values that a script hands to a field store. What an object is depends on the engine that runs the
script, so the type of objects is a parameter.

* `Value` : primitive values and objects
* `Primitive.text` : the text of a primitive value
* `Key` : the keys of an object's properties
* `Visibility` : whether a property shows up when an object is listed
* `Thrown` : what a script throws

A script can watch which of its objects are asked what, and in which order. So a store asks them only through a fixed
set of calls, and everything behind those calls is a `World`.

* `Call` : the calls, each with the object that it goes to; `Call.Answer` : the type of the answer
* `World` : answers every call; a call may throw, and may change the state of the world
* `World.recorded` : the same world with a list of the calls so far
* `Value.text` : the text of a value, which for an object is a call
-/

namespace HttpFields.Script

set_option autoImplicit false

open Decimal

/-- The key of a property. A symbol is known by its description, and is never equal to a string. -/
inductive Key where
  | string (text : String)
  | symbol (description : String)
  deriving DecidableEq

def Key.text : Key → String
  | .string text => text
  | .symbol description => s!"Symbol({description})"

inductive Visibility where
  | enumerable
  | hidden
  deriving DecidableEq

/-- An exception, of which only the message is kept. -/
structure Thrown where
  message : String
  deriving DecidableEq

inductive Kind where
  | undefined
  | null
  | boolean
  | number
  | string
  | object
  deriving DecidableEq

def Kind.label : Kind → String
  | .undefined => "undefined"
  | .null => "null"
  | .boolean => "boolean"
  | .number => "number"
  | .string => "string"
  | .object => "object"

/-- A value that is no object. -/
inductive Primitive where
  | undefined
  | null
  | boolean (b : Bool)
  | number (x : Binary64)
  | string (text : String)
  deriving DecidableEq

namespace Primitive

def kind : Primitive → Kind
  | .undefined => .undefined
  | .null => .null
  | .boolean _ => .boolean
  | .number _ => .number
  | .string _ => .string

/-- The text of a primitive value. Numbers have their script numeral. -/
def text : Primitive → String
  | .undefined => "undefined"
  | .null => "null"
  | .boolean b => if b then "true" else "false"
  | .number x => Layout.script.write x
  | .string text => text

end Primitive

/-- A value of a script whose objects have the type `ω`. -/
inductive Value (ω : Type) where
  | primitive (p : Primitive)
  | object (o : ω)

namespace Value

variable {ω : Type}

def kind : Value ω → Kind
  | .primitive p => p.kind
  | .object _ => .object

@[match_pattern] abbrev undefined : Value ω := .primitive .undefined

@[match_pattern] abbrev string (text : String) : Value ω := .primitive (.string text)

end Value

/-! ## Calls to objects -/

/-- A question to an object. -/
inductive Call (ω : Type) where
  | isIterable (o : ω)
  /-- The values that an iteration over the object yields, from first to last. -/
  | iterate (o : ω)
  /-- The keys of the object's own properties, hidden ones too. -/
  | ownKeys (o : ω)
  /-- How visible an own property is, if there is such a property. -/
  | ownProperty (o : ω) (key : Key)
  | read (o : ω) (key : Key)
  | text (o : ω)

/-- What answers a call, in a world whose values have objects of the type `ν`. -/
@[reducible] def Call.Answer (ν : Type) {ω : Type} : Call ω → Type
  | .isIterable _ => Bool
  | .iterate _ => List (Value ν)
  | .ownKeys _ => List Key
  | .ownProperty _ _ => Option Visibility
  | .read _ _ => Value ν
  | .text _ => String

/-- A computation in a world with states `σ`: it may throw, and keeps the state that it reached. -/
abbrev ScriptM (σ : Type) := ExceptT Thrown (StateM σ)

/-- Answers the calls to objects of the type `ω`. -/
abbrev World (ω ν σ : Type) := (call : Call ω) → ScriptM σ (call.Answer ν)

/-- The world with the list of the calls that went to it. A call that throws is in the list, too. -/
def World.recorded {ω ν σ : Type} (world : World ω ν σ) : World ω ν (σ × List (Call ω)) :=
  fun call => ExceptT.mk fun (state, calls) =>
    let (answer, next) := (world call).run.run state
    (answer, next, calls ++ [call])

def Value.text {ω σ : Type} (world : World ω ω σ) : Value ω → ScriptM σ String
  | .primitive p => pure p.text
  | .object o => world (.text o)

/-- The text of an object that has no better one. -/
def objectText : String := "[object Object]"

end HttpFields.Script
