import HttpFields.Proofs.Independence

/-!
# Spelling and padding are invisible

A name may be spelled with capital or small letters, and a value may be padded with blanks. Two runs that differ
in nothing else cannot be told apart: no guard is evaded, no field is missed and none is stored twice.

* `Text.SameLetters`, `Text.SameInside` : equal but for the case of ASCII letters, and but for the padding
* `Field.Name.ofText_congr`, `Field.Value.normalize_congr` : what a reader makes of such texts is the same
* `Visit` : the uses of a store, each with its texts; `Visit.Alike` : the same use with texts that differ so
* `Store.visits_congr` : two runs of such uses yield the same answers and the same stores
-/

namespace HttpFields

open HttpFields.Field

set_option autoImplicit false

/-! ## Spelling of names -/

namespace Text

/-- Equal but for the case of ASCII letters. -/
def SameLetters (a b : String) : Prop := (utf8 a).map toLower = (utf8 b).map toLower

/-- Equal but for the blanks in front and behind. -/
def SameInside (a b : String) : Prop := strip a.toList = strip b.toList

instance (a b : String) : Decidable (SameLetters a b) := inferInstanceAs (Decidable (_ = _))

instance (a b : String) : Decidable (SameInside a b) := inferInstanceAs (Decidable (_ = _))

theorem isToken_toLower : ∀ b, isToken (toLower b) = isToken b := forall_byte (by decide +kernel)

theorem toLower_toLower : ∀ b, toLower (toLower b) = toLower b := forall_byte (by decide +kernel)

end Text

theorem Field.Name.parse_map_toLower (bytes : List UInt8) : parse (bytes.map Text.toLower) = parse bytes := by
  have hempty : (bytes.map Text.toLower).isEmpty = bytes.isEmpty := List.isEmpty_map
  have hall : (bytes.map Text.toLower).all Text.isToken = bytes.all Text.isToken := by
    rw [List.all_map]
    exact congrArg bytes.all (funext Text.isToken_toLower)
  have hlower : (bytes.map Text.toLower).map Text.toLower = bytes.map Text.toLower := by
    rw [List.map_map]
    exact List.map_congr_left fun b _ => Text.toLower_toLower b
  rw [parse, hempty, hall, hlower, parse]

theorem Field.Name.ofText_congr {a b : String} (h : Text.SameLetters a b) : ofText a = ofText b := by
  rw [ofText, ofText, ← parse_map_toLower (Text.utf8 a), ← parse_map_toLower (Text.utf8 b), h]

theorem Field.Value.normalize_congr {a b : String} (h : Text.SameInside a b) : normalize a = normalize b := by
  rw [Text.SameInside] at h
  rw [normalize, normalize, h]

namespace Operation

variable {op : Operation} {name name' value value' : String}

theorem readName_congr (h : Text.SameLetters name name') : op.readName name = op.readName name' := by
  rw [readName, readName, Name.ofText_congr h]

theorem readField_congr (hname : Text.SameLetters name name') (hvalue : Text.SameInside value value') :
    op.readField name value = op.readField name' value' := by
  rw [readField, readField, readName_congr hname, readValue, readValue, Value.normalize_congr hvalue]

end Operation

/-! ## Uses of a store -/

/-- The same command, with names that may be spelled and values that may be padded in another way. -/
inductive Command.Alike : Command → Command → Prop where
  | same (c : Command) : Alike c c
  | append {name name' value value' : String} (hname : Text.SameLetters name name')
    (hvalue : Text.SameInside value value') : Alike (.append name value) (.append name' value')
  | appendIfAbsent {name name' value value' : String} (hname : Text.SameLetters name name')
    (hvalue : Text.SameInside value value') : Alike (.appendIfAbsent name value) (.appendIfAbsent name' value')
  | set {name name' value value' : String} (hname : Text.SameLetters name name')
    (hvalue : Text.SameInside value value') : Alike (.set name value) (.set name' value')
  | delete {name name' : String} (hname : Text.SameLetters name name') : Alike (.delete name) (.delete name')

inductive Visit where
  /-- Makes another store from pairs of texts, in the place of the old one. -/
  | make (pairs : List (String × String))
  | change (c : Command)
  | get (name : String)
  | getAll (name : String)
  | has (name : String)

/-- The same use, with texts that may be spelled and padded in another way. -/
inductive Visit.Alike : Visit → Visit → Prop where
  | make {ps qs : List (String × String)}
    (h : List.Forall₂ (fun p q => Text.SameLetters p.1 q.1 ∧ Text.SameInside p.2 q.2) ps qs) :
    Alike (.make ps) (.make qs)
  | change {c d : Command} (h : c.Alike d) : Alike (.change c) (.change d)
  | get {name name' : String} (h : Text.SameLetters name name') : Alike (.get name) (.get name')
  | getAll {name name' : String} (h : Text.SameLetters name name') : Alike (.getAll name) (.getAll name')
  | has {name name' : String} (h : Text.SameLetters name name') : Alike (.has name) (.has name')

/-- What the caller hears. -/
inductive Reply where
  | done (result : Except Failure Unit)
  | value (result : Except Failure (Option Value))
  | scan (result : Except Failure ValueScan)
  | found (result : Except Failure Bool)

namespace Store

/-- What the caller hears of a use, and the store afterwards. One that cannot be made leaves the old one. -/
def visit (s : Store) : Visit → Reply × Store
  | .make pairs =>
    match ofPairs pairs with
    | .ok t => (.done (.ok ()), t)
    | .error failure => (.done (.error failure), s)
  | .change c => (.done (s.reply c), s.after c)
  | .get name => (.value (s.get name), s)
  | .getAll name => (.scan (s.getAll name), s)
  | .has name => (.found (s.has name), s)

def visits (s : Store) : List Visit → List (Reply × Store)
  | [] => []
  | v :: vs => s.visit v :: (s.visit v).2.visits vs

theorem apply_congr (s : Store) {c d : Command} (h : c.Alike d) : s.apply c = s.apply d := by
  cases h with
  | same c => rfl
  | append hname hvalue =>
    rw [apply, apply, Store.append, Store.append, Operation.readField_congr hname hvalue]
  | appendIfAbsent hname hvalue =>
    rw [apply, apply, Store.appendIfAbsent, Store.appendIfAbsent, Operation.readField_congr hname hvalue]
  | set hname hvalue => rw [apply, apply, Store.set, Store.set, Operation.readField_congr hname hvalue]
  | delete hname => rw [apply, apply, Store.delete, Store.delete, Operation.readName_congr hname]

theorem ofPairs_congr {ps qs : List (String × String)}
    (h : List.Forall₂ (fun p q => Text.SameLetters p.1 q.1 ∧ Text.SameInside p.2 q.2) ps qs) :
    ofPairs ps = ofPairs qs := by
  have hread : ps.mapM (fun p => Operation.construct.readField p.1 p.2) =
      qs.mapM fun p => Operation.construct.readField p.1 p.2 := by
    induction h with
    | nil => rfl
    | cons hp _ ih => rw [List.mapM_cons, List.mapM_cons, Operation.readField_congr hp.1 hp.2, ih]
  rw [ofPairs, hread, ofPairs]

theorem visit_congr (s : Store) {v w : Visit} (h : v.Alike w) : s.visit v = s.visit w := by
  cases h with
  | make h => rw [visit, visit, ofPairs_congr h]
  | change h =>
    rw [visit, visit, reply, reply, outcome, outcome, after, after, apply_congr s h]
  | get h => rw [visit, visit, get, get, Operation.readName_congr h]
  | getAll h => rw [visit, visit, getAll, getAll, Operation.readName_congr h]
  | has h => rw [visit, visit, has, has, Operation.readName_congr h]

/-- Two runs in which each name has the same letters and each value the same inside yield the same answers,
failures included, and the same stores after every step. -/
theorem visits_congr (s : Store) {vs ws : List Visit} (h : List.Forall₂ Visit.Alike vs ws) :
    s.visits vs = s.visits ws := by
  induction h generalizing s with
  | nil => rfl
  | cons hv _ ih => rw [visits, visits, visit_congr s hv, ih]

/-- A request refuses `host` in every spelling, and stores a padded value without its padding. -/
theorem visits_congr_request :
    ∃ (s : Store) (vs ws : List Visit), s.guard = .request ∧ List.Forall₂ Visit.Alike vs ws ∧
      vs = [.change (.append "host" "a"), .change (.append "accept" "b"), .get "accept"] ∧
      ws = [.change (.append "HOst" "a"), .change (.append "ACCEPT" "\t b\r\n"), .get "Accept"] ∧
      s.visits vs = s.visits ws ∧
      (s.visits ws).map (·.2.fields) = [[], [⟨.accept, ⟨"b"⟩⟩], [⟨.accept, ⟨"b"⟩⟩]] := by
  let s : Store := ⟨[], .request, .standard⟩
  have hhost : Visit.Alike (.change (.append "host" "a")) (.change (.append "HOst" "a")) :=
    .change (.append (by decide +kernel) rfl)
  have haccept : Visit.Alike (.change (.append "accept" "b")) (.change (.append "ACCEPT" "\t b\r\n")) :=
    .change (.append (by decide +kernel) (by decide +kernel))
  have hget : Visit.Alike (.get "accept") (.get "Accept") := .get (by decide +kernel)
  have halike := List.Forall₂.cons hhost (.cons haccept (.cons hget .nil))
  exact ⟨s, _, _, rfl, halike, rfl, rfl, visits_congr s halike, by decide +kernel⟩

end Store

end HttpFields
