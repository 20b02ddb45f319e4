import HttpFields.Proofs.Transcript
import HttpFields.Script.Ordinary

/-!
# The text of nested arrays

The text of an array joins the texts of its items by commas, and an item may be an array again. In the end the texts
of the leaves are joined, from left to right and whatever the depth at which they stand.

* `Leaf`, `Ordinary.leaves` : the leaves of the items of an array
* `Ordinary.commas_itemTexts` : items have the texts of their leaves, by induction over the nested arrays
* `Ordinary.text_array_eq` : the text of an array is put together from its leaves
* `Leaf.Texts` : the world gives these texts for leaves; `Leaf.texts_or_thrown` : if not then some object throws
* `Ordinary.Spliced` : the items of an array take its place
* `Ordinary.text_array` : the text, the calls and the exceptions of an array
-/

namespace HttpFields.Script

set_option autoImplicit false

/-! ## Leaves -/

/-- What stands at a leaf of nested arrays. -/
inductive Leaf (φ : Type) where
  | known (text : String)
  | asked (o : φ)

namespace Leaf

variable {φ σ : Type}

def question? : Leaf φ → Option (Call φ)
  | .known _ => none
  | .asked o => some (.text o)

def text (foreign : World φ (Ordinary φ) σ) : Leaf φ → ScriptM σ String
  | .known t => pure t
  | .asked o => foreign (.text o)

end Leaf

namespace Ordinary

variable {φ σ : Type}

mutual

/-- The leaves of an object, from left to right. An empty array is a leaf without a text. -/
def objectLeaves : Ordinary φ → List (Leaf φ)
  | .array [] => [.known ""]
  | .array (item :: items) => itemLeaves item ++ leaves items
  | .record _ => [.known objectText]
  | .foreign o => [.asked o]

def leaves : List (Value (Ordinary φ)) → List (Leaf φ)
  | [] => []
  | item :: items => itemLeaves item ++ leaves items

/-- The leaves of an item. Instead of `undefined` and `null` there is a leaf without a text. -/
def itemLeaves : Value (Ordinary φ) → List (Leaf φ)
  | .primitive .undefined => [.known ""]
  | .primitive .null => [.known ""]
  | .primitive p => [.known p.text]
  | .object o => objectLeaves o

end

/-! ## Texts behind commas -/

/-- The texts in a row, each behind a comma. -/
def commas (ts : List String) : String := String.join (ts.map ("," ++ ·))

theorem commas_nil : commas [] = "" := String.join_nil

theorem commas_cons (t : String) (ts : List String) : commas (t :: ts) = "," ++ t ++ commas ts := by simp [commas]

theorem commas_append (ts us : List String) : commas (ts ++ us) = commas ts ++ commas us := by simp [commas]

theorem comma_append_intercalate (t : String) (ts : List String) :
    "," ++ ",".intercalate (t :: ts) = commas (t :: ts) := by
  induction ts generalizing t with
  | nil => rw [String.intercalate_singleton, commas_cons, commas_nil, String.append_empty]
  | cons u ts ih => rw [String.intercalate_cons_cons, commas_cons, ← ih, String.append_assoc, String.append_assoc]

theorem intercalate_eq (ts : List String) :
    ",".intercalate ts = String.ofList ((commas ts).toList.drop 1) := by
  cases ts with
  | nil => rfl
  | cons t ts =>
    rw [← comma_append_intercalate, String.toList_append]
    exact String.ofList_toList.symm

variable (foreign : World φ (Ordinary φ) σ)

theorem comma_text_array (item : Value (Ordinary φ)) (items : List (Value (Ordinary φ))) :
    ("," ++ ·) <$> text foreign (.array (item :: items)) = commas <$> itemTexts foreign (item :: items) := by
  simp [text, itemTexts, comma_append_intercalate]

theorem commas_itemTexts_cons {item : Value (Ordinary φ)} {items : List (Value (Ordinary φ))}
    {first rest : List (Leaf φ)}
    (hfirst : ("," ++ ·) <$> itemText foreign item = commas <$> first.mapM (Leaf.text foreign))
    (hrest : commas <$> itemTexts foreign items = commas <$> rest.mapM (Leaf.text foreign)) :
    commas <$> itemTexts foreign (item :: items) = commas <$> (first ++ rest).mapM (Leaf.text foreign) :=
  calc
    commas <$> itemTexts foreign (item :: items)
    _ = (do
          let t ← ("," ++ ·) <$> itemText foreign item
          let ts ← commas <$> itemTexts foreign items
          return t ++ ts) := by
      simp [itemTexts, commas_cons]
    _ = (do
          let t ← commas <$> first.mapM (Leaf.text foreign)
          let ts ← commas <$> rest.mapM (Leaf.text foreign)
          return t ++ ts) := by
      rw [hfirst, hrest]
    _ = commas <$> (first ++ rest).mapM (Leaf.text foreign) := by
      simp [List.mapM_append, commas_append]

mutual

theorem comma_text : ∀ o : Ordinary φ,
    ("," ++ ·) <$> text foreign o = commas <$> (objectLeaves o).mapM (Leaf.text foreign)
  | .array [] | .record _ | .foreign _ => by simp [text, itemTexts, objectLeaves, Leaf.text, commas]
  | .array (item :: items) => by
    rw [comma_text_array, objectLeaves]
    exact commas_itemTexts_cons foreign (comma_itemText item) (commas_itemTexts items)

theorem comma_itemText : ∀ item : Value (Ordinary φ),
    ("," ++ ·) <$> itemText foreign item = commas <$> (itemLeaves item).mapM (Leaf.text foreign)
  | .primitive .undefined | .primitive .null | .primitive (.boolean _) | .primitive (.number _)
  | .primitive (.string _) => by simp [itemText, itemLeaves, Leaf.text, commas]
  | .object o => by
    rw [itemText, itemLeaves]
    exact comma_text o

theorem commas_itemTexts : ∀ items : List (Value (Ordinary φ)),
    commas <$> itemTexts foreign items = commas <$> (leaves items).mapM (Leaf.text foreign)
  | [] => by rw [itemTexts, leaves, List.mapM_nil]
  | item :: items => by
    rw [leaves]
    exact commas_itemTexts_cons foreign (comma_itemText item) (commas_itemTexts items)

end

/-- The text of an array is that of its leaves, which are asked from left to right. -/
theorem text_array_eq (items : List (Value (Ordinary φ))) :
    text foreign (.array items) = (fun ts => ",".intercalate ts) <$> (leaves items).mapM (Leaf.text foreign) := by
  have htexts := congrArg (fun x => (fun s => String.ofList (s.toList.drop 1)) <$> x) (commas_itemTexts foreign items)
  simp only [Functor.map_map, ← intercalate_eq] at htexts
  rw [← htexts, text]
  rfl

end Ordinary

/-! ## Asking the leaves -/

section Run

variable {σ α β : Type} {x : ScriptM σ α} {f : α → ScriptM σ β} {state next : σ}

theorem ScriptM.run_bind_ok {a : α} (h : x.run.run state = (.ok a, next)) :
    (x >>= f).run.run state = (f a).run.run next := by
  rw [ExceptT.run_bind, StateT.run_bind, h]
  rfl

theorem ScriptM.run_bind_error {e : Thrown} (h : x.run.run state = (.error e, next)) :
    (x >>= f).run.run state = (.error e, next) := by
  rw [ExceptT.run_bind, StateT.run_bind, h]
  rfl

end Run

namespace Leaf

variable {φ σ : Type}

/-- In a state of the world the leaves, asked one after the other, have these texts, and then the world is in another
state. -/
inductive Texts (foreign : World φ (Ordinary φ) σ) : σ → List (Leaf φ) → List String → σ → Prop where
  | nil (state : σ) : Texts foreign state [] [] state
  | known {state next : σ} {ls : List (Leaf φ)} {ts : List String} (t : String)
    (hrest : Texts foreign state ls ts next) :
    Texts foreign state (.known t :: ls) (t :: ts) next
  | asked {state middle next : σ} {o : φ} {t : String} {ls : List (Leaf φ)} {ts : List String}
    (ho : (foreign (.text o)).run.run state = (.ok t, middle)) (hrest : Texts foreign middle ls ts next) :
    Texts foreign state (.asked o :: ls) (t :: ts) next

variable {foreign : World φ (Ordinary φ) σ}

/-- Either all leaves have texts, or there is a first one for which an object throws. -/
theorem texts_or_thrown (foreign : World φ (Ordinary φ) σ) (ls : List (Leaf φ)) (state : σ) :
    (∃ texts next, Texts foreign state ls texts next) ∨
      ∃ before o behind texts middle e next, ls = before ++ .asked o :: behind ∧
        Texts foreign state before texts middle ∧ (foreign (.text o)).run.run middle = (.error e, next) := by
  induction ls generalizing state with
  | nil => exact .inl ⟨[], state, .nil state⟩
  | cons l ls ih =>
    cases l with
    | known t =>
      rcases ih state with ⟨texts, next, hrest⟩ | ⟨before, o, behind, texts, middle, e, next, rfl, hbefore, ho⟩
      · exact .inl ⟨t :: texts, next, .known t hrest⟩
      · exact .inr ⟨.known t :: before, o, behind, t :: texts, middle, e, next, rfl, .known t hbefore, ho⟩
    | asked p =>
      rcases hp : (foreign (.text p)).run.run state with ⟨e | t, after⟩
      · exact .inr ⟨[], p, ls, [], state, e, after, rfl, .nil state, hp⟩
      · rcases ih after with ⟨texts, next, hrest⟩ | ⟨before, o, behind, texts, middle, e, next, rfl, hbefore, ho⟩
        · exact .inl ⟨t :: texts, next, .asked hp hrest⟩
        · exact .inr ⟨.asked p :: before, o, behind, t :: texts, middle, e, next, rfl, .asked hp hbefore, ho⟩

theorem Texts.run_mapM {state next : σ} {ls : List (Leaf φ)} {texts : List String}
    (h : Texts foreign state ls texts next) (calls : List (Call φ)) :
    (ls.mapM (text foreign.recorded)).run.run (state, calls) =
      (.ok texts, next, calls ++ ls.filterMap question?) := by
  induction h generalizing calls with
  | nil state =>
    rw [List.mapM_nil, List.filterMap_nil, List.append_nil]
    rfl
  | known t hrest ih =>
    rw [List.mapM_cons]
    exact ScriptM.run_bind_ok (ih calls)
  | @asked state middle next o t ls ts ho hrest ih =>
    have hcall : (foreign.recorded (.text o)).run.run (state, calls) = (.ok t, middle, calls ++ [.text o]) := by
      rw [World.run_recorded, ho]
    rw [List.mapM_cons, text, ScriptM.run_bind_ok hcall, ScriptM.run_bind_ok (ih _), List.append_assoc]
    rfl

/-- If an object throws then no leaf behind it is asked. -/
theorem Texts.run_mapM_thrown {state middle next : σ} {before : List (Leaf φ)} {texts : List String} {o : φ}
    {e : Thrown}
    (h : Texts foreign state before texts middle) (ho : (foreign (.text o)).run.run middle = (.error e, next))
    (behind : List (Leaf φ)) (calls : List (Call φ)) :
    ((before ++ .asked o :: behind).mapM (text foreign.recorded)).run.run (state, calls) =
      (.error e, next, calls ++ before.filterMap question? ++ [.text o]) := by
  have hlast : ((.asked o :: behind).mapM (text foreign.recorded)).run.run
      (middle, calls ++ before.filterMap question?) =
        (.error e, next, calls ++ before.filterMap question? ++ [.text o]) := by
    rw [List.mapM_cons, text]
    refine ScriptM.run_bind_error ?_
    rw [World.run_recorded, ho]
  rw [List.mapM_append, ScriptM.run_bind_ok (h.run_mapM calls)]
  exact ScriptM.run_bind_error hlast

end Leaf

/-! ## Arrays that are put in the place of their items -/

namespace Ordinary

variable {φ σ : Type}

/-- Somewhere among the items, at any depth, the items of an array that is not empty take its place. -/
inductive Spliced : List (Value (Ordinary φ)) → List (Value (Ordinary φ)) → Prop where
  | here (before behind : List (Value (Ordinary φ))) {inner : List (Value (Ordinary φ))} (hinner : inner ≠ []) :
    Spliced (before ++ .object (.array inner) :: behind) (before ++ (inner ++ behind))
  | within (before behind : List (Value (Ordinary φ))) {inner inner' : List (Value (Ordinary φ))}
    (hinner : Spliced inner inner') :
    Spliced (before ++ .object (.array inner) :: behind) (before ++ .object (.array inner') :: behind)

theorem leaves_append (items more : List (Value (Ordinary φ))) :
    leaves (items ++ more) = leaves items ++ leaves more := by
  induction items with
  | nil => rw [leaves, List.nil_append, List.nil_append]
  | cons item items ih => rw [List.cons_append, leaves, leaves, ih, List.append_assoc]

theorem itemLeaves_array {items : List (Value (Ordinary φ))} (h : items ≠ []) :
    itemLeaves (.object (.array items)) = leaves items := by
  cases items with
  | nil => contradiction
  | cons item items => rw [itemLeaves, objectLeaves, leaves]

theorem Spliced.ne_nil {items items' : List (Value (Ordinary φ))} (h : Spliced items items') :
    items ≠ [] ∧ items' ≠ [] := by
  cases h with
  | here before behind hinner => simp [hinner]
  | within before behind hinner => simp

theorem Spliced.leaves_eq {items items' : List (Value (Ordinary φ))} (h : Spliced items items') :
    leaves items' = leaves items := by
  induction h with
  | here before behind hinner =>
    rw [leaves_append, leaves_append, leaves_append, leaves, itemLeaves_array hinner]
  | within before behind hinner ih =>
    obtain ⟨hne, hne'⟩ := hinner.ne_nil
    rw [leaves_append, leaves_append, leaves, leaves, itemLeaves_array hne, itemLeaves_array hne', ih]

/-- The text of an array joins the texts of the leaves by commas. Each object among them is asked once, from left to
right; if one of them throws then this is the exception, and no object behind it is asked. One of the two happens. An
array that is not empty may be replaced by its items. -/
theorem text_array (foreign : World φ (Ordinary φ) σ) (items : List (Value (Ordinary φ))) (state : σ) :
    (∀ texts next, Leaf.Texts foreign state (leaves items) texts next →
      (text foreign.recorded (.array items)).run.run (state, []) =
        (.ok (",".intercalate texts), next, (leaves items).filterMap Leaf.question?)) ∧
    (∀ before o behind texts middle e next, leaves items = before ++ .asked o :: behind →
      Leaf.Texts foreign state before texts middle → (foreign (.text o)).run.run middle = (.error e, next) →
      (text foreign.recorded (.array items)).run.run (state, []) =
        (.error e, next, before.filterMap Leaf.question? ++ [.text o])) ∧
    ((∃ texts next, Leaf.Texts foreign state (leaves items) texts next) ∨
      ∃ before o behind texts middle e next, leaves items = before ++ .asked o :: behind ∧
        Leaf.Texts foreign state before texts middle ∧ (foreign (.text o)).run.run middle = (.error e, next)) ∧
    ∀ items', Spliced items items' → text foreign (.array items') = text foreign (.array items) := by
  refine ⟨fun texts next htexts => ?_, fun before o behind texts middle e next hleaves hbefore ho => ?_,
    Leaf.texts_or_thrown foreign (leaves items) state, fun items' h => ?_⟩
  · rw [text_array_eq, map_eq_pure_bind]
    exact ScriptM.run_bind_ok (htexts.run_mapM [])
  · rw [text_array_eq, map_eq_pure_bind, hleaves]
    exact ScriptM.run_bind_error (hbefore.run_mapM_thrown ho behind [])
  · rw [text_array_eq, text_array_eq, h.leaves_eq]

/-- One object has the text `x`, the other one throws. The object behind it is not asked, and without it and the
objects behind it all texts are joined. -/
theorem text_array_thrown :
    ∃ (foreign : World Bool (Ordinary Bool) Unit) (inner items items' : List (Value (Ordinary Bool))),
      inner = [.object (.foreign true), .object (.array []), .undefined] ∧
      items = [.string "a", .object (.array inner), .object (.foreign false), .object (.foreign true)] ∧
      items' = .string "a" :: (inner ++ [.object (.foreign false), .object (.foreign true)]) ∧
      (text foreign.recorded (.array [.string "a", .object (.array inner)])).run.run ((), []) =
        (.ok "a,x,,", (), [.text true]) ∧
      (text foreign.recorded (.array items)).run.run ((), []) =
        (.error ⟨"trap"⟩, (), [.text true, .text false]) ∧
      text foreign (.array items') = text foreign (.array items) := by
  let foreign : World Bool (Ordinary Bool) Unit := fun
    | .text true => pure "x"
    | _ => throw ⟨"trap"⟩
  let inner : List (Value (Ordinary Bool)) := [.object (.foreign true), .object (.array []), .undefined]
  let behind : List (Value (Ordinary Bool)) := [.object (.foreign false), .object (.foreign true)]
  have htexts : Leaf.Texts foreign () [.known "a", .asked true, .known "", .known ""] ["a", "x", "", ""] () :=
    .known "a" (.asked rfl (.known "" (.known "" (.nil ()))))
  have hjoined := (text_array foreign [.string "a", .object (.array inner)] ()).1 _ _ htexts
  obtain ⟨-, hthrown, -, hspliced⟩ := text_array foreign (.string "a" :: .object (.array inner) :: behind) ()
  exact ⟨foreign, inner, _, _, rfl, rfl, rfl, hjoined,
    hthrown [.known "a", .asked true, .known "", .known ""] false [.asked true] _ () ⟨"trap"⟩ () rfl htexts rfl,
    hspliced _ (.here [.string "a"] behind (List.cons_ne_nil _ _))⟩

end Ordinary

end HttpFields.Script
