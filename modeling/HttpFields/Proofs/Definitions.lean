import Mathlib.Data.List.Induction
import Mathlib.Data.List.Nodup
import HttpFields.Proofs.Pairs
import HttpFields.Proofs.Spelling

/-!
# Records that are defined step by step

A record is made by definitions. One of a key that is there already takes over the place of the older one, with a
new value and a new visibility. So a store that is made from the record gets the last value of each listed key,
and gets the keys in the order in which they were first defined.

* `Record.definedKeys`, `Record.lastOf` : the keys in that order, and the last definition of a key
* `Record.ofList_eq` : the record that definitions make
* `Ordinary.ofTexts` : the record of definitions whose values are texts; `Record.listed` : the pairs it stands for
* `Fill.result_pairs_ofTexts` : what a construction makes of such a record
* `Store.values_of_sameLetters` : keys that differ in case alone are stored under one name, each with its value
* `Store.ofSource_definitions` : the store that is made from such a record
-/

namespace HttpFields

open HttpFields.Field Script

set_option autoImplicit false

/-! ## Definitions of keys -/

namespace Script.Record

variable {α β : Type}

/-- The keys of definitions, in the order in which they are defined first. -/
def definedKeys (ds : List (Property α)) : List Key := (ds.map (·.key)).eraseDups

/-- The last definition of a key. -/
def lastOf (ds : List (Property α)) (key : Key) : Option (Property α) := (ds.filter (·.key = key)).getLast?

theorem ofList_concat (ds : List (Property α)) (p : Property α) :
    ofList (ds ++ [p]) = define (ofList ds) p := List.foldl_concat define [] p ds

theorem lastOf_concat (ds : List (Property α)) (p : Property α) (key : Key) :
    lastOf (ds ++ [p]) key = if p.key = key then some p else lastOf ds key := by
  by_cases h : p.key = key <;> simp [lastOf, h]

theorem definedKeys_concat (ds : List (Property α)) (p : Property α) :
    definedKeys (ds ++ [p]) =
      if p.key ∈ definedKeys ds then definedKeys ds else definedKeys ds ++ [p.key] := by
  simp only [definedKeys, List.map_append, List.map_cons, List.map_nil, List.eraseDups_append,
    List.mem_eraseDups, List.cons_removeAll]
  by_cases h : p.key ∈ ds.map (·.key) <;> simp [h, List.removeAll, List.eraseDups_cons]

theorem keys_ofList (ds : List (Property α)) : (ofList ds).map (·.key) = definedKeys ds := by
  -- The last definition is made upon the record of all others, so it is taken off first.
  induction ds using List.reverseRec with
  | nil => rfl
  | append_singleton ds p ih => rw [ofList_concat, keys_define, ih, definedKeys_concat]

theorem find?_ofList (ds : List (Property α)) (key : Key) : (ofList ds).find? key = lastOf ds key := by
  induction ds using List.reverseRec with
  | nil => rfl
  | append_singleton ds p ih => rw [ofList_concat, find?_define, ih, lastOf_concat]

theorem nodup_definedKeys (ds : List (Property α)) : (definedKeys ds).Nodup := by
  induction ds using List.reverseRec with
  | nil => exact List.nodup_nil
  | append_singleton ds p ih =>
    rw [definedKeys_concat]
    split
    · exact ih
    · next hp =>
      rw [← List.concat_eq_append]
      exact ih.concat hp

theorem nodup_keys_ofList (ds : List (Property α)) : ((ofList ds).map (·.key)).Nodup := by
  rw [keys_ofList]
  exact nodup_definedKeys ds

theorem find?_key_of_mem {r : Record α} (h : (r.map (·.key)).Nodup) {p : Property α} (hp : p ∈ r) :
    find? r p.key = some p := by
  induction r with
  | nil => cases hp
  | cons q r ih =>
    rw [List.map_cons, List.nodup_cons] at h
    rcases List.mem_cons.1 hp with rfl | hp
    · simp [find?]
    · have hne : q.key ≠ p.key := by
        intro he
        rw [he] at h
        exact h.1 (List.mem_map_of_mem hp)
      have hrest : find? (q :: r) p.key = find? r p.key := by simp [find?, hne]
      rw [hrest, ih h.2 hp]

theorem mem_ofList_iff {ds : List (Property α)} {p : Property α} :
    p ∈ ofList ds ↔ lastOf ds p.key = some p := by
  rw [← find?_ofList]
  exact ⟨find?_key_of_mem (nodup_keys_ofList ds), List.mem_of_find?_eq_some⟩

/-- The record that definitions make: the last definition of each key, in the order of the first ones. -/
theorem ofList_eq (ds : List (Property α)) : ofList ds = (definedKeys ds).filterMap (lastOf ds) := by
  have hfind : ∀ p ∈ ofList ds, lastOf ds p.key = some p := fun p => mem_ofList_iff.1
  rw [← keys_ofList, List.filterMap_map]
  exact ((List.filterMap_congr hfind).trans List.filterMap_some).symm

end Script.Record

/-! ## Records of texts -/

namespace Script

def Property.map {α β : Type} (f : α → β) (p : Property α) : Property β := ⟨p.key, p.visibility, f p.value⟩

/-- The pair that a property stands for, if it is listed under a string. -/
def Property.pair? : Property String → Option (String × String)
  | ⟨.string name, .enumerable, text⟩ => some (name, text)
  | _ => none

def Property.isListedSymbol {α : Type} : Property α → Bool
  | ⟨.symbol _, .enumerable, _⟩ => true
  | _ => false

def Ordinary.ofTexts {φ : Type} (ds : List (Property String)) : Ordinary φ :=
  .record (Record.ofList (ds.map (.map .string)))

namespace Record

/-- The pairs that definitions stand for: each key whose last definition is listed, with the value of that one, in
the order in which the keys were first defined. -/
def listed (ds : List (Property String)) : List (String × String) :=
  (definedKeys ds).filterMap fun key => (lastOf ds key).bind Property.pair?

theorem filterMap_pair?_ofList (ds : List (Property String)) : (ofList ds).filterMap Property.pair? = listed ds := by
  rw [ofList_eq, List.filterMap_filterMap, listed]

/-- The last definition of some symbol is listed. -/
def ListsSymbol {α : Type} (ds : List (Property α)) : Prop :=
  ∃ description v, lastOf ds (.symbol description) = some ⟨.symbol description, .enumerable, v⟩

theorem any_isListedSymbol_ofList_iff {α : Type} (ds : List (Property α)) :
    (ofList ds).any Property.isListedSymbol = true ↔ ListsSymbol ds := by
  rw [List.any_eq_true]
  constructor
  · rintro ⟨⟨_ | description, _ | _, v⟩, hp, hsymbol⟩
    · cases hsymbol
    · cases hsymbol
    · exact ⟨description, v, mem_ofList_iff.1 hp⟩
    · cases hsymbol
  · rintro ⟨description, v, h⟩
    have hmem : ⟨.symbol description, .enumerable, v⟩ ∈ ofList ds := mem_ofList_iff.2 h
    exact ⟨_, hmem, rfl⟩

theorem lastOf_map {α β : Type} (f : α → β) (ds : List (Property α)) (key : Key) :
    lastOf (ds.map (.map f)) key = (lastOf ds key).map (.map f) := by
  have hkey : (fun p : Property β => decide (p.key = key)) ∘ Property.map f = fun p => decide (p.key = key) := rfl
  rw [lastOf, List.filter_map, hkey, List.getLast?_map, lastOf]

theorem definedKeys_map {α β : Type} (f : α → β) (ds : List (Property α)) :
    definedKeys (ds.map (.map f)) = definedKeys ds := by
  rw [definedKeys, List.map_map]
  rfl

end Record

end Script

namespace Fill

open FillM

variable {φ σ : Type} (foreign : World φ (Ordinary φ) σ)

theorem result_pairOfProperty_text {r : Record (Script.Value (Ordinary φ))} {p : Property String}
    (h : r.find? p.key = some (p.map .string)) (state : σ) :
    result (pairOfProperty (Ordinary.world foreign) (.record r) p.key) state =
      (if p.isListedSymbol then .error ⟨.construct, .badShape .symbolKey⟩ else .ok p.pair?, state) := by
  obtain ⟨key, visibility, text⟩ := p
  have hlook : result (ask (Ordinary.world foreign (.ownProperty (.record r) key))) state =
      (.ok (some visibility), state) := by
    rw [Ordinary.world, h]
    rfl
  have hread : result (ask (Ordinary.world foreign (.read (.record r) key))) state =
      (.ok (.string text), state) := by
    rw [Ordinary.world, h]
    rfl
  rw [pairOfProperty, result_bind_ok hlook]
  cases visibility with
  | hidden => cases key <;> rfl
  | enumerable =>
    cases key with
    | symbol description => rfl
    | string name => exact result_bind_ok hread

/-- The properties of a record are read in turn, up to a listed symbol. -/
theorem result_pairsOfKeys_texts {r : Record (Script.Value (Ordinary φ))} {ps : List (Property String)}
    (h : ∀ p ∈ ps, r.find? p.key = some (p.map .string)) (state : σ) :
    result (pairsOfKeys (Ordinary.world foreign) (.record r) (ps.map (·.key))) state =
      (if ps.any Property.isListedSymbol then .error ⟨.construct, .badShape .symbolKey⟩
        else .ok (ps.filterMap Property.pair?), state) := by
  induction ps with
  | nil => rfl
  | cons p ps ih =>
    obtain ⟨hp, hps⟩ := List.forall_mem_cons.1 h
    have hfirst := result_pairOfProperty_text foreign hp state
    have hrest := ih hps
    rw [List.map_cons, pairsOfKeys, List.any_cons]
    -- A listed symbol ends the reading, be it this property or a later one.
    cases hsymbol : p.isListedSymbol with
    | true =>
      rw [hsymbol] at hfirst
      exact result_bind_error hfirst
    | false =>
      rw [hsymbol] at hfirst
      rw [result_bind_ok hfirst, Bool.false_or]
      cases hany : ps.any Property.isListedSymbol with
      | true =>
        rw [hany] at hrest
        exact result_bind_error hrest
      | false =>
        rw [hany] at hrest
        rw [result_bind_ok hrest, result_pure]
        cases hpair : p.pair? <;> simp [hpair]

theorem result_pairs_ofTexts (ds : List (Property String)) (state : σ) :
    result (pairs (Ordinary.world foreign) (.object (.ofTexts ds))) state =
      (if (Record.ofList ds).any Property.isListedSymbol then .error ⟨.construct, .badShape .symbolKey⟩
        else .ok (Record.listed ds), state) := by
  let r : Record (Script.Value (Ordinary φ)) := Record.ofList (ds.map (.map .string))
  have hkeys : r.map (·.key) = (Record.ofList ds).map (·.key) := by
    rw [Record.keys_ofList, Record.keys_ofList, Record.definedKeys_map]
  have hlook : ∀ p ∈ Record.ofList ds, Record.find? r p.key = some (p.map .string) := by
    intro p hp
    rw [Record.find?_ofList, Record.lastOf_map, Record.mem_ofList_iff.1 hp, Option.map_some]
  have hstart : result (pairs (Ordinary.world foreign) (.object (.ofTexts ds))) state =
      result (pairsOfKeys (Ordinary.world foreign) (.record r) (r.map (·.key))) state := rfl
  rw [hstart, hkeys, result_pairsOfKeys_texts foreign hlook, Record.filterMap_pair?_ofList]

end Fill

/-! ## Fields that are read from pairs -/

theorem exists_sublist_of_forall₂ {α β : Type} {R : α → β → Prop} {part whole : List α} {bs : List β}
    (hpart : part.Sublist whole) (h : List.Forall₂ R whole bs) :
    ∃ cs, cs.Sublist bs ∧ List.Forall₂ R part cs := by
  induction hpart generalizing bs with
  | slnil =>
    cases h
    exact ⟨[], .slnil, .nil⟩
  | cons a _ ih =>
    obtain ⟨b, bs, -, hbs, rfl⟩ := List.forall₂_cons_left_iff.1 h
    obtain ⟨cs, hcs, hread⟩ := ih hbs
    exact ⟨cs, hcs.cons b, hread⟩
  | cons_cons a _ ih =>
    obtain ⟨b, bs, hb, hbs, rfl⟩ := List.forall₂_cons_left_iff.1 h
    obtain ⟨cs, hcs, hread⟩ := ih hbs
    exact ⟨b :: cs, hcs.cons_cons b, .cons hb hread⟩

theorem Fields.valuesOf_sublist {fs gs : Fields} (h : fs.Sublist gs) (n : Name) :
    (fs.valuesOf n).Sublist (gs.valuesOf n) := (h.filter _).map _

namespace Store

theorem isReadAs_of_ofPairs {ps : List (String × String)} {s : Store} (h : ofPairs ps = .ok s) :
    List.Forall₂ Field.IsReadAs ps s.fields := by
  obtain ⟨gs, hgs, rfl⟩ := ofPairs_eq_ok_iff.1 h
  rcases Field.all_read_or_first_faulty ps with ⟨fs, hfs⟩ | ⟨sound, fs, p, behind, cause, rfl, hsound, hfaulty⟩
  · rw [Operation.mapM_readField_of_isReadAs hfs] at hgs
    cases hgs
    exact hfs
  · rw [Operation.mapM_readField_of_faulty hsound hfaulty] at hgs
    cases hgs

/-- Two pairs whose names differ in nothing but case give both of their values to one name. -/
theorem values_of_sameLetters {ps : List (String × String)} {s : Store} (h : ofPairs ps = .ok s)
    {a b x y : String} (hab : Text.SameLetters a b) (hps : [(a, x), (b, y)].Sublist ps) :
    ∃ n v w, Name.ofText a = .ok n ∧ Name.ofText b = .ok n ∧ Value.normalize x = .ok v ∧
      Value.normalize y = .ok w ∧ [v, w].Sublist (s.fields.valuesOf n) := by
  obtain ⟨fs, hfields, hread⟩ := exists_sublist_of_forall₂ hps (isReadAs_of_ofPairs h)
  cases hread with | @cons _ f _ _ hf hread =>
  cases hread with | @cons _ g _ _ hg hread =>
  cases hread
  have hsame : g.name = f.name := by
    have hname : Except.ok g.name = Except.ok f.name :=
      hg.1.symm.trans ((Name.ofText_congr hab).symm.trans hf.1)
    exact Except.ok.inj hname
  have hvalues : Fields.valuesOf [f, g] f.name = [f.value, g.value] := by simp [Fields.valuesOf, hsame]
  refine ⟨f.name, f.value, g.value, hf.1, hsame ▸ hg.1, hf.2, hg.2, ?_⟩
  rw [← hvalues]
  exact Fields.valuesOf_sublist hfields f.name

/-! ## Stores from records -/

section

variable {φ σ : Type} (foreign : World φ (Ordinary φ) σ) (state : σ) {ds : List (Property String)}

theorem result_ofSource_of_listsSymbol (h : Record.ListsSymbol ds) :
    FillM.result (ofSource (Ordinary.world foreign) (.value (.object (.ofTexts ds)))) state =
      (.error ⟨.construct, .badShape .symbolKey⟩, state) := by
  rw [result_ofSource_value, Fill.result_pairs_ofTexts, if_pos ((Record.any_isListedSymbol_ofList_iff ds).2 h)]
  rfl

theorem result_ofSource_of_not_listsSymbol (h : ¬ Record.ListsSymbol ds) :
    FillM.result (ofSource (Ordinary.world foreign) (.value (.object (.ofTexts ds)))) state =
      (ofPairs (Record.listed ds), state) := by
  rw [result_ofSource_value, Fill.result_pairs_ofTexts, if_neg (mt (Record.any_isListedSymbol_ofList_iff ds).1 h)]
  rfl

end

/-- A construction from a record that definitions make fails if the last definition of some symbol is listed,
whatever else is defined. If not then it makes what is made of the pairs of the listed keys, each with its last
value, in the order of the first definitions. Keys that differ in nothing but case are two such keys, so one name
gets both of their values. -/
theorem ofSource_definitions {φ σ : Type} (foreign : World φ (Ordinary φ) σ) (state : σ)
    (ds : List (Property String)) :
    (Record.ListsSymbol ds →
      FillM.result (ofSource (Ordinary.world foreign) (.value (.object (.ofTexts ds)))) state =
        (.error ⟨.construct, .badShape .symbolKey⟩, state)) ∧
    (¬ Record.ListsSymbol ds →
      FillM.result (ofSource (Ordinary.world foreign) (.value (.object (.ofTexts ds)))) state =
        (ofPairs (Record.listed ds), state)) ∧
    ∀ a b x y : String, Text.SameLetters a b → [Key.string a, .string b].Sublist (Record.definedKeys ds) →
      Record.lastOf ds (.string a) = some ⟨.string a, .enumerable, x⟩ →
      Record.lastOf ds (.string b) = some ⟨.string b, .enumerable, y⟩ →
      a ≠ b ∧ ∀ s, made (Ordinary.world foreign) state (.value (.object (.ofTexts ds))) = .ok s →
        ∃ n v w, Name.ofText a = .ok n ∧ Name.ofText b = .ok n ∧ Value.normalize x = .ok v ∧
          Value.normalize y = .ok w ∧ [v, w].Sublist (s.fields.valuesOf n) := by
  refine ⟨result_ofSource_of_listsSymbol foreign state, result_ofSource_of_not_listsSymbol foreign state, ?_⟩
  intro a b x y hab hkeys hx hy
  refine ⟨fun he => ?_, fun s hs => ?_⟩
  · have hnodup := (Record.nodup_definedKeys ds).sublist hkeys
    simp [he] at hnodup
  · have hno : ¬ Record.ListsSymbol ds := by
      intro hlists
      rw [made, result_ofSource_of_listsSymbol foreign state hlists] at hs
      cases hs
    rw [made, result_ofSource_of_not_listsSymbol foreign state hno] at hs
    have hlisted := hkeys.filterMap fun key => (Record.lastOf ds key).bind Property.pair?
    simp only [List.filterMap_cons, hx, hy, Option.bind_some, Property.pair?, List.filterMap_nil] at hlisted
    exact values_of_sameLetters hs hab hlisted

/-- A symbol is listed at first and hidden in the end; one key is defined again after another one that differs from
it in case. -/
theorem ofSource_definitions_accept :
    ∃ (ds : List (Property String)) (s : Store),
      ds = [⟨.string "Accept", .enumerable, "1"⟩, ⟨.symbol "tag", .enumerable, "t"⟩,
        ⟨.string "accept", .enumerable, " 2"⟩, ⟨.string "Accept", .enumerable, "3"⟩, ⟨.symbol "tag", .hidden, "t"⟩] ∧
      ¬ Record.ListsSymbol ds ∧
      FillM.result (ofSource (Ordinary.world (φ := Unit) World.vacant) (.value (.object (.ofTexts ds)))) () =
        (.ok s, ()) ∧
      s.fields = [⟨.accept, ⟨"3"⟩⟩, ⟨.accept, ⟨"2"⟩⟩] ∧ [⟨"3"⟩, ⟨"2"⟩].Sublist (s.fields.valuesOf .accept) := by
  let ds : List (Property String) :=
    [⟨.string "Accept", .enumerable, "1"⟩, ⟨.symbol "tag", .enumerable, "t"⟩, ⟨.string "accept", .enumerable, " 2"⟩,
      ⟨.string "Accept", .enumerable, "3"⟩, ⟨.symbol "tag", .hidden, "t"⟩]
  have hno : ¬ Record.ListsSymbol ds :=
    mt (Record.any_isListedSymbol_ofList_iff ds).2 (by decide)
  have hpairs : ofPairs (Record.listed ds) = .ok (ofFields [⟨.accept, ⟨"3"⟩⟩, ⟨.accept, ⟨"2"⟩⟩]) := by
    decide +kernel
  obtain ⟨-, hmade, hcase⟩ := ofSource_definitions (φ := Unit) World.vacant () ds
  have hresult := (hmade hno).trans (congrArg (·, ()) hpairs)
  obtain ⟨-, hvalues⟩ := hcase "Accept" "accept" "3" " 2" (by decide +kernel) (by decide +kernel) rfl rfl
  obtain ⟨n, v, w, hn, -, hv, hw, hsub⟩ := hvalues _ (congrArg Prod.fst hresult)
  cases hn.symm.trans (show Name.ofText "Accept" = .ok .accept by decide +kernel)
  cases hv.symm.trans (show Value.normalize "3" = .ok ⟨"3"⟩ by decide +kernel)
  cases hw.symm.trans (show Value.normalize " 2" = .ok ⟨"2"⟩ by decide +kernel)
  exact ⟨ds, _, rfl, hno, hresult, rfl, hsub⟩

end Store

end HttpFields
