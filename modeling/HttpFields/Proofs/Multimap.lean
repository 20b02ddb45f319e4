import Mathlib.Logic.Function.Basic
import HttpFields.Diagnostic.Failure
import HttpFields.Proofs.History
import HttpFields.Proofs.Snapshot

/-!
# Stores as multimaps

A store acts like a map that sends each name to the list of its values. How the fields of different names
are mixed in the store shows in nothing but the bounds of a scan that has begun.

* `Multimap` : such a map under a guard; `Store.multimap` : the one that a store stands for
* `Multimap.step` : what a command makes of a map; `History.multimap` : the map at the end of a history
* `Store.multimap_outcome` : a command does to the store what it does to the map
* `Multimap.get` and its like : what a reader makes of a map
* `Store.Alike` : no look-up, snapshot, walk or diagnostic tells two stores apart; `Store.alike_of_multimap`
* `History.refines_multimap` : a history makes the same of a store and of a map, and reads depend on the map
  alone
-/

namespace HttpFields

open HttpFields.Field Script

set_option autoImplicit false

/-! ## Multimaps -/

/-- The values of each name, under a guard. -/
@[ext] structure Multimap where
  values : Name → List Value
  guard : Guard
  policy : Policy

namespace Multimap

def empty (guard : Guard) (policy : Policy) : Multimap := ⟨fun _ => [], guard, policy⟩

def put (m : Multimap) (n : Name) (vs : List Value) : Multimap :=
  { m with values := Function.update m.values n vs }

def push (m : Multimap) (f : Field) : Multimap := m.put f.name (m.values f.name ++ [f.value])

def permit (m : Multimap) (op : Operation) (n : Name) : Except Failure Unit := m.policy.permit m.guard op n

/-- What a command makes of a map, or why it fails. -/
def step (m : Multimap) : Command → Except Failure Multimap
  | .append name value => do
    let f ← Operation.append.readField name value
    m.permit .append f.name
    return m.push f
  | .appendIfAbsent name value => do
    let f ← Operation.append.readField name value
    m.permit .append f.name
    return if m.values f.name = [] then m.push f else m
  | .set name value => do
    let f ← Operation.set.readField name value
    m.permit .set f.name
    return m.put f.name [f.value]
  | .delete name => do
    let n ← Operation.delete.readName name
    m.permit .delete n
    return m.put n []
  | .extend fields => do
    fields.forM fun f => m.permit .append f.name
    return fields.foldl push m
  | .clear =>
    if m.guard = .immutable then .error ⟨.delete, .refused .immutable⟩
    else .ok { m with values := fun _ => [] }
  | .underGuard guard policy =>
    .ok ⟨fun n => if policy.keeps guard n then m.values n else [], guard, policy⟩

def after (m : Multimap) (c : Command) : Multimap :=
  match m.step c with
  | .ok t => t
  | .error _ => m

def ofPairs (pairs : List (String × String)) : Except Failure Multimap :=
  pairs.foldlM (fun m (name, value) => push m <$> Operation.construct.readField name value)
    (empty .none .standard)

end Multimap

def History.multimap {ω σ : Type} (world : World ω ω σ) : History ω σ → Except Failure Multimap
  | .new => .ok (.empty .none .standard)
  | .withGuard guard => .ok (.empty guard .standard)
  | .withPolicy guard policy => .ok (.empty guard policy)
  | .ofPairs pairs => Multimap.ofPairs pairs
  | .ofFields fields => .ok (fields.foldl .push (.empty .none .standard))
  | .ofAbsent _ => .ok (.empty .none .standard)
  | .ofValue state v => (FillM.result (Fill.pairs world v) state).1 >>= Multimap.ofPairs
  | .ofStore _ source => do
    let m ← source.multimap world
    return { m with guard := .none, policy := .standard }
  | .clone original => original.multimap world
  | .change before c => do
    let m ← before.multimap world
    return m.after c

theorem foldl_mapM_eq_foldlM {α β γ : Type} (read : α → Except Failure β) (take : γ → β → γ) (xs : List α)
    (c : γ) : List.foldl take c <$> xs.mapM read = xs.foldlM (fun c x => take c <$> read x) c := by
  induction xs generalizing c with
  | nil => rfl
  | cons x xs ih =>
    simp only [List.mapM_cons, List.foldlM_cons, map_bind, map_pure, List.foldl_cons, bind_map_left, ← ih]
    exact bind_congr fun b => (map_eq_pure_bind _ _).symm

/-! ## The map of a store -/

/-- The values of each name, in the order of the store. -/
def Store.multimap (s : Store) : Multimap := ⟨s.fields.valuesOf, s.guard, s.policy⟩

namespace Store

theorem multimap_eq_put {s : Store} {fs : Fields} {n : Name} {vs : List Value} (hself : fs.valuesOf n = vs)
    (hother : ∀ m, m ≠ n → fs.valuesOf m = s.fields.valuesOf m) :
    multimap { s with fields := fs } = s.multimap.put n vs := by
  refine Multimap.ext (funext fun m => ?_) rfl rfl
  show fs.valuesOf m = Function.update s.fields.valuesOf n vs m
  by_cases hm : m = n
  · rw [hm, Function.update_self, hself]
  · rw [Function.update_of_ne hm, hother m hm]

theorem multimap_append (s : Store) (f : Field) :
    multimap { s with fields := s.fields.append f.name f.value } = s.multimap.push f := by
  refine multimap_eq_put ?_ fun m hm => ?_
  · rw [Fields.valuesOf_append, if_pos rfl]
    rfl
  · rw [Fields.valuesOf_append, if_neg hm.symm, List.append_nil]

theorem multimap_set (s : Store) (f : Field) :
    multimap { s with fields := s.fields.set f.name f.value } = s.multimap.put f.name [f.value] := by
  refine multimap_eq_put ?_ fun m hm => ?_
  · rw [Fields.valuesOf_set, if_pos rfl]
  · rw [Fields.valuesOf_set, if_neg hm.symm]

theorem multimap_remove (s : Store) (n : Name) :
    multimap { s with fields := s.fields.remove n } = s.multimap.put n [] := by
  refine multimap_eq_put ?_ fun m hm => ?_
  · rw [Fields.valuesOf_remove, if_pos rfl]
  · rw [Fields.valuesOf_remove, if_neg hm]

theorem multimap_extend (s : Store) (fs : Fields) :
    multimap { s with fields := s.fields ++ fs } = fs.foldl .push s.multimap := by
  induction fs generalizing s with
  | nil => rw [List.append_nil, List.foldl_nil]
  | cons f fs ih =>
    have hsplit : s.fields ++ f :: fs = s.fields.append f.name f.value ++ fs :=
      (List.append_assoc s.fields [f] fs).symm
    rw [hsplit, List.foldl_cons, ← multimap_append]
    exact ih { s with fields := s.fields.append f.name f.value }

theorem multimap_ofFields (fs : Fields) :
    multimap (ofFields fs) = fs.foldl .push (.empty .none .standard) :=
  multimap_extend {} fs

/-- A command makes the same of a guarded store and of its map, and fails for both with the same failure. -/
theorem multimap_outcome {s : Store} (h : s.Guarded) (c : Command) :
    multimap <$> s.outcome c = s.multimap.step c := by
  cases c with
  | append name value =>
    rw [outcome, apply, result_append]
    exact map_ask_then fun f => multimap_append s f
  | appendIfAbsent name value =>
    rw [outcome, apply, result_appendIfAbsent]
    refine map_ask_then fun f => ?_
    by_cases hf : s.fields.valuesOf f.name = []
    · have hnot : ¬ s.fields.has f.name = true := fun hh => (Fields.has_eq_true_iff _ _).1 hh hf
      rw [if_neg hnot, multimap_append]
      exact (if_pos hf).symm
    · rw [if_pos ((Fields.has_eq_true_iff _ _).2 hf)]
      exact (if_neg hf).symm
  | set name value =>
    rw [outcome, apply, result_set]
    exact map_ask_then fun f => multimap_set s f
  | delete name =>
    rw [outcome, apply, result_delete]
    exact map_ask_then fun n => multimap_remove s n
  | extend fields =>
    rw [outcome, apply, result_extend, map_bind]
    exact bind_congr fun _ => congrArg Except.ok (multimap_extend s fields)
  | clear =>
    -- A guarded store holds no name that the guard would refuse to delete.
    rw [outcome_clear_of_guarded h]
    by_cases hg : s.guard = .immutable
    · rw [if_pos hg]
      exact (if_pos hg).symm
    · rw [if_neg hg]
      exact (if_neg hg).symm
  | underGuard guard policy =>
    rw [outcome_underGuard]
    exact congrArg Except.ok (Multimap.ext (funext fun n => Fields.valuesOf_retain _ _ _) rfl rfl)

theorem multimap_after {s : Store} (h : s.Guarded) (c : Command) :
    multimap (s.after c) = s.multimap.after c := by
  have hstep := multimap_outcome h c
  cases hc : s.outcome c with
  | ok t =>
    rw [hc] at hstep
    rw [after_of_ok hc, Multimap.after, ← hstep]
    rfl
  | error e =>
    rw [hc] at hstep
    rw [after_of_error hc, Multimap.after, ← hstep]
    rfl

theorem multimap_ofPairs (ps : List (String × String)) :
    multimap <$> ofPairs ps = Multimap.ofPairs ps := by
  rw [Multimap.ofPairs, ← foldl_mapM_eq_foldlM, ofPairs, map_bind, map_eq_pure_bind]
  exact bind_congr fun fs => congrArg Except.ok (multimap_ofFields fs)

end Store

/-- A history makes the same of a store and of a map. -/
theorem History.multimap_store {ω σ : Type} (world : World ω ω σ) (h : History ω σ) :
    Store.multimap <$> h.store world = h.multimap world := by
  induction h with
  | new | withGuard guard | withPolicy guard policy | ofAbsent state => rfl
  | ofPairs pairs => exact Store.multimap_ofPairs pairs
  | ofFields fields => exact congrArg Except.ok (Store.multimap_ofFields fields)
  | ofValue state v =>
    rw [store, Store.made_value, map_bind]
    exact bind_congr fun ps => Store.multimap_ofPairs ps
  | ofStore state source ih =>
    rw [store, multimap, map_bind, ← ih, bind_map_left]
    rfl
  | clone original ih => exact ih
  | change before c ih =>
    rw [store, multimap, map_bind, ← ih, bind_map_left]
    cases hs : before.store world with
    | error e => rfl
    | ok s => exact congrArg Except.ok (Store.multimap_after (guarded hs) c)

/-! ## Reads -/

namespace ValueScan

theorem length_next_lt {s t : ValueScan} {v : Value} (h : s.next = (some v, t)) :
    t.rest.length < s.rest.length := by
  rw [next] at h
  split at h
  · cases h
  · next f rest hrest =>
    cases h
    have hle := (List.dropWhile_suffix (l := s.rest) fun f => decide (f.name ≠ s.name)).length_le
    rw [hrest, List.length_cons] at hle
    exact hle

def items (s : ValueScan) : List Value :=
  match _ : s.next with
  | (none, _) => []
  | (some v, t) => v :: t.items
termination_by s.rest.length
decreasing_by exact length_next_lt ‹_›

theorem items_of_next_none {s t : ValueScan} (h : s.next = (none, t)) : s.items = [] := by
  rw [items]
  split
  · rfl
  · next v u hu => cases h.symm.trans hu

theorem items_of_next_some {s t : ValueScan} {v : Value} (h : s.next = (some v, t)) :
    s.items = v :: t.items := by
  rw [items]
  split
  · next u hu => cases h.symm.trans hu
  · next w u hu =>
    cases h.symm.trans hu
    rfl

theorem items_eq_valuesOf (fs : Fields) (n : Name) : items ⟨fs, n⟩ = fs.valuesOf n := by
  induction fs with
  | nil => exact items_of_next_none (t := ⟨[], n⟩) rfl
  | cons f fs ih =>
    rw [Fields.valuesOf_cons]
    by_cases hf : f.name = n
    · have hnext : next ⟨f :: fs, n⟩ = (some f.value, ⟨fs, n⟩) := by
        simp [next, hf]
      rw [items_of_next_some hnext, ih, if_pos hf, List.singleton_append]
    · -- A field of another name is skipped, so the scan finds what it finds without that field.
      have hnext : next ⟨f :: fs, n⟩ = next ⟨fs, n⟩ := by
        simp [next, hf]
      rw [if_neg hf, List.nil_append, ← ih]
      cases hs : next ⟨fs, n⟩ with
      | mk v t =>
        cases v with
        | none => rw [items_of_next_none (hnext.trans hs), items_of_next_none hs]
        | some v => rw [items_of_next_some (hnext.trans hs), items_of_next_some hs]

end ValueScan

namespace Multimap

def get (m : Multimap) (name : String) : Except Failure (Option Value) := do
  let n ← Operation.get.readName name
  return if n = Name.setCookie then (m.values n).head?
    else match m.values n with
      | [] => none
      | v :: more => some (v.join more)

def getAll (m : Multimap) (name : String) : Except Failure (List Value) := do
  let n ← Operation.get.readName name
  return m.values n

def has (m : Multimap) (name : String) : Except Failure Bool := do
  let n ← Operation.has.readName name
  return m.values n ≠ []

end Multimap

namespace Store

theorem get_eq_multimap (s : Store) (name : String) : s.get name = s.multimap.get name := by
  refine bind_congr fun n => congrArg Except.ok ?_
  show s.fields.combined n = if n = Name.setCookie then (s.fields.valuesOf n).head? else _
  rw [Fields.combined]
  by_cases hn : n = Name.setCookie
  · rw [if_pos hn]
    cases s.fields.valuesOf n <;> simp [hn]
  · rw [if_neg hn]
    simp only [if_neg hn]
    rfl

theorem getAll_eq_multimap (s : Store) (name : String) :
    ValueScan.items <$> s.getAll name = s.multimap.getAll name := by
  rw [getAll, Multimap.getAll, map_bind]
  exact bind_congr fun n => congrArg Except.ok (ValueScan.items_eq_valuesOf s.fields n)

theorem has_eq_multimap (s : Store) (name : String) : s.has name = s.multimap.has name := by
  refine bind_congr fun n => congrArg Except.ok (Bool.eq_iff_iff.2 ?_)
  rw [Fields.has_eq_true_iff, decide_eq_true_iff]
  rfl

/-! ## What a reader can see -/

/-- No read tells the stores apart. -/
structure Alike (s t : Store) : Prop where
  get : ∀ name, s.get name = t.get name
  getAll : ∀ name, ValueScan.items <$> s.getAll name = ValueScan.items <$> t.getAll name
  has : ∀ name, s.has name = t.has name
  setCookies : s.setCookies = t.setCookies
  size : s.size = t.size
  isEmpty : s.isEmpty = t.isEmpty
  snapshot : s.snapshot = t.snapshot
  names : s.names = t.names
  values : s.values = t.values
  cursor : s.cursor = t.cursor
  form : s.form = t.form

/-- What a reader sees of a store is seen of its map. -/
theorem alike_of_multimap {s t : Store} (h : s.multimap = t.multimap) : s.Alike t := by
  have hvalues : ∀ n, s.fields.valuesOf n = t.fields.valuesOf n := congrFun (congrArg Multimap.values h)
  have hsnapshot : s.snapshot = t.snapshot := Fields.snapshot_congr hvalues
  have hsize : s.size = t.size := Fields.length_congr hvalues
  have hempty : ∀ u : Store, u.isEmpty = decide (u.size = 0) := by
    intro u
    rw [isEmpty, size]
    cases u.fields <;> rfl
  constructor
  · intro name
    rw [get_eq_multimap, get_eq_multimap, h]
  · intro name
    rw [getAll_eq_multimap, getAll_eq_multimap, h]
  · intro name
    rw [has_eq_multimap, has_eq_multimap, h]
  · exact hvalues Name.setCookie
  · exact hsize
  · rw [hempty, hempty, hsize]
  · exact hsnapshot
  · exact congrArg (List.map (·.name)) hsnapshot
  · exact congrArg (List.map (·.value)) hsnapshot
  · exact congrArg Cursor.mk hsnapshot
  · rw [form, form, hsnapshot]

end Store

/-- A history makes the same of a store and of a map, and then a command makes the same of both or fails for
both. What a look-up yields is read off the map, and two stores with one map show all their fields alike. -/
theorem History.refines_multimap {ω σ : Type} (world : World ω ω σ) (h : History ω σ) :
    Store.multimap <$> h.store world = h.multimap world ∧
    (∀ s, h.store world = .ok s → ∀ c, Store.multimap <$> s.outcome c = s.multimap.step c) ∧
    ∀ s : Store,
      (∀ name, s.get name = s.multimap.get name) ∧
      (∀ name, ValueScan.items <$> s.getAll name = s.multimap.getAll name) ∧
      (∀ name, s.has name = s.multimap.has name) ∧
      s.setCookies = s.multimap.values Name.setCookie ∧
      ∀ t : Store, t.multimap = s.multimap →
        t.snapshot = s.snapshot ∧ t.names = s.names ∧ t.values = s.values ∧ t.cursor = s.cursor ∧
        t.size = s.size ∧ t.isEmpty = s.isEmpty ∧ t.form = s.form := by
  refine ⟨h.multimap_store world, fun s hs c => Store.multimap_outcome (guarded hs) c, fun s => ?_⟩
  refine ⟨s.get_eq_multimap, s.getAll_eq_multimap, s.has_eq_multimap, rfl, fun t ht => ?_⟩
  have halike : t.Alike s := Store.alike_of_multimap ht
  exact ⟨halike.snapshot, halike.names, halike.values, halike.cursor, halike.size, halike.isEmpty, halike.form⟩

end HttpFields
