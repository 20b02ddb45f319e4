import HttpFields.Proofs.Edit
import HttpFields.Proofs.Multimap

/-!
# Commands on different names are independent

Commands on one name act on the values of that name alone, so only the order of those that are on the same name
matters. Another order may store the fields of different names in another order, which no reader can see.

* `Command.isOn` : the command is on a name; `Store.SameAt` : two stores agree on a name
* `Store.SameAt.run_filter` : the values of a name come from the commands on that name
* `Store.replies` : what the caller hears of commands; `Store.replies_eq_map` : for each the same as if it came
  first
* `Store.alike_of_reordered` : commands on different names can be reordered
-/

namespace HttpFields

open HttpFields.Field

set_option autoImplicit false

/-! ## What the caller hears -/

namespace Store

def replies (s : Store) : List Command → List (Except Failure Unit)
  | [] => []
  | c :: cs => s.reply c :: (s.after c).replies cs

/-- The answer to a command on one name depends on the guard alone, and not on the fields. -/
theorem reply_congr {s t : Store} (hguard : s.guard = t.guard) (hpolicy : s.policy = t.policy) {c : Command}
    {text : String} (hc : c.name? = some text) : s.reply c = t.reply c := by
  obtain ⟨read, hedits, -⟩ := Command.exists_edits hc
  have hpermit : ∀ op n, s.permit op n = t.permit op n := by
    intro op n
    rw [permit, permit, hguard, hpolicy]
  rw [reply, reply, hedits s, hedits t]
  cases read with
  | error failure => rfl
  | ok e =>
    show Except.map _ (s.permit e.operation e.name >>= _) = Except.map _ (t.permit e.operation e.name >>= _)
    rw [hpermit]
    cases t.permit e.operation e.name <;> rfl

theorem guard_after_name {c : Command} {text : String} (hc : c.name? = some text) (s : Store) :
    (s.after c).guard = s.guard ∧ (s.after c).policy = s.policy := by
  refine s.guard_after ?_
  rintro guard policy rfl
  cases hc

theorem replies_eq_map (s : Store) {cs : List Command} (hcs : ∀ c ∈ cs, ∃ text, c.name? = some text) :
    s.replies cs = cs.map s.reply := by
  have hgeneral : ∀ t : Store, t.guard = s.guard → t.policy = s.policy → t.replies cs = cs.map s.reply := by
    induction cs with
    | nil => exact fun _ _ _ => rfl
    | cons c cs ih =>
      obtain ⟨⟨text, hc⟩, hcs⟩ := List.forall_mem_cons.1 hcs
      intro t hguard hpolicy
      obtain ⟨hsame, hsame'⟩ := t.guard_after_name hc
      rw [replies, List.map_cons, reply_congr hguard hpolicy hc,
        ih hcs (t.after c) (hsame.trans hguard) (hsame'.trans hpolicy)]
  exact hgeneral s rfl rfl

theorem reply_of_guarded {s : Store} (h : s.Guarded) (c : Command) :
    s.reply c = (s.multimap.step c).map fun _ => () := by
  rw [reply, ← multimap_outcome h]
  cases s.outcome c <;> rfl

/-- Guarded stores with the same map answer alike, and what they become has the same map again. -/
theorem multimap_run_congr {s t : Store} (hs : s.Guarded) (ht : t.Guarded) (h : s.multimap = t.multimap)
    (cs : List Command) : (s.run cs).multimap = (t.run cs).multimap ∧ s.replies cs = t.replies cs := by
  induction cs generalizing s t with
  | nil => exact ⟨h, rfl⟩
  | cons c cs ih =>
    have hafter : (s.after c).multimap = (t.after c).multimap := by
      rw [multimap_after hs, multimap_after ht, h]
    have hreply : s.reply c = t.reply c := by
      rw [reply_of_guarded hs, reply_of_guarded ht, h]
    obtain ⟨hrun, hreplies⟩ := ih (guarded_after hs c) (guarded_after ht c) hafter
    refine ⟨hrun, ?_⟩
    rw [replies, replies, hreply, hreplies]

end Store

/-! ## The commands on a name -/

def Command.isOn (c : Command) (n : Name) : Bool := c.name?.any fun text => Name.ofText text = .ok n

namespace Store

/-- The stores agree on a name and have the same guard. -/
structure SameAt (n : Name) (s t : Store) : Prop where
  values : s.fields.valuesOf n = t.fields.valuesOf n
  guard : s.guard = t.guard
  policy : s.policy = t.policy

namespace SameAt

variable {n : Name} {s t u : Store} {c : Command} {text : String}

theorem refl (n : Name) (s : Store) : SameAt n s s := ⟨rfl, rfl, rfl⟩

theorem symm (h : SameAt n s t) : SameAt n t s := ⟨h.values.symm, h.guard.symm, h.policy.symm⟩

theorem trans (h : SameAt n s t) (h' : SameAt n t u) : SameAt n s u :=
  ⟨h.values.trans h'.values, h.guard.trans h'.guard, h.policy.trans h'.policy⟩

/-- What a command on one name makes of the values of a name depends on those alone. -/
theorem after (h : SameAt n s t) (hc : c.name? = some text) : SameAt n (s.after c) (t.after c) := by
  obtain ⟨read, hedits, -⟩ := Command.exists_edits hc
  cases read with
  | error failure =>
    rw [hedits.after_error, hedits.after_error]
    exact h
  | ok e =>
    rw [hedits.after_ok, hedits.after_ok, h.guard, h.policy]
    have hedited : (e.onFields s.fields).valuesOf n = (e.onFields t.fields).valuesOf n := by
      rw [Edit.valuesOf_onFields, Edit.valuesOf_onFields, h.values]
    split
    · exact ⟨hedited, rfl, rfl⟩
    · exact h

theorem after_other (s : Store) (hc : c.name? = some text) (hn : c.isOn n = false) :
    SameAt n (s.after c) s := by
  obtain ⟨read, hedits, hname⟩ := Command.exists_edits hc
  cases read with
  | error failure =>
    rw [hedits.after_error]
    exact refl n s
  | ok e =>
    have hne : e.name ≠ n := by
      rintro rfl
      rw [Command.isOn, hc, Option.any_some, hname e rfl] at hn
      simp at hn
    have hkept : (e.onFields s.fields).valuesOf n = s.fields.valuesOf n := by
      rw [Edit.valuesOf_onFields, if_neg hne]
    rw [hedits.after_ok]
    split
    · exact ⟨hkept, rfl, rfl⟩
    · exact refl n s

/-- The values of a name after a run are those after the commands on that name alone. -/
theorem run_filter (h : SameAt n s t) {cs : List Command} (hcs : ∀ c ∈ cs, ∃ text, c.name? = some text) :
    SameAt n (s.run cs) (t.run (cs.filter (·.isOn n))) := by
  induction cs generalizing s t with
  | nil => exact h
  | cons c cs ih =>
    obtain ⟨⟨text, hc⟩, hcs⟩ := List.forall_mem_cons.1 hcs
    cases hn : c.isOn n with
    | true =>
      have hfilter : (c :: cs).filter (·.isOn n) = c :: cs.filter (·.isOn n) := List.filter_cons_of_pos hn
      rw [hfilter]
      exact ih (h.after hc) hcs
    | false =>
      have hfilter : (c :: cs).filter (·.isOn n) = cs.filter (·.isOn n) :=
        List.filter_cons_of_neg (Bool.not_eq_true _ ▸ hn)
      rw [hfilter]
      exact ih ((after_other s hc hn).trans h) hcs

end SameAt

/-- Two runs in which each name has the same commands in the same order give the same map. -/
theorem multimap_run_of_filter {xs ys : List Command} (s : Store)
    (hxs : ∀ c ∈ xs, ∃ text, c.name? = some text) (hys : ∀ c ∈ ys, ∃ text, c.name? = some text)
    (horder : ∀ n, xs.filter (·.isOn n) = ys.filter (·.isOn n)) :
    (s.run xs).multimap = (s.run ys).multimap := by
  have hsame : ∀ n, SameAt n (s.run xs) (s.run ys) := by
    intro n
    have hx := (SameAt.refl n s).run_filter hxs
    have hy := (SameAt.refl n s).run_filter hys
    rw [horder n] at hx
    exact hx.trans hy.symm
  exact Multimap.ext (funext fun n => (hsame n).values) (hsame .accept).guard (hsame .accept).policy

/-- Commands on one name each may be reordered if those on the same name keep their order; commands whose name
cannot be read may come anywhere. Each is answered as if it came first, so alike in both orders, and no read
tells the stores apart, neither now nor after any further commands. -/
theorem alike_of_reordered {s : Store} (hs : Reachable s) {xs ys : List Command}
    (hxs : ∀ c ∈ xs, ∃ text, c.name? = some text) (hperm : xs.Perm ys)
    (horder : ∀ n, xs.filter (·.isOn n) = ys.filter (·.isOn n)) :
    s.replies xs = xs.map s.reply ∧ s.replies ys = ys.map s.reply ∧
      ∀ zs, ((s.run xs).run zs).Alike ((s.run ys).run zs) ∧ (s.run xs).replies zs = (s.run ys).replies zs := by
  have hys : ∀ c ∈ ys, ∃ text, c.name? = some text := fun c hc => hxs c (hperm.mem_iff.2 hc)
  refine ⟨s.replies_eq_map hxs, s.replies_eq_map hys, fun zs => ?_⟩
  have hguarded : ∀ cs, (s.run cs).Guarded := guarded_run hs.guarded
  have hmap : (s.run xs).multimap = (s.run ys).multimap := s.multimap_run_of_filter hxs hys horder
  obtain ⟨hrun, hreplies⟩ := multimap_run_congr (hguarded xs) (hguarded ys) hmap zs
  exact ⟨alike_of_multimap hrun, hreplies⟩

/-- A value of another name is added before or after two commands on one name. The stores hold the fields in
different orders, and no read tells them apart. -/
theorem alike_of_reordered_append :
    ∃ (s : Store) (xs ys : List Command), Reachable s ∧ xs.Perm ys ∧
      (s.run xs).fields = [⟨.ofLower "b", ⟨"3"⟩⟩, ⟨.ofLower "a", ⟨"2"⟩⟩] ∧
      (s.run ys).fields = [⟨.ofLower "a", ⟨"2"⟩⟩, ⟨.ofLower "b", ⟨"3"⟩⟩] ∧
      (s.run xs).Alike (s.run ys) := by
  let x : Command := .append "B" "1"
  let y : Command := .append "a" "2"
  let z : Command := .set "b" "3"
  have hreach : Reachable {} := ⟨Unit, Unit, Script.World.vacant, .new, trivial, rfl⟩
  have hname : ∀ c ∈ [x, y, z], ∃ text, c.name? = some text := by
    simp [x, y, z, Command.name?]
  have hperm : [x, y, z].Perm [y, x, z] := List.Perm.swap y x [z]
  have hother : Name.ofText "B" ≠ Name.ofText "a" := by decide +kernel
  have horder : ∀ n, [x, y, z].filter (·.isOn n) = [y, x, z].filter (·.isOn n) := by
    intro n
    cases hx : x.isOn n with
    | false => simp [List.filter_cons, hx]
    | true =>
      have hy : y.isOn n = false :=
        decide_eq_false fun hy => hother ((of_decide_eq_true hx).trans hy.symm)
      simp [List.filter_cons, hx, hy]
  have halike := (alike_of_reordered hreach hname hperm horder).2.2 []
  exact ⟨{}, [x, y, z], [y, x, z], hreach, hperm, by decide +kernel, by decide +kernel, halike.1⟩

end Store

end HttpFields
