import Mathlib

/-!
# Gathering items under keys

A hash map together with the order in which its keys came.  After any run of items the keys are
those of the items in the order of their first appearance, and the entry of a key holds what
the items of that key make, one after the other.
-/

namespace AiCoreStack.Foundation.Gather

open scoped List

variable {κ β γ : Type} [DecidableEq κ]

/-- Change the entry of a key, or open one. -/
def upsert (key : κ) (fresh : β) (update : β → β) : List (κ × β) → List (κ × β)
  | [] => [(key, fresh)]
  | entry :: rest =>
      if entry.1 = key then (entry.1, update entry.2) :: rest
      else entry :: upsert key fresh update rest

theorem keys_upsert (key : κ) (fresh : β) (update : β → β) (held : List (κ × β)) :
    (upsert key fresh update held).map Prod.fst =
      if key ∈ held.map Prod.fst then held.map Prod.fst else held.map Prod.fst ++ [key] := by
  induction held with
  | nil => simp [upsert]
  | cons entry rest ih =>
      rw [upsert]
      split
      next same => simp [same]
      next other =>
        rw [List.map_cons, ih]
        have distinct : ¬ key = entry.1 := fun same => other same.symm
        by_cases member : key ∈ rest.map Prod.fst
        · rw [if_pos member, if_pos (by simp [member]), List.map_cons]
        · rw [if_neg member, if_neg (by simpa [distinct] using member), List.map_cons,
            List.cons_append]

theorem upsert_of_notMem {key : κ} {held : List (κ × β)} (absent : key ∉ held.map Prod.fst)
    (fresh : β) (update : β → β) : upsert key fresh update held = held ++ [(key, fresh)] := by
  induction held with
  | nil => rfl
  | cons entry rest ih =>
      rw [List.map_cons, List.mem_cons, not_or] at absent
      rw [upsert, if_neg (Ne.symm absent.1), ih absent.2, List.cons_append]

theorem lookup_upsert_self (key : κ) (fresh : β) (update : β → β) (held : List (κ × β)) :
    (upsert key fresh update held).lookup key = some ((held.lookup key).elim fresh update) := by
  induction held with
  | nil => simp [upsert]
  | cons entry rest ih =>
      rw [upsert]
      split
      next same =>
        subst same
        rw [List.lookup_cons, List.lookup_cons, beq_self_eq_true]
        rfl
      next other =>
        have distinct : (key == entry.1) = false := beq_false_of_ne fun same => other same.symm
        rw [List.lookup_cons, List.lookup_cons, distinct]
        exact ih

theorem lookup_upsert_of_ne {key other : κ} (distinct : other ≠ key) (fresh : β) (update : β → β)
    (held : List (κ × β)) :
    (upsert key fresh update held).lookup other = held.lookup other := by
  induction held with
  | nil => rw [upsert, List.lookup_cons, beq_false_of_ne distinct]
  | cons entry rest ih =>
      rw [upsert]
      split
      next same =>
        have apart : (other == entry.1) = false := by simpa [same] using distinct
        rw [List.lookup_cons, List.lookup_cons, apart]
      next => rw [List.lookup_cons, List.lookup_cons, ih]

/-- With distinct keys, looking up finds exactly the entries. -/
theorem lookup_eq_some_iff {held : List (κ × β)} (nodup : (held.map Prod.fst).Nodup) {key : κ}
    {value : β} : held.lookup key = some value ↔ (key, value) ∈ held := by
  induction held with
  | nil => simp
  | cons entry rest ih =>
      rw [List.map_cons, List.nodup_cons] at nodup
      rw [List.lookup_cons, List.mem_cons]
      by_cases same : key = entry.1
      · have absent : (key, value) ∉ rest := fun member =>
          nodup.1 (same ▸ List.mem_map_of_mem member)
        simp [same ▸ absent, same, Prod.ext_iff, eq_comm]
      · have apart : (key == entry.1) = false := by simpa using same
        rw [apart]
        simp [ih nodup.2, Prod.ext_iff, same]

/-! ## First appearances -/

/-- The keys of a list in the order of their first appearance. -/
def firsts (keys : List κ) : List κ := keys.eraseDups

@[simp] theorem mem_firsts {keys : List κ} {key : κ} : key ∈ firsts keys ↔ key ∈ keys :=
  List.mem_eraseDups

theorem firsts_cons (key : κ) (rest : List κ) :
    firsts (key :: rest) = key :: firsts (rest.filter fun other => !decide (other = key)) :=
  List.eraseDups_cons

theorem firsts_snoc (keys : List κ) (key : κ) :
    firsts (keys ++ [key]) = if key ∈ firsts keys then firsts keys else firsts keys ++ [key] := by
  simp only [mem_firsts]
  rw [firsts, List.eraseDups_append]
  by_cases member : key ∈ keys
  · simp [List.removeAll, member, firsts]
  · simp [List.removeAll, member, List.eraseDups_cons, firsts]

theorem find?_firsts (p : κ → Bool) (keys : List κ) : (firsts keys).find? p = keys.find? p := by
  induction size : keys.length using Nat.strong_induction_on generalizing keys with
  | _ size ih =>
      cases keys with
      | nil => rfl
      | cons key rest =>
          rw [firsts_cons, List.find?_cons, List.find?_cons]
          cases found : p key with
          | true => rfl
          | false =>
              have shorter := List.length_filter_le (fun other => !decide (other = key)) rest
              rw [List.length_cons] at size
              dsimp only
              rw [ih _ (by omega) _ rfl, List.find?_filter]
              congr 1
              funext other
              by_cases same : other = key
              · simp [same, found]
              · simp [same]

theorem nodup_firsts (keys : List κ) : (firsts keys).Nodup := by
  induction keys using List.reverseRecOn with
  | nil => exact .nil
  | append_singleton keys key ih =>
      rw [firsts_snoc]
      split
      next => exact ih
      next absent =>
        rw [List.nodup_append]
        refine ⟨ih, List.nodup_singleton key, ?_⟩
        intro other member last found same
        rw [List.mem_singleton] at found
        exact absent (found ▸ same ▸ member)

theorem firsts_perm {keys keys' : List κ} (perm : keys.Perm keys') :
    (firsts keys).Perm (firsts keys') := by
  apply (List.perm_ext_iff_of_nodup (nodup_firsts keys) (nodup_firsts keys')).mpr
  intro key
  rw [mem_firsts, mem_firsts]
  exact perm.mem_iff

/-- The first of two keys that comes up in a list. -/
def lead (first second : κ) (keys : List κ) : Option κ :=
  keys.find? fun key => key = first ∨ key = second

theorem lead_comm (first second : κ) (keys : List κ) :
    lead first second keys = lead second first keys := by
  rw [lead, lead]
  congr 1
  funext key
  simp [or_comm]

theorem lead_eq {first second found : κ} {keys : List κ}
    (led : lead first second keys = some found) : found = first ∨ found = second := by
  simpa using List.find?_some led

/-- Over a run of lists, the first list with either of the keys decides. -/
theorem lead_flatten (first second : κ) (lists : List (List κ)) :
    lead first second lists.flatten = lists.findSome? (lead first second) :=
  List.find?_flatten

/-- The order of two members of a list without repetitions. -/
theorem pair_sublist_iff {first second : κ} (distinct : first ≠ second) {keys : List κ}
    (nodup : keys.Nodup) (member : second ∈ keys) :
    [first, second] <+ keys ↔ lead first second keys = some first := by
  induction keys with
  | nil => simp at member
  | cons key rest ih =>
      rw [List.nodup_cons] at nodup
      rw [List.cons_sublist_cons', List.singleton_sublist, lead, List.find?_cons]
      by_cases isFirst : key = first
      · subst isFirst
        have later : second ∈ rest := by simpa [Ne.symm distinct] using member
        simp [later]
      · by_cases isSecond : key = second
        · subst isSecond
          have absent : ¬ [first, key] <+ rest := fun sub => nodup.1 (sub.subset (by simp))
          have decided : decide (key = first ∨ key = key) = true := by simp
          rw [decided]
          simp [absent, Ne.symm isFirst, isFirst]
        · have later : second ∈ rest := by simpa [Ne.symm isSecond] using member
          have undecided : decide (key = first ∨ key = second) = false := by
            simp [isFirst, isSecond]
          rw [undecided, ih nodup.2 later, lead]
          simp [Ne.symm isFirst]

/-- The order in which two keys first appear. -/
theorem pair_sublist_firsts_iff {first second : κ} (distinct : first ≠ second) {keys : List κ}
    (member : second ∈ keys) :
    [first, second] <+ firsts keys ↔ lead first second keys = some first := by
  rw [pair_sublist_iff distinct (nodup_firsts keys) (mem_firsts.mpr member), lead, find?_firsts,
    lead]

/-! ## Runs -/

section Run

variable (key : γ → κ) (start : γ → β) (add : β → γ → β)

/-- Put the items one after the other under their keys. -/
def gather (items : List γ) : List (κ × β) :=
  items.foldl
    (fun held item => upsert (key item) (start item) (fun value => add value item) held) []

omit [DecidableEq κ] in
/-- What items make, one after the other. -/
def collapse : List γ → Option β
  | [] => none
  | item :: items => some (items.foldl add (start item))

omit [DecidableEq κ] in
theorem collapse_eq_none_iff (items : List γ) : collapse start add items = none ↔ items = [] := by
  cases items <;> simp [collapse]

omit [DecidableEq κ] in
theorem collapse_snoc (items : List γ) (item : γ) :
    collapse start add (items ++ [item]) =
      some ((collapse start add items).elim (start item) fun value => add value item) := by
  cases items with
  | nil => rfl
  | cons first rest => simp [collapse, List.foldl_append]

theorem gather_snoc (items : List γ) (item : γ) :
    gather key start add (items ++ [item]) =
      upsert (key item) (start item) (fun value => add value item) (gather key start add items) := by
  rw [gather, List.foldl_append]
  rfl

theorem keys_gather (items : List γ) :
    (gather key start add items).map Prod.fst = firsts (items.map key) := by
  induction items using List.reverseRecOn with
  | nil => rfl
  | append_singleton items item ih =>
      rw [gather_snoc, keys_upsert, ih, List.map_append, List.map_singleton, firsts_snoc]

theorem nodup_keys (items : List γ) : ((gather key start add items).map Prod.fst).Nodup := by
  rw [keys_gather]
  exact nodup_firsts _

theorem lookup_gather (items : List γ) (wanted : κ) :
    (gather key start add items).lookup wanted =
      collapse start add (items.filter fun item => key item = wanted) := by
  induction items using List.reverseRecOn with
  | nil => rfl
  | append_singleton items item ih =>
      rw [gather_snoc, List.filter_append]
      by_cases same : key item = wanted
      · subst same
        rw [lookup_upsert_self, ih, List.filter_singleton]
        simp [collapse_snoc]
      · rw [lookup_upsert_of_ne (Ne.symm same), ih, List.filter_singleton]
        simp [same]

/-- Items of distinct keys keep to themselves. -/
theorem gather_of_nodup {items : List γ} (distinct : (items.map key).Nodup) :
    gather key start add items = items.map fun item => (key item, start item) := by
  induction items using List.reverseRecOn with
  | nil => rfl
  | append_singleton items item ih =>
      rw [List.map_append, List.map_singleton, ← List.concat_eq_append, List.nodup_concat]
        at distinct
      have absent : key item ∉ (gather key start add items).map Prod.fst := by
        rw [keys_gather, mem_firsts]
        exact distinct.1
      rw [gather_snoc, upsert_of_notMem absent, ih distinct.2, List.map_append, List.map_singleton]

omit [DecidableEq κ] in
theorem collapse_map {δ : Type} (image : δ → γ) (items : List δ) :
    collapse start add (items.map image) =
      collapse (fun item => start (image item)) (fun value item => add value (image item)) items := by
  cases items with
  | nil => rfl
  | cons item items => rw [List.map_cons, collapse, List.foldl_map, collapse]

/-- Collecting images in a list. -/
theorem collapse_snoc_image {δ : Type} (image : γ → δ) {items : List γ} {made : List δ}
    (collapsed : collapse (fun item => [image item]) (fun made item => made ++ [image item]) items =
      some made) : made = items.map image := by
  cases items with
  | nil => simp [collapse] at collapsed
  | cons item items =>
      rw [collapse, Option.some.injEq, List.foldl_append_eq_append] at collapsed
      rw [← collapsed, List.map_cons, List.singleton_append, ← List.flatMap_def,
        List.map_eq_flatMap]

/-- The entries of a run: one for each key, with what the items of that key make. -/
theorem mem_gather_iff (items : List γ) (wanted : κ) (value : β) :
    (wanted, value) ∈ gather key start add items ↔
      collapse start add (items.filter fun item => key item = wanted) = some value := by
  rw [← lookup_gather, lookup_eq_some_iff (nodup_keys key start add items)]

/-- The items of the keys, key by key, are the items. -/
theorem flatMap_filter_perm (items : List γ) :
    ((firsts (items.map key)).flatMap fun wanted => items.filter fun item => key item = wanted).Perm
      items := by
  induction size : items.length using Nat.strong_induction_on generalizing items with
  | _ size ih =>
      cases items with
      | nil => exact .nil
      | cons first rest =>
          have shorter := List.length_filter_le (fun item => !decide (key item = key first)) rest
          rw [List.length_cons] at size
          have others := ih _ (by omega) (rest.filter fun item => !decide (key item = key first)) rfl
          rw [List.map_cons, firsts_cons, List.flatMap_cons, List.filter_map]
          have split := List.filter_append_perm (fun item => decide (key item = key first))
            (first :: rest)
          refine List.Perm.trans (List.Perm.append_left _ ?_) split
          rw [List.filter_cons_of_neg (p := fun item => !decide (key item = key first)) (by simp)]
          refine List.Perm.trans ?_ others
          apply List.Perm.of_eq
          apply List.flatMap_congr
          intro wanted member
          rw [mem_firsts, List.mem_map] at member
          obtain ⟨item, inRest, rfl⟩ := member
          have apart : ¬ key item = key first := by
            simpa using (List.mem_filter.mp inRest).2
          rw [List.filter_cons_of_neg (by simpa [eq_comm] using apart), List.filter_filter]
          apply List.filter_congr
          intro other _
          by_cases same : key other = key item
          · simp [same, apart]
          · simp [same]

end Run

end AiCoreStack.Foundation.Gather
