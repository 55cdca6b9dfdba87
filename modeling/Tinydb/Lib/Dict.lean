import Mathlib.Data.List.Nodup
import Mathlib.Data.List.Induction

/-! Finite maps that remember the order in which their keys were first inserted.

Assigning to a present key replaces its value in place, so iteration visits the
keys by first assignment and yields the value assigned last. The results below
say what a map built by a sequence of assignments holds, and in which order.
-/

namespace Tinydb.Lib

open List

structure Dict (κ ν : Type) where
  items : List (κ × ν)
  distinct : (items.map Prod.fst).Nodup

namespace Dict

variable {κ ν : Type}

def empty : Dict κ ν := ⟨[], nodup_nil⟩

def keys (d : Dict κ ν) : List κ := d.items.map Prod.fst

@[simp] theorem keys_empty : (empty : Dict κ ν).keys = [] := rfl

variable [DecidableEq κ] {d : Dict κ ν} {k : κ} {v : ν} {writes early late : List (κ × ν)} {common : κ}

def get? (d : Dict κ ν) (k : κ) : Option ν := (d.items.find? (·.1 = k)).map Prod.snd

/-- Replace the value of `k`, leaving every key where it is. -/
def replace (items : List (κ × ν)) (k : κ) (v : ν) : List (κ × ν) :=
  items.map fun entry => if entry.1 = k then (k, v) else entry

theorem replace_keys (items : List (κ × ν)) (k : κ) (v : ν) :
    (replace items k v).map Prod.fst = items.map Prod.fst := by
  rw [replace, map_map]
  refine map_congr_left fun entry _ => ?_
  by_cases same : entry.1 = k <;> simp [same]

def set (d : Dict κ ν) (k : κ) (v : ν) : Dict κ ν :=
  if seen : k ∈ d.keys then
    ⟨replace d.items k v, by rw [replace_keys]; exact d.distinct⟩
  else
    ⟨d.items ++ [(k, v)], by
      rw [map_append, nodup_append]
      refine ⟨d.distinct, by simp, ?_⟩
      rintro a member b new rfl
      simp only [map_cons, map_nil, mem_singleton] at new
      exact seen (new ▸ member)⟩

def setdefault (d : Dict κ ν) (k : κ) (v : ν) : Dict κ ν :=
  if k ∈ d.keys then d else d.set k v

def erase (d : Dict κ ν) (k : κ) : Dict κ ν :=
  ⟨d.items.filter (·.1 ≠ k), d.distinct.sublist (filter_sublist.map Prod.fst)⟩

theorem items_set_of_mem (v : ν) (seen : k ∈ d.keys) : (d.set k v).items = replace d.items k v :=
    by rw [set, dif_pos seen]

theorem items_set_of_not_mem (v : ν) (new : k ∉ d.keys) :
    (d.set k v).items = d.items ++ [(k, v)] := by rw [set, dif_neg new]

theorem keys_set_of_mem (v : ν) (seen : k ∈ d.keys) : (d.set k v).keys = d.keys := by
  rw [keys, items_set_of_mem v seen, replace_keys, keys]

theorem keys_set_of_not_mem (v : ν) (new : k ∉ d.keys) : (d.set k v).keys = d.keys ++ [k] := by
  simp [keys, items_set_of_not_mem v new]

@[simp] theorem mem_keys_set (d : Dict κ ν) (k j : κ) (v : ν) : j ∈ (d.set k v).keys ↔ j = k ∨ j ∈ d.keys := by
  by_cases seen : k ∈ d.keys
  · rw [keys_set_of_mem v seen]
    exact ⟨.inr, fun either => either.elim (fun same => same ▸ seen) id⟩
  · simp [keys_set_of_not_mem v seen, or_comm]

@[simp] theorem get?_empty (k : κ) : (empty : Dict κ ν).get? k = none := rfl

theorem get?_eq_none : d.get? k = none ↔ k ∉ d.keys := by
  simp only [get?, Option.map_eq_none_iff, find?_eq_none, decide_eq_true_eq, keys, mem_map,
    not_exists, not_and]

theorem mem_keys_iff : k ∈ d.keys ↔ ∃ v, d.get? k = some v := by
  rw [← Option.isSome_iff_exists, Option.isSome_iff_ne_none, Ne, get?_eq_none, not_not]

theorem find?_replace (items : List (κ × ν)) (k j : κ) (v : ν) : (replace items k v).find? (·.1 = j) =
      if j = k then (items.find? (·.1 = j)).map fun _ => (k, v) else items.find? (·.1 = j) := by
  induction items with
  | nil => simp [replace]
  | cons entry rest ih =>
    rw [replace] at ih ⊢
    rw [map_cons, find?_cons, find?_cons, ih]
    by_cases same : entry.1 = k
    · by_cases wanted : j = k
      · simp [same, wanted]
      · simp [same, wanted, Ne.symm wanted]
    · by_cases wanted : entry.1 = j
      · simp [wanted, show j ≠ k from wanted ▸ same]
      · simp [same, wanted]

theorem get?_set (d : Dict κ ν) (k j : κ) (v : ν) : (d.set k v).get? j = if j = k then some v else d.get? j := by
  by_cases seen : k ∈ d.keys
  · rw [get?, items_set_of_mem v seen, find?_replace]
    by_cases same : j = k
    · obtain ⟨w, holds⟩ := mem_keys_iff.mp seen
      subst same
      obtain ⟨entry, found, -⟩ := Option.map_eq_some_iff.mp holds
      simp [found]
    · simp [same, get?]
  · rw [get?, items_set_of_not_mem v seen, find?_append]
    by_cases same : j = k
    · subst same
      have absent : d.items.find? (·.1 = j) = none := by simpa [get?] using get?_eq_none.mpr seen
      simp [absent]
    · simp [same, Ne.symm same, get?]

theorem get?_setdefault (d : Dict κ ν) (k j : κ) (v : ν) :
    (d.setdefault k v).get? j = if j = k then some ((d.get? k).getD v) else d.get? j := by
  by_cases seen : k ∈ d.keys
  · rw [setdefault, if_pos seen]
    split
    next same =>
      obtain ⟨w, holds⟩ := mem_keys_iff.mp seen
      rw [same, holds, Option.getD_some]
    next => rfl
  · rw [setdefault, if_neg seen, get?_set, get?_eq_none.mpr seen, Option.getD_none]

theorem get?_of_mem (member : (k, v) ∈ d.items) : d.get? k = some v := by
  have go : ∀ items : List (κ × ν), (items.map Prod.fst).Nodup → (k, v) ∈ items →
      (items.find? (·.1 = k)).map Prod.snd = some v := by
    intro items
    induction items with
    | nil => intro _ member; cases member
    | cons entry rest ih =>
      intro distinct member
      obtain ⟨apart, distinct⟩ := nodup_cons.mp distinct
      rcases mem_cons.mp member with rfl | later
      · simp
      · have other : entry.1 ≠ k := fun same => apart (same ▸ mem_map_of_mem later)
        simpa [find?_cons, other] using ih distinct later
  exact go d.items d.distinct member

theorem mem_of_get? (found : d.get? k = some v) : (k, v) ∈ d.items := by
  obtain ⟨⟨j, w⟩, at', rfl⟩ := Option.map_eq_some_iff.mp found
  have same : j = k := by simpa using find?_some at'
  exact same ▸ mem_of_find?_eq_some at'

theorem get?_erase (d : Dict κ ν) (k j : κ) : (d.erase k).get? j = if j = k then none else d.get? j := by
  rw [get?, erase, find?_filter]
  split_ifs with same
  · rw [Option.map_eq_none_iff, find?_eq_none]
    simp [same]
  · rw [get?]
    refine congrArg _ (congrArg (List.find? · d.items) (funext fun entry => ?_))
    by_cases here : entry.1 = j
    · simp [here, same]
    · simp [here]

@[simp] theorem mem_keys_erase (d : Dict κ ν) (k j : κ) : j ∈ (d.erase k).keys ↔ j ≠ k ∧ j ∈ d.keys := by
  simp only [mem_keys_iff, get?_erase]
  by_cases same : j = k <;> simp [same]

/-- `move_to_end` of a key that is there. -/
def moveToEnd (d : Dict κ ν) (k : κ) : Dict κ ν :=
  match d.get? k with
  | some v => (d.erase k).set k v
  | none => d

theorem get?_moveToEnd (d : Dict κ ν) (k j : κ) : (d.moveToEnd k).get? j = d.get? j := by
  rw [moveToEnd]
  cases found : d.get? k with
  | none => rfl
  | some v =>
    rw [get?_set, get?_erase]
    split_ifs with same
    · rw [same, found]
    · rfl

@[simp] theorem mem_keys_moveToEnd (d : Dict κ ν) (k j : κ) : j ∈ (d.moveToEnd k).keys ↔ j ∈ d.keys := by
  simp only [mem_keys_iff, get?_moveToEnd]

theorem keys_moveToEnd_perm (d : Dict κ ν) (k : κ) : (d.moveToEnd k).keys.Perm d.keys :=
  (perm_ext_iff_of_nodup (d.moveToEnd k).distinct d.distinct).mpr fun j => mem_keys_moveToEnd d k j

omit [DecidableEq κ] in
theorem length_keys (d : Dict κ ν) : d.keys.length = d.items.length := length_map _

/-- `popitem(last=False)`: what is left without the first entry. -/
def rest (d : Dict κ ν) : Dict κ ν := ⟨d.items.tail, d.distinct.sublist ((tail_sublist _).map Prod.fst)⟩

theorem get?_rest (first : d.items.head? = some (k, v)) (j : κ) : d.rest.get? j = if j = k then none else d.get? j := by
  obtain ⟨items, distinct⟩ := d
  cases items with
  | nil => cases first
  | cons entry others =>
    cases first
    obtain ⟨apart, -⟩ := nodup_cons.mp distinct
    simp only [get?, rest, tail_cons, find?_cons]
    by_cases same : j = k
    · rw [if_pos same, Option.map_eq_none_iff, find?_eq_none]
      intro other member here
      exact apart (mem_map.mpr ⟨other, member, by simpa [same] using here⟩)
    · simp [same, Ne.symm same]

theorem mem_keys_rest (first : d.items.head? = some (k, v)) (j : κ) : j ∈ d.rest.keys ↔ j ≠ k ∧ j ∈ d.keys := by
  simp only [mem_keys_iff, get?_rest first]
  by_cases same : j = k <;> simp [same]

/-- The map after the assignments `writes`, in order. -/
def ofWrites (writes : List (κ × ν)) : Dict κ ν := writes.foldl (fun d write => d.set write.1 write.2) empty

/-- The map after the conditional assignments `writes`, in order. -/
def ofDefaults (writes : List (κ × ν)) : Dict κ ν := writes.foldl (fun d write => d.setdefault write.1 write.2) empty

@[simp] theorem ofWrites_nil : ofWrites ([] : List (κ × ν)) = empty := rfl

@[simp] theorem ofDefaults_nil : ofDefaults ([] : List (κ × ν)) = empty := rfl

theorem ofWrites_concat (writes : List (κ × ν)) (k : κ) (v : ν) :
    ofWrites (writes ++ [(k, v)]) = (ofWrites writes).set k v := by simp [ofWrites]

theorem ofDefaults_concat (writes : List (κ × ν)) (k : κ) (v : ν) :
    ofDefaults (writes ++ [(k, v)]) = (ofDefaults writes).setdefault k v := by simp [ofDefaults]

theorem mem_keys_ofWrites : k ∈ (ofWrites writes).keys ↔ k ∈ writes.map Prod.fst := by
  induction writes using reverseRecOn with
  | nil => simp
  | append_singleton writes write ih =>
    rw [ofWrites_concat, mem_keys_set, ih]
    simp [or_comm]

theorem get?_ofWrites (writes : List (κ × ν)) (k : κ) :
    (ofWrites writes).get? k = (writes.reverse.find? (·.1 = k)).map Prod.snd := by
  induction writes using reverseRecOn with
  | nil => rfl
  | append_singleton writes write ih =>
    rw [ofWrites_concat, get?_set, ih, reverse_concat, find?_cons]
    by_cases same : write.1 = k
    · simp [same]
    · simp [same, Ne.symm same]

theorem get?_ofWrites_of_nodup (distinct : (writes.map Prod.fst).Nodup) :
    (ofWrites writes).get? k = some v ↔ (k, v) ∈ writes := by
  induction writes using reverseRecOn with
  | nil => simp
  | append_singleton writes write ih =>
    rw [map_append, nodup_append] at distinct
    obtain ⟨early, -, apart⟩ := distinct
    rw [ofWrites_concat, get?_set, mem_append, mem_singleton]
    by_cases same : k = write.1
    · rw [if_pos same]
      have absent : (k, v) ∉ writes := fun among =>
        apart k (mem_map_of_mem among) write.1 (by simp) same
      rw [or_iff_right absent, Option.some.injEq, Prod.ext_iff, eq_comm (a := v)]
      exact (and_iff_right same).symm
    · rw [if_neg same, ih early]
      simp [Prod.ext_iff, same]

theorem mem_of_mem_items_ofWrites {entry : κ × ν} (member : entry ∈ (ofWrites writes).items) : entry ∈ writes := by
  have found := get?_of_mem (k := entry.1) (v := entry.2) member
  rw [get?_ofWrites] at found
  obtain ⟨write, last, value⟩ := Option.map_eq_some_iff.mp found
  have key : write.1 = entry.1 := by simpa using find?_some last
  have same : write = entry := Prod.ext key value
  exact same ▸ mem_reverse.mp (mem_of_find?_eq_some last)

theorem get?_ofDefaults (writes : List (κ × ν)) (k : κ) :
    (ofDefaults writes).get? k = (writes.find? (·.1 = k)).map Prod.snd := by
  induction writes using reverseRecOn with
  | nil => rfl
  | append_singleton writes write ih =>
    rw [ofDefaults_concat, get?_setdefault, find?_append]
    by_cases same : k = write.1
    · subst same
      rw [if_pos rfl, ih]
      cases writes.find? (·.1 = write.1) <;> simp
    · rw [if_neg same, ih]
      simp [Ne.symm same]

theorem keys_ofWrites_append (seen : ∀ write ∈ late, write.1 ∈ early.map Prod.fst) :
    (ofWrites (early ++ late)).keys = (ofWrites early).keys := by
  induction late using reverseRecOn with
  | nil => simp
  | append_singleton late write ih =>
    have before := ih fun other member => seen other (by simp [member])
    rw [← append_assoc, ofWrites_concat, keys_set_of_mem, before]
    rw [before, mem_keys_ofWrites]
    exact seen write (by simp)

theorem filter_items_ofWrites (keep : κ → Bool) (writes : List (κ × ν)) :
    (ofWrites writes).items.filter (fun entry => keep entry.1) =
      (ofWrites (writes.filter fun write => keep write.1)).items := by
  induction writes using reverseRecOn with
  | nil => rfl
  | append_singleton writes write ih =>
    obtain ⟨k, v⟩ := write
    have sameKeys : k ∈ (ofWrites (writes.filter fun write => keep write.1)).keys ↔
        keep k = true ∧ k ∈ (ofWrites writes).keys := by
      rw [mem_keys_ofWrites, mem_keys_ofWrites]
      simp only [mem_map, mem_filter, Prod.exists]
      constructor
      · rintro ⟨j, w, ⟨member, kept⟩, rfl⟩
        exact ⟨kept, _, w, member, rfl⟩
      · rintro ⟨kept, j, w, member, rfl⟩
        exact ⟨_, w, ⟨member, kept⟩, rfl⟩
    rw [ofWrites_concat, filter_append]
    by_cases seen : k ∈ (ofWrites writes).keys
    · rw [items_set_of_mem v seen]
      have stable : (replace (ofWrites writes).items k v).filter (fun entry => keep entry.1) =
          replace ((ofWrites writes).items.filter fun entry => keep entry.1) k v := by
        rw [replace, filter_map, replace]
        congr 1
        refine filter_congr fun entry _ => ?_
        by_cases same : entry.1 = k <;> simp [same]
      rw [stable, ih]
      by_cases kept : keep k = true
      · simp only [filter_cons, kept, if_true, filter_nil]
        rw [ofWrites_concat, items_set_of_mem v (sameKeys.mpr ⟨kept, seen⟩)]
      · have untouched : k ∉ (ofWrites (writes.filter fun write => keep write.1)).keys :=
          fun member => kept (sameKeys.mp member).1
        simp only [filter_cons, kept, Bool.false_eq_true, if_false, filter_nil, append_nil]
        rw [replace]
        refine (map_congr_left fun entry member => ?_).trans (map_id _)
        have other : entry.1 ≠ k := fun same => untouched (same ▸ mem_map_of_mem member)
        simp [other]
    · rw [items_set_of_not_mem v seen, filter_append, ih]
      by_cases kept : keep k = true
      · simp only [filter_cons, kept, if_true, filter_nil]
        rw [ofWrites_concat, items_set_of_not_mem v fun member => seen (sameKeys.mp member).2]
      · simp [kept]

theorem head?_items_ofWrites (first : κ × ν) (rest : List (κ × ν)) : (ofWrites (first :: rest)).items.head? =
      ((ofWrites (first :: rest)).get? first.1).map fun v => (first.1, v) := by
  have headKey : ((ofWrites (first :: rest)).keys).head? = some first.1 := by
    induction rest using reverseRecOn with
    | nil => simp [ofWrites, set, empty, keys]
    | append_singleton rest write ih =>
      rw [← cons_append, ofWrites_concat]
      by_cases seen : write.1 ∈ (ofWrites (first :: rest)).keys
      · rw [keys_set_of_mem _ seen, ih]
      · rw [keys_set_of_not_mem _ seen, head?_append, ih, Option.some_or]
  rw [keys, head?_map] at headKey
  obtain ⟨⟨k, v⟩, head, same⟩ := Option.map_eq_some_iff.mp headKey
  have found := get?_of_mem (mem_of_head? head)
  simp only at same
  subst same
  rw [found, head, Option.map_some]

theorem head?_items_run {key : κ} {values : List ν} {later : List (κ × ν)}
    (nonempty : values ≠ []) (apart : key ∉ later.map Prod.fst) :
    (ofWrites (values.map (fun value => (key, value)) ++ later)).items.head? =
      values.getLast?.map fun value => (key, value) := by
  obtain ⟨first, rest, rfl⟩ := exists_cons_of_ne_nil nonempty
  rw [map_cons, cons_append, head?_items_ofWrites, ← cons_append, ← map_cons, get?_ofWrites,
    reverse_append, find?_append]
  have silent : later.reverse.find? (·.1 = key) = none := by
    rw [find?_eq_none]
    intro write member same
    exact apart (mem_map.mpr ⟨write, mem_reverse.mp member, by simpa using same⟩)
  rw [silent, Option.none_or, ← map_reverse, find?_map, Option.map_map, Option.map_map]
  have all : ((first :: rest).reverse.find? ((fun write => decide (write.1 = key)) ∘ fun value => (key, value))) =
      (first :: rest).reverse.head? := by
    rw [← head?_filter, filter_eq_self.mpr (by simp)]
  rw [all, head?_reverse]
  rfl

theorem getLast?_items_ofWrites (new : k ∉ early.map Prod.fst)
    (seen : ∀ write ∈ late, write.1 = k ∨ write.1 ∈ early.map Prod.fst) :
    (ofWrites (early ++ (k, v) :: late)).items.getLast? =
      ((ofWrites (early ++ (k, v) :: late)).get? k).map fun w => (k, w) := by
  have lastKey : (ofWrites (early ++ (k, v) :: late)).keys.getLast? = some k := by
    have grouped : early ++ (k, v) :: late = (early ++ [(k, v)]) ++ late := by simp
    rw [grouped, keys_ofWrites_append, ofWrites_concat, keys_set_of_not_mem]
    · simp
    · rwa [mem_keys_ofWrites]
    · intro write member
      rcases seen write member with same | old
      · simp [same]
      · rw [map_append]
        exact mem_append_left _ old
  rw [keys, getLast?_map] at lastKey
  obtain ⟨⟨j, w⟩, last, same⟩ := Option.map_eq_some_iff.mp lastKey
  have found := get?_of_mem (mem_of_getLast? last)
  simp only at same
  subst same
  rw [found, last, Option.map_some]

/-- Assignments in which every key other than `common` is used in one uninterrupted run. -/
inductive Blocks (common : κ) : List (κ × ν) → Prop
  | nil : Blocks common []
  | again {writes : List (κ × ν)} (v : ν) : Blocks common writes → Blocks common (writes ++ [(common, v)])
  | fresh {writes : List (κ × ν)} {k : κ} (values : List ν) : Blocks common writes → k ≠ common →
      k ∉ writes.map Prod.fst → Blocks common (writes ++ values.map fun v => (k, v))

/-- Some key other than `common` is assigned after `common` was. -/
def Overtaken (common : κ) (writes : List (κ × ν)) : Prop :=
  [false, true].Sublist (writes.map fun write => decide (write.1 ≠ common))

instance (common : κ) (writes : List (κ × ν)) : Decidable (Overtaken common writes) :=
  inferInstanceAs (Decidable (Sublist _ _))

theorem overtaken_again : Overtaken common (writes ++ [(common, v)]) ↔ Overtaken common writes := by
  simp only [Overtaken, map_append, map_cons, ne_eq, not_true_eq_false, decide_false, map_nil]
  rw [sublist_append_iff]
  constructor
  · rintro ⟨front, back, split, first, second⟩
    rcases sublist_singleton.mp second with rfl | rfl
    · rw [append_nil] at split
      rwa [split]
    · have := congrArg List.getLast? split
      simp at this
  · intro already
    exact ⟨[false, true], [], rfl, already, nil_sublist _⟩

theorem mem_of_overtaken (beyond : Overtaken common writes) : common ∈ writes.map Prod.fst := by
  have member : false ∈ writes.map fun write => decide (write.1 ≠ common) := beyond.subset (by simp)
  obtain ⟨write, inside, same⟩ := mem_map.mp member
  exact mem_map.mpr ⟨write, inside, by simpa using same⟩

theorem overtaken_concat {write : κ × ν} (other : write.1 ≠ common)
    (seen : common ∈ writes.map Prod.fst) : Overtaken common (writes ++ [write]) := by
  obtain ⟨first, inside, key⟩ := mem_map.mp seen
  have front : [false].Sublist (writes.map fun write => decide (write.1 ≠ common)) :=
    singleton_sublist.mpr (mem_map.mpr ⟨first, inside, by simp [key]⟩)
  rw [Overtaken, map_append]
  exact front.append (Sublist.refl [true] |>.trans (by simp [other]))

/-- Where the common key was overtaken, the last entry visited is the last assignment to another
key; otherwise it is the last assignment of all. -/
theorem Blocks.getLast?_items (blocks : Blocks common writes) : (ofWrites writes).items.getLast? =
      if Overtaken common writes then (writes.filter fun write => write.1 ≠ common).getLast? else writes.getLast? := by
  induction blocks with
  | nil => simp [ofWrites, empty]
  | @again writes v blocks ih =>
    by_cases seen : common ∈ writes.map Prod.fst
    · rw [ofWrites_concat, items_set_of_mem v (mem_keys_ofWrites.mpr seen), replace, getLast?_map, ih]
      by_cases beyond : Overtaken common writes
      · rw [if_pos beyond, if_pos (overtaken_again.mpr beyond)]
        simp only [filter_append, filter_cons, ne_eq, not_true_eq_false, decide_false,
          Bool.false_eq_true, if_false, filter_nil, append_nil]
        cases last : (writes.filter fun write => !decide (write.1 = common)).getLast? with
        | none => simp [last]
        | some entry =>
          have kept := of_mem_filter (mem_of_getLast? last)
          simp_all
      · rw [if_neg beyond, if_neg (mt overtaken_again.mp beyond), getLast?_concat]
        obtain ⟨front, entry, rfl⟩ := eq_nil_or_concat' writes |>.resolve_left (by rintro rfl; simp at seen)
        have common' : entry.1 = common := by
          by_contra other
          refine beyond (overtaken_concat other ?_)
          rw [map_append, mem_append] at seen
          exact seen.resolve_right (by simpa using Ne.symm other)
        simp [common']
    · rw [ofWrites_concat, items_set_of_not_mem v (mt mem_keys_ofWrites.mp seen), getLast?_concat,
        if_neg fun beyond => seen (mem_of_overtaken (overtaken_again.mp beyond)), getLast?_concat]
  | @fresh writes k values blocks other new ih =>
    cases values with
    | nil => simpa using ih
    | cons first rest =>
      rw [map_cons, getLast?_items_ofWrites new (by simp), get?_ofWrites]
      obtain ⟨front, last, split⟩ := eq_nil_or_concat' (first :: rest) |>.resolve_left (by simp)
      have whole : (k, first) :: rest.map (fun v => (k, v)) = front.map (fun v => (k, v)) ++ [(k, last)] := by
        rw [← map_cons (f := fun v => (k, v)), split]
        simp
      rw [whole]
      simp [← append_assoc, other]

end Dict

end Tinydb.Lib
