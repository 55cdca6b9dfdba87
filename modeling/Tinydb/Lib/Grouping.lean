import Mathlib.Data.List.Nodup
import Mathlib.Data.List.Induction
import Tinydb.Lib.Program

/-! Grouping in one pass.

A dictionary from keys to accumulators is filled item by item. The groups it stands
for are the keys with the items that went to them, and an accumulator is the fold of
its group. If the comparison of the keys is equality, the keys are the distinct ones in
the order of their first appearance, each with its items.
-/

namespace Tinydb.Lib

open List

variable {κ ι σ ε : Type} (same : κ → κ → Bool) (start : σ) (step : σ → ι → Except ε σ)

def upsert (key : κ) (item : ι) : List (κ × σ) → Except ε (List (κ × σ))
  | [] => do return [(key, ← step start item)]
  | (k, s) :: rest =>
    if same k key then do return (k, ← step s item) :: rest
    else do return (k, s) :: (← upsert key item rest)

def collect (keyOf : ι → Except ε (Option κ)) (items : List ι) : Except ε (List (κ × σ)) :=
  items.foldlM (fun groups item => do
    match ← keyOf item with
    | none => return groups
    | some key => upsert same start step key item groups) []

def enroll (key : κ) (item : ι) : List (κ × List ι) → List (κ × List ι)
  | [] => [(key, [item])]
  | (k, members) :: rest =>
    if same k key then (k, members ++ [item]) :: rest else (k, members) :: enroll key item rest

def gather (items : List (κ × ι)) : List (κ × List ι) :=
    items.foldl (fun groups item => enroll same item.1 item.2 groups) []

def keyed (keyOf : ι → Option κ) (items : List ι) : List (κ × ι) :=
    items.filterMap fun item => (keyOf item).map (·, item)

def Folds (groups : List (κ × List ι)) (sums : List (κ × σ)) : Prop :=
  Forall₂ (fun group sum => group.1 = sum.1 ∧ group.2.foldlM step start = .ok sum.2) groups sums

variable {same : κ → κ → Bool} {start : σ} {step : σ → ι → Except ε σ} {item : ι} {α β : Type} {R : α → β → Prop}
  {items : List α} {γ : Type} {out : List γ} {groups : List (κ × List ι)} {sums sums' : List (κ × σ)} {key : κ}
  {keyOf : ι → Except ε (Option κ)}

theorem foldlM_concat_eq_ok {members : List ι} {s : σ} :
    (members ++ [item]).foldlM step start = .ok s ↔ ∃ mid, members.foldlM step start = .ok mid ∧
    step mid item = .ok s := by
  rw [foldlM_append, bind_ok_iff]
  simp only [foldlM_cons, foldlM_nil, bind_pure]

theorem exists_forall₂ (each : ∀ a ∈ items, ∃ b, R a b) : ∃ out, Forall₂ R items out := by
  induction items with
  | nil => exact ⟨[], .nil⟩
  | cons a items ih =>
    obtain ⟨⟨b, here⟩, later⟩ := forall_mem_cons.mp each
    obtain ⟨out, rest⟩ := ih later
    exact ⟨b :: out, .cons here rest⟩

theorem exists_of_forall₂ {out : List β} (related : Forall₂ R items out) : ∀ a ∈ items, ∃ b, R a b := by
  induction related with
  | nil => exact forall_mem_nil _
  | cons here _ ih => exact forall_mem_cons.mpr ⟨⟨_, here⟩, ih⟩

theorem forall₂_through {S : γ → β → Prop} {T : α → γ → Prop} {bs : List β} {cs : List γ} (first : Forall₂ R items bs)
    (second : Forall₂ S cs bs) (meet : ∀ a b c, R a b → S c b → T a c) : Forall₂ T items cs := by
  induction first generalizing cs with
  | nil => exact forall₂_nil_right_iff.mp second ▸ .nil
  | cons here _ ih =>
    obtain ⟨c, rest, there, later, rfl⟩ := forall₂_cons_right_iff.mp second
    exact .cons (meet _ _ _ here there) (ih later)

theorem forall₂_agree {S : α → β → Prop} {bs cs : List β}
    (agree : ∀ a ∈ items, ∀ b c, R a b → S a c → b = c) (first : Forall₂ R items bs) (second : Forall₂ S items cs) :
    bs = cs := by
  induction first generalizing cs with
  | nil => exact (forall₂_nil_left_iff.mp second).symm
  | cons here _ ih =>
    obtain ⟨c, rest, there, later, rfl⟩ := forall₂_cons_left_iff.mp second
    obtain ⟨same, others⟩ := forall_mem_cons.mp agree
    rw [same _ _ here there, ih others later]

theorem mapM_zip_iff {f : α × β → Except ε γ} : (∃ mid, Forall₂ R items mid ∧ (items.zip mid).mapM f = .ok out) ↔
      Forall₂ (fun a c => ∃ b, R a b ∧ f (a, b) = .ok c) items out := by
  induction items generalizing out with
  | nil => simp [pure, Except.pure, eq_comm]
  | cons a items ih =>
    rw [forall₂_cons_left_iff]
    constructor
    · rintro ⟨_, related, mapped⟩
      obtain ⟨b, mid, first, later, rfl⟩ := forall₂_cons_left_iff.mp related
      rw [zip_cons_cons, mapM_cons] at mapped
      obtain ⟨c, here, others⟩ := bind_ok_iff.mp mapped
      obtain ⟨rest, there, rfl⟩ := bind_return_iff.mp others
      exact ⟨c, rest, ⟨b, first, here⟩, ih.mp ⟨mid, later, there⟩, rfl⟩
    · rintro ⟨c, rest, ⟨b, first, here⟩, later, rfl⟩
      obtain ⟨mid, related, mapped⟩ := ih.mpr later
      exact ⟨b :: mid, .cons first related, by rw [zip_cons_cons, mapM_cons, here, mapped]; rfl⟩

theorem mapM_related_iff {f : β → Except ε γ} : (∃ mid, Forall₂ R items mid ∧ mid.mapM f = .ok out) ↔
      Forall₂ (fun a c => ∃ b, R a b ∧ f b = .ok c) items out := by
  refine Iff.trans (exists_congr fun mid => and_congr_right fun related => ?_) (mapM_zip_iff (f := f ∘ Prod.snd))
  rw [← mapM_map, map_snd_zip (Nat.le_of_eq related.length_eq.symm)]

theorem Folds.enroll (folds : Folds start step groups sums)
    (stepped : upsert same start step key item sums = .ok sums') :
    Folds start step (enroll same key item groups) sums' := by
  induction folds generalizing sums' with
  | nil =>
    obtain ⟨s, first, rfl⟩ := bind_return_iff.mp stepped
    have folded : ([] ++ [item]).foldlM step start = .ok s := foldlM_concat_eq_ok.mpr ⟨start, rfl, first⟩
    exact .cons ⟨rfl, folded⟩ .nil
  | @cons group sum groups sums here later ih =>
    rw [upsert, ← here.1] at stepped
    rw [Lib.enroll]
    split_ifs at stepped ⊢
    · obtain ⟨s, next, rfl⟩ := bind_return_iff.mp stepped
      exact .cons ⟨rfl, foldlM_concat_eq_ok.mpr ⟨sum.2, here.2, next⟩⟩ later
    · obtain ⟨rest, next, rfl⟩ := bind_return_iff.mp stepped
      exact .cons ⟨rfl, here.2⟩ (ih next)

theorem Folds.of_enroll (folds : Folds start step (Lib.enroll same key item groups) sums') :
    ∃ sums, Folds start step groups sums ∧ upsert same start step key item sums = .ok sums' := by
  induction groups generalizing sums' with
  | nil =>
    obtain ⟨sum, rest, ⟨isKey, folded⟩, none, rfl⟩ := forall₂_cons_left_iff.mp folds
    obtain rfl := forall₂_nil_left_iff.mp none
    have alone : ([] ++ [item]).foldlM step start = .ok sum.2 := folded
    obtain ⟨mid, first, stepped⟩ := foldlM_concat_eq_ok.mp alone
    cases first
    exact ⟨[], .nil, by rw [upsert, stepped, show key = sum.1 from isKey]; rfl⟩
  | cons group groups ih =>
    rw [Lib.enroll] at folds
    split_ifs at folds with found
    · obtain ⟨sum, rest, ⟨isKey, folded⟩, later, rfl⟩ := forall₂_cons_left_iff.mp folds
      obtain ⟨mid, first, stepped⟩ := foldlM_concat_eq_ok.mp folded
      exact ⟨(group.1, mid) :: rest, .cons ⟨rfl, first⟩ later, by rw [upsert, if_pos found, stepped, isKey]; rfl⟩
    · obtain ⟨sum, rest, ⟨isKey, folded⟩, later, rfl⟩ := forall₂_cons_left_iff.mp folds
      obtain ⟨sums, before, stepped⟩ := ih later
      exact ⟨(group.1, sum.2) :: sums, .cons ⟨rfl, folded⟩ before, by rw [upsert, if_neg found, stepped, isKey]; rfl⟩

theorem gather_concat (items : List (κ × ι)) (item : κ × ι) :
    gather same (items ++ [item]) = enroll same item.1 item.2 (gather same items) := by
  rw [gather, foldl_append]
  rfl

theorem collect_eq_ok_iff {key : ι → Option κ} {items : List ι} (known : ∀ item ∈ items, keyOf item = .ok (key item)) :
    collect same start step keyOf items = .ok sums ↔ Folds start step (gather same (keyed key items)) sums := by
  induction items using reverseRecOn generalizing sums with
  | nil => simp [collect, keyed, gather, Folds, pure, Except.pure, eq_comm]
  | append_singleton items item ih =>
    have before {sums : List (κ × σ)} := @ih sums fun item' among => known item' (mem_append_left _ among)
    rw [collect, foldlM_concat_eq_ok, known item (mem_append_right _ mem_cons_self), keyed, filterMap_append]
    simp only [ok_bind]
    cases isKey : key item with
    | none =>
      simp only [isKey, filterMap_cons, filterMap_nil, Option.map_none, append_nil]
      constructor
      · rintro ⟨mid, collected, made⟩
        exact Except.ok.inj made ▸ before.mp collected
      · exact fun folds => ⟨sums, before.mpr folds, rfl⟩
    | some k =>
      simp only [isKey, filterMap_cons, filterMap_nil, Option.map_some, gather_concat]
      constructor
      · rintro ⟨mid, collected, stepped⟩
        exact (before.mp collected).enroll stepped
      · intro folds
        obtain ⟨mid, folded, stepped⟩ := folds.of_enroll
        exact ⟨mid, before.mpr folded, stepped⟩

variable [DecidableEq κ] {keys : List κ}

/-- The distinct elements of a list, in the order of their first appearance. -/
def firsts (keys : List κ) : List κ := keys.eraseDups

@[simp] theorem mem_firsts : key ∈ firsts keys ↔ key ∈ keys := mem_eraseDups

theorem firsts_concat (keys : List κ) (key : κ) :
    firsts (keys ++ [key]) = if key ∈ keys then firsts keys else firsts keys ++ [key] := by
  rw [firsts, firsts, eraseDups_append, List.removeAll, filter_singleton]
  by_cases old : key ∈ keys
  · simp [old]
  · have new : List.elem key keys = false := by simpa using old
    rw [if_neg old, new]
    rfl

theorem firsts_replicate (n : ℕ) (key : κ) : firsts (replicate (n + 1) key) = [key] := by
  induction n with
  | zero => rfl
  | succ n ih => rw [replicate_succ', firsts_concat, if_pos (by simp), ih]

theorem nodup_firsts (keys : List κ) : (firsts keys).Nodup := by
  induction keys using reverseRecOn with
  | nil => exact nodup_nil
  | append_singleton keys key ih =>
    rw [firsts_concat]
    split_ifs with old
    · exact ih
    · rw [nodup_append]
      refine ⟨ih, nodup_singleton key, ?_⟩
      rintro a among b isKey rfl
      exact old (mem_singleton.mp isKey ▸ mem_firsts.mp among)

def membersOf (items : List (κ × ι)) (key : κ) : List ι := (items.filter (·.1 = key)).map Prod.snd

theorem membersOf_concat (items : List (κ × ι)) (item : κ × ι) (key : κ) :
    membersOf (items ++ [item]) key = if key = item.1 then membersOf items key ++ [item.2]
    else membersOf items key := by
  rw [membersOf, filter_append, map_append, filter_singleton]
  by_cases here : key = item.1
  · simp [here, membersOf]
  · simp [here, Ne.symm here, membersOf]

omit [DecidableEq κ] in
theorem map_fst_keyed (keyOf : ι → Option κ) (items : List ι) :
    (keyed keyOf items).map Prod.fst = items.filterMap keyOf := by
  rw [keyed, map_filterMap]
  refine filterMap_congr fun item _ => ?_
  cases keyOf item <;> rfl

theorem membersOf_keyed (keyOf : ι → Option κ) (items : List ι) (key : κ) :
    membersOf (keyed keyOf items) key = items.filter fun item => keyOf item = some key := by
  induction items with
  | nil => rfl
  | cons item items ih =>
    rw [membersOf, keyed] at ih ⊢
    rw [filterMap_cons, filter_cons]
    cases here : keyOf item with
    | none => simpa using ih
    | some k => by_cases isKey : k = key <;> simp [isKey, ih]

theorem enroll_map {members : κ → List ι} (distinct : keys.Nodup)
    (decides : ∀ k ∈ keys, same k key = decide (k = key)) :
    enroll same key item (keys.map fun k => (k, members k)) =
      if key ∈ keys then keys.map fun k => (k, if k = key then members k ++ [item] else members k)
      else (keys.map fun k => (k, members k)) ++ [(key, [item])] := by
  induction keys with
  | nil => rfl
  | cons k keys ih =>
    obtain ⟨here, later⟩ := forall_mem_cons.mp decides
    obtain ⟨absent, distinct⟩ := nodup_cons.mp distinct
    rw [map_cons, enroll, here, ih distinct later]
    by_cases isKey : k = key
    · subst isKey
      have others : keys.map (fun k' => (k', if k' = k then members k' ++ [item] else members k')) =
          keys.map fun k' => (k', members k') := map_congr_left fun k' among => by
        rw [if_neg fun isK : k' = k => absent (isK ▸ among)]
      simp [others]
    · rw [if_neg (by simpa using isKey)]
      by_cases among : key ∈ keys <;> simp [isKey, Ne.symm isKey, among]

theorem gather_eq {items : List (κ × ι)}
    (decides : ∀ a ∈ items.map Prod.fst, ∀ b ∈ items.map Prod.fst, same a b = decide (a = b)) :
    gather same items = (firsts (items.map Prod.fst)).map fun key => (key, membersOf items key) := by
  induction items using reverseRecOn with
  | nil => rfl
  | append_singleton items item ih =>
    have among {k : κ} (old : k ∈ items.map Prod.fst) : k ∈ (items ++ [item]).map Prod.fst := by
      rw [map_append]
      exact mem_append_left _ old
    have last : item.1 ∈ (items ++ [item]).map Prod.fst := by simp
    rw [gather_concat, ih fun a here b there => decides a (among here) b (among there),
      enroll_map (nodup_firsts _) fun k here => decides k (among (mem_firsts.mp here)) _ last]
    simp only [map_append, map_cons, map_nil, firsts_concat, mem_firsts, membersOf_concat]
    split_ifs with old
    · rfl
    · have none : membersOf items item.1 = [] := by
        rw [membersOf, map_eq_nil_iff, filter_eq_nil_iff]
        intro other here same
        exact old (of_decide_eq_true same ▸ mem_map_of_mem here)
      rw [map_append, map_cons, map_nil, if_pos rfl, none]
      refine congrArg (· ++ _) (map_congr_left fun k here => ?_)
      rw [if_neg fun isLast : k = item.1 => old (isLast ▸ mem_firsts.mp here)]

end Tinydb.Lib
