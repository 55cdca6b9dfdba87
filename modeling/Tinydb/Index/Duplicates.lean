import Tinydb.Index.IntRuns
import Tinydb.Index.Manager

/-! Keys that repeat in an index.

A search reads one leaf. A leaf is split in the middle, whatever keys are there, so
entries with one key can end up in two leaves, and then a search finds those in the
right one only. As long as every split cuts between different keys a search finds
all of them.
-/

namespace Tinydb.Index

open Lib Storage Heap List Program BTreeIndex

/-- Insertions that returned, none of which cut a leaf between two entries with the same key. -/
inductive CleanRun (start : BTreeIndex ℤ) : List (ℤ × Rid) → BTreeIndex ℤ → Prop where
  | nil : CleanRun start [] start
  | insert {pairs : List (ℤ × Rid)} {idx idx' : BTreeIndex ℤ} (pair : ℤ × Rid) (run : CleanRun start pairs idx)
    (valid : ValidPair pair)
    (cuts : ∀ leaf idx'', (leafFor intKey pair.1).Returns idx leaf idx'' → CutsApart pair.1 pair.2 leaf)
    (returned : (insert intKey pair.1 pair.2).Returns idx () idx') : CleanRun start (pairs ++ [pair]) idx'

variable {pg : Pager} {rootPid : ℕ} {pairs entries : List (ℤ × Rid)} {idx : BTreeIndex ℤ}

theorem CleanRun.built (fresh : JustAllocated pg rootPid) (run : CleanRun (new pg rootPid) pairs idx) :
    ∃ entries, Built pg idx entries ∧ entries.Perm pairs := by
  induction run with
  | nil => exact ⟨[], built_new fresh, Perm.refl _⟩
  | insert pair run valid cuts returned ih =>
    obtain ⟨entries, built, perm⟩ := ih
    refine ⟨_, (built.wp_insert valid cuts).returns returned, ?_⟩
    exact (place_perm entries pair.1 pair.2).trans ((perm.cons pair).trans (perm_append_singleton ..).symm)

section Contents

variable (X : Type) [Types.Runtime X]

/-- The entries of a tree of whole numbers as `BTree` keeps them. -/
def asBTree (entries : List (ℤ × Rid)) : BTree X := ⟨.int, entries.map fun e => ([.int e.1], e.2)⟩

theorem search_asBTree (key : ℤ) : (asBTree X entries).search [.int key] = (between entries key key).map Prod.snd := by
  rw [BTree.search, asBTree, filter_map, map_map]
  refine congrArg (map Prod.snd) (filter_congr fun e _ => ?_)
  show (decide (e.1 = key) && true) = (decide (key ≤ e.1) && decide (e.1 ≤ key))
  rw [Bool.and_true, ← Bool.decide_and]
  exact decide_eq_decide.mpr ⟨fun same => ⟨same.ge, same.le⟩, fun both => le_antisymm both.2 both.1⟩

theorem range_asBTree (lo hi : ℤ) :
    (asBTree X entries).range [.int lo] [.int hi] = (between entries lo hi).map Prod.snd := by
  have apart : BTree.raisesOrHolds .gt [(.int lo : Types.Value X)] [.int hi] = !decide (lo ≤ hi) := by
    show (!(decide (lo < hi) || decide (lo = hi))) = _
    rw [← Bool.decide_or]
    simp only [← le_iff_lt_or_eq]
  rw [BTree.range, apart, asBTree, filter_map, map_map]
  by_cases le : lo ≤ hi
  · rw [if_neg (by simpa using le)]
    refine congrArg (map Prod.snd) (filter_congr fun e _ => ?_)
    show (!decide (e.1 < lo) && (decide (e.1 < hi) || decide (e.1 = hi))) = (decide (lo ≤ e.1) && decide (e.1 ≤ hi))
    simp only [← Bool.decide_or, ← le_iff_lt_or_eq, ← decide_not, not_lt]
  · rw [if_pos (by simpa using le), between_eq_nil fun e _ => by omega]
    rfl

/-- In a run that cuts no leaf between equal keys the pages answer as `BTree` does. -/
theorem CleanRun.answers (fresh : JustAllocated pg rootPid) (run : CleanRun (new pg rootPid) pairs idx) :
    ∃ entries, entries.Perm pairs ∧ ∀ lo hi,
      (∃ idx', (search intKey lo).Returns idx ((asBTree X entries).search [.int lo]) idx') ∧
      ∃ idx', (range intKey lo hi true).Returns idx ((asBTree X entries).range [.int lo] [.int hi]) idx' := by
  obtain ⟨entries, built, perm⟩ := run.built fresh
  refine ⟨entries, perm, fun lo hi => ?_⟩
  rw [search_asBTree, range_asBTree]
  exact ⟨built.answers.search lo, built.answers.range lo hi⟩

end Contents

theorem between_perm (perm : entries.Perm pairs) (key : ℤ) :
    ((between entries key key).map Prod.snd).Perm ((pairs.filter fun p => decide (p.1 = key)).map Prod.snd) := by
  have same : between entries key key = entries.filter fun p => decide (p.1 = key) := by
    refine filter_congr fun p _ => ?_
    rw [Bool.eq_iff_iff, Bool.and_eq_true, decide_eq_true_iff, decide_eq_true_iff, decide_eq_true_iff]
    omega
  rw [same]
  exact (perm.filter _).map _

theorem Built.wp_delete (built : Built pg idx entries) (key : ℤ) (rid : Rid) :
    (delete intKey key rid).wp (fun _ idx' => Answers intKey idx' (entries.erase (key, rid)))
    (fun _ _ => False) idx := by
  obtain ⟨nodes, height, root, items, rooted, rfl, -, -⟩ := built
  have weaker : Rooted intKey ⟨63, 136⟩ idx nodes height root items := rooted.weaken (by decide) (by decide)
  have keeps (below : 0 < height) (leaf : List (ℤ × Rid)) (next : ℕ)
    (path : leafOn nodes key idx.fuel root = some (leaf, next))
      (among : (key, rid) ∈ leaf) : MIN_LEAF_ENTRIES ≤ (leaf.erase (key, rid)).length := by
    have least : 120 ≤ leaf.length := (rooted.site.holds.leafOn_ok below path).2.2
    rw [length_erase_of_mem among, MIN_LEAF_ENTRIES, ORDER]
    omega
  exact (weaker.wp_delete (by decide) keeps).mono (fun _ _ holds => holds.answers) fun _ _ => id

/-- In every run that cuts no leaf between equal keys, a search finds all the rids of a key, and all but one after that
one was deleted. -/
theorem duplicates_found (fresh : JustAllocated pg rootPid) (run : CleanRun (new pg rootPid) pairs idx) :
    (∀ key, ∃ rids idx', (search intKey key).Returns idx rids idx' ∧
      rids.Perm ((pairs.filter fun p => decide (p.1 = key)).map Prod.snd)) ∧
    ∀ p ∈ pairs, ∃ idx', (delete intKey p.1 p.2).Returns idx () idx' ∧
      ∃ rids idx'', (search intKey p.1).Returns idx' rids idx'' ∧
        (p.2 :: rids).Perm ((pairs.filter fun p' => decide (p'.1 = p.1)).map Prod.snd) := by
  obtain ⟨entries, built, perm⟩ := run.built fresh
  refine ⟨fun key => ?_, fun p among => ?_⟩
  · obtain ⟨idx', found⟩ := built.answers.search key
    exact ⟨_, idx', found, between_perm perm key⟩
  · obtain ⟨_, idx', deleted, answers⟩ := (built.wp_delete p.1 p.2).exists_returns
    obtain ⟨idx'', found⟩ := answers.search p.1
    refine ⟨idx', deleted, _, idx'', found, ?_⟩
    have whole : (p :: entries.erase p).Perm pairs := (perm_cons_erase (perm.mem_iff.mpr among)).symm.trans perm
    have own : between (p :: entries.erase p) p.1 p.1 = p :: between (entries.erase p) p.1 p.1 :=
      filter_cons_of_pos (by simp)
    have all := between_perm whole p.1
    rwa [own] at all

theorem CleanRun.extend (fresh : JustAllocated pg rootPid) (run : CleanRun (new pg rootPid) pairs idx)
    {pair : ℤ × Rid} (valid : ValidPair pair) (few : pairs.length < Node.LEAF_CAPACITY) (lsn : U32 pg.lastLsn)
    (room : pg.numPages + 4 * (pairs.length + 1) + 1 < 2 ^ 32) :
    ∃ idx', CleanRun (new pg rootPid) (pairs ++ [pair]) idx' := by
  obtain ⟨entries, built, perm⟩ := run.built fresh
  have cuts (leaf : List (ℤ × Rid)) (idx'' : BTreeIndex ℤ) (found : (leafFor intKey pair.1).Returns idx leaf idx'') :
      CutsApart pair.1 pair.2 leaf := .inl (((built.leaf_sublist found).length_le.trans_eq perm.length_eq).trans_lt few)
  obtain ⟨_, idx', returned, -⟩ := (built.wp_insert valid cuts).exists_returns_of fun e idx' full => by
    obtain ⟨most, least⟩ := full lsn
    rw [perm.length_eq] at least
    omega
  exact ⟨idx', .insert pair run valid cuts returned⟩

theorem duplicates_found_twice : ∃ idx,
    CleanRun (new ((blankFile 5).extended 6) 5) [(5, ⟨0, 1⟩), (5, ⟨0, 2⟩)] idx ∧
      ∃ rids idx', (search intKey 5).Returns idx rids idx' ∧ rids.Perm [⟨0, 1⟩, ⟨0, 2⟩] := by
  have fresh : JustAllocated ((blankFile 5).extended 6) 5 := justAllocated_behind (by decide) (by decide)
  have valid (slot : ℕ) (small : slot < 2 ^ 16) : ValidPair (5, ⟨0, slot⟩) :=
    ⟨show Int64 5 by decide, show U32 0 by decide, small⟩
  obtain ⟨_, once⟩ := CleanRun.nil.extend fresh (valid 1 (by decide)) (by decide) (by decide) (by decide)
  obtain ⟨idx, twice⟩ := once.extend fresh (valid 2 (by decide)) (by decide) (by decide) (by decide)
  obtain ⟨rids, idx', found, perm⟩ := (duplicates_found fresh twice).1 5
  exact ⟨idx, twice, rids, idx', found, perm⟩

def repeated (n : ℕ) : List (ℤ × Rid) := (List.range n).map fun slot => (5, ⟨0, slot⟩)

theorem repeated_succ (n : ℕ) : repeated (n + 1) = repeated n ++ [(5, ⟨0, n⟩)] := by
  rw [repeated, repeated, range_succ, map_append]
  rfl

theorem length_repeated (n : ℕ) : (repeated n).length = n := by simp [repeated]

theorem valid_repeated {n : ℕ} (small : n ≤ 2 ^ 16) : ∀ p ∈ repeated n, ValidPair p := by
  intro p among
  obtain ⟨slot, inside, rfl⟩ := mem_map.mp among
  exact ⟨show Int64 5 by decide, show U32 0 by decide, (mem_range.mp inside).trans_le small⟩

theorem keyed_repeated (n : ℕ) : Keyed (repeated n) :=
  pairwise_map.mpr (pairwise_of_forall fun _ _ => le_refl (5 : ℤ))

/-- The key inserted 241 times: the first 120 rids are not found. -/
theorem duplicates_lost : ¬ ∀ (pg : Pager) (rootPid : ℕ) (pairs : List (ℤ × Rid)) (idx : BTreeIndex ℤ),
    JustAllocated pg rootPid → (∀ p ∈ pairs, ValidPair p) →
    (forEach pairs fun p => insert intKey p.1 p.2).Returns (new pg rootPid) () idx →
    ∀ key, ∃ rids idx', (search intKey key).Returns idx rids idx' ∧ ∀ p ∈ pairs, p.1 = key → p.2 ∈ rids := by
  intro always
  have fresh : JustAllocated ((blankFile 5).extended 6) 5 := justAllocated_behind (by decide) (by decide)
  obtain ⟨full, filled, leaf⟩ := (rootLeaf_new fresh).returns_filling (valid_repeated (n := 240) (by decide))
    (keyed_repeated _) (length_repeated _).le
  have valid : ValidPair (5, ⟨0, 240⟩) := ⟨by decide, by decide, by decide⟩
  obtain ⟨_, idx, last, -, -, nodes, up, right, halved⟩ :=
    (leaf.wp_insert_full (length_repeated _) valid).exists_returns_of fun e idx' ⟨cannot, extended⟩ => by
      refine cannot (canAllocate_of_room (by rw [extended.lastLsn]; decide) ?_)
      have : idx'.pager.numPages ≤ 6 + 2 := extended.numPages
      omega
  have whole : place (repeated 240) 5 ⟨0, 240⟩ = repeated 241 := by
    rw [repeated_succ 240]
    refine place_behind (fun e among => ?_) _
    obtain ⟨slot, -, rfl⟩ := mem_map.mp among
    exact le_refl 5
  rw [whole] at halved
  have isUp : up = 5 := by
    have middle := halved.middle
    rw [Node.middle, length_repeated, repeated, getElem?_map, getElem?_range (by decide)] at middle
    exact (Option.some.inj middle).symm
  subst isUp
  have returned : (forEach (repeated 241) fun p => insert intKey p.1 p.2).Returns
      (new ((blankFile 5).extended 6) 5) () idx := by
    rw [repeated_succ, returns_forEach_append]
    exact ⟨full, filled, returns_forEach_cons.mpr ⟨idx, last, by simp⟩⟩
  obtain ⟨rids, idx', found, all⟩ := always _ _ _ _ fresh (valid_repeated (by decide)) returned 5
  have route : [5, right][findChild [(5 : ℤ)] [5, right] 5]? = some right := by
    rw [findChild, upperBound_eq (by simp)]
    rfl
  have search : (search intKey 5).wp (fun rids _ => rids = (between ((repeated 241).drop _) 5 5).map Prod.snd)
      (fun _ _ => True) idx :=
    (halved.loaded.wp_search_below route halved.back ((keyed_repeated _).sublist (drop_sublist _ _))).mpr rfl
  have first : (⟨0, 0⟩ : Rid) ∈ rids := all (5, ⟨0, 0⟩) (mem_map.mpr ⟨0, mem_range.mpr (by decide), rfl⟩) rfl
  rw [search.returns found] at first
  obtain ⟨e, among, isFirst⟩ := mem_map.mp first
  have late := (mem_filter.mp among).1
  rw [length_repeated, repeated, ← map_drop] at late
  obtain ⟨slot, inside, rfl⟩ := mem_map.mp late
  obtain ⟨i, _, same⟩ := mem_iff_getElem.mp inside
  rw [getElem_drop, getElem_range] at same
  have isZero : slot = 0 := congrArg Rid.slotId isFirst
  omega

end Tinydb.Index
