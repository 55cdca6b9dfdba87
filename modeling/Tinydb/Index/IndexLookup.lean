import Tinydb.Index.IntRuns

/-! Lookups with bounds (`executor/index_scan.py`).

A closed range is asked of the index. Every other range is walked: from the leaf the lower
bound belongs to, or from the smallest key if there is no lower bound, along the links
of the leaves up to the first key past the upper bound.
-/

namespace Tinydb.Index

open Lib Program Storage Heap List BTreeIndex Bool

variable {K : Type} [LinearOrder K]

namespace IndexLookup

/-- `_passes_lo`. -/
def passesLo (key : K) (lo : Option K) (loInclusive : Bool) : Bool :=
  match lo with
  | none => true
  | some lo => if loInclusive then decide (lo ≤ key) else decide (lo < key)

/-- `_is_past_hi`. -/
def isPastHi (key : K) (hi : Option K) (hiInclusive : Bool) : Bool :=
  match hi with
  | none => false
  | some hi => if hiInclusive then decide (hi < key) else decide (hi ≤ key)

/-- `_smallest_key`. -/
def smallestKey (kt : KeyType K) : (fuel : ℕ) → Node K → PagerM (Option K)
  | 0, _ => raise ⟨.nontermination, "index depth"⟩
  | _ + 1, .leaf entries _ => return entries.head?.map Prod.fst
  | fuel + 1, .internal _ children => do
    let pid ← childAt children 0
    let node ← readNodeView kt pid
    smallestKey kt fuel node

def firstPosition (lo : Option K) (keys : List K) : ℕ :=
  match lo with
  | none => 0
  | some lo => lowerBound keys lo

/-- The loop of `_walk_leaves`: rids with their keys. -/
def walkFrom (kt : KeyType K) (lo hi : Option K) (loInclusive hiInclusive : Bool) :
    (fuel : ℕ) → List (K × Rid) → ℕ → PagerM (List (Rid × Option K))
  | 0, _, _ => raise ⟨.nontermination, "leaf chain"⟩
  | fuel + 1, entries, next => do
    let rest := entries.drop (firstPosition lo (entries.map Prod.fst))
    let here := rest.takeWhile fun e => !isPastHi e.1 hi hiInclusive
    let found := (here.filter fun e => passesLo e.1 lo loInclusive).map fun e => (e.2, some e.1)
    if here.length < rest.length ∨ next = NO_NEXT then
      return found
    let (entries', next') ← readLeaf kt next
    let others ← walkFrom kt lo hi loInclusive hiInclusive fuel entries' next'
    return found ++ others

def startKey (kt : KeyType K) (lo : Option K) (fuel : ℕ) (root : Node K) : PagerM (Option K) :=
  match lo with
  | some lo => return some lo
  | none => smallestKey kt fuel root

/-- `_walk_leaves`. -/
def walkLeaves (kt : KeyType K) (lo hi : Option K) (loInclusive hiInclusive : Bool) :
    BTreeIndex.IndexM K (List (Rid × Option K)) := do
  let root ← ensureLoaded kt
  let idx ← read
  match ← onPager (startKey kt lo idx.fuel root) with
  | none => return []
  | some key =>
    let (entries, next) ← onPager (descend kt key idx.fuel root)
    onPager (walkFrom kt lo hi loInclusive hiInclusive idx.fuel entries next)

/-- `IndexLookup.range`: a closed range yields no keys. -/
def range (kt : KeyType K) (lo hi : Option K) (loInclusive hiInclusive : Bool) :
    BTreeIndex.IndexM K (List (Rid × Option K)) :=
  match lo, hi, loInclusive, hiInclusive with
  | some lo, some hi, true, true => do
    let rids ← BTreeIndex.range kt lo hi true
    return rids.map (·, none)
  | lo, hi, loInclusive, hiInclusive => walkLeaves kt lo hi loInclusive hiInclusive

def inBounds (lo hi : Option K) (loInclusive hiInclusive : Bool) (e : K × Rid) : Bool :=
  passesLo e.1 lo loInclusive && !isPastHi e.1 hi hiInclusive

variable {lo hi : Option K} {loInclusive hiInclusive : Bool} {entries : List (K × Rid)} {kt : KeyType K} {fill : Fill}
  {nodes : Nodes K} {height : ℕ} {pg : Pager} {fuel : ℕ} {items : List (Item K)} {idx : BTreeIndex K}
  {root : Node K}

theorem isPastHi_mono {a b : K} (le : a ≤ b) (past : isPastHi a hi hiInclusive) : isPastHi b hi hiInclusive := by
  cases hi with
  | none => cases past
  | some hi => exact isPastUpper_mono le past

theorem filter_drop_firstPosition (keyed : Keyed entries) :
    (entries.drop (firstPosition lo (entries.map Prod.fst))).filter (fun e => passesLo e.1 lo loInclusive) =
      entries.filter fun e => passesLo e.1 lo loInclusive := by
  cases lo with
  | none => rfl
  | some lo =>
    rw [firstPosition, keyed.drop_lowerBound, filter_filter]
    refine filter_congr fun e _ => ?_
    cases loInclusive with
    | true => simp [passesLo]
    | false => simpa [passesLo] using le_of_lt

theorem front_within (keyed : Keyed entries) : Front (fun e : K × Rid => !isPastHi e.1 hi hiInclusive) entries := by
  refine keyed.imp fun {a b} le within => ?_
  rw [Bool.not_eq_true', ← not_eq_true] at within ⊢
  exact fun past => within (isPastHi_mono le past)

theorem taken_eq (keyed : Keyed entries) :
    (((entries.drop (firstPosition lo (entries.map Prod.fst))).takeWhile fun e => !isPastHi e.1 hi hiInclusive).filter
      fun e => passesLo e.1 lo loInclusive) = entries.filter (inBounds lo hi loInclusive hiInclusive) := by
  have rest : Keyed (entries.drop (firstPosition lo (entries.map Prod.fst))) :=
    Pairwise.sublist (drop_sublist _ _) keyed
  rw [(front_within rest).takeWhile_eq_filter, filter_comm, filter_drop_firstPosition keyed, filter_filter]
  exact filter_congr fun e _ => and_comm _ _

theorem past_of_stops (early : ((entries.drop (firstPosition lo (entries.map Prod.fst))).takeWhile
      fun e => !isPastHi e.1 hi hiInclusive).length < (entries.drop (firstPosition lo (entries.map Prod.fst))).length) :
    ∃ e ∈ entries, isPastHi e.1 hi hiInclusive := by
  by_contra none
  refine lt_irrefl _ (early.trans_eq' (congrArg List.length (takeWhile_eq_self_iff.mpr fun e among => ?_)))
  rw [Bool.not_eq_true', ← not_eq_true]
  exact fun past => none ⟨e, mem_of_mem_drop among, past⟩

theorem wp_smallestKey {pid : ℕ} {node : Node K} {l u : Option K} (nonempty : 0 < fill.entries)
    (branching : 0 < fill.keys) (stored : Stored kt pg nodes)
    (holds : Holds (Filled kt fill) nodes height node pid l u items)
    (enough : height < fuel) :
    (smallestKey kt fuel node).wp (fun key pg' => pg' = pg ∧ key = (contents items).head?.map Prod.fst)
    (fun _ _ => False) pg := by
  obtain _ | fuel := fuel
  · omega
  induction holds using Holds.upward generalizing fuel with
  | leaf => exact ⟨rfl, by simp⟩
  | inner forest ih =>
    obtain ⟨child, rest, u, here, more, rfl, rfl, part⟩ := Forest.first forest
    have some : contents here ≠ [] := by
      have := Part.length_le nonempty branching part
      intro none
      rw [none] at this
      simp at this
    obtain ⟨childNode, found, -, holds⟩ := part
    obtain _ | fuel := fuel
    · omega
    rw [smallestKey, wp_bind, wp_childAt_of (getElem?_cons_zero), wp_bind, stored.wp_readNodeView found]
    refine (ih holds fuel (by omega)).mono ?_ fun _ _ => id
    rintro key pg' ⟨rfl, rfl⟩
    rw [contents_inner, contents_append, head?_append_of_ne_nil _ some]
    exact ⟨rfl, rfl⟩

theorem wp_walkFrom (stored : Stored kt pg nodes) {next : ℕ} {after : List (Item K)}
    (behind : Behind nodes entries next after fuel) :
    (walkFrom kt lo hi loInclusive hiInclusive fuel entries next).wp (fun found pg' => pg' = pg ∧
      found = ((entries ++ contents after).filter (inBounds lo hi loInclusive hiInclusive)).map fun e =>
      (e.2, some e.1)) (fun _ _ => False) pg := by
  refine wp_followLinks (fun entries => ((entries.drop (firstPosition lo (entries.map Prod.fst))).takeWhile
    fun e => !isPastHi e.1 hi hiInclusive).length < (entries.drop (firstPosition lo (entries.map Prod.fst))).length)
    (fun fuel entries next keyed => ?_) (fun entries keyed early => ?_) stored behind
  · rw [walkFrom, taken_eq keyed]
  · obtain ⟨e, among, past⟩ := past_of_stops early
    exact ⟨e, among, fun e' le => by simp [inBounds, isPastHi_mono le past]⟩

theorem wp_walkLeaves (nonempty : 0 < fill.entries)
    (branching : 0 < fill.keys) (tree : Tree kt (Filled kt fill) idx nodes height root items) :
    (walkLeaves kt lo hi loInclusive hiInclusive).wp
      (fun found _ => found =
        ((contents items).filter (inBounds lo hi loInclusive hiInclusive)).map fun e => (e.2, some e.1))
      (fun _ _ => False) idx := by
  have starts : (startKey kt lo idx.fuel root).wp (fun key pg' => pg' = idx.pager ∧
      ((key = none ∧ contents items = []) ∨ ∃ k, key = some k ∧ ∀ e ∈ contents items, e.1 < k →
        passesLo e.1 lo loInclusive = false))
      (fun _ _ => False) idx.pager := by
    cases lo with
    | some lo =>
      refine ⟨rfl, .inr ⟨lo, rfl, fun e _ less => ?_⟩⟩
      cases loInclusive with
      | true => simpa [passesLo] using less
      | false => simpa [passesLo] using less.le
    | none =>
      refine (wp_smallestKey nonempty branching tree.stored tree.holds tree.enough).mono ?_ fun _ _ => id
      rintro _ pg' ⟨rfl, rfl⟩
      refine ⟨rfl, ?_⟩
      have keyed := tree.holds.keyed
      cases all : contents items with
      | nil => exact .inl ⟨rfl, rfl⟩
      | cons first rest =>
        -- no key is smaller than the smallest
        rw [all] at keyed
        refine .inr ⟨first.1, rfl, fun e among less => absurd less ?_⟩
        rcases mem_cons.mp among with rfl | later
        · exact lt_irrefl _
        · exact ((pairwise_cons.mp keyed).1 e later).not_gt
  rw [walkLeaves, wp_bind, tree.toLoaded.wp_ensureLoaded, wp_bind, wp_read, wp_bind, wp_onPager]
  refine starts.mono ?_ fun _ _ => id
  rintro key pg ⟨rfl, ⟨rfl, none⟩ | ⟨k, rfl, outside⟩⟩
  · rw [none]
    rfl
  · show (onPager (descend kt k _ root) >>= _).wp _ _ _
    rw [wp_bind, wp_onPager]
    refine (wp_descend tree.stored tree.holds tree.enough).mono ?_ fun _ _ => id
    rintro ⟨entries, next⟩ pg ⟨rfl, -, reached⟩
    obtain ⟨before, after, chain⟩ := tree.chainFrom reached
    show (onPager (walkFrom kt lo hi loInclusive hiInclusive _ entries next)).wp _ _ _
    rw [wp_onPager]
    refine (wp_walkFrom tree.stored chain.toBehind).mono ?_ fun _ _ => id
    rintro found pg ⟨-, rfl⟩
    have none : (contents before).filter (inBounds lo hi loInclusive hiInclusive) = [] := by
      refine filter_eq_nil_iff.mpr fun e among => ?_
      rw [inBounds, outside e (by rw [chain.whole]; exact mem_append_left _ among) (chain.low e among)]
      simp
    rw [chain.whole, filter_append (contents before), none, nil_append]

theorem wp_range (nonempty : 0 < fill.entries)
    (branching : 0 < fill.keys) (tree : Tree kt (Filled kt fill) idx nodes height root items) :
    (range kt lo hi loInclusive hiInclusive).wp
      (fun found _ => found.map Prod.fst =
        ((contents items).filter (inBounds lo hi loInclusive hiInclusive)).map Prod.snd)
      (fun _ _ => False) idx := by
  have walked : (walkLeaves kt lo hi loInclusive hiInclusive).wp (fun found _ =>
      found.map Prod.fst = ((contents items).filter (inBounds lo hi loInclusive hiInclusive)).map Prod.snd)
      (fun _ _ => False) idx := by
    refine (wp_walkLeaves nonempty branching tree).mono ?_ fun _ _ => id
    rintro _ _ rfl
    rw [map_map]
    rfl
  unfold range
  split
  · rw [wp_bind]
    refine (tree.wp_range _ _ true).mono ?_ fun _ _ => id
    rintro _ idx' rfl
    show List.map Prod.fst (List.map _ _) = _
    rw [map_map]
    exact map_id _
  · exact walked

def Within (lo hi : Option K) (loInclusive hiInclusive : Bool) (key : K) : Prop :=
  (∀ l ∈ lo, if loInclusive then l ≤ key else l < key) ∧ ∀ h ∈ hi, if hiInclusive then key ≤ h else key < h

instance : DecidablePred (Within lo hi loInclusive hiInclusive) := fun _ => inferInstanceAs (Decidable (_ ∧ _))

theorem inBounds_iff (e : K × Rid) :
    inBounds lo hi loInclusive hiInclusive e = decide (Within lo hi loInclusive hiInclusive e.1) := by
  have low : passesLo e.1 lo loInclusive = true ↔ ∀ l ∈ lo, if loInclusive then l ≤ e.1 else l < e.1 := by
    cases lo <;> cases loInclusive <;> simp [passesLo]
  have high : isPastHi e.1 hi hiInclusive = false ↔ ∀ h ∈ hi, if hiInclusive then e.1 ≤ h else e.1 < h := by
    cases hi <;> cases hiInclusive <;> simp [isPastHi]
  rw [Bool.eq_iff_iff, inBounds, Bool.and_eq_true, Bool.not_eq_true', low, high, decide_eq_true_iff, Within]

end IndexLookup

/-- In an index built by inserting different keys a lookup yields the rids whose keys satisfy the bounds, whichever of
the bounds are there and whether they are included, each once and in the order of the keys. -/
theorem range_matrix {pg : Pager} {rootPid : ℕ} (fresh : JustAllocated pg rootPid) {pairs : List (ℤ × Rid)}
    (distinct : (pairs.map Prod.fst).Nodup) (valid : ∀ p ∈ pairs, ValidPair p) {idx : BTreeIndex ℤ}
    (inserted : (forEach pairs fun p => insert intKey p.1 p.2).Returns (new pg rootPid) () idx)
    (lo hi : Option ℤ) (loInclusive hiInclusive : Bool) :
    ∃ (found : List (ℤ × Rid)) (yielded : List (Rid × Option ℤ)) (idx' : BTreeIndex ℤ),
      (IndexLookup.range intKey lo hi loInclusive hiInclusive).Returns idx yielded idx' ∧
      yielded.map Prod.fst = found.map Prod.snd ∧
      found.Perm (pairs.filter fun p => decide (IndexLookup.Within lo hi loInclusive hiInclusive p.1)) ∧
      found.Pairwise fun a b => a.1 < b.1 := by
  have ends := (built_new fresh).wp_inserts valid (by simpa using distinct) fresh.lastLsn
  obtain ⟨entries, built, perm⟩ := ends.returns inserted
  rw [append_nil] at perm
  have keys : (entries.map Prod.fst).Nodup := (perm.map Prod.fst).nodup_iff.mpr distinct
  have strict : entries.Pairwise fun a b => a.1 < b.1 :=
    (built.keyed.and (pairwise_map.mp keys)).imp fun both => lt_of_le_of_ne both.1 both.2
  obtain ⟨nodes, height, root, items, rooted, rfl, -, -⟩ := built
  obtain ⟨yielded, idx', returned, same⟩ := (IndexLookup.wp_range (by decide) (by decide) rooted.tree).exists_returns
  refine ⟨_, yielded, idx', returned, same, ?_, strict.filter _⟩
  rw [funext IndexLookup.inBounds_iff]
  exact perm.filter _

/-- The keys 1, 4 and 9, and what is behind 1 up to 9. -/
theorem range_matrix_half_open : ∃ (idx idx' : BTreeIndex ℤ) (yielded : List (Rid × Option ℤ)),
    (forEach [((4 : ℤ), (⟨3, 1⟩ : Rid)), (9, ⟨3, 2⟩), (1, ⟨3, 3⟩)] fun p => insert intKey p.1 p.2).Returns
      (new ((blankFile 5).extended 6) 5) () idx ∧
    (IndexLookup.range intKey (some 1) (some 9) false true).Returns idx yielded idx' ∧
    yielded.map Prod.fst = [⟨3, 1⟩, ⟨3, 2⟩] := by
  have fresh : JustAllocated ((blankFile 5).extended 6) 5 := justAllocated_behind (by decide) (by decide)
  have distinct : ([((4 : ℤ), (⟨3, 1⟩ : Rid)), (9, ⟨3, 2⟩), (1, ⟨3, 3⟩)].map Prod.fst).Nodup := by decide
  have valid : ∀ p ∈ [((4 : ℤ), (⟨3, 1⟩ : Rid)), (9, ⟨3, 2⟩), (1, ⟨3, 3⟩)], ValidPair p :=
    by simp [ValidPair, Int64, U32]
  have inserted : (forEach [((4 : ℤ), (⟨3, 1⟩ : Rid)), (9, ⟨3, 2⟩), (1, ⟨3, 3⟩)] fun p => insert intKey p.1 p.2).Returns
    (new ((blankFile 5).extended 6) 5) () _ := returns_of_isOk (by decide +kernel)
  obtain ⟨found, yielded, idx', returned, same, perm, strict⟩ :=
    range_matrix fresh distinct valid inserted (some 1) (some 9) false true
  have expected : found = [(4, ⟨3, 1⟩), (9, ⟨3, 2⟩)] :=
    perm.eq_of_pairwise (fun a b _ _ ab ba => absurd ab ba.not_gt) strict (by decide)
  exact ⟨_, idx', yielded, inserted, returned, by rw [same, expected]; rfl⟩

end Tinydb.Index
