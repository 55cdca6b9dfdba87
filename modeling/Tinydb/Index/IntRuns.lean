import Tinydb.Index.IntIndex
import Tinydb.Index.Shallow

/-! Runs of insertions into an index with INT keys.

The entries of an index are the pairs inserted. Pages are only added for nodes, and
an index of `n` entries has at most `2 * n + 1` of them, so insertions return as long
as the file has room for that many pages.
-/

namespace Tinydb.Index

open Lib Program Storage Heap List BTreeIndex Node

variable {K : Type} [LinearOrder K] {kt : KeyType K} {fill : Fill} {nodes : Nodes K} {height : ℕ}
  {lo hi : Option K} {pg : Pager}

theorem Forest.length_le {keys : List K} {children : List ℕ} {out : List (Item K)}
    (forest : Forest (Part (Filled kt fill) nodes height) lo keys children hi out)
    (each : ∀ child l u o, Part (Filled kt fill) nodes height child l u o → o.length + 1 ≤ 2 * (contents o).length) :
    out.length + children.length ≤ 2 * (contents out).length := by
  induction forest with
  | last part => exact each _ _ _ _ part
  | next part _ ih =>
    have := each _ _ _ _ part
    simp only [length_append, length_cons, contents_append]
    omega

theorem Part.length_le (nonempty : 0 < fill.entries) (branching : 0 < fill.keys) {child : ℕ}
    {items : List (Item K)} (part : Part (Filled kt fill) nodes height child lo hi items) :
    items.length + 1 ≤ 2 * (contents items).length := by
  induction height generalizing child lo hi items with
  | zero =>
    obtain ⟨node, -, ⟨-, -, least⟩, holds⟩ := part
    match node, holds with
    | .leaf entries next, ⟨same, _⟩ =>
      subst same
      have : fill.entries ≤ entries.length := least
      simp only [contents_leaf, contents_nil, append_nil, length_singleton]
      omega
  | succ height ih =>
    obtain ⟨node, -, ⟨-, -, least⟩, holds⟩ := part
    match node, holds with
    | .internal keys children, ⟨below, same, forest⟩ =>
      subst same
      have : fill.keys ≤ keys.length := least
      have := Forest.length forest
      have := Forest.length_le forest fun _ _ _ _ part => ih part
      rw [length_cons, contents_inner]
      omega

theorem Holds.length_le (nonempty : 0 < fill.entries) (branching : 0 < fill.keys) {pid : ℕ} {node : Node K}
    {items : List (Item K)} (holds : Holds (Filled kt fill) nodes height node pid lo hi items) :
    items.length ≤ 2 * (contents items).length + 1 := by
  match height, node, holds with
  | 0, .leaf entries next, ⟨same, _⟩ => simp [same]
  | height + 1, .internal keys children, ⟨below, same, forest⟩ =>
    subst same
    have := Forest.length forest
    have := Forest.length_le forest fun _ _ _ _ part => Part.length_le nonempty branching part
    rw [length_cons, contents_inner]
    omega

variable {key : ℤ} {first m n rootPid : ℕ} {rid : Rid} {start : Pager} {idx : BTreeIndex ℤ}
  {entries pairs : List (ℤ × Rid)}

theorem Reached.subset {key : K} {items : List (Item K)} {leaf : List (K × Rid) × ℕ}
    (reached : Reached key items leaf) :
    leaf.1.Sublist (contents items) := by
  obtain ⟨before, after, pid, entries, next, -, -⟩ := reached
  rw [contents_append, contents_leaf]
  exact (sublist_append_left _ _).trans (sublist_append_right _ _)

theorem separated_of_distinct {entries : List (K × Rid)} {next : ℕ} (keyed : Keyed entries)
    (distinct : (entries.map Prod.fst).Nodup) : (Node.leaf entries next).Separated := by
  have strict : entries.Pairwise fun a b => a.1 < b.1 := by
    refine (keyed.and (pairwise_map.mp distinct)).imp fun both => lt_of_le_of_ne both.1 both.2
  rw [← take_append_drop (entries.length / 2) entries] at strict
  exact (pairwise_append.mp strict).2.2

def ValidPair (pair : ℤ × Rid) : Prop := Int64 pair.1 ∧ U32 pair.2.pageId ∧ pair.2.slotId < 2 ^ 16

theorem ValidPair.writable {pair : ℤ × Rid} (valid : ValidPair pair) : Node.Writable intKey ridSuffix pair :=
  ⟨codes_int.mpr valid.1, _, if_pos valid.2⟩

def numbered (first n : ℕ) : List (ℤ × Rid) := (List.range' first n).map fun i : ℕ => ((i : ℤ), ⟨0, i⟩)

@[simp] theorem length_numbered : (numbered first n).length = n := by simp [numbered]

theorem numbered_append : numbered first m ++ numbered (first + m) n = numbered first (m + n) := by
  rw [numbered, numbered, numbered, ← map_append, ← range'_append, Nat.one_mul]

theorem strict_numbered : (numbered first n).Pairwise fun a b => a.1 < b.1 :=
  pairwise_map.mpr ((pairwise_lt_range' 1).imp fun less => Int.ofNat_lt.mpr less)

theorem keyed_numbered : Keyed (numbered first n) := strict_numbered.imp le_of_lt

theorem nodup_numbered : ((numbered first n).map Prod.fst).Nodup := pairwise_map.mpr (strict_numbered.imp ne_of_lt)

theorem valid_numbered (small : first + n ≤ 2 ^ 16) : ∀ p ∈ numbered first n, ValidPair p := by
  intro p among
  obtain ⟨i, inside, rfl⟩ := mem_map.mp among
  obtain ⟨low, high⟩ := mem_range'_1.mp inside
  refine ⟨⟨?_, ?_⟩, show U32 0 by decide, show i < 2 ^ 16 by omega⟩
  · show -(2 ^ 63) ≤ (i : ℤ)
    omega
  · show (i : ℤ) ≤ 2 ^ 63 - 1
    omega

theorem RootLeaf.returns_filling (leaf : RootLeaf intKey start rootPid idx []) (valid : ∀ p ∈ pairs, ValidPair p)
    (keyed : Keyed pairs) (small : pairs.length ≤ Node.LEAF_CAPACITY) :
    ∃ idx', (forEach pairs fun p => BTreeIndex.insert intKey p.1 p.2).Returns idx () idx' ∧
      RootLeaf intKey start rootPid idx' pairs :=
  leaf.returns_inserts (fun p among => (valid p among).writable) keyed
    ((leaf_fits_int fun p among => (valid p among).1).mpr small)

theorem RootLeaf.wp_insert_full (leaf : RootLeaf intKey start rootPid idx entries)
    (full : entries.length = Node.LEAF_CAPACITY) (valid : ValidPair (key, rid)) :
    (BTreeIndex.insert intKey key rid).wp (fun _ idx' => CanAllocate idx.pager ∧ Extends 2 start idx'.pager ∧
        ∃ nodes up right, Halved intKey rootPid (place entries key rid) idx' nodes up right)
      (fun _ idx' => ¬ CanAllocate idx'.pager ∧ Extends 2 start idx'.pager) idx := by
  have range (e : ℤ × Rid) (among : e ∈ place entries key rid) : Int64 e.1 := by
    rcases mem_cons.mp ((place_perm entries key rid).mem_iff.mp among) with rfl | old
    · exact valid.1
    · exact codes_int.mp (leaf.coded.1 e old).1
  have almost : (Node.leaf (place entries key rid) NO_NEXT).AlmostFits := ⟨range, by rw [length_place, full]⟩
  refine leaf.wp_insert_splits valid.writable (fun fits => ?_) almost.halves
  rw [leaf_fits_int range, length_place, full] at fits
  omega

def Built (start : Pager) (idx : BTreeIndex ℤ) (entries : List (ℤ × Rid)) : Prop :=
  ∃ nodes height root items, Rooted intKey ⟨120, 136⟩ idx nodes height root items ∧ contents items = entries ∧
    idx.pager.numPages + 1 ≤ start.numPages + items.length ∧ idx.pager.lastLsn = start.lastLsn

theorem Built.keyed (built : Built start idx entries) : Keyed entries := by
  obtain ⟨nodes, height, root, items, rooted, rfl, -, -⟩ := built
  exact rooted.site.holds.keyed

theorem Built.answers (built : Built start idx entries) : Answers intKey idx entries := by
  obtain ⟨nodes, height, root, items, rooted, rfl, -, -⟩ := built
  exact rooted.tree.answers

theorem built_new (fresh : JustAllocated start rootPid) : Built start (BTreeIndex.new start rootPid) [] := by
  obtain ⟨nodes, rooted⟩ : ∃ nodes, Rooted intKey ⟨120, 136⟩ _ nodes 0 _ _ := rooted_new fresh _
  exact ⟨nodes, 0, _, _, rooted, rfl, le_refl _, rfl⟩

def BTreeIndex.leafFor (kt : KeyType K) (key : K) : BTreeIndex.IndexM K (List (K × Rid)) := do
  let root ← ensureLoaded kt
  let idx ← read
  let (entries, _) ← onPager (descend kt key idx.fuel root)
  return entries

theorem Tree.wp_leafFor {ok : Node K → Prop} {idx : BTreeIndex K} {root : Node K} {items : List (Item K)}
    (tree : Tree kt ok idx nodes height root items) (key : K) :
    (leafFor kt key).wp (fun entries _ => ∃ next, leafOn nodes key idx.fuel root = some (entries, next) ∧
      Reached key items (entries, next)) (fun _ _ => False) idx := by
  rw [leafFor, wp_bind, tree.toLoaded.wp_ensureLoaded, wp_bind, wp_read, wp_bind, wp_onPager]
  refine (wp_descend tree.stored tree.holds tree.enough).mono ?_ fun _ _ => id
  rintro ⟨entries, next⟩ pg ⟨-, path, reached⟩
  exact ⟨next, path, reached⟩

/-- The file has as many pages as its header can count, `used` of them new. -/
def FileFull (start : Pager) (used : ℕ) (pg : Pager) : Prop :=
  2 ^ 32 ≤ pg.numPages + 1 ∧ pg.numPages ≤ start.numPages + used

namespace Built

variable (built : Built start idx entries)
include built

theorem leaf_sublist {leaf : List (ℤ × Rid)} {idx' : BTreeIndex ℤ}
    (returned : (leafFor intKey key).Returns idx leaf idx') : leaf.Sublist entries := by
  obtain ⟨nodes, height, root, items, rooted, rfl, -, -⟩ := built
  obtain ⟨next, -, reached⟩ := (rooted.tree.wp_leafFor key).returns returned
  exact reached.subset

theorem wp_insert (valid : ValidPair (key, rid))
    (cuts : ∀ leaf idx', (leafFor intKey key).Returns idx leaf idx' → CutsApart key rid leaf) :
    (BTreeIndex.insert intKey key rid).wp (fun _ idx' => Built start idx' (place entries key rid))
      (fun _ idx' => U32 start.lastLsn → FileFull start (4 * (entries.length + 1)) idx'.pager) idx := by
  obtain ⟨nodes, height, root, items, rooted, rfl, pages, lsn⟩ := built
  have tree := rooted.tree
  have onLeaf (leaf : List (ℤ × Rid) × ℕ) (path : leafOn nodes key idx.fuel root = some leaf) :
    CutsApart key rid leaf.1 := by
    obtain ⟨found, idx', returned, next, same, -⟩ := (tree.wp_leafFor key).exists_returns
    cases path.symm.trans same
    exact cuts found idx' returned
  obtain ⟨absorbs, settles⟩ := absorbs_int tree.holds rooted.site.coded rooted.site.fits valid.1 tree.enough onLeaf
  refine (rooted.wp_insert halving_int valid.writable absorbs fun large _ => (settles.resolve_left large).2).mono ?_ ?_
  · rintro _ idx' ⟨nodes', height', root', items', rooted', same, counted⟩
    refine ⟨nodes', height', root', items', rooted', same, ?_, counted.lastLsn.trans lsn⟩
    have := counted.numPages
    omega
  · intro e idx' raised small
    have count := tree.holds.length_le (by decide) (by decide)
    have depth := tree.holds.height_lt
    have full {n : ℕ} (extended : Extends n idx.pager idx'.pager) (few : n ≤ height + 2)
      (cannot : ¬ CanAllocate idx'.pager) :
        FileFull start (4 * ((contents items).length + 1)) idx'.pager := by
      refine ⟨?_, ?_⟩
      · by_contra room
        exact cannot (canAllocate_of_room (by rw [extended.lastLsn, lsn]; exact small) (by omega))
      · have := extended.numPages
        omega
    cases raised with
    | kept nodes' root' items' tree' same cause extended =>
      rcases cause with cannot | ⟨large, not⟩
      · exact full extended (le_refl _) cannot
      · exact (not (settles.resolve_left large).1).elim
    | lost inside cannot extended => exact full extended (by omega) cannot

theorem wp_insert_new (valid : ValidPair (key, rid))
    (distinct : (key :: entries.map Prod.fst).Nodup) :
    (BTreeIndex.insert intKey key rid).wp (fun _ idx' => Built start idx' (place entries key rid))
      (fun _ idx' => U32 start.lastLsn → FileFull start (4 * (entries.length + 1)) idx'.pager) idx := by
  refine built.wp_insert valid fun leaf idx' returned => ?_
  have sub := built.leaf_sublist returned
  have sublist : (key :: leaf.map Prod.fst).Sublist (key :: entries.map Prod.fst) := (sub.map _).cons_cons key
  have keys := ((place_perm leaf key rid).map Prod.fst).nodup_iff.mpr (distinct.sublist sublist)
  have keyed : Keyed leaf := Pairwise.sublist sub built.keyed
  exact .inr (separated_of_distinct (keyed.place key rid) keys)

theorem wp_inserts (valid : ∀ p ∈ pairs, ValidPair p)
    (distinct : (pairs.map Prod.fst ++ entries.map Prod.fst).Nodup) (lsn : U32 start.lastLsn) :
    (forEach pairs fun p => BTreeIndex.insert intKey p.1 p.2).wp
      (fun _ idx' => ∃ entries', Built start idx' entries' ∧ entries'.Perm (pairs ++ entries))
      (fun _ idx' => FileFull start (4 * (pairs.length + entries.length)) idx'.pager) idx := by
  -- what is left and what is in are together what was given
  refine wp_forEach (fun rest idx' => (∀ p ∈ rest, ValidPair p) ∧
    ∃ now, Built start idx' now ∧ (rest ++ now).Perm (pairs ++ entries)) ⟨valid, entries, built, Perm.refl _⟩ ?_
    fun idx' ⟨_, now, built', perm⟩ => ⟨now, built', perm⟩
  rintro ⟨key, rid⟩ rest idx' ⟨valid, now, built', perm⟩
  obtain ⟨isValid, valid⟩ := forall_mem_cons.mp valid
  have keys : ((rest ++ (key, rid) :: now).map Prod.fst).Nodup := by
    refine ((perm_middle.trans perm).map Prod.fst).nodup_iff.mpr ?_
    rw [map_append]
    exact distinct
  rw [map_append, map_cons] at keys
  refine (built'.wp_insert_new isValid (nodup_append.mp keys).2.1).mono (fun _ idx'' inserted => ?_)
    fun _ idx'' full => ?_
  · exact ⟨valid, _, inserted, ((place_perm now key rid).append_left rest).trans (perm_middle.trans perm)⟩
  · have length := perm.length_eq
    rw [length_append, length_append, length_cons] at length
    obtain ⟨most, least⟩ := full lsn
    exact ⟨most, by omega⟩

end Built

theorem JustAllocated.lastLsn (fresh : JustAllocated pg rootPid) : U32 pg.lastLsn := by
  obtain ⟨before, lay, laid, taken⟩ := fresh
  obtain ⟨-, -, -, -, -, fits⟩ := (wp_allocatePage laid).returns taken
  exact fits.2.2

/-- What searches and ranges give is exactly the pairs, which have different keys. -/
structure Exact (idx : BTreeIndex ℤ) (pairs : List (ℤ × Rid)) : Prop where
  search : ∀ p ∈ pairs, ∃ idx', (BTreeIndex.search intKey p.1).Returns idx [p.2] idx'
  missing : ∀ key, key ∉ pairs.map Prod.fst → ∃ idx', (BTreeIndex.search intKey key).Returns idx [] idx'
  range : ∀ lo hi, ∃ (found : List (ℤ × Rid)) (idx' : BTreeIndex ℤ),
    (BTreeIndex.range intKey lo hi true).Returns idx (found.map Prod.snd) idx' ∧
      found.Perm (pairs.filter fun p => decide (lo ≤ p.1) && decide (p.1 ≤ hi)) ∧ found.Pairwise fun a b => a.1 < b.1

theorem Answers.exact (answers : Answers intKey idx entries)
    (keyed : Keyed entries) (perm : entries.Perm pairs) (distinct : (pairs.map Prod.fst).Nodup) : Exact idx pairs := by
  have keys : (entries.map Prod.fst).Nodup := (perm.map Prod.fst).nodup_iff.mpr distinct
  refine ⟨fun p among => ?_, fun key absent => ?_, fun lo hi => ?_⟩
  · obtain ⟨idx', found⟩ := answers.search p.1
    rw [between_eq_singleton keys (perm.mem_iff.mpr among)] at found
    exact ⟨idx', found⟩
  · obtain ⟨idx', found⟩ := answers.search key
    have none : between entries key key = [] := by
      refine between_eq_nil fun e among => lt_or_gt_of_ne fun same => absent ?_
      exact same ▸ mem_map_of_mem (perm.mem_iff.mp among)
    rw [none] at found
    exact ⟨idx', found⟩
  · obtain ⟨idx', found⟩ := answers.range lo hi
    refine ⟨between entries lo hi, idx', found, perm.filter _, ?_⟩
    have strict : entries.Pairwise fun a b => a.1 < b.1 :=
      (keyed.and (pairwise_map.mp keys)).imp fun both => lt_of_le_of_ne both.1 both.2
    exact strict.filter _

/-- Insertions of different keys into a new index: searches and ranges then find exactly the pairs inserted, and an
insertion raises only when the file has as many pages as its header can count. -/
theorem insert_only_exact (fresh : JustAllocated pg rootPid)
    (distinct : (pairs.map Prod.fst).Nodup) (valid : ∀ p ∈ pairs, ValidPair p) :
    (∃ idx, (forEach pairs fun p => BTreeIndex.insert intKey p.1 p.2).Returns (BTreeIndex.new pg rootPid) () idx ∧
      Exact idx pairs) ∨
    ∃ e idx, (forEach pairs fun p => BTreeIndex.insert intKey p.1 p.2).Raises (BTreeIndex.new pg rootPid) e idx ∧
      FileFull pg (4 * pairs.length) idx.pager := by
  have ends := (built_new fresh).wp_inserts valid (by simpa using distinct) fresh.lastLsn
  rcases returns_or_raises (forEach pairs fun p => BTreeIndex.insert intKey p.1 p.2)
    (BTreeIndex.new pg rootPid) with ⟨_, idx, returned⟩ | ⟨e, idx, raised⟩
  · obtain ⟨entries, built, perm⟩ := ends.returns returned
    rw [append_nil] at perm
    exact .inl ⟨idx, returned, built.answers.exact built.keyed perm distinct⟩
  · exact .inr ⟨e, idx, raised, ends.raises raised⟩

/-- 241 keys, one more than a leaf holds. -/
theorem insert_only_exact_split :
    ∃ idx, (forEach (numbered 0 241) fun p => BTreeIndex.insert intKey p.1 p.2).Returns
        (BTreeIndex.new ((blankFile 5).extended 6) 5) () idx ∧
      ∀ p ∈ numbered 0 241, ∃ idx', (BTreeIndex.search intKey p.1).Returns idx [p.2] idx' := by
  rcases insert_only_exact (justAllocated_behind (n := 5) (by decide) (by decide)) nodup_numbered
    (valid_numbered (show 0 + 241 ≤ 2 ^ 16 by decide)) with ⟨idx, returned, exact⟩ | ⟨e, idx, -, most, least⟩
  · exact ⟨idx, returned, exact.search⟩
  · rw [length_numbered] at least
    have pages : idx.pager.numPages ≤ 6 + 4 * 241 := least
    omega

/-- An index in a file that has all the pages but one: 240 keys are inserted, and the next needs two pages. -/
theorem insert_only_raises_without_pages :
    ¬ ∀ (pg : Pager) (rootPid : ℕ) (pairs : List (ℤ × Rid)), JustAllocated pg rootPid →
    (pairs.map Prod.fst).Nodup → (∀ p ∈ pairs, ValidPair p) →
    ∃ idx, (forEach pairs fun p => BTreeIndex.insert intKey p.1 p.2).Returns (BTreeIndex.new pg rootPid) () idx := by
  intro always
  have fresh : JustAllocated _ (2 ^ 32 - 2) := justAllocated_behind (by decide) (by decide)
  have valid := valid_numbered (show 0 + 241 ≤ 2 ^ 16 by decide)
  obtain ⟨idx, returned⟩ := always _ _ (numbered 0 241) fresh nodup_numbered valid
  rw [← numbered_append (m := 240) (n := 1), returns_forEach_append] at returned
  obtain ⟨full, filled, last⟩ := returned
  obtain ⟨full', filled', leaf⟩ := (rootLeaf_new fresh).returns_filling
    (valid_numbered (show 0 + 240 ≤ 2 ^ 16 by decide)) keyed_numbered (le_of_eq length_numbered)
  obtain ⟨-, rfl⟩ := filled'.unique filled
  obtain ⟨_, inserted, -⟩ := returns_forEach_cons.mp last
  obtain ⟨can, -, -⟩ := (leaf.wp_insert_full length_numbered (valid _ (by decide))).returns inserted
  rw [CanAllocate, if_pos (show full'.pager.freeHead = NO_FREE from leaf.pages.freeHead)] at can
  have room : full'.pager.numPages + 1 < 2 ^ 32 := can.1
  rw [leaf.pages.numPages] at room
  exact absurd room (by decide)

end Tinydb.Index
