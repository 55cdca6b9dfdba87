import Tinydb.Index.TreeDelete

/-! Indexes of one or two levels, node by node.

The results about trees follow an operation as long as it keeps the tree. Here the
nodes are followed whether it does or not: a root that is a leaf until it is split,
then leaves below one root.
-/

namespace Tinydb.Index

open Lib Program Storage Heap Function BTreeIndex Node

variable {K : Type} [LinearOrder K] {kt : KeyType K} {nodes : Nodes K} {idx : BTreeIndex K} {key : K}
  {rid : Rid} {root : Node K} {E : Exc → BTreeIndex K → Prop} {Q : List Rid → BTreeIndex K → Prop}
  {entries : List (K × Rid)} {next : ℕ} {start : Pager} {rootPid : ℕ} {keys : List K} {children : List ℕ} {child : ℕ}

theorem Loaded.returns_insert_root (loaded : Loaded kt idx nodes (.leaf entries next)) (keyed : Keyed entries)
    (coded : (Node.leaf (place entries key rid) next).Coded kt)
    (fits : (Node.leaf (place entries key rid) next).Fits kt) :
    ∃ page, (insert kt key rid).Returns idx ()
        ⟨idx.pager.put idx.rootPid page, idx.rootPid, some (.leaf (place entries key rid) next)⟩ ∧
      Stored kt (idx.pager.put idx.rootPid page)
        (update nodes idx.rootPid (some (.leaf (place entries key rid) next))) := by
  obtain ⟨page, written, stored⟩ := loaded.stored.returns_writeNode loaded.page coded fits
  have ends : (insert kt key rid).wp (fun _ idx' =>
      idx' = ⟨idx.pager.put idx.rootPid page, idx.rootPid, some (.leaf (place entries key rid) next)⟩)
      (fun _ _ => False) idx := by
    rw [loaded.wp_insert, BTreeIndex.fuel, Held.wp_insertInto_leaf keyed, Held.writeOrSplit, wp_bind, wp_read,
      wp_catching, wp_bind, Held.wp_write, wp_of_returns written]
    exact rfl
  obtain ⟨_, idx', returned, rfl⟩ := ends.exists_returns
  exact ⟨page, returned, stored⟩

/-- The file has the pages it had. -/
structure SamePages (pg pg' : Pager) : Prop where
  numPages : pg'.numPages = pg.numPages
  freeHead : pg'.freeHead = pg.freeHead
  lastLsn : pg'.lastLsn = pg.lastLsn
  reserved : ∀ q, q ≠ 0 → q < RESERVED_PAGES → pg'.file q = pg.file q

/-- An index that is one leaf, still on the page it was made on. -/
structure RootLeaf (kt : KeyType K) (start : Pager) (rootPid : ℕ) (idx : BTreeIndex K)
    (entries : List (K × Rid)) : Prop where
  site : ∃ nodes, Loaded kt idx nodes (.leaf entries NO_NEXT) ∧ nodes rootPid = some (.leaf entries NO_NEXT)
  root : idx.rootPid = rootPid
  pages : SamePages start idx.pager
  coded : (Node.leaf entries NO_NEXT).Coded kt
  fits : (Node.leaf entries NO_NEXT).Fits kt
  keyed : Keyed entries

theorem rootLeaf_new (fresh : JustAllocated start rootPid) : RootLeaf kt start rootPid (new start rootPid) [] := by
  obtain ⟨nodes, rooted⟩ : ∃ nodes, Rooted kt ⟨0, 0⟩ _ nodes 0 _ _ := rooted_new fresh _
  exact ⟨⟨nodes, rooted.tree.toLoaded, rooted.site.here⟩, rfl, ⟨rfl, rfl, rfl, fun _ _ _ => rfl⟩,
    rooted.site.coded, rooted.site.fits, List.Pairwise.nil⟩

theorem RootLeaf.returns_insert (leaf : RootLeaf kt start rootPid idx entries)
    (writable : Node.Writable kt Node.ridSuffix (key, rid))
    (fits : (Node.leaf (place entries key rid) NO_NEXT).Fits kt) :
    ∃ idx', (insert kt key rid).Returns idx () idx' ∧ RootLeaf kt start rootPid idx' (place entries key rid) := by
  obtain ⟨⟨nodes, loaded, here⟩, rfl, pages, coded, old, keyed⟩ := leaf
  have coded' := coded_place coded old writable
  obtain ⟨page, returned, stored⟩ := loaded.returns_insert_root keyed coded' fits
  have written := extends_put idx.pager (loaded.stored.usable loaded.page).1 page
  exact ⟨_, returned, ⟨_, ⟨stored, by simp, .inl rfl⟩, by simp⟩, rfl, ⟨pages.numPages, pages.freeHead, pages.lastLsn,
    fun q nonzero small => (written.reserved q nonzero small).trans (pages.reserved q nonzero small)⟩, coded', fits,
    keyed.place key rid⟩

theorem RootLeaf.returns_inserts {pairs : List (K × Rid)} (leaf : RootLeaf kt start rootPid idx entries)
    (writable : ∀ p ∈ pairs, Node.Writable kt Node.ridSuffix p) (keyed : Keyed (entries ++ pairs))
    (fits : (Node.leaf (entries ++ pairs) NO_NEXT).Fits kt) :
    ∃ idx', (Program.forEach pairs fun p => insert kt p.1 p.2).Returns idx () idx' ∧
      RootLeaf kt start rootPid idx' (entries ++ pairs) := by
  induction pairs generalizing idx entries with
  | nil => exact ⟨idx, by simp, by simpa using leaf⟩
  | cons pair rest ih =>
    obtain ⟨key, rid⟩ := pair
    obtain ⟨first, writable⟩ := List.forall_mem_cons.mp writable
    have last : place entries key rid = entries ++ [(key, rid)] := by
      have low (e : K × Rid) (among : e ∈ entries) : e.1 ≤ key :=
        (List.pairwise_append.mp keyed).2.2 e among (key, rid) List.mem_cons_self
      exact place_behind low rid
    have split : entries ++ (key, rid) :: rest = place entries key rid ++ rest := by rw [last]; simp
    rw [split] at keyed fits ⊢
    obtain ⟨middle, returned, leaf'⟩ := leaf.returns_insert first (fits_sublist fits (List.sublist_append_left _ _))
    obtain ⟨idx', others, leaf''⟩ := ih leaf' writable keyed fits
    exact ⟨idx', returns_forEach_cons.mpr ⟨middle, returned, others⟩, leaf''⟩

/-- The leaf and the one behind it after it was split, below a new root. -/
structure Halved (kt : KeyType K) (rootPid : ℕ) (entries : List (K × Rid)) (idx : BTreeIndex K)
    (nodes : Nodes K) (up : K) (right : ℕ) : Prop where
  loaded : Loaded kt idx nodes (.internal [up] [rootPid, right])
  middle : (Node.leaf entries NO_NEXT).middle = some up
  front : nodes rootPid = some (.leaf (entries.take (entries.length / 2)) right)
  back : nodes right = some (.leaf (entries.drop (entries.length / 2)) NO_NEXT)
  apart : rootPid ≠ right ∧ rootPid ≠ idx.rootPid ∧ right ≠ idx.rootPid

theorem RootLeaf.wp_insert_splits (leaf : RootLeaf kt start rootPid idx entries)
    (writable : Node.Writable kt Node.ridSuffix (key, rid))
    (large : ¬ (Node.leaf (place entries key rid) NO_NEXT).Fits kt)
    (halves : (Node.leaf (place entries key rid) NO_NEXT).HalvesFit kt) : (insert kt key rid).wp
      (fun _ idx' => CanAllocate idx.pager ∧ Extends 2 start idx'.pager ∧
        ∃ nodes up right, Halved kt rootPid (place entries key rid) idx' nodes up right)
      (fun _ idx' => ¬ CanAllocate idx'.pager ∧ Extends 2 start idx'.pager) idx := by
  obtain ⟨⟨nodes, loaded, here⟩, rfl, pages, coded, old, keyed⟩ := leaf
  have coded' := coded_place coded old writable
  have same {n : ℕ} {pg : Pager} (extended : Extends n idx.pager pg) : Extends n start pg := by
    refine ⟨?_, extended.lastLsn.trans pages.lastLsn, fun q nonzero small =>
      (extended.reserved q nonzero small).trans (pages.reserved q nonzero small)⟩
    rw [← pages.numPages]
    exact extended.numPages
  rw [loaded.wp_insert, BTreeIndex.fuel, Held.wp_insertInto_leaf keyed]
  refine loaded.stored.wp_writeOrSplit loaded.page coded' (fun fits => (large fits).elim)
    (fun _ can _ up right pg fresh pushed stored extended => ?_) fun _ e pg nodes' cause _ _ _ extended => ?_
  · have apart : idx.rootPid ≠ right := fun same => loaded.page (same ▸ fresh)
    have left : splitNodes nodes idx.rootPid right (.leaf (place entries key rid) NO_NEXT) idx.rootPid =
      some (.leaf _ right) :=
      splitNodes_left fresh loaded.page
    have behind : splitNodes nodes idx.rootPid right (.leaf (place entries key rid) NO_NEXT) right =
      some (.leaf _ NO_NEXT) :=
      splitNodes_right
    have middle : (Node.leaf (place entries key rid) NO_NEXT).middle = some up :=
      (pushed_of_large large).symm.trans pushed
    obtain ⟨e, inside, rfl⟩ := Option.map_eq_some_iff.mp middle
    refine stored.wp_allocatePage (fun newRoot pg₁ _ fresh₁ stored₁ extended₁ => ?_) fun pg₁ _ cannot _ extended₁ =>
      ⟨cannot, same (extended.trans extended₁)⟩
    have other : idx.rootPid ≠ newRoot ∧ right ≠ newRoot := by
      constructor
      · rintro rfl
        rw [left] at fresh₁
        cases fresh₁
      · rintro rfl
        rw [behind] at fresh₁
        cases fresh₁
    have among := List.mem_of_getElem? inside
    have codedRoot := stored.coded_pair (by rw [left]; simp) (by rw [behind]; simp) (coded'.1 e among).1
    have single : (internal [e.1] [idx.rootPid, right] : Node K).Fits kt := by
      have late : e ∈ (place entries key rid).drop ((place entries key rid).length / 2) := by
        refine List.mem_of_getElem? (i := 0) ?_
        rw [List.getElem?_drop]
        exact inside
      exact single_of_entry halves.2 late
    refine stored₁.wp_writeNode (by simp) codedRoot (fun _ pg₂ stored₂ extended₂ => ?_) fun tooLong =>
      (tooLong single).elim
    rw [update_idem] at stored₂
    refine ⟨can, same ((extended.trans extended₁).trans extended₂), _, _, right,
      ⟨stored₂, by simp, .inl rfl⟩, middle, ?_, ?_, apart, other⟩
    · rw [update_of_ne other.1, left]
    · rw [update_of_ne other.2, behind]
  · refine ⟨cause.resolve_right fun not => not halves, same (extended.mono (by omega))⟩

omit [LinearOrder K] in
theorem Loaded.fuel_eq (loaded : Loaded kt idx nodes root) : ∃ fuel, idx.fuel = fuel + 2 := by
  obtain ⟨-, inside, -, -⟩ := loaded.stored.usable loaded.page
  exact ⟨idx.pager.numPages - 1, by unfold BTreeIndex.fuel; omega⟩

theorem Loaded.wp_search_below (loaded : Loaded kt idx nodes (.internal keys children))
    (route : children[findChild keys children key]? = some child) (here : nodes child = some (.leaf entries next))
    (keyed : Keyed entries) : (search kt key).wp Q E idx ↔
      Q ((between entries key key).map Prod.snd) { idx with rootView := some (.internal keys children) } := by
  obtain ⟨fuel, isFuel⟩ := loaded.fuel_eq
  rw [search, wp_bind, loaded.wp_ensureLoaded, wp_bind, wp_read, wp_bind, wp_onPager]
  have same : BTreeIndex.fuel { idx with rootView := some (.internal keys children) } = fuel + 2 := isFuel
  rw [same, descend, wp_bind, wp_childAt_of route, wp_bind, loaded.stored.wp_readNodeView here, ← keyed.slice_eq]
  exact Iff.rfl

end Tinydb.Index
