import Tinydb.Index.IndexInsert

/-! Deletion from a tree.

A deletion removes the first entry with the key and the rid from the leaf the key
belongs to. As long as that leaf keeps enough entries no other node changes.
-/

namespace Tinydb.Index

open Lib Program Storage Heap List BTreeIndex Option

variable {K : Type} [LinearOrder K] {kt : KeyType K} {entries : List (K × Rid)} {key : K} {rid : Rid} {fill : Fill}
  {nodes nodes' : Nodes K} {height pid : ℕ} {lo hi : Option K} {pg : Pager} {node : Node K}
  {items here here' front back : List (Item K)} {root : Node K} {idx : BTreeIndex K}

theorem findIdx?_between : (between entries key key).findIdx? (fun e => decide (e.2 = rid)) =
    (between entries key key).idxOf? (key, rid) := by
  rw [idxOf?]
  have same (xs : List (K × Rid)) (each : ∀ e ∈ xs, e.1 = key) :
      xs.findIdx? (fun e => decide (e.2 = rid)) = xs.findIdx? (· == (key, rid)) := by
    induction xs with
    | nil => rfl
    | cons e rest ih =>
      obtain ⟨isKey, each⟩ := forall_mem_cons.mp each
      have test : decide (e.2 = rid) = (e == (key, rid)) := by
        rw [Bool.eq_iff_iff, decide_eq_true_iff, beq_iff_eq, Prod.ext_iff]
        simp [isKey]
      rw [findIdx?_cons, findIdx?_cons, test, ih each]
  refine same _ fun e among => ?_
  have inside := (mem_filter.mp among).2
  rw [Bool.and_eq_true, decide_eq_true_iff, decide_eq_true_iff] at inside
  exact le_antisymm inside.2 inside.1

theorem mem_between_iff : (key, rid) ∈ between entries key key ↔ (key, rid) ∈ entries := by
  simp [between]

theorem ridPosition_none (keyed : Keyed entries) :
    Held.ridPosition entries rid (lowerBound (entries.map Prod.fst) key) (upperBound (entries.map Prod.fst) key) =
    none ↔
      (key, rid) ∉ entries := by
  rw [Held.ridPosition, keyed.slice_eq, findIdx?_between, map_eq_none_iff, idxOf?_eq_none_iff, mem_between_iff]

theorem eraseIdx_ridPosition (keyed : Keyed entries) {pos : ℕ}
    (found : Held.ridPosition entries rid (lowerBound (entries.map Prod.fst) key)
      (upperBound (entries.map Prod.fst) key) = some pos) : entries.eraseIdx pos = entries.erase (key, rid) := by
  rw [Held.ridPosition, keyed.slice_eq, findIdx?_between] at found
  obtain ⟨i, here, rfl⟩ := map_eq_some_iff.mp found
  have slice := keyed.slice_eq key
  have early := keyed.take_lowerBound key
  generalize lowerBound (entries.map Prod.fst) key = low, upperBound (entries.map Prod.fst) key = high at *
  obtain ⟨inside, isEntry, -⟩ := idxOf?_eq_some_iff.mp here
  have among : (key, rid) ∈ between entries key key := isEntry ▸ getElem_mem inside
  have whole : entries = (entries.take high).take low ++ (between entries key key ++ entries.drop high) := by
    rw [← slice, ← append_assoc, take_append_drop, take_append_drop]
  have length : ((entries.take high).take low).length = low := by
    rw [← slice, length_drop] at inside
    rw [length_take]
    omega
  have absent : (key, rid) ∉ (entries.take high).take low := by
    intro front
    have inFront : (key, rid) ∈ entries.take low := by
      rw [take_take, Nat.min_comm, ← take_take] at front
      exact mem_of_mem_take front
    rw [early, mem_filter] at inFront
    exact lt_irrefl key (of_decide_eq_true inFront.2)
  have split : (between entries key key).erase (key, rid) = (between entries key key).eraseIdx i := by
    rw [erase_eq_eraseIdx, here]
  rw [whole, eraseIdx_append_of_length_le (by omega), length, Nat.add_sub_cancel_left,
    eraseIdx_append_of_lt_length inside, erase_append_right _ absent, erase_append_left _ among, split]

theorem Held.wp_deleteFromLeaf {pid next : ℕ} (keyed : Keyed entries)
    {Q : Bool × Bool → Held K → Prop} {E : Exc → Held K → Prop}
    (absent : (key, rid) ∉ entries → Q (false, false) ⟨pg, node⟩)
    (present : (key, rid) ∈ entries → (writeNode kt pid (.leaf (entries.erase (key, rid)) next)).wp
      (fun _ pg' => Q (true, decide ((entries.erase (key, rid)).length < MIN_LEAF_ENTRIES))
        ⟨pg', .leaf (entries.erase (key, rid)) next⟩)
        (fun e pg' => E e ⟨pg', .leaf (entries.erase (key, rid)) next⟩) pg) :
    (Held.deleteFromLeaf kt pid entries next key rid).wp Q E ⟨pg, node⟩ := by
  rw [Held.deleteFromLeaf]
  split
  case h_1 missing => exact absent ((ridPosition_none keyed).mp missing)
  case h_2 pos found =>
    have among : (key, rid) ∈ entries := by
      by_contra missing
      rw [(ridPosition_none keyed).mpr missing] at found
      cases found
    rw [eraseIdx_ridPosition keyed found]
    show (Held.hold _ >>= fun _ => _).wp Q E _
    rw [wp_bind, Held.wp_hold, wp_bind, Held.wp_write]
    exact present among

/-- A subtree and a store, and both without the entry. -/
structure Removed (key : K) (rid : Rid) (nodes : Nodes K) (items : List (Item K))
    (nodes' : Nodes K) (items' : List (Item K)) : Prop extends Reshaped nodes items nodes' items' where
  contents : contents items' = (contents items).erase (key, rid)

theorem erase_between {before inside after : List (K × Rid)} (low : ∀ e ∈ before, e.1 < key)
    (high : ∀ e ∈ after, key < e.1) :
    (before ++ (inside ++ after)).erase (key, rid) = before ++ (inside.erase (key, rid) ++ after) := by
  have notBefore : (key, rid) ∉ before := fun among => lt_irrefl key (low _ among)
  have notAfter : (key, rid) ∉ after := fun among => lt_irrefl key (high _ among)
  rw [erase_append_right _ notBefore]
  by_cases among : (key, rid) ∈ inside
  · rw [erase_append_left _ among]
  · rw [erase_append_right _ among, erase_of_not_mem notAfter, erase_of_not_mem among]

theorem Focused.removed {keys₁ keys₂ : List K} {children₁ children₂ : List ℕ} {child : ℕ} {l u : Option K}
    (focus : Focused kt fill key nodes height pid lo hi pg keys₁ keys₂ children₁ children₂ child l u front here back)
    (removed : Removed key rid nodes here nodes' here') :
    Removed key rid nodes (.inner pid :: (front ++ (here ++ back))) nodes'
    (.inner pid :: (front ++ (here' ++ back))) := by
  refine ⟨removed.toReshaped.around focus.site.distinct fun q => focus.site.present, ?_⟩
  simp only [contents_inner, contents_append, removed.contents]
  exact (erase_between focus.smaller focus.greater).symm

/-- How a deletion from a subtree returns when it changes the leaf only. -/
structure DeleteReturns (kt : KeyType K) (fill : Fill) (key : K) (rid : Rid) (nodes : Nodes K)
    (fuel height pid : ℕ) (lo hi : Option K) (pg : Pager) (node : Node K) (items : List (Item K)) (flags : Bool × Bool)
    (held : Held K) (nodes' : Nodes K) (items' : List (Item K)) : Prop where
  site : AtNode kt fill nodes' height pid lo hi held.pager held.node items'
  least : flags.2 = false → node.AtLeast fill → held.node.AtLeast fill
  removed : Removed key rid nodes items nodes' items'
  extended : Extends 0 pg held.pager
  underflow : flags.2 = true → height = 0 ∧ ∃ entries next, leafOn nodes key fuel node = some (entries, next) ∧
    (key, rid) ∈ entries ∧ (entries.erase (key, rid)).length < MIN_LEAF_ENTRIES

theorem wp_deleteLeaf (small : fill.entries ≤ MIN_LEAF_ENTRIES) {next fuel : ℕ}
    (site : AtNode kt fill nodes 0 pid lo hi pg (.leaf entries next) items) :
    (Held.deleteFromSubtree kt key rid (fuel + 1) pid).wp (fun flags held => ∃ nodes' items',
      DeleteReturns kt fill key rid nodes (fuel + 1) 0 pid lo hi pg (.leaf entries next) items flags held nodes' items')
      (fun _ _ => False) ⟨pg, .leaf entries next⟩ := by
  obtain ⟨rfl, keyed, bounded, apart⟩ := site.holds
  have page : nodes pid ≠ none := by simp [site.here]
  rw [Held.deleteFromSubtree, wp_bind, wp_read]
  refine Held.wp_deleteFromLeaf keyed (fun absent => ?_) fun present => ?_
  · refine ⟨nodes, _, site, fun _ least => least, ⟨⟨fun _ linked => linked, fun _ => rfl, fun q among => .inl among,
      site.distinct, fun _ _ _ => rfl⟩, ?_⟩, Extends.refl _, fun absurd => by cases absurd⟩
    simp [erase_of_not_mem absent]
  · have sub : (entries.erase (key, rid)).Sublist entries := erase_sublist
    have coded : (Node.leaf (entries.erase (key, rid)) next).Coded kt := by
      obtain ⟨each, count, u32, real⟩ := site.coded
      exact ⟨fun e among => each e (sub.subset among), sub.length_le.trans_lt count, u32, real⟩
    refine site.stored.wp_writeNode page coded (fun fits pg' stored extended => ?_) fun large =>
      (large (Node.fits_sublist site.fits sub)).elim
    refine ⟨_, [.leaf pid (entries.erase (key, rid)) next], ⟨stored, by simp, coded, fits, ⟨rfl, keyed.sublist sub,
      fun e among => bounded e (sub.subset among), apart⟩, by simp⟩, fun enough _ => ?_, ⟨⟨fun _ linked => linked,
      fun _ => rfl, fun q among => .inl among, by simp, fun q _ away => ?_⟩, by simp⟩, extended, fun few => ?_⟩
    · exact small.trans (Nat.not_lt.mp (of_decide_eq_false enough))
    · exact Function.update_of_ne (by simpa [Item.pid] using away) ..
    · exact ⟨rfl, entries, next, rfl, present, of_decide_eq_true few⟩

theorem wp_deleteFromSubtree (small : fill.entries ≤ MIN_LEAF_ENTRIES) {fuel : ℕ}
    (site : AtNode kt fill nodes height pid lo hi pg node items) (enough : height < fuel)
    (keeps : 0 < height → ∀ entries next, leafOn nodes key fuel node = some (entries, next) → (key, rid) ∈ entries →
      MIN_LEAF_ENTRIES ≤ (entries.erase (key, rid)).length) :
    (Held.deleteFromSubtree kt key rid fuel pid).wp (fun flags held => ∃ nodes' items',
      DeleteReturns kt fill key rid nodes fuel height pid lo hi pg node items flags held nodes' items')
      (fun _ _ => False) ⟨pg, node⟩ := by
  induction height generalizing node pid lo hi items fuel with
  | zero =>
    obtain _ | fuel := fuel
    · omega
    match node, site with
    | .leaf entries next, site => exact wp_deleteLeaf small site
    | .internal keys children, site => exact site.holds.elim
  | succ height ih =>
    obtain _ | fuel := fuel
    · omega
    match node, site with
    | .leaf entries next, site => exact site.holds.elim
    | .internal keys children, site =>
      obtain ⟨keys₁, keys₂, children₁, children₂, child, l, u, front, here, back, childNode, rfl,
        rfl, rfl, focus, childSite, childLeast⟩ := site.focus key
      have path : leafOn nodes key (fuel + 1) (.internal (keys₁ ++ keys₂) (children₁ ++ child :: children₂)) =
          leafOn nodes key fuel childNode := by
        rw [leafOn, focus.position, getElem?_focus focus.leading.length, bind_some, childSite.here, bind_some]
      rw [path] at keeps
      rw [Held.deleteFromSubtree, wp_bind, wp_read]
      simp only [focus.position]
      rw [wp_bind, wp_childAt focus.leading.length, wp_bind, Held.wp_onPager,
        site.stored.wp_readNodeView childSite.here, wp_bind, Held.wp_within]
      refine (ih childSite (by omega) fun inside => keeps (Nat.succ_pos _)).mono ?_ fun _ _ => id
      rintro ⟨removed, underflow⟩ held ⟨nodes', here', site', least, gone, extended, why⟩
      have enoughLeft : underflow = false := by
        cases underflow with
        | false => rfl
        | true =>
          obtain ⟨-, entries, next, isLeaf, among, few⟩ := why rfl
          exact absurd (keeps (Nat.succ_pos _) entries next isLeaf among) (Nat.not_le.mpr few)
      subst enoughLeft
      have subtree : Forest (Part (Filled kt fill) nodes' height) l [] [child] u here' :=
        .last (site'.part (least rfl childLeast))
      have gone' := focus.removed gone
      simp only [Bool.false_eq_true, not_false_eq_true, or_true, if_true]
      exact ⟨nodes', _, ⟨site'.stored, (focus.same gone.toReshaped (.inl rfl)).trans focus.site.here, focus.site.coded,
        focus.site.fits, ⟨_, rfl, focus.forest gone.toReshaped subtree⟩, gone'.distinct⟩, fun _ least =>
        least, gone', extended,
        fun absurd => by cases absurd⟩

def Contains (kt : KeyType K) (fill : Fill) (idx : BTreeIndex K) (entries : List (K × Rid)) : Prop :=
  ∃ nodes height root items, Rooted kt fill idx nodes height root items ∧ contents items = entries

theorem Contains.answers (holds : Contains kt fill idx entries) : Answers kt idx entries := by
  obtain ⟨nodes, height, root, items, rooted, rfl⟩ := holds
  exact rooted.tree.answers

theorem Rooted.wp_collapseRoot (rooted : Rooted kt fill idx nodes height root items) (view : idx.rootView = some root) :
    (collapseRoot kt).wp (fun _ idx' => Contains kt fill idx' (contents items)) (fun _ _ => False) idx := by
  rw [collapseRoot, wp_bind, wp_read, view]
  have same : Contains kt fill idx (contents items) := ⟨nodes, height, root, items, rooted, rfl⟩
  match height, root, rooted with
  | 0, .leaf entries next, _ => exact same
  | height + 1, .internal keys [], _ => exact same
  | height + 1, .internal keys (child :: other :: rest), _ => exact same
  | height + 1, .internal keys [child], rooted =>
    obtain ⟨out, rfl, forest⟩ := holds_internal.mp rooted.site.holds
    cases forest with
    | last part =>
      obtain ⟨node, found, filled, holds⟩ := part
      show (onPager (readNodeView kt child) >>= _).wp _ _ _
      rw [wp_bind, wp_onPager, rooted.site.stored.wp_readNodeView found]
      exact ⟨nodes, height, node, out, ⟨⟨rooted.site.stored, found, filled.1, filled.2.1, holds,
        (nodup_cons.mp rooted.site.distinct).2⟩, .inl rfl, rooted.linked⟩, rfl⟩
    | next _ later => cases later

theorem Rooted.wp_delete (small : fill.entries ≤ MIN_LEAF_ENTRIES) (rooted : Rooted kt fill idx nodes height root items)
    (keeps : 0 < height → ∀ entries next, leafOn nodes key idx.fuel root = some (entries, next) → (key, rid) ∈ entries →
      MIN_LEAF_ENTRIES ≤ (entries.erase (key, rid)).length) :
    (BTreeIndex.delete kt key rid).wp (fun _ idx' => Contains kt fill idx' ((contents items).erase (key, rid)))
      (fun _ _ => False) idx := by
  have tree := rooted.tree
  rw [BTreeIndex.delete, wp_bind, tree.toLoaded.wp_ensureLoaded, wp_bind, wp_read, wp_bind,
    wp_onRoot]
  refine (wp_deleteFromSubtree small rooted.site tree.enough keeps).mono ?_ fun _ _ => id
  rintro flags held ⟨nodes', items', site, -, removed, -, -⟩
  have rooted' : Rooted kt fill ⟨held.pager, idx.rootPid, some held.node⟩ nodes' height held.node items' :=
    ⟨site, .inl rfl, removed.linked _ rooted.linked⟩
  rw [← removed.contents]
  exact rooted'.wp_collapseRoot rfl

end Tinydb.Index
