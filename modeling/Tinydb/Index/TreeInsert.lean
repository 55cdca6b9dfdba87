import Tinydb.Index.NodeSplit
import Tinydb.Index.TreeShape

/-! Insertion into a tree.

An insertion changes the node it gets to in memory: a leaf gets the entry, an
internal node the separator of a child that was split. `grown` is that node and
`Absorbs` says of the nodes below that they fit their pages afterwards or can be cut
in two. The insertion then keeps the tree, and what it holds has one entry more.
-/

namespace Tinydb.Index

open Lib Program Storage Heap List Node

variable {K : Type}

/-- The least number of entries of a leaf and of keys of an internal node. -/
structure Fill where
  entries : ℕ
  keys : ℕ

variable {kt : KeyType K} {entries : List (K × Rid)} {next : ℕ} {node : Node K} {keys : List K} {children : List ℕ}
  {fill : Fill}

namespace Node

def AtLeast (fill : Fill) : Node K → Prop
  | .leaf entries _ => fill.entries ≤ entries.length
  | .internal keys _ => fill.keys ≤ keys.length

theorem entriesSize_ge {T : Type} (kt : KeyType K) (suffix : Suffix T) (entries : List (K × T)) :
    (2 + suffix.size) * entries.length ≤ entriesSize kt suffix entries := by
  induction entries with
  | nil => simp [entriesSize]
  | cons e rest ih =>
    have size : entriesSize kt suffix (e :: rest) = entrySize kt suffix e.1 + entriesSize kt suffix rest := rfl
    rw [size, entrySize, length_cons, Nat.mul_succ]
    omega

theorem keysSize_ge (kt : KeyType K) (keys : List K) :
    6 * keys.length ≤ (keys.map fun key => entrySize kt childSuffix key).sum := by
  induction keys with
  | nil => simp
  | cons key rest ih =>
    rw [map_cons, sum_cons, length_cons, entrySize]
    have : childSuffix.size = 4 := rfl
    omega

theorem fits_sublist {fewer : List (K × Rid)} {next' : ℕ} (fits : (leaf entries next).Fits kt)
    (sub : fewer.Sublist entries) : (leaf fewer next').Fits kt := by
  have size : entriesSize kt ridSuffix fewer ≤ entriesSize kt ridSuffix entries := by
    clear fits
    induction sub with
    | slnil => exact le_refl _
    | cons e _ ih => exact ih.trans (Nat.le_add_left _ _)
    | cons_cons e _ ih => exact Nat.add_le_add_left ih _
  exact (Nat.add_le_add_left size _).trans fits

theorem count_of_fits (fits : node.Fits kt) : match node with
    | .leaf entries _ => entries.length + 1 < 2 ^ 16
    | .internal keys _ => keys.length + 1 < 2 ^ 16 := by
  cases node with
  | leaf entries next =>
    have least : 8 * entries.length ≤ _ := entriesSize_ge kt ridSuffix entries
    have most : 12 + entriesSize kt ridSuffix entries ≤ 4096 := fits
    show entries.length + 1 < 2 ^ 16
    omega
  | internal keys children =>
    have least := keysSize_ge kt keys
    have most : 12 + (keys.map fun key => entrySize kt childSuffix key).sum ≤ 4096 := fits
    show keys.length + 1 < 2 ^ 16
    omega

theorem single_of_entry (fits : (leaf entries next).Fits kt)
    {e : K × Rid} (among : e ∈ entries) : (internal [e.1] [] : Node K).Fits kt := by
  obtain ⟨before, after, rfl⟩ := append_of_mem among
  have most : 12 + entriesSize kt ridSuffix (before ++ e :: after) ≤ 4096 := fits
  have size : entriesSize kt ridSuffix (before ++ e :: after) =
      entriesSize kt ridSuffix before + ((2 + kt.size e.1 + 6) + entriesSize kt ridSuffix after) := by
    simp only [entriesSize, map_append, sum_append]
    rfl
  show 12 + ((2 + kt.size e.1 + 4) + 0) ≤ 4096
  omega

theorem single_of_key (fits : (internal keys children).Fits kt)
    {key : K} (among : key ∈ keys) : (internal [key] [] : Node K).Fits kt := by
  obtain ⟨before, after, rfl⟩ := append_of_mem among
  have most : 12 + ((before ++ key :: after).map fun key => entrySize kt childSuffix key).sum ≤ 4096 := fits
  rw [map_append, sum_append, map_cons, sum_cons] at most
  show 12 + (entrySize kt childSuffix key + 0) ≤ 4096
  omega

end Node

def Filled (kt : KeyType K) (fill : Fill) (node : Node K) : Prop := node.Coded kt ∧ node.Fits kt ∧ node.AtLeast fill

/-- The halves of a node that has to be split are not too small. -/
structure Halving (kt : KeyType K) (fill : Fill) : Prop where
  leaf : ∀ entries next, (leaf entries next : Node K).Coded kt → ¬ (leaf entries next : Node K).Fits kt →
    2 * fill.entries ≤ entries.length
  internal : ∀ keys children, (internal keys children : Node K).Coded kt →
    ¬ (internal keys children : Node K).Fits kt → 2 * fill.keys + 1 ≤ keys.length

theorem Halving.halves (halving : Halving kt fill) (coded : node.Coded kt)
    (large : ¬ node.Fits kt) (right : ℕ) : (node.leftHalf right).AtLeast fill ∧ node.rightHalf.AtLeast fill := by
  cases node with
  | leaf entries next =>
    have := halving.leaf entries next coded large
    simp only [leftHalf, rightHalf, Node.AtLeast, length_take, length_drop]
    omega
  | internal keys children =>
    have := halving.internal keys children coded large
    simp only [leftHalf, rightHalf, Node.AtLeast, length_take, length_drop]
    omega

variable {right : ℕ} {key : K} {rid : Rid} {nodes nodes' : Nodes K}
  {here here' front back items items' : List (Item K)} {pid : ℕ} {pg pg' : Pager} {height q : ℕ} {lo hi : Option K}
  {up : K} {fuel : ℕ}

/-- A subtree and a store, and both after an operation on the subtree. -/
structure Reshaped (nodes : Nodes K) (items : List (Item K)) (nodes' : Nodes K)
    (items' : List (Item K)) : Prop where
  linked : ∀ after, Linked items after → Linked items' after
  first : ∀ after, firstLeaf items' after = firstLeaf items after
  fresh : ∀ q ∈ pids items', q ∈ pids items ∨ nodes q = none
  distinct : (pids items').Nodup
  frame : ∀ q, nodes q ≠ none → q ∉ pids items → nodes' q = nodes q

theorem Reshaped.around (reshaped : Reshaped nodes here nodes' here')
    (distinct : (pids (.inner pid :: (front ++ (here ++ back)))).Nodup)
    (present : ∀ q ∈ pids (.inner pid :: (front ++ (here ++ back))), nodes q ≠ none) :
    Reshaped nodes (.inner pid :: (front ++ (here ++ back))) nodes' (.inner pid :: (front ++ (here' ++ back))) := by
  simp only [pids_cons, pids_append, nodup_cons, nodup_append, mem_cons, mem_append] at distinct present
  obtain ⟨notPid, nodupFront, ⟨nodupHere, nodupBack, apartBack⟩, apartFront⟩ := distinct
  have outside {q : ℕ} (among : q ∈ pids here') (old : nodes q ≠ none) : q ∈ pids here :=
    (reshaped.fresh q among).resolve_right old
  refine ⟨fun after => ?_, fun after => ?_, fun q among => ?_, ?_, fun q old away => ?_⟩
  · rintro linked
    have linked : Linked (front ++ (here ++ back)) after := linked
    show Linked (front ++ (here' ++ back)) after
    simp only [linked_append, firstLeaf_append, reshaped.first] at linked ⊢
    exact ⟨linked.1, reshaped.linked _ linked.2.1, linked.2.2⟩
  · show firstLeaf (front ++ (here' ++ back)) after = firstLeaf (front ++ (here ++ back)) after
    simp only [firstLeaf_append, reshaped.first]
  · simp only [pids_cons, pids_append, mem_cons, mem_append] at among ⊢
    rcases among with isPid | inFront | inHere | inBack
    · exact .inl (.inl isPid)
    · exact .inl (.inr (.inl inFront))
    · exact (reshaped.fresh q inHere).imp (fun old => .inr (.inr (.inl old))) id
    · exact .inl (.inr (.inr (.inr inBack)))
  · simp only [pids_cons, pids_append, nodup_cons, nodup_append, mem_append, not_or] at notPid ⊢
    refine ⟨⟨notPid.1, fun among => notPid.2.1 (outside among (present _ (.inl rfl))), notPid.2.2⟩, nodupFront,
      ⟨reshaped.distinct, nodupBack, fun a inHere b inBack => ?_⟩, fun a inFront b among => ?_⟩
    · rintro rfl
      exact apartBack a (outside inHere (present _ (.inr (.inr (.inr inBack))))) a inBack rfl
    · rintro rfl
      refine apartFront a inFront a ?_ rfl
      exact among.imp (fun inHere => outside inHere (present _ (.inr (.inl inFront)))) id
  · simp only [pids_cons, pids_append, mem_cons, mem_append, not_or] at away
    exact reshaped.frame q old away.2.2.1

/-- The pages added to the file are pages of the tree. -/
structure Counted (pg : Pager) (items : List (Item K)) (pg' : Pager) (items' : List (Item K)) : Prop where
  numPages : pg'.numPages + items.length ≤ pg.numPages + items'.length
  lastLsn : pg'.lastLsn = pg.lastLsn

theorem Counted.around (counted : Counted pg here pg' here') :
    Counted pg (.inner pid :: (front ++ (here ++ back))) pg' (.inner pid :: (front ++ (here' ++ back))) := by
  refine ⟨?_, counted.lastLsn⟩
  have := counted.numPages
  simp only [length_cons, length_append]
  omega

theorem Counted.extends (counted : Counted pg items pg' items') {pg'' : Pager} {more : List (Item K)} {n : ℕ}
    (grown : Extends n pg' pg'') (length : more.length = items'.length + n) : Counted pg items pg'' more := by
  refine ⟨?_, grown.lastLsn.trans counted.lastLsn⟩
  have := counted.numPages
  have := grown.numPages
  omega

variable [LinearOrder K]

def Node.Separated : Node K → Prop
  | .leaf entries _ => ∀ a ∈ entries.take (entries.length / 2), ∀ b ∈ entries.drop (entries.length / 2), a.1 < b.1
  | .internal _ _ => True

section Grown

variable (kt : KeyType K) (nodes : Nodes K) (key : K) (rid : Rid)

/-- The node an insertion leaves in memory, the page of a new child apart. -/
def grown : ℕ → Node K → Node K
  | _ + 1, .leaf entries next => .leaf (place entries key rid) next
  | fuel + 1, .internal keys children =>
    match (children[findChild keys children key]?.bind nodes).bind fun child => (grown fuel child).pushed kt with
    | some up => .internal (keys.insertIdx (findChild keys children key) up) children
    | none => .internal keys children
  | 0, node => node

/-- Every node below on the way of the key fits its page afterwards or can be cut in two. -/
def Absorbs : ℕ → Node K → Prop
  | fuel + 1, .internal keys children =>
    ∀ child ∈ children[findChild keys children key]?.bind nodes, Absorbs fuel child ∧
      ((grown kt nodes key rid fuel child).Fits kt ∨
        (grown kt nodes key rid fuel child).HalvesFit kt ∧ (grown kt nodes key rid fuel child).Separated)
  | _, _ => True

end Grown

/-- The operation was to put the entry in. -/
structure Placed (key : K) (rid : Rid) (nodes : Nodes K) (items : List (Item K))
    (nodes' : Nodes K) (items' : List (Item K)) : Prop extends Reshaped nodes items nodes' items' where
  contents : contents items' = place (contents items) key rid

theorem Placed.around (placed : Placed key rid nodes here nodes' here')
    (low : ∀ e ∈ Index.contents front, e.1 < key) (high : ∀ e ∈ Index.contents back, key < e.1)
    (distinct : (pids (.inner pid :: (front ++ (here ++ back)))).Nodup)
    (present : ∀ q ∈ pids (.inner pid :: (front ++ (here ++ back))), nodes q ≠ none) :
    Placed key rid nodes (.inner pid :: (front ++ (here ++ back))) nodes'
    (.inner pid :: (front ++ (here' ++ back))) := by
  refine ⟨placed.toReshaped.around distinct present, ?_⟩
  simp only [contents_inner, contents_append, placed.contents]
  exact (place_append (fun e among => (low e among).le) high rid).symm

theorem Placed.rewritten {nodes'' : Nodes K} (placed : Placed key rid nodes items nodes' items')
    (among : pid ∈ pids items) (frame : ∀ q, q ≠ pid → nodes' q ≠ none → nodes'' q = nodes' q) :
    Placed key rid nodes items nodes'' items' :=
  ⟨⟨placed.linked, placed.first, placed.fresh, placed.distinct, fun q old away =>
    have kept := placed.frame q old away
    (frame q (fun same => away (same ▸ among)) (by rwa [kept])).trans kept⟩, placed.contents⟩

theorem Placed.split {out₁ out₂ : List (Item K)}
    (placed : Placed key rid nodes items nodes' (.inner pid :: (out₁ ++ out₂))) (among : pid ∈ pids items)
    (fresh : nodes' right = none) (present : ∀ q ∈ pids (.inner pid :: (out₁ ++ out₂)), nodes' q ≠ none) :
    Placed key rid nodes items (splitNodes nodes' pid right node) ((.inner pid :: out₁) ++ (.inner right :: out₂)) := by
  have new : right ∉ pids (.inner pid :: (out₁ ++ out₂)) := fun old => present right old fresh
  refine ⟨⟨fun after linked => ?_, fun after => ?_, fun q inside => ?_, ?_, fun q old away => ?_⟩, ?_⟩
  · have whole : Linked (out₁ ++ out₂) after := placed.linked after linked
    rw [linked_append] at whole
    exact linked_append.mpr whole
  · rw [← placed.first after, firstLeaf_append]
    show firstLeaf out₁ (firstLeaf out₂ after) = firstLeaf (out₁ ++ out₂) after
    rw [firstLeaf_append]
  · by_cases isRight : q = right
    · subst isRight
      by_contra neither
      rw [not_or] at neither
      have := placed.frame q neither.2 neither.1
      exact neither.2 (this.symm.trans fresh)
    · refine placed.fresh q ?_
      simpa [Item.pid, isRight] using inside
  · have middle : (pids ((.inner pid :: out₁) ++ (.inner right :: out₂))).Perm
      (right :: pids (.inner pid :: (out₁ ++ out₂))) := by
      simp only [pids_append, pids_cons]
      exact perm_middle
    exact middle.nodup_iff.mpr (nodup_cons.mpr ⟨new, placed.distinct⟩)
  · have kept := placed.frame q old away
    exact (splitNodes_other fresh (fun same : q = pid => away (same ▸ among)) (by rwa [kept])).trans kept
  · rw [← placed.contents]
    simp only [contents_append, contents_inner]

/-- A node an operation has got to. -/
structure AtNode (kt : KeyType K) (fill : Fill) (nodes : Nodes K) (height pid : ℕ) (lo hi : Option K)
    (pg : Pager) (node : Node K) (items : List (Item K)) : Prop where
  stored : Stored kt pg nodes
  here : nodes pid = some node
  coded : node.Coded kt
  fits : node.Fits kt
  holds : Holds (Filled kt fill) nodes height node pid lo hi items
  distinct : (pids items).Nodup

theorem AtNode.present (site : AtNode kt fill nodes height pid lo hi pg node items)
    (among : q ∈ pids items) : nodes q ≠ none := by
  rcases site.holds.stored among with rfl | present
  · simp [site.here]
  · exact present

theorem AtNode.part (site : AtNode kt fill nodes height pid lo hi pg node items)
    (least : node.AtLeast fill) : Part (Filled kt fill) nodes height pid lo hi items :=
  ⟨node, site.here, ⟨site.coded, site.fits, least⟩, site.holds⟩

section Insert

variable (kt : KeyType K) (fill : Fill) (key : K) (rid : Rid) (nodes : Nodes K) (fuel height pid : ℕ)
  (lo hi : Option K) (pg : Pager) (node : Node K) (items : List (Item K))

/-- How an insertion into a subtree returns. -/
inductive InsertReturns : Option (K × ℕ) → Held K → Prop where
  | stays (nodes' : Nodes K) (pg' : Pager) (node' : Node K) (items' : List (Item K))
    (site : AtNode kt fill nodes' height pid lo hi pg' node' items') (least : node.AtLeast fill → node'.AtLeast fill)
    (placed : Placed key rid nodes items nodes' items') (counted : Counted pg items pg' items')
    (extended : Extends (height + 1) pg pg') : InsertReturns none ⟨pg', node'⟩
  | splits (nodes' : Nodes K) (pg' : Pager) (node' left rightNode : Node K) (up : K) (right : ℕ)
    (items₁ items₂ : List (Item K)) (atLeft : AtNode kt fill nodes' height pid lo (some up) pg' left items₁)
    (atRight : AtNode kt fill nodes' height right (some up) hi pg' rightNode items₂)
    (least : left.AtLeast fill ∧ rightNode.AtLeast fill) (codes : kt.Codes up)
    (single : (internal [up] [] : Node K).Fits kt) (pushed : (grown kt nodes key rid fuel node).pushed kt = some up)
    (memory : ∃ items', Holds (Filled kt fill) nodes' height node' pid lo hi items' ∧
      Placed key rid nodes items nodes' items')
    (placed : Placed key rid nodes items nodes' (items₁ ++ items₂)) (counted : Counted pg items pg' (items₁ ++ items₂))
    (extended : Extends (height + 1) pg pg') : InsertReturns (some (up, right)) ⟨pg', node'⟩

/-- How an insertion into a subtree whose nodes below can be split raises: at the node itself, which then has
the entry in memory, or below it because the file is full. -/
inductive InsertRaises : Held K → Prop where
  | own (nodes' : Nodes K) (pg' : Pager) (node' : Node K) (items' : List (Item K)) (stored : Stored kt pg' nodes')
    (page : nodes' pid ≠ none) (holds : Holds (Filled kt fill) nodes' height node' pid lo hi items')
    (placed : Placed key rid nodes items nodes' items') (large : ¬ (grown kt nodes key rid fuel node).Fits kt)
    (cause : ¬ CanAllocate pg' ∨ ¬ (grown kt nodes key rid fuel node).HalvesFit kt)
    (extended : Extends (height + 1) pg pg') : InsertRaises ⟨pg', node'⟩
  | below (pg' : Pager) (node' : Node K) (inside : 0 < height) (cause : ¬ CanAllocate pg')
    (extended : Extends height pg pg') : InsertRaises ⟨pg', node'⟩

end Insert

theorem coded_place (coded : (leaf entries next).Coded kt)
    (fits : (leaf entries next).Fits kt) (writable : Node.Writable kt ridSuffix (key, rid)) :
    (leaf (place entries key rid) next).Coded kt := by
  obtain ⟨each, -, u32, real⟩ := coded
  refine ⟨fun e among => ?_, by rw [length_place]; exact count_of_fits fits, u32, real⟩
  rcases mem_cons.mp ((place_perm entries key rid).mem_iff.mp among) with rfl | old
  · exact writable
  · exact each e old

theorem cut_leaf (keyed : Keyed entries)
    (bounded : ∀ e ∈ entries, Above lo e.1 ∧ Below hi e.1) (large : ¬ (leaf entries next).Fits kt)
    (halves : (leaf entries next).HalvesFit kt) (separated : (leaf entries next).Separated)
    (pushed : (leaf entries next).pushed kt = some up) :
    (∀ e ∈ entries.take (entries.length / 2), Above lo e.1 ∧ e.1 < up) ∧ Apart lo (some up) ∧
      (∀ e ∈ entries.drop (entries.length / 2), up ≤ e.1 ∧ Below hi e.1) ∧ Below hi up ∧
      ∃ e ∈ entries.drop (entries.length / 2), e.1 = up := by
  rw [pushed_of_large large] at pushed
  obtain ⟨middle, here, rfl⟩ := Option.map_eq_some_iff.mp pushed
  obtain ⟨inside, isMiddle⟩ := List.getElem?_eq_some_iff.mp here
  have dropped : entries.drop (entries.length / 2) = middle :: entries.drop (entries.length / 2 + 1) := by
    rw [← isMiddle, getElem_cons_drop]
  have among : middle ∈ entries := mem_of_getElem? here
  have less (e : K × Rid) (early : e ∈ entries.take (entries.length / 2)) : e.1 < middle.1 :=
    separated e early middle (by rw [dropped]; exact mem_cons_self)
  -- the left half is not empty, or the right one would be the whole leaf
  obtain ⟨e, early⟩ : ∃ e, e ∈ entries.take (entries.length / 2) := by
    refine exists_mem_of_ne_nil _ fun empty => large ?_
    have none : entries.length / 2 = 0 := by
      have := congrArg List.length empty
      rw [length_take, length_nil] at this
      omega
    have whole := halves.2
    rwa [rightHalf, none, drop_zero] at whole
  refine ⟨fun e early => ⟨(bounded e (mem_of_mem_take early)).1, less e early⟩, ?_, fun e late => ?_,
    (bounded middle among).2, middle, by rw [dropped]; exact mem_cons_self, rfl⟩
  · exact (bounded e (mem_of_mem_take early)).1.apart ((below_some _ _).mpr (less e early))
  · refine ⟨?_, (bounded e (mem_of_mem_drop late)).2⟩
    have behind : Keyed (middle :: entries.drop (entries.length / 2 + 1)) := by
      rw [← dropped]
      exact keyed.sublist (drop_sublist _ _)
    rw [dropped] at late
    rcases mem_cons.mp late with rfl | later
    · exact le_refl _
    · exact (pairwise_cons.mp behind).1 e later

theorem placed_leaf (frame : ∀ q, q ≠ pid → nodes q ≠ none → nodes' q = nodes q) :
    Placed key rid nodes [.leaf pid entries next] nodes' [.leaf pid (place entries key rid) next] :=
  ⟨⟨fun _ linked => linked, fun _ => rfl, fun q among => .inl among, by simp,
    fun q old away => frame q (by simpa [Item.pid] using away) old⟩, by simp⟩

theorem placed_leaf_halves {mid : ℕ}
    (fresh : nodes right = none) (apart : pid ≠ right) (frame : ∀ q, q ≠ pid → nodes q ≠ none → nodes' q = nodes q) :
    Placed key rid nodes [.leaf pid entries next] nodes'
      ([.leaf pid ((place entries key rid).take mid) right] ++
        [.leaf right ((place entries key rid).drop mid) next]) := by
  refine ⟨⟨fun after linked => ⟨rfl, linked⟩, fun _ => rfl, fun q among => ?_, by simpa [Item.pid] using apart,
    fun q old away => frame q (by simpa [Item.pid] using away) old⟩, by simp⟩
  rcases (by simpa [Item.pid] using among : q = pid ∨ q = right) with rfl | rfl
  · exact .inl (by simp [Item.pid])
  · exact .inr fresh

theorem Held.wp_insertInto_leaf (keyed : Keyed entries) {Q : Option (K × ℕ) → Held K → Prop} {E : Exc → Held K → Prop} :
    (Held.insertInto kt key rid (fuel + 1) pid).wp Q E ⟨pg, .leaf entries next⟩ ↔
      (Held.writeOrSplit kt pid).wp Q E ⟨pg, .leaf (place entries key rid) next⟩ := by
  rw [Held.insertInto, wp_bind, wp_read]
  show (Held.hold _ >>= fun _ => _).wp _ _ _ ↔ _
  rw [wp_bind, Held.wp_hold, keyed.insertIdx_upperBound]

theorem wp_insertLeaf (halving : Halving kt fill)
    (site : AtNode kt fill nodes 0 pid lo hi pg (.leaf entries next) items)
    (writable : Node.Writable kt ridSuffix (key, rid)) (above : Above lo key) (below : Below hi key)
    (clean : ¬ (leaf (place entries key rid) next).Fits kt → (leaf (place entries key rid) next).HalvesFit kt →
      (leaf (place entries key rid) next).Separated) : (Held.insertInto kt key rid (fuel + 1) pid).wp
      (InsertReturns kt fill key rid nodes (fuel + 1) 0 pid lo hi pg (.leaf entries next) items)
      (fun _ => InsertRaises kt fill key rid nodes (fuel + 1) 0 pid lo hi pg (.leaf entries next) items)
    ⟨pg, .leaf entries next⟩ := by
  obtain ⟨rfl, keyed, bounded, apart⟩ := site.holds
  have page : nodes pid ≠ none := by simp [site.here]
  have coded := coded_place site.coded site.fits writable
  have keyed' := keyed.place key rid
  have bounded' (e : K × Rid) (among : e ∈ place entries key rid) : Above lo e.1 ∧ Below hi e.1 := by
    rcases mem_cons.mp ((place_perm entries key rid).mem_iff.mp among) with rfl | old
    · exact ⟨above, below⟩
    · exact bounded e old
  rw [Held.wp_insertInto_leaf keyed]
  refine site.stored.wp_writeOrSplit page coded (fun fits pg' stored extended => ?_)
    (fun large _ halves up right pg' fresh pushed stored extended => ?_)
    fun large e pg' nodes' cause stored frame page' extended => ?_
  · refine .stays _ pg' _ [.leaf pid (place entries key rid) next]
      ⟨stored, by simp, coded, fits, ⟨rfl, keyed', bounded', apart⟩, by simp⟩ (fun least => ?_)
      (placed_leaf fun q away _ => Function.update_of_ne away ..) ⟨by simpa using extended.numPages, extended.lastLsn⟩
      (extended.mono (Nat.zero_le _))
    rw [Node.AtLeast, length_place]
    exact Nat.le_succ_of_le least
  · have other : pid ≠ right := fun same => page (same ▸ fresh)
    obtain ⟨left, apartLeft, later, apartRight, e, among, isUp⟩ :=
      cut_leaf keyed' bounded' large halves (clean large halves) pushed
    have new : splitNodes nodes pid right (.leaf (place entries key rid) next) right ≠ none :=
      by simp [splitNodes_right]
    refine .splits _ pg' _ _ _ up right [.leaf pid ((place entries key rid).take _) right]
      [.leaf right ((place entries key rid).drop _) next] ⟨stored, splitNodes_left fresh page,
        leftHalf_coded coded (stored.usable new).2.2.1 (stored.nonzero new) large,
        leftHalf_fits.mpr halves.1, ⟨rfl, ?_, fun e early => ?_, apartLeft⟩, by simp⟩
      ⟨stored, splitNodes_right, rightHalf_coded coded large, halves.2, ⟨rfl, ?_, fun e late => ?_, ?_⟩, by simp⟩
      (halving.halves coded large right) ?_ ?_ pushed
      ⟨[.leaf pid (place entries key rid) next], ⟨rfl, keyed', bounded', apart⟩,
        placed_leaf fun _ => splitNodes_other fresh⟩
      (placed_leaf_halves fresh other fun _ => splitNodes_other fresh)
      ⟨by have := extended.numPages; simp; omega, extended.lastLsn⟩ extended
    · exact keyed'.sublist (take_sublist _ _)
    · exact ⟨(left e early).1, (below_some _ _).mpr (left e early).2⟩
    · exact keyed'.sublist (drop_sublist _ _)
    · exact ⟨(above_some _ _).mpr (later e late).1, (later e late).2⟩
    · exact (apart_some _ _).mpr apartRight
    · exact isUp ▸ (coded.1 e (mem_of_mem_drop among)).1
    · exact isUp ▸ single_of_entry halves.2 among
  · exact .own nodes' pg' _ [.leaf pid (place entries key rid) next] stored page' ⟨rfl, keyed', bounded', apart⟩
      (placed_leaf frame) large cause extended

/-- An internal node with a child in focus. -/
structure Focused (kt : KeyType K) (fill : Fill) (key : K) (nodes : Nodes K) (height pid : ℕ) (lo hi : Option K)
    (pg : Pager) (keys₁ keys₂ : List K) (children₁ children₂ : List ℕ) (child : ℕ) (l u : Option K)
    (front here back : List (Item K)) : Prop where
  site : AtNode kt fill nodes (height + 1) pid lo hi pg (.internal (keys₁ ++ keys₂) (children₁ ++ child :: children₂))
    (.inner pid :: (front ++ (here ++ back)))
  low : ∀ k ∈ keys₁, k ≤ key
  high : ∀ k ∈ keys₂, key < k
  leading : Leading (Part (Filled kt fill) nodes height) lo keys₁ children₁ l front
  trailing : Trailing (Part (Filled kt fill) nodes height) u keys₂ children₂ hi back

theorem AtNode.focus (site : AtNode kt fill nodes (height + 1) pid lo hi pg (.internal keys children) items) (key : K) :
    ∃ keys₁ keys₂ children₁ children₂ child l u front here back childNode,
      keys = keys₁ ++ keys₂ ∧ children = children₁ ++ child :: children₂ ∧
      items = .inner pid :: (front ++ (here ++ back)) ∧
      Focused kt fill key nodes height pid lo hi pg keys₁ keys₂ children₁ children₂ child l u front here back ∧
      AtNode kt fill nodes height child l u pg childNode here ∧ childNode.AtLeast fill := by
  obtain ⟨out, rfl, forest⟩ := holds_internal.mp site.holds
  obtain ⟨keys₁, keys₂, children₁, children₂, child, l, u, front, here, back, low, high, leading,
    ⟨childNode, found, filled, holds⟩, trailing⟩ := Lib.Forest.focus forest (Forest.separators forest) key
  have distinct : (pids here).Nodup := by
    have all := site.distinct
    simp only [pids_cons, pids_append, nodup_cons, nodup_append] at all
    exact all.2.2.1.1
  exact ⟨keys₁, keys₂, children₁, children₂, child, l, u, front, here, back, childNode, rfl, rfl, rfl,
    ⟨site, low, high, leading, trailing⟩, ⟨site.stored, found, filled.1, filled.2.1, holds, distinct⟩, filled.2.2⟩

section Focused

variable {keys₁ keys₂ : List K} {children₁ children₂ : List ℕ} {child : ℕ} {l u : Option K}
  (focus : Focused kt fill key nodes height pid lo hi pg keys₁ keys₂ children₁ children₂ child l u front here back)
include focus

theorem Focused.position : findChild (keys₁ ++ keys₂) (children₁ ++ child :: children₂) key = keys₁.length := by
  obtain ⟨out, -, forest⟩ := holds_internal.mp focus.site.holds
  exact findChild_focus (Forest.separators forest) focus.low focus.high focus.leading.length

theorem Focused.smaller : ∀ e ∈ contents front, e.1 < key := by
  intro e among
  obtain ⟨item, inside, isEntry⟩ := mem_flatMap.mp among
  exact Lib.Leading.before focus.leading (part_within height) focus.low inside isEntry

theorem Focused.greater : ∀ e ∈ contents back, key < e.1 := by
  intro e among
  obtain ⟨item, inside, isEntry⟩ := mem_flatMap.mp among
  exact Lib.Trailing.behind focus.trailing (part_within height) focus.high inside isEntry

theorem Focused.placed (placed : Placed key rid nodes here nodes' here') :
    Placed key rid nodes (.inner pid :: (front ++ (here ++ back))) nodes' (.inner pid :: (front ++ (here' ++ back))) :=
  placed.around focus.smaller focus.greater focus.site.distinct fun _ => focus.site.present

theorem Focused.same (reshaped : Reshaped nodes here nodes' here')
    (among : q = pid ∨ q ∈ pids front ∨ q ∈ pids back) : nodes' q = nodes q := by
  have distinct := focus.site.distinct
  simp only [pids_cons, pids_append, nodup_cons, nodup_append, mem_append, not_or, Item.pid] at distinct
  obtain ⟨⟨notFront, notHere, notBack⟩, -, ⟨-, -, apartBack⟩, apartFront⟩ := distinct
  refine reshaped.frame q (focus.site.present ?_) fun inside => ?_
  · simp only [pids_cons, pids_append, mem_cons, mem_append, Item.pid]
    exact among.imp id fun rest => rest.imp id .inr
  · rcases among with rfl | inFront | inBack
    · exact notHere inside
    · exact apartFront q inFront q (.inl inside) rfl
    · exact apartBack q inside q inBack rfl

theorem Focused.forest (reshaped : Reshaped nodes here nodes' here')
    (subtrees : Forest (Part (Filled kt fill) nodes' height) l keys children u here') :
    Forest (Part (Filled kt fill) nodes' height) lo (keys₁ ++ (keys ++ keys₂)) (children₁ ++ (children ++ children₂)) hi
      (front ++ (here' ++ back)) :=
  (forest_splice focus.leading.length subtrees.length focus.trailing.length).mpr ⟨l, u, front, here', back, rfl,
    Leading.carry focus.leading fun _ among => focus.same reshaped (.inr (.inl among)), subtrees,
    Trailing.carry focus.trailing fun _ among => focus.same reshaped (.inr (.inr among))⟩

theorem Focused.stays {childNode : Node K}
    (site : AtNode kt fill nodes' height child l u pg' childNode here') (least : childNode.AtLeast fill)
    (placed : Placed key rid nodes here nodes' here') (counted : Counted pg here pg' here')
    (extended : Extends (height + 1) pg pg') :
    InsertReturns kt fill key rid nodes (fuel + 1) (height + 1) pid lo hi pg
    (.internal (keys₁ ++ keys₂) (children₁ ++ child :: children₂))
      (.inner pid :: (front ++ (here ++ back))) none
      ⟨pg', .internal (keys₁ ++ keys₂) (children₁ ++ child :: children₂)⟩ := by
  have subtree : Forest (Part (Filled kt fill) nodes' height) l [] [child] u here' := .last (site.part least)
  have placed' := focus.placed placed
  exact .stays nodes' pg' _ (.inner pid :: (front ++ (here' ++ back)))
    ⟨site.stored, (focus.same placed.toReshaped (.inl rfl)).trans focus.site.here, focus.site.coded, focus.site.fits,
      ⟨_, rfl, focus.forest placed.toReshaped subtree⟩, placed'.distinct⟩ id placed' counted.around
      (extended.mono (Nat.le_succ _))

theorem Focused.wp_splits (halving : Halving kt fill) {left rightNode : Node K}
    {items₁ items₂ : List (Item K)} (atLeft : AtNode kt fill nodes' height child l (some up) pg' left items₁)
    (atRight : AtNode kt fill nodes' height right (some up) u pg' rightNode items₂)
    (least : left.AtLeast fill ∧ rightNode.AtLeast fill) (codes : kt.Codes up)
    (single : (internal [up] [] : Node K).Fits kt)
    (isGrown : ∃ children, grown kt nodes key rid (fuel + 1)
      (.internal (keys₁ ++ keys₂) (children₁ ++ child :: children₂)) =
      .internal (keys₁ ++ up :: keys₂) children)
    (placed : Placed key rid nodes here nodes' (items₁ ++ items₂)) (counted : Counted pg here pg' (items₁ ++ items₂))
    (extended : Extends (height + 1) pg pg') : (Held.writeOrSplit kt pid).wp
      (InsertReturns kt fill key rid nodes (fuel + 1) (height + 1) pid lo hi pg
        (.internal (keys₁ ++ keys₂) (children₁ ++ child :: children₂)) (.inner pid :: (front ++ (here ++ back))))
      (fun _ => InsertRaises kt fill key rid nodes (fuel + 1) (height + 1) pid lo hi pg
        (.internal (keys₁ ++ keys₂) (children₁ ++ child :: children₂)) (.inner pid :: (front ++ (here ++ back))))
      ⟨pg', .internal (keys₁ ++ up :: keys₂) (children₁ ++ child :: right :: children₂)⟩ := by
  have subtrees : Forest (Part (Filled kt fill) nodes' height) l [up] [child, right] u (items₁ ++ items₂) :=
    .next (atLeft.part least.1) (.last (atRight.part least.2))
  have placed' := focus.placed placed
  have forest := focus.forest placed.toReshaped subtrees
  have root : pid ∈ pids (.inner pid :: (front ++ (here ++ back))) := mem_cons_self
  have page : nodes' pid ≠ none := by
    rw [focus.same placed.toReshaped (.inl rfl)]
    exact focus.site.present root
  have notBelow (q : ℕ) (among : q ∈ pids (front ++ ((items₁ ++ items₂) ++ back))) : q ≠ pid := by
    rintro rfl
    exact (nodup_cons.mp placed'.distinct).1 among
  have holds : Holds (Filled kt fill) nodes' (height + 1) (.internal (keys₁ ++ up :: keys₂)
      (children₁ ++ child :: right :: children₂)) pid lo hi (.inner pid :: (front ++ ((items₁ ++ items₂) ++ back))) :=
    ⟨_, rfl, forest⟩
  have present (q : ℕ) (among : q ∈ pids (.inner pid :: (front ++ ((items₁ ++ items₂) ++ back)))) :
    nodes' q ≠ none := by
    rcases holds.stored among with rfl | present
    · exact page
    · exact present
  have coded : (internal (keys₁ ++ up :: keys₂) (children₁ ++ child :: right :: children₂)).Coded kt := by
    obtain ⟨keyCodes, -, u32, length⟩ := focus.site.coded
    have count : (keys₁ ++ keys₂).length + 1 < 2 ^ 16 := count_of_fits focus.site.fits
    have rightU32 : U32 right := (atRight.stored.usable (by simp [atRight.here])).2.2.1
    simp only [mem_append, mem_cons, length_append, length_cons] at keyCodes u32 length count
    refine ⟨fun k among => ?_, ?_, fun c among => ?_, ?_⟩
    · rcases mem_append.mp among with early | late
      · exact keyCodes k (.inl early)
      · rcases mem_cons.mp late with rfl | late
        · exact codes
        · exact keyCodes k (.inr late)
    · simp only [length_append, length_cons]
      omega
    · simp only [mem_append, mem_cons] at among
      rcases among with early | rfl | rfl | late
      · exact u32 c (.inl early)
      · exact u32 c (.inr (.inl rfl))
      · exact rightU32
      · exact u32 c (.inr (.inr late))
    · simp only [length_append, length_cons]
      omega
  obtain ⟨children, isGrown⟩ := isGrown
  refine atLeft.stored.wp_writeOrSplit page coded (fun fits pg'' stored grown' => ?_)
    (fun large _ halves up' right' pg'' fresh pushed stored grown' => ?_)
    fun large e pg'' nodes'' cause stored frame page' grown' => ?_
  · refine .stays _ pg'' _ _ ⟨stored, by simp, coded, fits, ⟨_, rfl, Forest.carry forest fun q among => ?_⟩,
      placed'.distinct⟩ (fun least => ?_) (placed'.rewritten root fun q away _ => Function.update_of_ne away ..)
      (counted.around.extends grown' rfl) ((extended.trans grown').mono (by omega))
    · exact Function.update_of_ne (notBelow q among) ..
    · simp only [Node.AtLeast, length_append, length_cons] at least ⊢
      omega
  · rw [pushed_of_large large] at pushed
    obtain ⟨out₁, out₂, cut, forestLeft, forestRight⟩ := Lib.Forest.halve forest pushed
    rw [cut] at placed' present notBelow holds
    have away {node : Node K} (q : ℕ) (among : q ∈ pids (out₁ ++ out₂)) :
      splitNodes nodes' pid right' node q = nodes' q :=
      splitNodes_other fresh (notBelow q among) (present q (mem_cons_of_mem _ among))
    have split : Placed key rid nodes (.inner pid :: (front ++ (here ++ back))) (splitNodes nodes' pid right'
        (.internal (keys₁ ++ up :: keys₂) (children₁ ++ child :: right :: children₂)))
        ((.inner pid :: out₁) ++ (.inner right' :: out₂)) := placed'.split root fresh present
    obtain ⟨distinctLeft, distinctRight, -⟩ := nodup_append.mp (pids_append ▸ split.distinct)
    have new : splitNodes nodes' pid right'
      (.internal (keys₁ ++ up :: keys₂) (children₁ ++ child :: right :: children₂)) right' ≠
      none := by simp [splitNodes_right]
    have length : ((.inner pid :: out₁) ++ (.inner right' :: out₂)).length =
        (Item.inner pid :: (front ++ ((items₁ ++ items₂) ++ back))).length + 1 := by
      rw [cut]
      simp only [length_append, length_cons]
      omega
    refine .splits _ pg'' _ _ _ up' right' _ _
      ⟨stored, splitNodes_left fresh page, leftHalf_coded coded (stored.usable new).2.2.1 (stored.nonzero new) large,
        leftHalf_fits.mpr halves.1,
        ⟨out₁, rfl, Forest.carry forestLeft fun q among => away q (by simp [among])⟩, distinctLeft⟩
      ⟨stored, splitNodes_right, rightHalf_coded coded large, halves.2,
        ⟨out₂, rfl, Forest.carry forestRight fun q among => away q (by simp [among])⟩, distinctRight⟩
      (halving.halves coded large right') (coded.1 up' (mem_of_getElem? pushed)) ?_ ?_
      ⟨_, holds.congr fun q among => ?_, placed'.rewritten root fun _ => splitNodes_other fresh⟩ split
      (counted.around.extends grown' length) ((extended.trans grown').mono (by omega))
    · have among := mem_of_getElem? pushed
      simp only [mem_append, mem_cons] at among
      rcases among with early | rfl | late
      · exact single_of_key focus.site.fits (by simp [early])
      · exact single
      · exact single_of_key focus.site.fits (by simp [late])
    · rw [isGrown]
      exact (pushed_of_large large).trans pushed
    · exact away q among
  · refine .own nodes'' pg'' _ _ stored page' (holds.congr fun q among => ?_) (placed'.rewritten root frame) ?_ ?_
      (extended.trans grown')
    · exact frame q (notBelow q among) (present q (mem_cons_of_mem _ among))
    · rw [isGrown]
      exact large
    · rw [isGrown]
      exact cause

end Focused

theorem wp_insertInto (halving : Halving kt fill) (site : AtNode kt fill nodes height pid lo hi pg node items)
    (writable : Node.Writable kt ridSuffix (key, rid)) (above : Above lo key) (below : Below hi key)
    (enough : height < fuel) (absorbs : Absorbs kt nodes key rid fuel node)
    (clean : ¬ (grown kt nodes key rid fuel node).Fits kt → (grown kt nodes key rid fuel node).HalvesFit kt →
      (grown kt nodes key rid fuel node).Separated) :
    (Held.insertInto kt key rid fuel pid).wp (InsertReturns kt fill key rid nodes fuel height pid lo hi pg node items)
      (fun _ => InsertRaises kt fill key rid nodes fuel height pid lo hi pg node items) ⟨pg, node⟩ := by
  induction height generalizing node pid lo hi items fuel with
  | zero =>
    obtain _ | fuel := fuel
    · omega
    match node, site with
    | .leaf entries next, site => exact wp_insertLeaf halving site writable above below clean
    | .internal keys children, site => exact site.holds.elim
  | succ height ih =>
    obtain _ | fuel := fuel
    · omega
    match node, site with
    | .leaf entries next, site => exact site.holds.elim
    | .internal keys children, site =>
      obtain ⟨keys₁, keys₂, children₁, children₂, child, l, u, front, here, back, childNode, rfl,
        rfl, rfl, focus, childSite, least⟩ := site.focus key
      have position := focus.position
      have inFocus : (children₁ ++ child :: children₂)[keys₁.length]?.bind nodes = some childNode := by
        rw [getElem?_focus focus.leading.length, Option.bind_some, childSite.here]
      rw [Absorbs, position] at absorbs
      obtain ⟨absorbsChild, settles⟩ := absorbs childNode inFocus
      rw [Held.insertInto, wp_bind, wp_read]
      simp only [position]
      rw [wp_bind, wp_childAt focus.leading.length, wp_bind, Held.wp_onPager,
        site.stored.wp_readNodeView childSite.here, wp_bind, Held.wp_within]
      refine (ih childSite (focus.leading.above above focus.low) (focus.trailing.below below focus.high)
        (by omega) absorbsChild fun large _ => (settles.resolve_left large).2).mono ?_ ?_
      · rintro split held returned
        cases returned with
        | stays nodes' pg' node' here' site' kept placed counted extended =>
          exact focus.stays site' (kept least) placed counted extended
        | splits nodes' pg' node' left rightNode up right items₁ items₂ atLeft atRight halves
            codes single pushed memory placed counted extended =>
          have isGrown : ∃ children, grown kt nodes key rid (fuel + 1) (.internal (keys₁ ++ keys₂)
              (children₁ ++ child :: children₂)) = .internal (keys₁ ++ up :: keys₂) children := by
            refine ⟨children₁ ++ child :: children₂, ?_⟩
            rw [grown, position, inFocus]
            simp only [Option.bind_some, pushed]
            rw [insertIdx_append rfl]
          have spliced : (children₁ ++ child :: children₂).insertIdx (keys₁.length + 1) right =
              children₁ ++ child :: right :: children₂ := by
            have split : children₁ ++ child :: children₂ = (children₁ ++ [child]) ++ children₂ := by simp
            rw [split, insertIdx_append (by simp [focus.leading.length])]
            simp
          show (Held.hold _ >>= fun _ => Held.writeOrSplit kt pid).wp _ _ _
          rw [wp_bind, Held.wp_hold, insertIdx_append rfl, spliced]
          exact focus.wp_splits halving atLeft atRight halves codes single isGrown placed counted extended
      · rintro e held raised
        cases raised with
        | own nodes' pg' node' items' stored page holds placed large cause extended =>
          exact .below pg' _ (Nat.succ_pos _)
            (cause.resolve_right fun not => not (settles.resolve_left large).1) extended
        | below pg' node' inside cause extended =>
          exact .below pg' _ (Nat.succ_pos _) cause (extended.mono (Nat.le_succ _))

end Tinydb.Index
