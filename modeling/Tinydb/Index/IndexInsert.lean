import Tinydb.Index.TreeInsert
import Tinydb.Index.TreeSearch

/-! Insertion into an index.

The root is split like any other node, and a new root is put above the halves. An
insertion that raises at the root leaves a root in memory that has the entry, so the
index answers as if it had returned; one that raises below does not.
-/

namespace Tinydb.Index

open Lib Program Storage Heap Function BTreeIndex Pager Node

variable {K : Type} [LinearOrder K] {kt : KeyType K} {fill : Fill} {pg : Pager} {rootPid : ℕ} {idx : BTreeIndex K}
  {nodes : Nodes K} {height : ℕ} {root : Node K} {items : List (Item K)} {key : K} {rid : Rid} {α : Type}
  {Q : α → BTreeIndex K → Prop} {E : Exc → BTreeIndex K → Prop} {n : ℕ}

/-- An index whose root is on its page as it is in memory. -/
structure Rooted (kt : KeyType K) (fill : Fill) (idx : BTreeIndex K) (nodes : Nodes K) (height : ℕ)
    (root : Node K) (items : List (Item K)) : Prop where
  site : AtNode kt fill nodes height idx.rootPid none none idx.pager root items
  view : idx.rootView = some root ∨ idx.rootView = none
  linked : Linked items NO_NEXT

theorem Rooted.tree (rooted : Rooted kt fill idx nodes height root items) :
    Tree kt (Filled kt fill) idx nodes height root items :=
  ⟨⟨rooted.site.stored, by simp [rooted.site.here], rooted.view.imp id fun absent => ⟨absent, rooted.site.here⟩⟩,
    rooted.site.holds, rooted.site.distinct, rooted.linked⟩

theorem Rooted.weaken {fewer : Fill} (entries : fewer.entries ≤ fill.entries) (keys : fewer.keys ≤ fill.keys)
    (rooted : Rooted kt fill idx nodes height root items) : Rooted kt fewer idx nodes height root items := by
  refine ⟨⟨rooted.site.stored, rooted.site.here, rooted.site.coded, rooted.site.fits, rooted.site.holds.weaken ?_,
    rooted.site.distinct⟩, rooted.view, rooted.linked⟩
  rintro node ⟨coded, fits, least⟩
  refine ⟨coded, fits, ?_⟩
  cases node with
  | leaf _ _ => exact entries.trans least
  | internal _ _ => exact keys.trans least

def Inserted (kt : KeyType K) (fill : Fill) (key : K) (rid : Rid) (pg : Pager) (items : List (Item K))
    (idx' : BTreeIndex K) :
    Prop :=
  ∃ nodes' height' root' items', Rooted kt fill idx' nodes' height' root' items' ∧
    contents items' = place (contents items) key rid ∧ Counted pg items idx'.pager items'

/-- The index after an insertion that raised. -/
inductive NotInserted (kt : KeyType K) (fill : Fill) (key : K) (rid : Rid) (pg : Pager) (nodes : Nodes K)
    (fuel height : ℕ) (root : Node K) (items : List (Item K)) (idx' : BTreeIndex K) : Prop where
  | kept (nodes' : Nodes K) (root' : Node K) (items' : List (Item K))
    (tree : Tree kt (Filled kt fill) idx' nodes' height root' items')
    (same : contents items' = place (contents items) key rid)
    (cause : ¬ CanAllocate idx'.pager ∨
      ¬ (grown kt nodes key rid fuel root).Fits kt ∧ ¬ (grown kt nodes key rid fuel root).HalvesFit kt)
    (extended : Extends (height + 2) pg idx'.pager)
  | lost (inside : 0 < height) (cause : ¬ CanAllocate idx'.pager) (extended : Extends height pg idx'.pager)

omit [LinearOrder K] in
theorem wp_onRoot {p : HeldM K α} : (onRoot root p).wp Q E idx ↔
      p.wp (fun a held => Q a { idx with pager := held.pager, rootView := some held.node })
        (fun e held => E e { idx with pager := held.pager, rootView := some held.node }) ⟨idx.pager, root⟩ := Iff.rfl

omit [LinearOrder K] in
theorem wp_onPager {p : PagerM α} : (onPager p).wp Q E idx ↔
      p.wp (fun a pg => Q a { idx with pager := pg }) (fun e pg => E e { idx with pager := pg }) idx.pager := Iff.rfl

theorem Loaded.wp_insert (loaded : Loaded kt idx nodes root) {Q : Unit → BTreeIndex K → Prop} :
    (BTreeIndex.insert kt key rid).wp Q E idx ↔ (Held.insertInto kt key rid idx.fuel idx.rootPid).wp
      (fun split held => match split with
        | none => Q () ⟨held.pager, idx.rootPid, some held.node⟩
        | some (up, right) => allocatePage.wp
          (fun newRoot pg => (writeNode kt newRoot (.internal [up] [idx.rootPid, right])).wp
            (fun _ pg' => Q () ⟨pg', newRoot, some (.internal [up] [idx.rootPid, right])⟩)
            (fun e pg' => E e ⟨pg', idx.rootPid, some held.node⟩) pg)
          (fun e pg => E e ⟨pg, idx.rootPid, some held.node⟩) held.pager)
      (fun e held => E e ⟨held.pager, idx.rootPid, some held.node⟩) ⟨idx.pager, root⟩ := by
  rw [BTreeIndex.insert, wp_bind, loaded.wp_ensureLoaded, wp_bind, wp_read, wp_bind, wp_onRoot]
  refine wp_congr (fun split held => ?_) fun _ _ => Iff.rfl
  cases split with
  | none => exact Iff.rfl
  | some pair =>
    obtain ⟨up, right⟩ := pair
    show (onPager allocatePage >>= _).wp _ _ _ ↔ _
    rw [wp_bind, wp_onPager]
    refine wp_congr (fun newRoot pg => ?_) fun _ _ => Iff.rfl
    rw [wp_bind, wp_onPager]
    exact Iff.rfl

theorem rooted_above {pg' : Pager} {left rightNode : Node K} {up : K} {right newRoot : ℕ}
    {items₁ items₂ : List (Item K)} (atLeft : AtNode kt fill nodes height rootPid none (some up) pg' left items₁)
    (atRight : AtNode kt fill nodes height right (some up) none pg' rightNode items₂)
    (least : left.AtLeast fill ∧ rightNode.AtLeast fill) (distinct : (pids (items₁ ++ items₂)).Nodup)
    (linked : Linked (items₁ ++ items₂) NO_NEXT) (fresh : nodes newRoot = none)
    (stored : Stored kt pg (update nodes newRoot (some (.internal [up] [rootPid, right]))))
    (coded : (internal [up] [rootPid, right] : Node K).Coded kt) (single : (internal [up] [] : Node K).Fits kt) :
    Rooted kt fill ⟨pg, newRoot, some (.internal [up] [rootPid, right])⟩
      (update nodes newRoot (some (.internal [up] [rootPid, right]))) (height + 1) (.internal [up] [rootPid, right])
      (.inner newRoot :: (items₁ ++ items₂)) := by
  have away (q : ℕ) (among : q ∈ pids (items₁ ++ items₂)) : q ≠ newRoot := by
    rintro rfl
    rw [pids_append] at among
    exact (List.mem_append.mp among).elim (fun left => atLeft.present left fresh) fun right =>
      atRight.present right fresh
  have forest : Forest (Part (Filled kt fill) nodes height) none [up] [rootPid, right] none (items₁ ++ items₂) :=
    .next (atLeft.part least.1) (.last (atRight.part least.2))
  refine ⟨⟨stored, by simp, coded, single, ⟨_, rfl, Forest.carry forest fun q among => ?_⟩, ?_⟩, .inl rfl, linked⟩
  · exact update_of_ne (away q among) ..
  · exact List.nodup_cons.mpr ⟨fun among => away newRoot among rfl, distinct⟩

theorem Rooted.wp_insert (halving : Halving kt fill) (rooted : Rooted kt fill idx nodes height root items)
    (writable : Node.Writable kt ridSuffix (key, rid)) (absorbs : Absorbs kt nodes key rid idx.fuel root)
    (clean : ¬ (grown kt nodes key rid idx.fuel root).Fits kt → (grown kt nodes key rid idx.fuel root).HalvesFit kt →
      (grown kt nodes key rid idx.fuel root).Separated) :
    (BTreeIndex.insert kt key rid).wp (fun _ => Inserted kt fill key rid idx.pager items)
      (fun _ => NotInserted kt fill key rid idx.pager nodes idx.fuel height root items) idx := by
  have tree := rooted.tree
  rw [tree.toLoaded.wp_insert]
  refine (wp_insertInto halving rooted.site writable (above_none _) (below_none _) tree.enough absorbs clean).mono ?_ ?_
  · rintro split held returned
    cases returned with
    | stays nodes' pg' root' items' site least placed counted extended =>
      exact ⟨nodes', height, root', items', ⟨site, .inl rfl, placed.linked _ rooted.linked⟩, placed.contents, counted⟩
    | splits nodes' pg' root' left rightNode up right items₁ items₂ atLeft atRight least codes
        single pushed memory placed counted extended =>
      obtain ⟨items', holds, memory⟩ := memory
      have page : nodes' idx.rootPid ≠ none := by simp [atLeft.here]
      refine atLeft.stored.wp_allocatePage (fun newRoot pg₁ _ fresh stored₁ grown₁ => ?_)
        fun pg₁ _ cannot stored₁ grown₁ => ?_
      · have coded := atLeft.stored.coded_pair page (show nodes' right ≠ none by simp [atRight.here]) codes
        refine stored₁.wp_writeNode (by simp) coded (fun _ pg₂ stored₂ grown₂ => ?_) fun large => (large single).elim
        rw [update_idem] at stored₂
        refine ⟨_, _, _, _, rooted_above atLeft atRight least placed.distinct
          (placed.linked _ rooted.linked) fresh stored₂
          coded single, placed.contents, counted.extends (grown₁.trans grown₂) rfl⟩
      · exact .kept nodes' root' items' ⟨⟨stored₁, page, .inl rfl⟩, holds, memory.distinct,
          memory.linked _ rooted.linked⟩ memory.contents (.inl cannot) (extended.trans grown₁)
  · rintro e held raised
    cases raised with
    | own nodes' pg' root' items' stored page holds placed large cause extended =>
      exact .kept nodes' root' items' ⟨⟨stored, page, .inl rfl⟩, holds, placed.distinct, placed.linked _ rooted.linked⟩
        placed.contents (cause.imp id fun not => ⟨large, not⟩) (extended.mono (Nat.le_succ _))
    | below pg' root' inside cause extended => exact .lost inside cause extended

def JustAllocated (pg : Pager) (pid : ℕ) : Prop :=
  ∃ before lay, Laid [] before lay ∧ allocatePage.Returns before pid pg

/-- The file of `n` pages whose free list is empty. -/
def blankFile (n : ℕ) : Pager := { initNew with numPages := n }

theorem laid_blankFile (reserved : RESERVED_PAGES ≤ n) : Laid [] (blankFile n) ⟨fun _ => [], []⟩ := by
  have start := laid_initNew
  exact ⟨start.chain, start.free, start.nonempty, start.distinct, start.freeDistinct, start.apart,
    start.notFree, by simp, by simp, start.slotted, reserved, start.magic⟩

theorem justAllocated_behind (reserved : RESERVED_PAGES ≤ n) (room : n + 1 < 2 ^ 32) :
    JustAllocated ((blankFile n).extended (n + 1)) n := by
  refine ⟨blankFile n, _, laid_blankFile reserved, ?_⟩
  have ends : allocatePage.wp (fun pid pg => pid = n ∧ pg = (blankFile n).extended (n + 1)) (fun _ _ => False)
      (blankFile n) := by
    rw [allocatePage, wp_bind, wp_read, if_neg (show ¬ (blankFile n).freeHead ≠ NO_FREE from not_not_intro rfl),
      wp_bind, wp_extendTo (Nat.lt_succ_self _)]
    exact ⟨fun _ => ⟨rfl, rfl⟩, fun large => large ⟨room, show U32 NO_FREE by decide, show U32 0 by decide⟩⟩
  obtain ⟨_, _, returned, rfl, rfl⟩ := ends.exists_returns
  exact returned

theorem rooted_new (fresh : JustAllocated pg rootPid) (fill : Fill) :
    ∃ nodes, Rooted kt fill (BTreeIndex.new pg rootPid) nodes 0 (.leaf [] NO_NEXT) [.leaf rootPid [] NO_NEXT] := by
  obtain ⟨before, lay, laid, taken⟩ := fresh
  have empty : Stored kt before fun _ => none := ⟨lay, laid, fun _ _ absent => by cases absent⟩
  have post : allocatePage.wp (fun pid pg' => Stored kt pg' (update (fun _ => none) pid (some (.leaf [] NO_NEXT))))
      (fun _ _ => True) before :=
    empty.wp_allocatePage (fun _ _ _ _ stored _ => stored) fun _ _ _ _ _ => trivial
  exact ⟨_, ⟨post.returns taken, by simp [BTreeIndex.new], coded_empty, fits_empty,
    ⟨rfl, List.Pairwise.nil, by simp, by simp⟩, by simp⟩, .inr rfl, ⟨rfl, trivial⟩⟩

end Tinydb.Index
