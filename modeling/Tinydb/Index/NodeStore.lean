import Tinydb.Index.Tree
import Tinydb.Storage.HeapChain

/-! The pages of an index as a store of nodes.

`Stored` says which node every page of the store reads back as. The operations of a
tree see the pager through three of its own only: a node is read, a node is written
over another one, and a page is taken that was in nobody's store. The lemmas here are
all that is used of the bytes on a page.
-/

namespace Tinydb.Index

open Lib Program Storage Heap Function Pager Node

/-- The nodes on the pages. -/
abbrev Nodes (K : Type) := ℕ → Option (Node K)

variable {K : Type} {pg : Pager} {pid m n : ℕ} {pg' : Pager} {kt : KeyType K} {nodes : Nodes K}
  {E : Exc → Pager → Prop} {node : Node K} {page : Page} {entries : List (K × Rid)} {next : ℕ}

/-- A page of the file that can hold a node and that the pager will not hand out. -/
structure Usable (pg : Pager) (lay : Layout) (pid : ℕ) : Prop where
  reserved : RESERVED_PAGES ≤ pid
  inside : pid < pg.numPages
  u32 : U32 pid
  real : pid ≠ NO_NEXT
  notFree : pid ∉ lay.free

theorem Usable.nonzero {lay : Layout} (usable : Usable pg lay pid) : pid ≠ 0 := by
  have := usable.reserved
  unfold RESERVED_PAGES at this
  omega

def Stored (kt : KeyType K) (pg : Pager) (nodes : Nodes K) : Prop :=
  ∃ lay, Laid [] pg lay ∧ ∀ pid node, nodes pid = some node →
    Usable pg lay pid ∧ ∀ unknown pid', Node.unpack kt unknown pid' (pg.file pid) = .ok node

/-- At most `n` pages were added to the file, and the reserved ones are as they were. -/
structure Extends (n : ℕ) (pg pg' : Pager) : Prop where
  numPages : pg'.numPages ≤ pg.numPages + n
  lastLsn : pg'.lastLsn = pg.lastLsn
  reserved : ∀ q, q ≠ 0 → q < RESERVED_PAGES → pg'.file q = pg.file q

theorem Extends.refl (pg : Pager) : Extends 0 pg pg := ⟨le_refl _, rfl, fun _ _ _ => rfl⟩

theorem Extends.trans {pg'' : Pager} (first : Extends m pg pg') (second : Extends n pg' pg'') :
    Extends (m + n) pg pg'' :=
  ⟨by have := first.numPages; have := second.numPages; omega, second.lastLsn.trans first.lastLsn,
    fun q nonzero small => (second.reserved q nonzero small).trans (first.reserved q nonzero small)⟩

theorem Extends.mono (grown : Extends m pg pg') (le : m ≤ n) : Extends n pg pg' :=
  ⟨grown.numPages.trans (Nat.add_le_add_left le _), grown.lastLsn, grown.reserved⟩

theorem extends_put (pg : Pager) (notReserved : RESERVED_PAGES ≤ pid) (page : Page) : Extends 0 pg (pg.put pid page) :=
  ⟨le_refl _, rfl, fun _ _ small => put_file_other _ _ (small.trans_le notReserved).ne⟩

theorem canAllocate_of_room (lsn : U32 pg.lastLsn) (room : pg.numPages + 1 < 2 ^ 32) : CanAllocate pg := by
  rw [CanAllocate]
  split
  case isTrue none =>
    refine ⟨room, ?_, lsn⟩
    rw [none]
    decide
  case isFalse => exact ⟨show pg.numPages < 2 ^ 32 by omega, nextPid_u32 _, lsn⟩

theorem unpackLeaf_of_unpack {unknown : String}
    (unpacked : Node.unpack kt unknown pid page = .ok (.leaf entries next)) :
    unpackLeaf kt pid page = .ok (entries, next) := by
  rw [Node.unpack] at unpacked
  split at unpacked
  case isTrue =>
    obtain ⟨⟨entries', next'⟩, leaf, same⟩ := bind_ok_iff.mp unpacked
    obtain ⟨rfl, rfl⟩ := Node.leaf.inj (Except.ok.inj same)
    exact leaf
  case isFalse =>
    split at unpacked
    case isFalse => cases unpacked
    case isTrue =>
      obtain ⟨_, -, ⟨⟩⟩ := bind_ok_iff.mp unpacked

namespace Stored

variable (stored : Stored kt pg nodes)
include stored

theorem usable (here : nodes pid ≠ none) :
    RESERVED_PAGES ≤ pid ∧ pid < pg.numPages ∧ U32 pid ∧ pid ≠ NO_NEXT := by
  obtain ⟨lay, -, each⟩ := stored
  obtain ⟨node, found⟩ := Option.ne_none_iff_exists'.mp here
  obtain ⟨usable, -⟩ := each pid node found
  exact ⟨usable.reserved, usable.inside, usable.u32, usable.real⟩

theorem nonzero (here : nodes pid ≠ none) : pid ≠ 0 := by
  have reserved := (stored.usable here).1
  unfold RESERVED_PAGES at reserved
  omega

theorem coded_pair {up : K} {left right : ℕ} (here : nodes left ≠ none)
    (there : nodes right ≠ none) (codes : kt.Codes up) : (internal [up] [left, right] : Node K).Coded kt := by
  refine ⟨by simpa using codes, by simp, ?_, rfl⟩
  simpa using ⟨(stored.usable here).2.2.1, (stored.usable there).2.2.1⟩

theorem wp_readPage (here : nodes pid ≠ none) {Q : Page → Pager → Prop} :
    (readPage pid).wp Q E pg ↔ Q (pg.file pid) pg := by
  have returned : (readPage pid).Returns pg (pg.file pid) pg := by
    rw [Program.Returns, readPage_apply (stored.usable here).2.1]
    exact ⟨rfl, rfl⟩
  exact wp_of_returns returned

theorem unpack (here : nodes pid = some node)
    (unknown : String) (pid' : ℕ) : Node.unpack kt unknown pid' (pg.file pid) = .ok node := by
  obtain ⟨lay, -, each⟩ := stored
  exact (each pid node here).2 unknown pid'

theorem wp_readNodeView (here : nodes pid = some node)
    {Q : Node K → Pager → Prop} : (readNodeView kt pid).wp Q E pg ↔ Q node pg := by
  rw [readNodeView, wp_bind, stored.wp_readPage (by simp [here]), stored.unpack here]
  rfl

theorem wp_readLeaf
    (here : nodes pid = some (.leaf entries next)) {Q : List (K × Rid) × ℕ → Pager → Prop} :
    (readLeaf kt pid).wp Q E pg ↔ Q (entries, next) pg := by
  rw [readLeaf, wp_bind, stored.wp_readPage (by simp [here]),
    unpackLeaf_of_unpack (stored.unpack here "page " pid)]
  rfl

end Stored

section

variable (stored : Stored kt pg nodes) (here : nodes pid ≠ none)
include stored here

theorem Stored.put (reads : ∀ unknown pid', Node.unpack kt unknown pid' page = .ok node) :
    Stored kt (pg.put pid page) (update nodes pid (some node)) := by
  obtain ⟨old, found⟩ := Option.ne_none_iff_exists'.mp here
  obtain ⟨lay, laid, each⟩ := stored
  have usable := (each pid old found).1
  refine ⟨lay, laid_put laid usable.nonzero usable.notFree page, fun q node' there => ?_⟩
  by_cases same : q = pid
  · subst same
    rw [update_self] at there
    cases there
    rw [put_file_same]
    exact ⟨⟨usable.reserved, usable.inside, usable.u32, usable.real, usable.notFree⟩, reads⟩
  · rw [update_of_ne same] at there
    rw [put_file_other _ _ same]
    obtain ⟨usable', reads'⟩ := each q node' there
    exact ⟨⟨usable'.reserved, usable'.inside, usable'.u32, usable'.real, usable'.notFree⟩, reads'⟩

theorem Stored.returns_writeNode (coded : node.Coded kt) (fits : node.Fits kt) :
    ∃ page, (writeNode kt pid node).Returns pg () (pg.put pid page) ∧
      Stored kt (pg.put pid page) (update nodes pid (some node)) := by
  obtain ⟨page, packed, reads⟩ := Node.pack_of_fits coded fits
  refine ⟨page, returns_bind.mpr ⟨page, pg, returns_ofExcept.mpr ⟨packed, rfl⟩, ?_⟩,
    stored.put here reads⟩
  rw [Program.Returns, writePage_inside (stored.nonzero here) (stored.usable here).2.1]
  exact ⟨rfl, rfl⟩

theorem Stored.wp_writeNode (coded : node.Coded kt) {Q : Unit → Pager → Prop}
    (written : node.Fits kt → ∀ pg', Stored kt pg' (update nodes pid (some node)) → Extends 0 pg pg' → Q () pg')
    (refused : ¬ node.Fits kt → ∀ e, e.cls = .btreeOverflowError → E e pg) : (writeNode kt pid node).wp Q E pg := by
  by_cases fits : node.Fits kt
  · obtain ⟨page, returned, stored'⟩ := stored.returns_writeNode here coded fits
    exact (wp_of_returns returned).mpr (written fits _ stored' (extends_put pg (stored.usable here).1 page))
  · obtain ⟨e, packed, overflow⟩ := pack_of_overflow coded fits
    rw [writeNode, wp_bind, packed, wp_ofExcept_error]
    exact refused fits e overflow

end

theorem wp_allocatePage_grows (pg : Pager) :
    allocatePage.wp (fun _ pg' => pg'.numPages ≤ pg.numPages + 1 ∧ pg'.lastLsn = pg.lastLsn)
      (fun _ pg' => pg'.numPages ≤ pg.numPages + 1 ∧ pg'.lastLsn = pg.lastLsn) pg := by
  rw [allocatePage, wp_bind, wp_read]
  split
  · simp only [wp_bind, wp_modify, writeAt, wp_mark, wp_writeHeader, wp_pure]
    exact ⟨fun _ => ⟨Nat.le_succ _, rfl⟩, fun _ => ⟨Nat.le_succ _, rfl⟩⟩
  · rw [wp_bind, wp_extendTo (Nat.lt_succ_self _)]
    exact ⟨fun _ => ⟨le_refl _, rfl⟩, fun _ => ⟨le_refl _, rfl⟩⟩

theorem unpack_zeroPage (unknown : String) (pid : ℕ) :
    Node.unpack kt unknown pid zeroPage = .ok (.leaf [] NO_NEXT) := by
  have zeros (off n : ℕ) (inside : off + n ≤ PAGE_SIZE) : slice zeroPage.bytes off n = List.replicate n 0 := by
    show ((List.replicate PAGE_SIZE 0).drop off).take n = _
    rw [List.drop_replicate, List.take_replicate, min_eq_left (by omega)]
  have kind : nodeType zeroPage = 0 := by rw [nodeType, zeros 0 1 (by decide)]; rfl
  have next : unpackLE (slice zeroPage.bytes 4 4) = 0 := by rw [zeros 4 4 (by decide)]; rfl
  have count : unpackLE (slice zeroPage.bytes 8 2) = 0 := by rw [zeros 8 2 (by decide)]; rfl
  rw [Node.unpack, if_pos (.inl kind), unpackLeaf, if_pos (.inl kind)]
  simp only [next, count]
  rfl

theorem Stored.wp_allocatePage (stored : Stored kt pg nodes) {Q : ℕ → Pager → Prop}
    (taken : ∀ pid pg', CanAllocate pg → nodes pid = none →
      Stored kt pg' (update nodes pid (some (.leaf [] NO_NEXT))) → Extends 1 pg pg' → Q pid pg')
    (full : ∀ pg', ¬ CanAllocate pg → ¬ CanAllocate pg' → Stored kt pg' nodes → Extends 1 pg pg' → E .packRange pg') :
    allocatePage.wp Q E pg := by
  obtain ⟨lay, laid, each⟩ := stored
  have carried {pg' : Pager} {lay' : Layout} (took : Took [] pg lay pg' lay') (pid : ℕ) (node : Node K)
      (there : nodes pid = some node) :
      Usable pg' lay' pid ∧ ∀ unknown pid', Node.unpack kt unknown pid' (pg'.file pid) = .ok node := by
    obtain ⟨usable, reads⟩ := each pid node there
    refine ⟨⟨usable.reserved, usable.inside.trans_le took.grows, usable.u32, usable.real, fun free =>
      usable.notFree (took.free.subset free)⟩, ?_⟩
    rw [took.same pid usable.nonzero usable.inside usable.notFree]
    exact reads
  have extended {pg' : Pager} {lay' : Layout} (took : Took [] pg lay pg' lay')
      (grown : pg'.numPages ≤ pg.numPages + 1 ∧ pg'.lastLsn = pg.lastLsn) : Extends 1 pg pg' := by
    refine ⟨grown.1, grown.2, fun q nonzero small => took.same q nonzero (small.trans_le laid.reserved) fun free => ?_⟩
    exact (small.trans_le (laid.freeInside q free).1).ne rfl
  refine ((Heap.wp_allocatePage laid).and (wp_allocatePage_grows pg)).mono ?_ ?_
  · rintro pid pg' ⟨⟨can, lay', took, fresh, source, -⟩, grown⟩
    have absent : nodes pid = none := by
      by_contra present
      obtain ⟨node, there⟩ := Option.ne_none_iff_exists'.mp present
      have usable := (each pid node there).1
      exact source.elim usable.notFree (Nat.not_le.mpr usable.inside)
    refine taken pid pg' can absent ⟨lay', took.laid, fun q node there => ?_⟩ (extended took grown)
    by_cases same : q = pid
    · subst same
      rw [update_self] at there
      cases there
      refine ⟨⟨fresh.reserved, fresh.inside, fresh.u32, fresh.real, fresh.notFree⟩, fun unknown pid' => ?_⟩
      rw [fresh.zero]
      exact unpack_zeroPage unknown pid'
    · rw [update_of_ne same] at there
      exact carried took q node there
  · rintro e pg' ⟨⟨rfl, cannot, still, lay', took⟩, grown⟩
    exact full pg' cannot still ⟨lay', took.laid, carried took⟩ (extended took grown)

end Tinydb.Index
