import Tinydb.Index.NodeStore

/-! Splitting a node that does not fit its page.

A node is cut in the middle by the number of its keys. The left half is written to
the node's own page before the right half is written to a new one, so a split fails
half-way when the right half does not fit; a node that cannot get a page is left as it
was.
-/

namespace Tinydb.Index

open Lib Program Storage Heap List Function Node

variable {K : Type} {kt : KeyType K} {pg : Pager} {nodes : Nodes K} {pid : ℕ} {node : Node K}
  {Q : K × ℕ → Pager → Prop} {E : Exc → Pager → Prop}

namespace Node

def leftHalf (right : ℕ) : Node K → Node K
  | .leaf entries _ => .leaf (entries.take (entries.length / 2)) right
  | .internal keys children => .internal (keys.take (keys.length / 2)) (children.take (keys.length / 2 + 1))

def rightHalf : Node K → Node K
  | .leaf entries next => .leaf (entries.drop (entries.length / 2)) next
  | .internal keys children => .internal (keys.drop (keys.length / 2 + 1)) (children.drop (keys.length / 2 + 1))

def middle : Node K → Option K
  | .leaf entries _ => entries[entries.length / 2]?.map Prod.fst
  | .internal keys _ => keys[keys.length / 2]?

def HalvesFit (kt : KeyType K) (node : Node K) : Prop := (node.leftHalf 0).Fits kt ∧ node.rightHalf.Fits kt

def pushed (kt : KeyType K) (node : Node K) : Option K := if node.Fits kt then none else node.middle

variable {right : ℕ}

theorem leftHalf_fits : (node.leftHalf right).Fits kt ↔ (node.leftHalf 0).Fits kt := by
  cases node <;> exact Iff.rfl

theorem pushed_of_large (large : ¬ node.Fits kt) : node.pushed kt = node.middle := if_neg large

theorem leaf_nonempty {entries : List (K × Rid)} {next : ℕ} (large : ¬ (leaf entries next).Fits kt) :
    entries ≠ [] := by
  rintro rfl
  exact large (show HEADER_SIZE + 0 ≤ PAGE_SIZE by decide)

theorem internal_nonempty {keys : List K} {children : List ℕ} (large : ¬ (internal keys children).Fits kt) :
    keys ≠ [] := by
  rintro rfl
  exact large (show HEADER_SIZE + 0 ≤ PAGE_SIZE by decide)

theorem middle_of_large (large : ¬ node.Fits kt) : ∃ up, node.middle = some up := by
  cases node with
  | leaf entries next =>
    have := length_pos_of_ne_nil (leaf_nonempty large)
    have inside : entries.length / 2 < entries.length := by omega
    exact ⟨entries[entries.length / 2].1, by rw [middle, getElem?_eq_getElem inside]; rfl⟩
  | internal keys children =>
    have := length_pos_of_ne_nil (internal_nonempty large)
    have inside : keys.length / 2 < keys.length := by omega
    exact ⟨keys[keys.length / 2], getElem?_eq_getElem inside⟩

theorem leftHalf_coded (coded : node.Coded kt) (u32 : U32 right) (real : right ≠ 0) (large : ¬ node.Fits kt) :
    (node.leftHalf right).Coded kt := by
  cases node with
  | leaf entries next =>
    obtain ⟨writable, count, -, -⟩ := coded
    refine ⟨fun e among => writable e (mem_of_mem_take among), ?_, u32, real⟩
    exact (length_take_le _ _).trans_lt (by omega)
  | internal keys children =>
    obtain ⟨codes, count, u32, length⟩ := coded
    have := length_pos_of_ne_nil (internal_nonempty large)
    refine ⟨fun key among => codes key (mem_of_mem_take among), ?_,
      fun child among => u32 child (mem_of_mem_take among), ?_⟩
    · exact (length_take_le _ _).trans_lt (by omega)
    · rw [length_take, length_take]
      omega

theorem rightHalf_coded (coded : node.Coded kt) (large : ¬ node.Fits kt) : node.rightHalf.Coded kt := by
  cases node with
  | leaf entries next =>
    obtain ⟨writable, count, u32, real⟩ := coded
    exact ⟨fun e among => writable e (mem_of_mem_drop among), by rw [length_drop]; omega, u32, real⟩
  | internal keys children =>
    obtain ⟨codes, count, u32, length⟩ := coded
    have := length_pos_of_ne_nil (internal_nonempty large)
    refine ⟨fun key among => codes key (mem_of_mem_drop among), by rw [length_drop]; omega,
      fun child among => u32 child (mem_of_mem_drop among), ?_⟩
    rw [length_drop, length_drop]
    omega

end Node

theorem wp_split {up : K} (middle : node.middle = some up) :
    (split kt pid node).wp Q E pg ↔ Pager.allocatePage.wp (fun right pg' =>
      (writeNode kt pid (node.leftHalf right)).wp (fun _ pg' => (writeNode kt right node.rightHalf).wp
        (fun _ pg' => Q (up, right) pg') E pg') E pg') E pg := by
  cases node with
  | leaf entries next =>
    obtain ⟨⟨key, rid⟩, here, rfl⟩ := Option.map_eq_some_iff.mp middle
    simp only [split, splitLeaf, wp_bind, here, wp_pure]
    rfl
  | internal keys children =>
    have here : keys[keys.length / 2]? = some up := middle
    simp only [split, splitInternal, here, wp_bind, wp_pure]
    rfl

def splitNodes (nodes : Nodes K) (pid right : ℕ) (node : Node K) : ℕ → Option (Node K) :=
  update (update nodes pid (some (node.leftHalf right))) right (some node.rightHalf)

section Nodes

variable {right : ℕ} (fresh : nodes right = none)

theorem splitNodes_right : splitNodes nodes pid right node right = some node.rightHalf := update_self ..

include fresh

theorem splitNodes_left (here : nodes pid ≠ none) :
    splitNodes nodes pid right node pid = some (node.leftHalf right) := by
  have apart : pid ≠ right := fun same => here (same ▸ fresh)
  rw [splitNodes, update_of_ne apart, update_self]

theorem splitNodes_other {q : ℕ} (away : q ≠ pid) (old : nodes q ≠ none) :
    splitNodes nodes pid right node q = nodes q := by
  have notRight : q ≠ right := fun same => old (same ▸ fresh)
  rw [splitNodes, update_of_ne notRight, update_of_ne away]

end Nodes

theorem Stored.wp_split (stored : Stored kt pg nodes) (here : nodes pid ≠ none) (coded : node.Coded kt)
    (large : ¬ node.Fits kt)
    (halved : CanAllocate pg → node.HalvesFit kt → ∀ up right pg', nodes right = none → node.pushed kt = some up →
      Stored kt pg' (splitNodes nodes pid right node) → Extends 1 pg pg' → Q (up, right) pg')
    (failed : ∀ e pg' nodes', ¬ CanAllocate pg' ∨ ¬ node.HalvesFit kt → Stored kt pg' nodes' →
      (∀ q, q ≠ pid → nodes q ≠ none → nodes' q = nodes q) → nodes' pid ≠ none → Extends 1 pg pg' → E e pg') :
    (split kt pid node).wp Q E pg := by
  obtain ⟨up, middle⟩ := middle_of_large large
  rw [Index.wp_split middle]
  refine stored.wp_allocatePage (fun right pg₁ can fresh stored₁ grown₁ => ?_) fun pg₁ _ cannot stored₁ grown₁ =>
    failed _ pg₁ nodes (.inl cannot) stored₁ (fun _ _ _ => rfl) here grown₁
  have apart : pid ≠ right := fun same => here (same ▸ fresh)
  have present : update nodes right (some (.leaf [] NO_NEXT)) pid ≠ none := by
    rwa [update_of_ne apart]
  have other {q : ℕ} (old : nodes q ≠ none) : q ≠ right := fun same => old (same ▸ fresh)
  obtain ⟨reserved, -, u32, -⟩ := stored₁.usable (show update nodes right _ right ≠ none by simp)
  have real : right ≠ 0 := by
    unfold RESERVED_PAGES at reserved
    omega
  refine stored₁.wp_writeNode present (leftHalf_coded coded u32 real large) (fun fitsLeft pg₂ stored₂ grown₂ => ?_)
    fun tooLong e _ => ?_
  · refine stored₂.wp_writeNode (by rw [update_of_ne apart.symm]; simp) (rightHalf_coded coded large)
      (fun fitsRight pg₃ stored₃ grown₃ => ?_) fun tooLong e _ => ?_
    · have whole : update (update (update nodes right (some (.leaf [] NO_NEXT))) pid
          (some (node.leftHalf right))) right (some node.rightHalf) = splitNodes nodes pid right node := by
        rw [splitNodes, update_comm apart.symm, update_idem]
      rw [whole] at stored₃
      exact halved can ⟨leftHalf_fits.mp fitsLeft, fitsRight⟩ up right pg₃ fresh
        ((pushed_of_large large).trans middle) stored₃ ((grown₁.trans grown₂).trans grown₃)
    · refine failed e pg₂ _ (.inr fun fits => tooLong fits.2) stored₂ (fun q away old => ?_)
        (by simp) (grown₁.trans grown₂)
      rw [update_of_ne away, update_of_ne (other old)]
  · refine failed e pg₁ _ (.inr fun fits => tooLong (leftHalf_fits.mpr fits.1)) stored₁ (fun q _ old => ?_) present
      grown₁
    rw [update_of_ne (other old)]

variable {E : Exc → Held K → Prop} {α : Type} {Q : α → Held K → Prop}

theorem Held.wp_onPager {p : PagerM α} :
    (Held.onPager p).wp Q E ⟨pg, node⟩ ↔ p.wp (fun a pg' => Q a ⟨pg', node⟩) (fun e pg' => E e ⟨pg', node⟩) pg :=
    Iff.rfl

theorem Held.wp_within {child : Node K} {p : HeldM K α} : (Held.within child p).wp Q E ⟨pg, node⟩ ↔
      p.wp (fun a inner => Q a ⟨inner.pager, node⟩) (fun e inner => E e ⟨inner.pager, node⟩) ⟨pg, child⟩ := Iff.rfl

variable {Q : Unit → Held K → Prop}

theorem Held.wp_hold {node' : Node K} :
    (Held.hold node').wp Q E ⟨pg, node⟩ ↔ Q () ⟨pg, node'⟩ := Iff.rfl

theorem Held.wp_write : (Held.write kt pid).wp Q E ⟨pg, node⟩ ↔
    (writeNode kt pid node).wp (fun a pg' => Q a ⟨pg', node⟩) (fun e pg' => E e ⟨pg', node⟩) pg := Iff.rfl

theorem Stored.wp_writeOrSplit (stored : Stored kt pg nodes) (here : nodes pid ≠ none) (coded : node.Coded kt)
    {Q : Option (K × ℕ) → Held K → Prop}
    (kept : node.Fits kt → ∀ pg', Stored kt pg' (update nodes pid (some node)) → Extends 0 pg pg' →
      Q none ⟨pg', node⟩)
    (halved : ¬ node.Fits kt → CanAllocate pg → node.HalvesFit kt → ∀ up right pg', nodes right = none →
      node.pushed kt = some up → Stored kt pg' (splitNodes nodes pid right node) → Extends 1 pg pg' →
      Q (some (up, right)) ⟨pg', node⟩)
    (failed : ¬ node.Fits kt → ∀ e pg' nodes', ¬ CanAllocate pg' ∨ ¬ node.HalvesFit kt → Stored kt pg' nodes' →
      (∀ q, q ≠ pid → nodes q ≠ none → nodes' q = nodes q) → nodes' pid ≠ none → Extends 1 pg pg' → E e ⟨pg', node⟩) :
    (Held.writeOrSplit kt pid).wp Q E ⟨pg, node⟩ := by
  rw [Held.writeOrSplit, wp_bind, wp_read, wp_catching, wp_bind, Held.wp_write]
  refine stored.wp_writeNode here coded kept fun large e overflow => ?_
  rw [if_pos overflow, wp_bind, Held.wp_onPager]
  exact stored.wp_split here coded large (halved large) (failed large)

end Tinydb.Index
