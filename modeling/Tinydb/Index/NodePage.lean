import Mathlib.Algebra.Order.BigOperators.Group.List
import Tinydb.Index.Tree

/-! A node written to its page, for every node.

A node that fits is read back. One that does not is refused as an overflow, which makes the tree
split it, unless a count or a length that the page cannot even name is met first.
-/

namespace Tinydb.Index

open Lib Program Storage Pager Node List
open Heap (NO_NEXT Rid)

variable {K : Type} {kt : KeyType K} {node : Node K} {pg : Pager} {pid : ℕ}

/-- Writing reports an overflow exactly if the node does not fit, with nothing written; otherwise the page reads back.
-/
def WritesExactly (kt : KeyType K) (pg : Pager) (pid : ℕ) (node : Node K) : Prop :=
  if node.Fits kt then ∃ pg', (writeNode kt pid node).Returns pg () pg' ∧ (readNodeView kt pid).Returns pg' node pg'
  else ∃ e, e.cls = .btreeOverflowError ∧ (writeNode kt pid node).Raises pg e pg

theorem small_of_fits {T : Type} {suffix : Suffix T} {entries : List (K × T)}
    (fits : HEADER_SIZE + entriesSize kt suffix entries ≤ PAGE_SIZE) :
    entries.length < 2 ^ 16 ∧ ∀ e ∈ entries, kt.size e.1 ≤ 0xFFFF := by
  have page : PAGE_SIZE < 0xFFFF := by decide
  have many := length_le_sum_of_one_le (entries.map fun e => entrySize kt suffix e.1) fun size among => by
    obtain ⟨e, -, rfl⟩ := mem_map.mp among
    rw [entrySize]
    omega
  rw [length_map, ← entriesSize] at many
  refine ⟨by omega, fun e among => ?_⟩
  have part := single_le_sum (fun _ _ => Nat.zero_le _) _
    (mem_map_of_mem (f := fun e : K × T => entrySize kt suffix e.1) among)
  rw [← entriesSize, entrySize] at part
  omega

theorem codes_of_size {key : K} (encodes : ∃ bs, kt.encode key = .ok bs) (small : kt.size key ≤ 0xFFFF) :
    kt.Codes key := by
  obtain ⟨bs, encoded⟩ := encodes
  rw [KeyType.size, encoded] at small
  exact ⟨bs, encoded, small⟩

theorem Node.Shaped.coded (shaped : node.Shaped kt) (fits : node.Fits kt) : node.Coded kt := by
  cases node with
  | leaf entries next =>
    obtain ⟨packs, u32, real⟩ := shaped
    obtain ⟨count, small⟩ := small_of_fits fits
    exact ⟨fun e among => ⟨codes_of_size (packs e among).1 (small e among), (packs e among).2⟩, count, u32, real⟩
  | internal keys children =>
    obtain ⟨encodes, u32, length⟩ := shaped
    obtain ⟨count, small⟩ := small_of_fits
      (show HEADER_SIZE + entriesSize kt childSuffix (keys.map (·, 0)) ≤
        PAGE_SIZE by rw [entriesSize, map_map]; exact fits)
    rw [length_map] at count
    exact ⟨fun key among => codes_of_size (encodes key among) (small _ (mem_map_of_mem among)), count, u32, length⟩

theorem raises_writeNode {e : Exc} (packed : node.pack kt pid = .error e) : (writeNode kt pid node).Raises pg e pg := by
  rw [writeNode, packed]
  exact ⟨rfl, rfl⟩

theorem writesExactly_iff (shaped : node.Shaped kt) (nonzero : pid ≠ 0) (inside : pid < pg.numPages) :
    WritesExactly kt pg pid node ↔ node.Fits kt ∨ node.Overflows kt := by
  rw [WritesExactly]
  by_cases fits : node.Fits kt
  · obtain ⟨page, packed, reads⟩ := @pack_of_fits K kt pid node (shaped.coded fits) fits
    rw [if_pos fits]
    refine iff_of_true ⟨pg.put pid page, ?_, ?_⟩ (.inl fits)
    · rw [writeNode, packed]
      refine returns_bind.mpr ⟨page, pg, ⟨rfl, rfl⟩, ?_⟩
      rw [Returns, writePage_inside nonzero inside]
      exact ⟨rfl, rfl⟩
    · refine returns_bind.mpr ⟨page, pg.put pid page, ?_, ?_⟩
      · rw [Returns, readPage_apply (show pid < (pg.put pid page).numPages from inside), put_file_same]
        exact ⟨rfl, rfl⟩
      · rw [reads]
        exact ⟨rfl, rfl⟩
  · obtain ⟨e, packed, reported⟩ := @pack_beyond K kt pid node shaped fits
    rw [if_neg fits, or_iff_right fits, ← reported]
    refine ⟨?_, fun overflow => ⟨e, overflow, raises_writeNode packed⟩⟩
    rintro ⟨e', overflow, raised⟩
    obtain rfl := Except.error.inj ((raises_writeNode packed).1.symm.trans raised.1)
    exact overflow

theorem writesExactly_text : WritesExactly textKey (initNew.extended 5) 4 (.leaf [("key", ⟨7, 2⟩)] NO_NEXT) := by
  have packs : Packs textKey ridSuffix ("key", ⟨7, 2⟩) :=
    ⟨⟨_, bind_return_iff.mpr ⟨_, if_pos (by decide +kernel), rfl⟩⟩, _, rfl⟩
  have shaped : (Node.leaf [("key", ⟨7, 2⟩)] NO_NEXT).Shaped textKey := ⟨by simpa using packs, by decide, by decide⟩
  exact (writesExactly_iff shaped (by decide) (by decide)).mpr (.inl (by decide +kernel))

/-- More keys than the header can count. -/
theorem many_keys_not_overflow : ¬ ∀ (K : Type) (kt : KeyType K) (pg : Pager) (pid : ℕ) (node : Node K),
    node.Shaped kt → pid ≠ 0 →
    pid < pg.numPages → WritesExactly kt pg pid node := by
  intro claim
  obtain ⟨count, many⟩ : ∃ count, 2 ^ 16 ≤ count := ⟨_, le_refl _⟩
  let node : Node ℤ := .leaf (replicate count (0, ⟨7, 2⟩)) NO_NEXT
  have packs : Packs intKey ridSuffix (0, ⟨7, 2⟩) := ⟨⟨_, rfl⟩, _, rfl⟩
  have shaped : node.Shaped intKey := ⟨fun e among => eq_of_mem_replicate among ▸ packs, by decide, by decide⟩
  have uncounted : ¬ (replicate count ((0 : ℤ), (⟨7, 2⟩ : Rid))).length < 2 ^ 16 := by
    rw [length_replicate]
    omega
  have large : ¬ node.Fits intKey := fun fits => uncounted (shaped.coded fits).2.1
  obtain ⟨e, packed, reported⟩ := @pack_beyond ℤ intKey 4 node shaped large
  have exactly := claim ℤ intKey (initNew.extended 5) 4 node shaped (by decide) (by decide)
  rw [WritesExactly, if_neg large] at exactly
  obtain ⟨e', overflow, raised⟩ := exactly
  obtain rfl := Except.error.inj ((raises_writeNode packed).1.symm.trans raised.1)
  exact uncounted (reported.mp overflow).1

end Tinydb.Index
