import Tinydb.Tx.Log

/-! What replay leaves on a page.

The touches of a page are visited by the first touch of each transaction number,
each with the last touch of that number. Redo takes the last committed one
visited, undo the first uncommitted one, and undo yields to redo.
-/

namespace Tinydb.Tx

open Lib Program Storage List Option Dict Analysis

/-- The touches of one page by the transaction numbers `keep` selects, in log order. -/
def touchesOn (keep : ℕ → Bool) (pid : ℕ) (entries : List LogEntry) : List ((ℕ × ℕ) × PageTouch) :=
  (touches entries).filter fun write => keep write.1.1 && write.1.2 = pid

def redoImage (entries : List LogEntry) (pid : ℕ) : Option Page :=
  (ofWrites (touchesOn (analysis entries).isCommitted pid entries)).items.getLast?.map (·.2.after)

def undoImage (entries : List LogEntry) (pid : ℕ) : Option Page :=
  (ofWrites (touchesOn (fun txId => !(analysis entries).isCommitted txId) pid entries)).items.head?.map
    (·.2.before)

def finalImage (entries : List LogEntry) (pid : ℕ) : Option Page := (redoImage entries pid).or (undoImage entries pid)

theorem Analysis.images_eq (found : Analysis) : found.images =
    ⟨.ofWrites ((found.pageTouches.items.filter fun entry => found.isCommitted entry.1.1).map fun entry =>
        (entry.1.2, entry.2.after)),
      .ofDefaults ((found.pageTouches.items.filter fun entry => !found.isCommitted entry.1.1).map fun entry =>
        (entry.1.2, entry.2.before))⟩ := by
  unfold images
  induction found.pageTouches.items using reverseRecOn with
  | nil => rfl
  | append_singleton items entry ih =>
    rw [foldl_append, ih]
    by_cases committed : found.isCommitted entry.1.1 = true
    · simp [classify, committed, ofWrites_concat]
    · simp [classify, committed, ofDefaults_concat]

variable {α : Type} (keep : α → Bool) (key : α → ℕ) (pid : ℕ) (items : List α) {pg : Pager} {images : Dict ℕ Page}
  {entry : ℕ × Page} {pid : ℕ} {entries : List LogEntry} {write : (ℕ × ℕ) × PageTouch} {page : Page}

theorem find?_map_key {β : Type} (value : α → β) :
    (((items.filter keep).map fun item => (key item, value item)).find? (·.1 = pid)).map Prod.snd =
      (items.filter fun item => keep item && key item = pid).head?.map value := by
  rw [find?_map, head?_filter, find?_filter, Option.map_map]
  simp only [Function.comp_def]
  congr 2
  funext item
  simp

theorem committedAfter_get? (entries : List LogEntry) (pid : ℕ) :
    (analysis entries).images.committedAfter.get? pid = redoImage entries pid := by
  have selected := filter_items_ofWrites
    (fun key : ℕ × ℕ => (analysis entries).isCommitted key.1 && key.2 = pid) (touches entries)
  rw [images_eq, get?_ofWrites, ← map_reverse, ← filter_reverse, find?_map_key,
    filter_reverse, head?_reverse, analysis_pageTouches, selected, redoImage, touchesOn]

theorem unknownBefore_get? (entries : List LogEntry) (pid : ℕ) :
    (analysis entries).images.unknownBefore.get? pid = undoImage entries pid := by
  have selected := filter_items_ofWrites
    (fun key : ℕ × ℕ => !(analysis entries).isCommitted key.1 && key.2 = pid) (touches entries)
  rw [images_eq, get?_ofDefaults, find?_map_key, analysis_pageTouches, selected, undoImage,
    touchesOn]

/-- Page writes with distinct targets, as their callers see them. -/
structure WroteAll (items : List (ℕ × Page)) (pg pg' : Pager) : Prop where
  fits : pg'.HeaderFits
  grows : pg.numPages ≤ pg'.numPages
  written : ∀ entry ∈ items, pg'.file entry.1 = entry.2 ∧ entry.1 < pg'.numPages
  other : ∀ q, q ≠ 0 → q ∉ items.map Prod.fst → q < pg.numPages → pg'.file q = pg.file q

def DataPage (pid : ℕ) : Prop := pid ≠ 0 ∧ U32 (pid + 1)

theorem forEach_writePage {items : List (ℕ × Page)} (distinct : (items.map Prod.fst).Nodup)
    (data : ∀ entry ∈ items, DataPage entry.1) (fits : pg.HeaderFits) :
    ∃ pg', (Program.forEach items fun entry => Pager.writePage entry.1 entry.2.bytes).Returns pg () pg' ∧
      WroteAll items pg pg' := by
  induction items generalizing pg with
  | nil => exact ⟨pg, by simp, fits, le_refl _, by simp, fun _ _ _ _ => rfl⟩
  | cons entry rest ih =>
    obtain ⟨apart, distinct⟩ := nodup_cons.mp distinct
    obtain ⟨nonzero, room⟩ := data entry (by simp)
    obtain ⟨middle, first, wrote⟩ := Pager.writePage_returns fits nonzero room entry.2
    obtain ⟨pg', others, all⟩ := ih distinct (fun e member => data e (by simp [member])) wrote.fits
    refine ⟨pg', returns_forEach_cons.mpr ⟨middle, first, others⟩, all.fits,
      wrote.grows.trans all.grows, ?_, ?_⟩
    · intro e member
      rcases mem_cons.mp member with rfl | later
      · rw [all.other e.1 nonzero apart wrote.inside]
        exact ⟨wrote.same, wrote.inside.trans_le all.grows⟩
      · exact all.written e later
    · intro q notHeader absent old
      rw [map_cons, mem_cons, not_or] at absent
      rw [all.other q notHeader absent.2 (old.trans_le wrote.grows), wrote.other q notHeader absent.1 old]

theorem sortedItems_perm (images : Dict ℕ Page) : (sortedItems images).Perm images.items := perm_insertionSort _ _

theorem mem_sortedItems : entry ∈ sortedItems images ↔ images.get? entry.1 = some entry.2 :=
  (sortedItems_perm images).mem_iff.trans ⟨get?_of_mem, mem_of_get?⟩

theorem sortedItems_distinct (images : Dict ℕ Page) : ((sortedItems images).map Prod.fst).Nodup :=
  ((sortedItems_perm images).map _).nodup_iff.mpr images.distinct

theorem mem_map_sortedItems : pid ∈ (sortedItems images).map Prod.fst ↔ images.get? pid ≠ none := by
  rw [((sortedItems_perm images).map Prod.fst).mem_iff, Ne, get?_eq_none, not_not, Dict.keys]

theorem mem_touches :
    write ∈ touches entries ↔ LogEntry.page write.2 ∈ entries ∧ write.1 = (write.2.txId, write.2.pageId) := by
  simp only [touches, mem_filterMap, map_eq_some_iff]
  constructor
  · rintro ⟨entry, member, touch, found, rfl⟩
    cases entry with
    | page other => cases found; exact ⟨member, rfl⟩
    | began _ | committed _ | rolledBack _ => cases found
  · rintro ⟨member, key⟩
    exact ⟨_, member, write.2, rfl, Prod.ext key.symm rfl⟩

theorem mem_touchesOn {keep : ℕ → Bool} : write ∈ touchesOn keep pid entries ↔
      LogEntry.page write.2 ∈ entries ∧ write.1 = (write.2.txId, pid) ∧ write.2.pageId = pid ∧
        keep write.2.txId = true := by
  rw [touchesOn, mem_filter, mem_touches]
  constructor
  · rintro ⟨⟨member, key⟩, selected⟩
    simp only [key, Bool.and_eq_true, decide_eq_true_eq] at selected
    exact ⟨member, key.trans (by rw [selected.2]), selected.2, selected.1⟩
  · rintro ⟨member, key, page, selected⟩
    exact ⟨⟨member, key.trans (by rw [page])⟩, by simp [key, selected]⟩

def OnDataPages (entries : List LogEntry) : Prop := ∀ touch, LogEntry.page touch ∈ entries → DataPage touch.pageId

theorem OnDataPages.of_redoImage (data : OnDataPages entries)
    (redone : redoImage entries pid = some page) : DataPage pid := by
  obtain ⟨write, last, -⟩ := map_eq_some_iff.mp redone
  obtain ⟨member, -, at', -⟩ := mem_touchesOn.mp (mem_of_mem_items_ofWrites (mem_of_getLast? last))
  exact at' ▸ data _ member

theorem OnDataPages.of_undoImage (data : OnDataPages entries)
    (undone : undoImage entries pid = some page) : DataPage pid := by
  obtain ⟨write, first, -⟩ := map_eq_some_iff.mp undone
  obtain ⟨member, -, at', -⟩ := mem_touchesOn.mp (mem_of_mem_items_ofWrites (mem_of_head? first))
  exact at' ▸ data _ member

/-- The outcome of recovery on the pager. -/
structure Replayed (entries : List LogEntry) (pg pg' : Pager) : Prop where
  fits : pg'.HeaderFits
  grows : pg.numPages ≤ pg'.numPages
  written : ∀ pid page, finalImage entries pid = some page → pg'.file pid = page ∧ pid < pg'.numPages
  other : ∀ pid, pid ≠ 0 → finalImage entries pid = none → pid < pg.numPages → pg'.file pid = pg.file pid

theorem mem_redone : entry ∈ (analysis entries).images.redone ↔ redoImage entries entry.1 = some entry.2 := by
  rw [Images.redone, mem_sortedItems, committedAfter_get?]

theorem mem_undone : entry ∈ (analysis entries).images.undone ↔
      redoImage entries entry.1 = none ∧ undoImage entries entry.1 = some entry.2 := by
  rw [Images.undone, mem_filter, mem_sortedItems, unknownBefore_get?, decide_eq_true_eq,
    ← get?_eq_none, committedAfter_get?, and_comm]

theorem Images.undone_distinct (images : Images) : (images.undone.map Prod.fst).Nodup :=
  (sortedItems_distinct images.unknownBefore).sublist (filter_sublist.map Prod.fst)

theorem replay_returns {wal : Wal} (holds : wal.Holds entries) (data : OnDataPages entries) (fits : pg.HeaderFits) :
    ∃ pg', (replay wal).Returns pg (analysis entries).stats pg' ∧ Replayed entries pg pg' := by
  obtain ⟨middle, redo, wroteRedo⟩ := forEach_writePage (sortedItems_distinct _)
    (fun entry member => data.of_redoImage (mem_redone.mp member)) fits
  obtain ⟨pg', undo, wroteUndo⟩ := forEach_writePage (Images.undone_distinct _)
    (fun entry member => data.of_undoImage (mem_undone.mp member).2) wroteRedo.fits
  have notUndone (pid : ℕ) (kept : finalImage entries pid = none ∨ redoImage entries pid ≠ none) :
      pid ∉ (analysis entries).images.undone.map Prod.fst := by
    intro member
    obtain ⟨entry, among, rfl⟩ := mem_map.mp member
    obtain ⟨noRedo, someUndo⟩ := mem_undone.mp among
    rcases kept with nothing | some'
    · simp [finalImage, noRedo, someUndo] at nothing
    · exact some' noRedo
  refine ⟨pg', ?_, wroteUndo.fits, wroteRedo.grows.trans wroteUndo.grows, ?_, ?_⟩
  · rw [replay, returns_bind]
    refine ⟨_, _, returns_ofExcept.mpr ⟨holds.scan, rfl⟩, ?_⟩
    rw [returns_bind]
    refine ⟨(), middle, redo, ?_⟩
    rw [returns_bind]
    exact ⟨(), pg', undo, returns_pure.mpr ⟨rfl, rfl⟩⟩
  · intro pid page final
    cases image : redoImage entries pid with
    | some kept =>
      have same : kept = page := by simpa [finalImage, image] using final
      subst same
      obtain ⟨written, inside⟩ := wroteRedo.written (pid, kept) (mem_redone.mpr image)
      rw [wroteUndo.other pid (data.of_redoImage image).1 (notUndone pid (.inr (by simp [image]))) inside]
      exact ⟨written, inside.trans_le wroteUndo.grows⟩
    | none =>
      have undoes : undoImage entries pid = some page := by simpa [finalImage, image] using final
      exact wroteUndo.written (pid, page) (mem_undone.mpr ⟨image, undoes⟩)
  · intro pid notHeader nothing inside
    have noRedo : pid ∉ (analysis entries).images.redone.map Prod.fst := by
      rw [Images.redone, mem_map_sortedItems, committedAfter_get?, not_not]
      cases image : redoImage entries pid with
      | none => rfl
      | some page => simp [finalImage, image] at nothing
    rw [wroteUndo.other pid notHeader (notUndone pid (.inl nothing)) (inside.trans_le wroteRedo.grows),
      wroteRedo.other pid notHeader noRedo inside]

end Tinydb.Tx
