import Tinydb.Tx.Replay
import Tinydb.Tx.Rollback

/-! Recovery that is stopped and started again.

Recovery writes each page once, with an image that does not depend on what the pages hold. A page that has its
image already is written with the same bytes again, so a second run passes over the writes of the first
one without a change and then goes on where it stopped.
-/

namespace Tinydb.Storage.Pager

open Lib Program Function

variable {pg pg' : Pager} {pid : ℕ} {page : Page} {entry : ℕ × Page}

theorem wrote_wrote (pg : Pager) (pid : ℕ) (before after : Page) :
    (pg.wrote pid before).wrote pid after = pg.wrote pid after := by
  show { pg with file := update (update pg.file pid _) pid _ } = _
  rw [update_idem]
  rfl

theorem wrote_comm (other : entry.1 ≠ pid) :
    (pg.wrote pid page).wrote entry.1 entry.2 = (pg.wrote entry.1 entry.2).wrote pid page := by
  show { pg with file := update (update pg.file pid _) entry.1 _ } = _
  rw [update_comm other.symm]
  rfl

/-- Writing the page again changes nothing. -/
structure Settled (pg : Pager) (entry : ℕ × Page) : Prop where
  inside : entry.1 < pg.numPages
  header : entry.1 = 0 → pg.HeaderFits
  same : pg.wrote entry.1 entry.2 = pg

theorem Settled.returns (settled : pg.Settled entry) : (writePage entry.1 entry.2.bytes).Returns pg () pg :=
  (returns_writePage settled.inside).mpr ⟨settled.header, settled.same.symm⟩

theorem settled_wrote (inside : pid < pg.numPages) (header : pid = 0 → pg.HeaderFits) :
    (pg.wrote pid page).Settled (pid, page) := ⟨inside, header, wrote_wrote ..⟩

theorem Settled.wrote (settled : pg.Settled entry) (other : entry.1 ≠ pid) : (pg.wrote pid page).Settled entry :=
  ⟨settled.inside, settled.header, by rw [wrote_comm other, settled.same]⟩

theorem Settled.extended (settled : pg.Settled entry) {n : ℕ} (grows : pg.numPages < n)
    (fits : (pg.extended n).HeaderFits) :
    (pg.extended n).Settled entry :=
  ⟨settled.inside.trans grows, fun _ => fits, by rw [wrote_extended settled.inside, settled.same]⟩

theorem settled_of_writePage (returned : (writePage pid page.bytes).Returns pg () pg') :
    pg'.Settled (pid, page) ∧ ∀ entry, entry.1 ≠ pid → pg.Settled entry → pg'.Settled entry := by
  by_cases inside : pid < pg.numPages
  · obtain ⟨header, rfl⟩ := (returns_writePage inside).mp returned
    exact ⟨settled_wrote inside header, fun entry other settled => settled.wrote other⟩
  · -- the file is extended first, and the page is inside then
    rw [writePage, dif_pos page.size, returns_read_bind, if_pos (Nat.not_lt.mp inside), returns_bind] at returned
    obtain ⟨_, middle, grew, rest⟩ := returned
    obtain ⟨-, small⟩ | ⟨grows, fits, rfl⟩ := returns_extendTo grew
    · exact absurd small inside
    · have there : pid < (pg.extended (pid + 1)).numPages := Nat.lt_succ_self pid
      have wrote : (writePage pid page.bytes).Returns (pg.extended (pid + 1)) () pg' := by
        rw [writePage, dif_pos page.size, returns_read_bind, if_neg (Nat.not_le.mpr there)]
        exact rest
      obtain ⟨header, rfl⟩ := (returns_writePage there).mp wrote
      exact ⟨settled_wrote there header, fun entry other settled => (settled.extended grows fits).wrote other⟩

end Tinydb.Storage.Pager

namespace Tinydb.Tx

open Lib Program Storage

variable {pg stop : Pager} {writes : List (ℕ × Page)} {wal : Wal} {found : Analysis} {stats : RecoveryStats}
  {done left : Pager} {e : Exc}

def writeImages (writes : List (ℕ × Page)) : PagerM Unit :=
  Program.forEach writes fun entry => Pager.writePage entry.1 entry.2.bytes

theorem settled_of_writeImages (distinct : (writes.map Prod.fst).Nodup)
    (returned : (writeImages writes).Returns pg () stop) :
    (∀ entry ∈ writes, stop.Settled entry) ∧
      ∀ entry, entry.1 ∉ writes.map Prod.fst → pg.Settled entry → stop.Settled entry := by
  induction writes generalizing pg with
  | nil =>
    obtain rfl := returns_forEach_nil.mp returned
    exact ⟨by simp, fun _ _ settled => settled⟩
  | cons first rest ih =>
    obtain ⟨apart, distinct⟩ := List.nodup_cons.mp distinct
    obtain ⟨middle, wrote, others⟩ := returns_forEach_cons.mp returned
    obtain ⟨settled, kept⟩ := Pager.settled_of_writePage wrote
    obtain ⟨all, keeps⟩ := ih distinct others
    refine ⟨List.forall_mem_cons.mpr ⟨keeps first apart settled, all⟩, fun entry absent before => ?_⟩
    obtain ⟨other, later⟩ := not_or.mp (List.mem_cons.not.mp absent)
    exact keeps entry later (kept entry other before)

theorem writeImages_again (settled : ∀ entry ∈ writes, stop.Settled entry) :
    (writeImages writes).Returns stop () stop := by
  induction writes with
  | nil => exact returns_forEach_nil.mpr rfl
  | cons first rest ih =>
    obtain ⟨here, later⟩ := List.forall_mem_cons.mp settled
    exact returns_forEach_cons.mpr ⟨stop, here.returns, ih later⟩

theorem reached_of_writeImages (reached : pg.Reached) (returned : (writeImages writes).Returns pg () stop) :
    stop.Reached := by
  induction writes generalizing pg with
  | nil =>
    obtain rfl := returns_forEach_nil.mp returned
    exact reached
  | cons first rest ih =>
    obtain ⟨middle, wrote, others⟩ := returns_forEach_cons.mp returned
    exact ih (wrote.2 ▸ .wrote reached) others

def Images.all (images : Images) : List (ℕ × Page) := images.redone ++ images.undone

theorem Images.all_distinct (images : Images) : (images.all.map Prod.fst).Nodup := by
  rw [Images.all, List.map_append, List.nodup_append']
  refine ⟨sortedItems_distinct _, images.undone_distinct, fun pid redone undone => ?_⟩
  obtain ⟨entry, member, rfl⟩ := List.mem_map.mp undone
  have skipped : entry.1 ∉ images.committedAfter.keys := by simpa using (List.mem_filter.mp member).2
  exact mem_map_sortedItems.mp redone (Dict.get?_eq_none.mpr skipped)

/-- `replay`, stopped after `count` page writes. -/
def replayUntil (wal : Wal) (count : ℕ) : PagerM Unit := do
  let found ← Program.ofExcept ((wal.iterFrom 1).foldlM Analysis.scan .start)
  writeImages (found.images.all.take count)

/-- `replay`, some times in a row. -/
def replays (wal : Wal) : ℕ → PagerM Unit
  | 0 => return
  | count + 1 => do
    let _ ← replay wal
    replays wal count

theorem returns_replay (scanned : (wal.iterFrom 1).foldlM Analysis.scan .start = .ok found) :
    (replay wal).Returns pg stats done ↔ (writeImages found.images.all).Returns pg () done ∧ stats = found.stats := by
  rw [replay, writeImages, Images.all, returns_forEach_append, scanned]
  simp only [returns_bind, returns_ofExcept, returns_pure, Except.ok.injEq]
  constructor
  · rintro ⟨_, _, ⟨rfl, rfl⟩, _, middle, redo, _, _, undo, rfl, rfl⟩
    exact ⟨⟨middle, redo, undo⟩, rfl⟩
  · rintro ⟨⟨middle, redo, undo⟩, rfl⟩
    exact ⟨_, _, ⟨rfl, rfl⟩, (), middle, redo, (), done, undo, rfl, rfl⟩

theorem raises_replay (scanned : (wal.iterFrom 1).foldlM Analysis.scan .start = .ok found) :
    (replay wal).Raises pg e left ↔ (writeImages found.images.all).Raises pg e left := by
  rw [replay, writeImages, Images.all, raises_forEach_append, scanned]
  simp only [raises_bind, returns_ofExcept, raises_ofExcept, raises_pure, Except.ok.injEq,
    reduceCtorEq, false_and, false_or, and_false, exists_false, or_false]
  constructor
  · rintro ⟨_, _, ⟨rfl, rfl⟩, raised | ⟨_, middle, redo, undo⟩⟩
    · exact .inl raised
    · exact .inr ⟨middle, redo, undo⟩
  · rintro (raised | ⟨middle, redo, undo⟩)
    · exact ⟨_, _, ⟨rfl, rfl⟩, .inl raised⟩
    · exact ⟨_, _, ⟨rfl, rfl⟩, .inr ⟨(), middle, redo, undo⟩⟩

/-- Recovery that was stopped after some of its page writes ends, started again, as if it had not been stopped, and so
it does each further time. The file opens as the pager it was stopped with. -/
theorem replay_restartable {count : ℕ} (reached : pg.Reached) (stopped : (replayUntil wal count).Returns pg () stop) :
    (stop.HeaderFits → Pager.openFile stop.file = .ok stop) ∧
      (∀ stats done, (replay wal).Returns stop stats done ↔ (replay wal).Returns pg stats done) ∧
      (∀ e left, (replay wal).Raises stop e left ↔ (replay wal).Raises pg e left) ∧
      ∀ stats done, (replay wal).Returns pg stats done → ∀ n, (replays wal (n + 1)).Returns stop () done := by
  rw [replayUntil, returns_bind] at stopped
  obtain ⟨found, _, scan, stopped⟩ := stopped
  obtain ⟨scanned, rfl⟩ := returns_ofExcept.mp scan
  have again : (writeImages (found.images.all.take count)).Returns stop () stop := by
    refine writeImages_again (settled_of_writeImages ?_ stopped).1
    exact found.images.all_distinct.sublist ((List.take_sublist ..).map _)
  have pieces := List.take_append_drop count found.images.all
  -- from either pager the first writes lead to the same one
  have returns {start : Pager} (passed : (writeImages (found.images.all.take count)).Returns start () stop)
    (stats : RecoveryStats)
      (done : Pager) : (replay wal).Returns start stats done ↔
        (writeImages (found.images.all.drop count)).Returns stop () done ∧ stats = found.stats := by
    rw [returns_replay scanned, writeImages, ← pieces, returns_forEach_append, pieces]
    refine and_congr_left fun _ => ⟨?_, fun rest => ⟨stop, passed, rest⟩⟩
    rintro ⟨middle, first, rest⟩
    exact (first.unique passed).2 ▸ rest
  have raises {start : Pager} (passed : (writeImages (found.images.all.take count)).Returns start () stop)
    (e : Exc) (left : Pager) :
      (replay wal).Raises start e left ↔ (writeImages (found.images.all.drop count)).Raises stop e left := by
    rw [raises_replay scanned, writeImages, ← pieces, raises_forEach_append, pieces]
    refine ⟨?_, fun rest => .inr ⟨stop, passed, rest⟩⟩
    rintro (raised | ⟨middle, first, rest⟩)
    · exact (passed.not_raises raised).elim
    · exact (first.unique passed).2 ▸ rest
  refine ⟨fun fits => ?_, fun stats done => ?_, fun e left => ?_, fun stats done once n => ?_⟩
  · exact Pager.openFile_of_stamped stop (stop.file 0) fits ((reached_of_writeImages reached stopped).stored fits).symm
  · rw [returns again, returns stopped]
  · rw [raises again, raises stopped]
  · have next : (replay wal).Returns done stats done := by
      obtain ⟨wrote, same⟩ := (returns_replay scanned).mp once
      exact (returns_replay scanned).mpr
        ⟨writeImages_again (settled_of_writeImages found.images.all_distinct wrote).1, same⟩
    have more (n : ℕ) : (replays wal n).Returns done () done := by
      induction n with
      | zero => exact returns_pure.mpr ⟨rfl, rfl⟩
      | succ n ih => exact returns_bind.mpr ⟨stats, done, next, ih⟩
    exact returns_bind.mpr ⟨stats, done, (returns again ..).mpr ((returns stopped ..).mp once), more n⟩

/-- Images of pages 5 and 4. -/
def twoImages : Wal :=
  ⟨[⟨1, RT_PAGE, (LogEntry.page ⟨0, 5, zeroPage, filled 1⟩).payload⟩,
    ⟨2, RT_PAGE, (LogEntry.page ⟨0, 4, zeroPage, filled 2⟩).payload⟩], 3⟩

/-- Two images of pages beyond the end of a new file, and a stop between them. -/
theorem replay_restartable_between :
    let entries : List LogEntry := [.page ⟨0, 5, zeroPage, filled 1⟩, .page ⟨0, 4, zeroPage, filled 2⟩]
    ∃ wal stop stats done, Wal.Holds wal entries ∧ (replayUntil wal 1).Returns .initNew () stop ∧
      (replay wal).Returns .initNew stats done ∧ (replays wal 2).Returns stop () done := by
  intro entries
  have fits (pid : ℕ) (small : U32 pid) (image : Page) : LogEntry.Fits (.page ⟨0, pid, zeroPage, image⟩) :=
    ⟨show 0 < 2 ^ 64 by decide, small⟩
  have holds : twoImages.Holds entries :=
    (Wal.holds_nil.push (fits 5 (by decide) (filled 1)) ⟨by decide, by decide, LogEntry.payload_length_lt _⟩).push
      (fits 4 (by decide) (filled 2)) ⟨by decide, by decide, LogEntry.payload_length_lt _⟩
  have stopped : (replayUntil twoImages 1).Returns .initNew () _ := returns_of_isOk (by decide +kernel)
  obtain ⟨stats, once⟩ : ∃ stats, (replay twoImages).Returns .initNew stats _ :=
    exists_returns_of_isOk (by decide +kernel)
  exact ⟨twoImages, _, stats, _, holds, stopped, once, (replay_restartable .created stopped).2.2.2 _ _ once 1⟩

end Tinydb.Tx
