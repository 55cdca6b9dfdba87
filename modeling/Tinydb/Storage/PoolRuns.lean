import Tinydb.Storage.BufferPool
import Tinydb.Storage.HeapChain

/-! What the page cache holds after any calls, and when it hides what another process wrote.

`Sane` is kept by every call, also by one that raises and also while another process
rewrites the file.
-/

namespace Tinydb.Storage.BufferPool

open Lib Program Tx Pager Finset Dict

variable {pg : Pager} {pid : ℤ} {data : Bytes} {pool : BufferPool} {lsn : ℤ} {old : Bytes} {snapshot : Snapshot}

theorem wp_writePage_count (pid : ℕ) (data : Bytes) : (Pager.writePage pid data).wp
    (fun _ pg' => pid < pg'.numPages ∧ pg.numPages ≤ pg'.numPages) (fun _ pg' => pg.numPages ≤ pg'.numPages) pg := by
  rw [Pager.writePage]
  split
  case isFalse => exact le_refl _
  case isTrue size =>
    -- the header is stamped into page 0, which can fail but does not move the end of the file
    have stamped {pg' : Pager} (inside : pid < pg'.numPages) (grows : pg.numPages ≤ pg'.numPages) :
        (protectHeader ⟨data, size⟩).wp (fun page pg' => (writeAt pid page).wp
          (fun _ pg' => pid < pg'.numPages ∧ pg.numPages ≤ pg'.numPages) (fun _ pg' => pg.numPages ≤ pg'.numPages) pg')
          (fun _ pg' => pg.numPages ≤ pg'.numPages) pg' := by
      rw [protectHeader, wp_bind, wp_read]
      split_ifs
      · exact ⟨inside, grows⟩
      · exact grows
    rw [wp_bind, wp_read]
    by_cases outside : pg.numPages ≤ pid
    · have grows : pg.numPages ≤ pid + 1 := Nat.le_succ_of_le outside
      rw [if_pos outside, wp_bind, Heap.wp_extendTo (Nat.lt_succ_of_le outside)]
      refine ⟨fun _ => ?_, fun _ => grows⟩
      split_ifs
      · exact (wp_bind ..).mpr (stamped (Nat.lt_succ_self _) grows)
      · exact ⟨Nat.lt_succ_self _, grows⟩
    · have inside := Nat.not_le.mp outside
      rw [if_neg outside]
      split_ifs
      · exact (wp_bind ..).mpr (stamped inside (le_refl _))
      · exact ⟨inside, le_refl _⟩

theorem wp_pagerWrite : (pagerWrite pid data).wp
    (fun _ pg' => (0 ≤ pid ∧ pid.toNat < pg'.numPages) ∧ pg.numPages ≤ pg'.numPages)
    (fun _ pg' => pg.numPages ≤ pg'.numPages) pg := by
  rw [pagerWrite]
  split_ifs with negative
  · exact le_refl _
  · by_cases size : data.length = PAGE_SIZE
    · have sign : 0 ≤ pid := by simpa [size] using negative
      exact (wp_writePage_count pid.toNat data).mono (fun _ _ ⟨inside, grows⟩ => ⟨⟨sign, inside⟩, grows⟩)
        fun _ _ grows => grows
    · rw [Pager.writePage, dif_neg size]
      exact le_refl _

theorem wp_pagerRead : (pagerRead pid).wp
    (fun data pg' => pg' = pg ∧ 0 ≤ pid ∧ pid.toNat < pg.numPages ∧ data = (pg.file pid.toNat).bytes)
    (fun _ pg' => pg' = pg ∧ ¬ (0 ≤ pid ∧ pid.toNat < pg.numPages)) pg := by
  rw [pagerRead]
  split_ifs with negative
  · exact ⟨rfl, fun inside => (not_le.mpr negative) inside.1⟩
  · rw [wp_bind, readPage, wp_bind, wp_read]
    split_ifs with inside
    · exact ⟨rfl, not_lt.mp negative, inside, rfl⟩
    · exact ⟨rfl, fun both => inside both.2⟩

theorem wp_onPager {α : Type} {p : PagerM α} {Q : α → BufferPool → Prop} {E : Exc → BufferPool → Prop} :
    (onPager p).wp Q E pool ↔
      p.wp (fun a pager => Q a { pool with pager }) (fun e pager => E e { pool with pager }) pool.pager := Iff.rfl

/-- The cache is not too large, every page in it has an LSN, and every clean one is a page of the file. -/
structure Sane (pool : BufferPool) : Prop where
  positive : 0 < pool.capacity
  bounded : pool.cache.items.length ≤ pool.capacity
  lsns : ∀ pid ∈ pool.cache.keys, pid ∈ pool.pageLsn.keys
  clean : ∀ pid ∈ pool.cache.keys, pid ∉ pool.dirty → 0 ≤ pid ∧ pid.toNat < pool.pager.numPages

theorem sane_new {pager : Pager} {capacity : ℤ} (made : new pager capacity = .ok pool) : Sane pool := by
  rw [new] at made
  split_ifs at made with small
  cases made
  exact ⟨by simpa using small, Nat.zero_le _, nofun, nofun⟩

theorem Sane.repaged (sane : Sane pool) {pager : Pager} (grows : pool.pager.numPages ≤ pager.numPages) :
    Sane { pool with pager } :=
  ⟨sane.positive, sane.bounded, sane.lsns, fun pid cached clean =>
    ⟨(sane.clean pid cached clean).1, (sane.clean pid cached clean).2.trans_le grows⟩⟩

theorem length_erase_le (d : Dict ℤ Bytes) (pid : ℤ) : (d.erase pid).items.length ≤ d.items.length :=
    List.length_filter_le ..

theorem Sane.drop (sane : Sane pool) (pid : ℤ) : Sane (pool.drop pid) where
  positive := sane.positive
  bounded := (length_erase_le _ _).trans sane.bounded
  lsns := fun other cached => by
    obtain ⟨differs, cached⟩ := (mem_keys_erase ..).mp cached
    exact (mem_keys_erase ..).mpr ⟨differs, sane.lsns other cached⟩
  clean := fun other cached clean => by
    obtain ⟨differs, cached⟩ := (mem_keys_erase ..).mp cached
    exact sane.clean other cached fun dirty => clean (mem_erase.mpr ⟨differs, dirty⟩)

theorem Sane.flushed (sane : Sane pool) (inside : 0 ≤ pid ∧ pid.toNat < pool.pager.numPages) :
    Sane { pool with dirty := pool.dirty.erase pid } :=
  ⟨sane.positive, sane.bounded, sane.lsns, fun other cached clean => by
    by_cases same : other = pid
    · exact same ▸ inside
    · exact sane.clean other cached fun dirty => clean (mem_erase.mpr ⟨same, dirty⟩)⟩

theorem Sane.marked (sane : Sane pool) (pid : ℤ) : Sane { pool with dirty := insert pid pool.dirty } :=
  ⟨sane.positive, sane.bounded, sane.lsns, fun other cached clean =>
    sane.clean other cached fun dirty => clean (mem_insert_of_mem dirty)⟩

theorem length_moveToEnd (d : Dict ℤ Bytes) (pid : ℤ) : (d.moveToEnd pid).items.length = d.items.length := by
  rw [← length_keys, ← length_keys, (keys_moveToEnd_perm d pid).length_eq]

section

variable (sane : Sane pool)
include sane

theorem Sane.reordered {cache : Dict ℤ Bytes} {pageLsn : Dict ℤ ℤ} {hits misses : ℕ}
    (length : cache.items.length = pool.cache.items.length) (cached : ∀ pid, pid ∈ cache.keys ↔ pid ∈ pool.cache.keys)
    (lsns : ∀ pid ∈ pool.pageLsn.keys, pid ∈ pageLsn.keys) : Sane { pool with cache, pageLsn, hits, misses } :=
  ⟨sane.positive, length ▸ sane.bounded, fun pid here => lsns pid (sane.lsns pid ((cached pid).mp here)),
    fun pid here => sane.clean pid ((cached pid).mp here)⟩

theorem Sane.shortened {first : ℤ × Bytes} (head : pool.cache.items.head? = some first) :
    Sane { pool with cache := pool.cache.rest } ∧ pool.cache.rest.items.length < pool.capacity := by
  have shorter : pool.cache.rest.items.length + 1 = pool.cache.items.length := by
    show pool.cache.items.tail.length + 1 = _
    rw [List.length_tail]
    have := List.length_pos_of_mem (List.mem_of_head? head)
    omega
  have bounded := sane.bounded
  have inside (pid : ℤ) (cached : pid ∈ pool.cache.rest.keys) : pid ∈ pool.cache.keys :=
    ((mem_keys_rest head pid).mp cached).2
  refine ⟨⟨sane.positive, ?_, fun pid cached => sane.lsns pid (inside pid cached), fun pid cached =>
    sane.clean pid (inside pid cached)⟩, ?_⟩
  · show pool.cache.rest.items.length ≤ pool.capacity
    omega
  · omega

theorem Sane.wp_evict :
    evict.wp (fun _ pool' => Sane pool' ∧ pool'.cache.items.length < pool'.capacity ∧
      pool.pager.numPages ≤ pool'.pager.numPages) (fun _ pool' => Sane pool') pool := by
  rw [evict, wp_bind, wp_read]
  cases head : pool.cache.items.head? with
  | none => exact sane
  | some first =>
    obtain ⟨pid, data⟩ := first
    obtain ⟨shortened, room⟩ := sane.shortened head
    have forgotten {pool' : BufferPool} (sane' : Sane pool') (gone : pid ∉ pool'.cache.keys) :
        Sane { pool' with pageLsn := pool'.pageLsn.erase pid } :=
      ⟨sane'.positive, sane'.bounded, fun other cached => (mem_keys_erase ..).mpr
        ⟨fun same => gone (same ▸ cached), sane'.lsns other cached⟩, sane'.clean⟩
    have gone : pid ∉ pool.cache.rest.keys := fun cached => ((mem_keys_rest head pid).mp cached).1 rfl
    simp only [wp_bind, wp_modify]
    split_ifs
    · rw [wp_bind, wp_onPager]
      refine wp_pagerWrite.mono (fun _ pager wrote => ?_) fun _ pager grows => shortened.repaged grows
      obtain ⟨inside, grows⟩ := wrote
      exact ⟨forgotten ((shortened.repaged grows).flushed inside) gone, room, grows⟩
    · exact ⟨forgotten shortened gone, room, le_refl _⟩

theorem Sane.put (room : pid ∈ pool.cache.keys ∨ pool.cache.items.length < pool.capacity)
    (stored : pid ∈ pool.dirty ∨ 0 ≤ pid ∧ pid.toNat < pool.pager.numPages) :
    Sane { pool with cache := pool.cache.set pid data, pageLsn := pool.pageLsn.set pid lsn } where
  positive := sane.positive
  bounded := by
    show (pool.cache.set pid data).items.length ≤ _
    have bounded := sane.bounded
    by_cases cached : pid ∈ pool.cache.keys
    · rw [← length_keys, keys_set_of_mem _ cached, length_keys]
      exact bounded
    · rw [items_set_of_not_mem _ cached, List.length_append]
      exact room.resolve_left cached
  lsns := fun other cached => (mem_keys_set ..).mpr (((mem_keys_set ..).mp cached).imp_right (sane.lsns other))
  clean := fun other cached clean => by
    rcases (mem_keys_set ..).mp cached with rfl | cached
    · exact stored.resolve_left clean
    · exact sane.clean other cached clean

theorem Sane.wp_admitPage : (admitPage pid data lsn).wp
    (fun _ pool' => ∃ mid, Sane mid ∧ mid.cache.items.length < mid.capacity ∧ pool.pager.numPages ≤ mid.pager.numPages ∧
      pool' = { mid with cache := mid.cache.set pid data, pageLsn := mid.pageLsn.set pid lsn })
    (fun _ pool' => Sane pool') pool := by
  rw [admitPage, wp_bind, wp_read]
  split_ifs with full
  · rw [wp_bind]
    exact sane.wp_evict.mono (fun _ mid ⟨saneMid, room, grows⟩ => ⟨mid, saneMid, room, grows, rfl⟩) fun _ _ => id
  · exact ⟨pool, sane, Nat.not_le.mp full, le_refl _, rfl⟩

theorem Sane.wp_load : (load pid).wp (fun _ pool' => Sane pool') (fun _ pool' => Sane pool') pool := by
  have counted : Sane { pool with misses := pool.misses + 1 } := sane.reordered rfl (fun _ => .rfl) fun _ here => here
  rw [load, wp_bind, wp_modify, wp_bind, wp_onPager]
  refine wp_pagerRead.mono (fun data pager => ?_) fun _ pager => ?_
  · rintro ⟨rfl, sign, inside, -⟩
    rw [wp_bind, wp_read, wp_bind]
    refine counted.wp_admitPage.mono (fun _ pool' => ?_) fun _ _ => id
    rintro ⟨mid, saneMid, room, grows, rfl⟩
    exact saneMid.put (.inr room) (.inr ⟨sign, inside.trans_le grows⟩)
  · rintro ⟨rfl, -⟩
    exact counted

theorem Sane.wp_fetchPage (snapshot : Option Snapshot) :
    (fetchPage pid snapshot).wp (fun _ pool' => Sane pool') (fun _ pool' => Sane pool') pool := by
  have moved {pageLsn : Dict ℤ ℤ} {hits : ℕ} (lsns : ∀ pid ∈ pool.pageLsn.keys, pid ∈ pageLsn.keys) :
      Sane { pool with cache := pool.cache.moveToEnd pid, pageLsn, hits } :=
    sane.reordered (length_moveToEnd _ _) (fun other => mem_keys_moveToEnd ..) lsns
  rw [fetchPage, wp_bind, wp_read]
  cases cached : pool.cache.get? pid with
  | none => exact sane.wp_load
  | some data =>
    cases snapshot with
    | none => exact moved fun _ here => here
    | some snapshot =>
      dsimp only
      split_ifs
      · exact (wp_bind ..).mpr (sane.drop pid).wp_load
      · exact moved fun other here => (mem_keys_moveToEnd ..).mpr here
      · exact moved fun _ here => here

theorem Sane.wp_writePage :
    (writePage pid data lsn).wp (fun _ pool' => Sane pool') (fun _ pool' => Sane pool') pool := by
  rw [writePage, wp_bind, wp_read]
  split_ifs with cached
  · have placed : Sane { pool with
        dirty := insert pid pool.dirty, cache := pool.cache.set pid data, pageLsn := pool.pageLsn.set pid lsn } :=
      (sane.marked pid).put (.inl cached) (.inl (mem_insert_self ..))
    exact placed.reordered (length_moveToEnd _ _) (fun other => mem_keys_moveToEnd ..) fun other here =>
      (mem_keys_moveToEnd ..).mpr here
  · rw [wp_bind]
    refine sane.wp_admitPage.mono (fun _ pool' => ?_) fun _ _ => id
    rintro ⟨mid, saneMid, room, -, rfl⟩
    exact (saneMid.marked pid).put (.inr room) (.inl (mem_insert_self ..))

theorem Sane.wp_markDirty :
    (markDirty pid).wp (fun _ pool' => Sane pool') (fun _ pool' => Sane pool') pool := by
  rw [markDirty, wp_bind, wp_read]
  split_ifs
  · exact sane.marked pid
  · exact sane

theorem Sane.wp_flushAll : flushAll.wp (fun _ pool' => Sane pool') (fun _ pool' => Sane pool') pool := by
  rw [flushAll, wp_bind, wp_read]
  refine wp_forEach (fun _ pool' => Sane pool') sane (fun entry _ pool' sane' => ?_) fun _ sane' => sane'
  rw [flushPage, wp_bind, wp_read]
  split_ifs
  · rw [wp_bind, wp_onPager]
    exact wp_pagerWrite.mono (fun _ _ ⟨inside, grows⟩ => (sane'.repaged grows).flushed inside) fun _ _ grows =>
      sane'.repaged grows
  · exact sane'

end

/-- The pools any calls lead to, whether they return or raise, while another process may rewrite the file. -/
inductive Reached : BufferPool → Prop
  | new {pager : Pager} {capacity : ℤ} {pool : BufferPool} (made : new pager capacity = .ok pool) : Reached pool
  | fetchPage {pool : BufferPool} (pid : ℤ) (snapshot : Option Snapshot) (reached : Reached pool) :
      Reached (fetchPage pid snapshot pool).state
  | writePage {pool : BufferPool} (pid : ℤ) (data : Bytes) (lsn : ℤ) (reached : Reached pool) :
      Reached (writePage pid data lsn pool).state
  | markDirty {pool : BufferPool} (pid : ℤ) (reached : Reached pool) : Reached (markDirty pid pool).state
  | flushAll {pool : BufferPool} (reached : Reached pool) : Reached (flushAll pool).state
  | invalidate {pool : BufferPool} (pid : ℤ) (reached : Reached pool) : Reached (invalidate pid pool).state
  | rewritten {pool : BufferPool} (file : ℕ → Page) (reached : Reached pool) :
      Reached { pool with pager := { pool.pager with file } }

theorem Reached.sane (reached : Reached pool) : Sane pool := by
  induction reached with
  | new made => exact sane_new made
  | fetchPage pid snapshot _ ih => exact wp_state (ih.wp_fetchPage snapshot)
  | writePage pid data lsn _ ih => exact wp_state ih.wp_writePage
  | markDirty pid _ ih => exact wp_state ih.wp_markDirty
  | flushAll _ ih => exact wp_state ih.wp_flushAll
  | invalidate pid _ ih => exact ih.drop pid
  | rewritten file _ ih => exact ih.repaged (le_refl _)

theorem length_erase_lt {d : Dict ℤ Bytes} (cached : pid ∈ d.keys) : (d.erase pid).items.length < d.items.length := by
  obtain ⟨entry, member, same⟩ := List.mem_map.mp cached
  exact List.length_filter_lt_length_iff_exists.mpr ⟨entry, member, by simp [same]⟩

theorem wp_load_dropped (sane : Sane pool) (cached : pid ∈ pool.cache.keys) (clean : pid ∉ pool.dirty) :
    (load pid).wp (fun data _ => data = (pool.pager.file pid.toNat).bytes) (fun _ _ => False) (pool.drop pid) := by
  have inside := sane.clean pid cached clean
  have room : ¬ pool.capacity ≤ (pool.cache.erase pid).items.length :=
    Nat.not_le.mpr ((length_erase_lt cached).trans_le sane.bounded)
  rw [load, wp_bind, wp_modify, wp_bind, wp_onPager]
  refine wp_pagerRead.mono (fun data pager => ?_) fun _ pager ⟨_, outside⟩ => outside inside
  rintro ⟨rfl, -, -, rfl⟩
  rw [wp_bind, wp_read, wp_bind, admitPage, wp_bind, wp_read]
  split_ifs with full
  · exact (room full).elim
  · rfl

/-- A clean page that is cached is read again just if its LSN is above that of the snapshot. -/
theorem fetch_sees_file_iff (reached : Reached pool) (cached : pool.cache.get? pid = some old)
    (clean : pid ∉ pool.dirty) (recorded : pool.pageLsn.get? pid = some lsn) :
    (fetchPage pid (some snapshot) pool).result = .ok (pool.pager.file pid.toNat).bytes ↔
      old = (pool.pager.file pid.toNat).bytes ∨ snapshot.lsn < lsn := by
  have here : pid ∈ pool.cache.keys := mem_keys_iff.mpr ⟨old, cached⟩
  by_cases newer : snapshot.lsn < lsn
  · refine iff_of_true ?_ (.inr newer)
    have ends : (fetchPage pid (some snapshot)).wp (fun data _ => data = (pool.pager.file pid.toNat).bytes)
        (fun _ _ => False) pool := by
      rw [fetchPage, wp_bind, wp_read]
      simp only [cached, recorded, Option.getD_some, Snapshot.isNewer, gt_iff_lt, newer, decide_true, if_true]
      exact (wp_bind ..).mpr (wp_load_dropped reached.sane here clean)
    obtain ⟨data, pool', returned, rfl⟩ := ends.exists_returns
    exact returned.1
  · have known : pid ∈ pool.pageLsn.keys := reached.sane.lsns pid here
    have answers : (fetchPage pid (some snapshot) pool).result = .ok old := by
      rw [fetchPage]
      simp [Program.bind_apply, cached, recorded, Snapshot.isNewer, newer, known]
    rw [answers, Except.ok.injEq, or_iff_left newer]

def lastLsnIn (file : ℕ → Page) : ℕ := unpackLE (slice (file 0).bytes HDR_LAST_LSN_OFF 4)

def small : BufferPool := ⟨initNew, 1, .empty, .empty, ∅, 0, 0⟩

theorem reached_small : Reached small := .new (show new initNew 1 = .ok small from rfl)

/-- The new file after page 1 was overwritten and `lsn` stamped by another process. -/
def committed (lsn : ℕ) : ℕ → Page := (setLastLsn lsn (initNew.put 1 (filled 255))).state.file

/-- Page 1 written at LSN 5 and flushed, before another process commits. -/
def flushedPool : BufferPool := (flushAll (writePage 1 (filled 7).bytes 5 small).state).state

theorem fetch_sees_file_older : (fetchPage 1 (some ⟨3⟩) { flushedPool with pager.file := committed 9 }).result =
    .ok (committed 9 1).bytes := by
  have reached : Reached flushedPool := .flushAll (.writePage 1 (filled 7).bytes 5 reached_small)
  obtain ⟨old, cached⟩ : ∃ old, flushedPool.cache.get? 1 = some old := Option.isSome_iff_exists.mp (by decide +kernel)
  have recorded : flushedPool.pageLsn.get? 1 = some 5 := by decide +kernel
  have clean : 1 ∉ flushedPool.dirty := by decide +kernel
  have older : (⟨3⟩ : Snapshot).lsn < 5 := by decide
  generalize flushedPool = pool at *
  exact (fetch_sees_file_iff (.rewritten (committed 9) reached) cached clean recorded).mpr (.inr older)

/-- A snapshot that is newer than what another process committed still gets the cached bytes. -/
theorem stale_page_returned :
    ¬ ∀ (pool : BufferPool) (pid : ℤ) (old : Bytes) (file : ℕ → Page) (n : ℕ) (snapshot : Snapshot),
    Reached pool → pool.cache.get? pid = some old → pid ∉ pool.dirty → lastLsnIn pool.pager.file < n →
    lastLsnIn file = n →
    n ≤ snapshot.lsn →
    (fetchPage pid (some snapshot) { pool with pager := { pool.pager with file } }).result =
    .ok (file pid.toNat).bytes := by
  intro claimed
  have sees := claimed (fetchPage 1 none small).state 1 zeroPage.bytes (committed 5) 5 ⟨5⟩
    (.fetchPage 1 none reached_small) rfl (by decide +kernel) (by decide +kernel) (by decide +kernel) (by decide)
  have cached : (fetchPage 1 (some ⟨5⟩) { (fetchPage 1 none small).state with pager.file := committed 5 }).result =
      .ok zeroPage.bytes := rfl
  have same : (filled 255).bytes.head? = zeroPage.bytes.head? := congrArg _ (Except.ok.inj (sees.symm.trans cached))
  exact absurd same (by decide)

end Tinydb.Storage.BufferPool
