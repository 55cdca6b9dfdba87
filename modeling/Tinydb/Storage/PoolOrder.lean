import Tinydb.Storage.PoolRuns

/-! The books of the page cache and the order of its pages.

Calls without a snapshot keep the dirty ids and the LSNs in step with the cache, and the pages in
the order of their last use. There is one exception: when the pager refuses the page that has to
make room, that page has left the cache but its id stays dirty.
-/

namespace Tinydb.Storage.BufferPool

open Lib Program List Dict Pager

/-- Calls without a snapshot. -/
inductive PlainCall
  | fetchPage (pid : ℤ)
  | writePage (pid : ℤ) (data : Bytes) (lastLsn : ℤ)
  | markDirty (pid : ℤ)
  | flushAll
  | invalidate (pid : ℤ)

namespace PlainCall

def advance (pool : BufferPool) : PlainCall → BufferPool
  | fetchPage pid => (BufferPool.fetchPage pid none pool).state
  | writePage pid data lastLsn => (BufferPool.writePage pid data lastLsn pool).state
  | markDirty pid => (BufferPool.markDirty pid pool).state
  | flushAll => (BufferPool.flushAll pool).state
  | invalidate pid => (BufferPool.invalidate pid pool).state

def used : PlainCall → List ℤ
  | fetchPage pid | writePage pid _ _ => [pid]
  | _ => []

end PlainCall

/-- The pool after calls, the latest first; each of them may raise. -/
def after (pool : BufferPool) : List PlainCall → BufferPool
  | [] => pool
  | call :: earlier => call.advance (after pool earlier)

/-- How many calls ago the page was fetched or written last. -/
def ago (calls : List PlainCall) (pid : ℤ) : ℕ := calls.findIdx (pid ∈ ·.used)

/-- The dirty ids are cached, and the ids with an LSN are the cached ones. -/
structure Booked (pool : BufferPool) : Prop where
  dirty : ∀ pid ∈ pool.dirty, pid ∈ pool.cache.keys
  lsns : ∀ pid, pid ∈ pool.pageLsn.keys ↔ pid ∈ pool.cache.keys

/-- If the cache is full, its first page makes room for `pid`, written first if it is dirty. -/
def MakesRoom (pool : BufferPool) (pid : ℤ) (pool' : BufferPool) : Prop :=
  pool.capacity ≤ pool.cache.items.length → ∃ victim bytes, pool.cache.items.head? = some (victim, bytes) ∧
    pool'.cache.keys = pool.cache.rest.keys ++ [pid] ∧
    if victim ∈ pool.dirty then (pagerWrite victim bytes).Returns pool.pager () pool'.pager
      else pool'.pager = pool.pager

/-- The books are right and the pages in the order of their last use. A hit asks nothing of the pager, and a miss in a
full cache takes the place of the first page. -/
structure Orderly (calls : List PlainCall) (pool : BufferPool) : Prop extends Booked pool where
  oldestFirst : pool.cache.keys.Pairwise fun pid other => ago calls other < ago calls pid
  hit : ∀ pid data pager, pool.cache.get? pid = some data →
    (fetchPage pid none).Returns { pool with pager } data (use pid { pool with pager })
  miss : ∀ pid pool', pid ∉ pool.cache.keys → ((∃ data, (fetchPage pid none).Returns pool data pool') ∨
    ∃ data lsn, (writePage pid data lsn).Returns pool () pool') → MakesRoom pool pid pool'

/-- The first page of a full cache is dirty and the pager refuses it. -/
def Refuses (pool : BufferPool) : Prop :=
  pool.capacity ≤ pool.cache.items.length ∧ ∃ victim ∈ pool.cache.items.head?, victim.1 ∈ pool.dirty ∧
    (pagerWrite victim.1 victim.2 pool.pager).result.isOk = false

/-- The call needs room that it cannot get. -/
def Stuck (pool : BufferPool) : PlainCall → Prop
  | .fetchPage pid => pid ∉ pool.cache.keys ∧ (0 ≤ pid ∧ pid.toNat < pool.pager.numPages) ∧ Refuses pool
  | .writePage pid _ _ => pid ∉ pool.cache.keys ∧ Refuses pool
  | _ => False

/-- One call ruins the books, or keeps them and the order. -/
def Steps (pool : BufferPool) (call : PlainCall) (pool' : BufferPool) : Prop :=
  Stuck pool call ∧ ¬ Booked pool' ∨
    ¬ Stuck pool call ∧ Booked pool' ∧ pool'.cache.keys <+ pool.cache.keys.filter (· ∉ call.used) ++ call.used

variable {pool pool' : BufferPool} {pid : ℤ} {data : Bytes} {lsn : ℤ}

theorem keys_moveToEnd {d : Dict ℤ Bytes} (cached : pid ∈ d.keys) :
    (d.moveToEnd pid).keys <+ d.keys.filter (· ∉ [pid]) ++ [pid] := by
  obtain ⟨data, found⟩ := mem_keys_iff.mp cached
  rw [moveToEnd, found]
  dsimp only
  rw [keys_set_of_not_mem _ (by simp), Dict.keys, erase, Dict.keys, filter_map]
  simp [Function.comp_def]

theorem filter_absent {keys : List ℤ} (absent : pid ∉ keys) : keys.filter (· ∉ [pid]) = keys := by
  refine filter_eq_self.mpr fun other here => ?_
  simpa using fun same : other = pid => absent (same ▸ here)

theorem Booked.marked (booked : Booked pool) (here : pid ∈ pool.cache.keys) :
    Booked { pool with dirty := insert pid pool.dirty } :=
  ⟨fun other dirty => (Finset.mem_insert.mp dirty).elim (fun same => same ▸ here) (booked.dirty other), booked.lsns⟩

theorem Booked.flushed (booked : Booked pool) {dirty : Finset ℤ} (fewer : dirty ⊆ pool.dirty) (pager : Pager) :
    Booked { pool with pager, dirty } :=
  ⟨fun other here => booked.dirty other (fewer here), booked.lsns⟩

theorem Booked.unused (booked : Booked pool') {call : PlainCall} (quiet : call.used = []) (free : ¬ Stuck pool call)
    (fewer : pool'.cache.keys <+ pool.cache.keys) : Steps pool call pool' :=
    .inr ⟨free, booked, by simpa [quiet] using fewer⟩

section

variable (booked : Booked pool) (sane : Sane pool)
include booked

theorem Booked.wp_flushAll : flushAll.wp (fun _ => Steps pool .flushAll) (fun _ => Steps pool .flushAll) pool := by
  have ends (pool' : BufferPool) (same : pool'.cache = pool.cache ∧ Booked pool') : Steps pool .flushAll pool' :=
    same.2.unused rfl id (same.1 ▸ .refl _)
  rw [flushAll, wp_bind, wp_read]
  refine wp_forEach (fun _ pool' => pool'.cache = pool.cache ∧ Booked pool') ⟨rfl, booked⟩
    (fun entry _ pool' kept => ?_) ends
  rw [flushPage, wp_bind, wp_read]
  split_ifs
  · rw [wp_bind, wp_onPager]
    exact wp_pagerWrite.mono (fun _ _ _ => ⟨kept.1, kept.2.flushed (Finset.erase_subset ..) _⟩)
      fun _ _ _ => ends _ ⟨kept.1, kept.2.flushed (Finset.Subset.refl _) _⟩
  · exact kept

include sane

theorem Booked.wp_admitPage (absent : pid ∉ pool.cache.keys) : (admitPage pid data lsn).wp
    (fun _ pool' => (¬ Refuses pool ∧ Booked pool' ∧ pool'.cache.keys <+ pool.cache.keys ++ [pid]) ∧
      pid ∈ pool'.cache.keys ∧ MakesRoom pool pid pool') (fun _ pool' => Refuses pool ∧ ¬ Booked pool') pool := by
  rw [admitPage, wp_bind, wp_read, Refuses]
  split_ifs with full
  · obtain ⟨⟨victim, bytes⟩, head⟩ : ∃ first, pool.cache.items.head? = some first :=
      ⟨_, head?_eq_some_head (length_pos_iff.mp (sane.positive.trans_le full))⟩
    have gone : victim ∉ pool.cache.rest.keys := fun here => ((mem_keys_rest head _).mp here).1 rfl
    have keys := keys_set_of_not_mem data fun here => absent ((mem_keys_rest head _).mp here).2
    have shorter : (pool.cache.rest.set pid data).keys <+ pool.cache.keys ++ [pid] := by
      rw [keys]
      exact ((tail_sublist _).map Prod.fst).append_right _
    have admitted (pager : Pager) (dirty : Finset ℤ) (left : ∀ other ∈ dirty, other ≠ victim ∧ other ∈ pool.dirty) :
      Booked { pool with
        pager, dirty, cache := pool.cache.rest.set pid data, pageLsn := (pool.pageLsn.erase victim).set pid lsn } := by
      refine ⟨fun other here => ?_, fun other => by simp [booked.lsns, mem_keys_rest head]⟩
      obtain ⟨apart, here⟩ := left other here
      simp [mem_keys_rest head, apart, booked.dirty other here]
    rw [wp_bind, evict, wp_bind, wp_read, head]
    simp only [wp_bind, wp_modify]
    split_ifs with dirty
    · rw [wp_bind, wp_onPager]
      rcases returns_or_raises (pagerWrite victim bytes) pool.pager with ⟨_, pager, wrote⟩ | ⟨e, pager, refused⟩
      · rw [wp_of_returns wrote]
        exact ⟨⟨by simp [wrote.1, Except.isOk, Except.toBool], admitted _ _ fun other => Finset.mem_erase.mp, shorter⟩,
          by simp, fun _ => ⟨victim, bytes, head, keys, by rwa [if_pos dirty]⟩⟩
      · rw [wp_of_raises refused]
        exact ⟨by simp [full, dirty, refused.1, Except.isOk, Except.toBool], fun books =>
          gone (books.dirty victim dirty)⟩
    · rw [wp_modify]
      exact ⟨⟨by simp [dirty], admitted _ _ fun other here => ⟨fun same => dirty (same ▸ here), here⟩, shorter⟩,
        by simp, fun _ => ⟨victim, bytes, head, keys, by rw [if_neg dirty]⟩⟩
  · have books : Booked { pool with cache := pool.cache.set pid data, pageLsn := pool.pageLsn.set pid lsn } :=
      ⟨fun other dirty => by simp [booked.dirty other dirty], fun other => by simp [booked.lsns]⟩
    exact ⟨⟨fun refuses => full refuses.1, books, keys_set_of_not_mem data absent ▸ .refl _⟩,
      by simp, fun enough => (full enough).elim⟩

theorem Booked.wp_fetchPage : (fetchPage pid none).wp
    (fun _ pool' => Steps pool (.fetchPage pid) pool' ∧ (pid ∉ pool.cache.keys → MakesRoom pool pid pool'))
    (fun _ => Steps pool (.fetchPage pid)) pool := by
  rw [fetchPage, wp_bind, wp_read]
  cases cached : pool.cache.get? pid with
  | some data =>
    have here : pid ∈ pool.cache.keys := mem_keys_iff.mpr ⟨data, cached⟩
    refine ⟨.inr ⟨fun stuck => stuck.1 here, ⟨fun other dirty => ?_, fun other => ?_⟩, keys_moveToEnd here⟩,
      fun absent => (absent here).elim⟩
    · exact (mem_keys_moveToEnd ..).mpr (booked.dirty other dirty)
    · exact (booked.lsns other).trans (mem_keys_moveToEnd ..).symm
  | none =>
    have absent : pid ∉ pool.cache.keys := get?_eq_none.mp cached
    have books : Booked { pool with misses := pool.misses + 1 } := ⟨booked.dirty, booked.lsns⟩
    have counted : Sane { pool with misses := pool.misses + 1 } := sane.reordered rfl (fun _ => .rfl) fun _ here => here
    dsimp only
    rw [load, wp_bind, wp_modify, wp_bind, wp_onPager]
    refine wp_pagerRead.mono (fun data pager => ?_) fun _ pager => ?_
    · rintro ⟨rfl, sign, inside, -⟩
      rw [wp_bind, wp_read, wp_bind]
      refine (books.wp_admitPage counted absent).mono (fun _ pool' => ?_) fun _ pool' => ?_
      · rintro ⟨⟨free, books, keys⟩, -, made⟩
        exact ⟨.inr ⟨fun stuck => free stuck.2.2, books, by rwa [PlainCall.used, filter_absent absent]⟩, fun _ => made⟩
      · exact fun lost => .inl ⟨⟨absent, ⟨sign, inside⟩, lost.1⟩, lost.2⟩
    · rintro ⟨rfl, outside⟩
      refine .inr ⟨fun stuck => outside stuck.2.1, books, ?_⟩
      rw [PlainCall.used, filter_absent absent]
      exact sublist_append_left ..

theorem Booked.wp_writePage : (writePage pid data lsn).wp
    (fun _ pool' => Steps pool (.writePage pid data lsn) pool' ∧ (pid ∉ pool.cache.keys → MakesRoom pool pid pool'))
    (fun _ => Steps pool (.writePage pid data lsn)) pool := by
  rw [writePage, wp_bind, wp_read]
  split_ifs with here
  · have same := keys_set_of_mem data here
    have moved := keys_moveToEnd (same ▸ here)
    rw [same] at moved
    have books : Booked { pool with
        cache := (pool.cache.set pid data).moveToEnd pid, pageLsn := (pool.pageLsn.set pid lsn).moveToEnd pid } :=
      ⟨fun other dirty => by simp [booked.dirty other dirty], fun other => by simp [booked.lsns]⟩
    exact ⟨.inr ⟨fun stuck => stuck.1 here, books.marked (by simp), moved⟩, fun absent => (absent here).elim⟩
  · rw [wp_bind]
    refine (booked.wp_admitPage sane here).mono (fun _ pool' => ?_) fun _ pool' => ?_
    · rintro ⟨⟨free, books, keys⟩, cached, made⟩
      exact ⟨.inr ⟨fun stuck => free stuck.2, books.marked cached, by rwa [PlainCall.used, filter_absent here]⟩,
        fun _ => made⟩
    · exact fun lost => .inl ⟨⟨here, lost.1⟩, lost.2⟩

theorem Booked.steps (call : PlainCall) : Steps pool call (call.advance pool) := by
  cases call with
  | fetchPage pid => exact wp_state ((booked.wp_fetchPage sane).mono (fun _ _ => And.left) fun _ _ steps => steps)
  | writePage pid data lsn =>
    exact wp_state ((booked.wp_writePage sane).mono (fun _ _ => And.left) fun _ _ steps => steps)
  | flushAll => exact wp_state booked.wp_flushAll
  | markDirty pid =>
    refine wp_state ?_
    rw [markDirty, wp_bind, wp_read]
    split_ifs with here
    · exact (booked.marked here).unused rfl id (.refl _)
    · exact booked.unused rfl id (.refl _)
  | invalidate pid =>
    refine Booked.unused ⟨fun other dirty => ?_, fun other => ?_⟩ rfl id (filter_sublist.map Prod.fst)
    · obtain ⟨apart, dirty⟩ := Finset.mem_erase.mp dirty
      exact (mem_keys_erase ..).mpr ⟨apart, booked.dirty other dirty⟩
    · exact (mem_keys_erase ..).trans ((and_congr_right' (booked.lsns other)).trans (mem_keys_erase ..).symm)

end

theorem pairwise_ago {calls : List PlainCall} {keys keys' : List ℤ} (call : PlainCall)
    (ordered : keys.Pairwise fun pid other => ago calls other < ago calls pid)
    (sub : keys' <+ keys.filter (· ∉ call.used) ++ call.used) :
    keys'.Pairwise fun pid other => ago (call :: calls) other < ago (call :: calls) pid := by
  have ages (pid : ℤ) : ago (call :: calls) pid = if pid ∈ call.used then 0 else ago calls pid + 1 := by
    by_cases here : pid ∈ call.used <;> simp [ago, findIdx_cons, here]
  have unused (pid : ℤ) (earlier : pid ∈ keys.filter (· ∉ call.used)) : pid ∉ call.used :=
    by simpa using (mem_filter.mp earlier).2
  refine Pairwise.sublist sub (pairwise_append.mpr ⟨?_, ?_, fun pid earlier other here => ?_⟩)
  · refine (ordered.filter _).imp_of_mem fun first second less => ?_
    rw [ages, ages, if_neg (unused _ first), if_neg (unused _ second)]
    omega
  · cases call <;> simp [PlainCall.used]
  · rw [ages, ages, if_pos here, if_neg (unused _ earlier)]
    omega

theorem reached_after (reached : Reached pool) (calls : List PlainCall) : Reached (after pool calls) := by
  induction calls with
  | nil => exact reached
  | cons call earlier ih =>
    cases call with
    | fetchPage pid => exact .fetchPage pid none ih
    | writePage pid data lsn => exact .writePage pid data lsn ih
    | markDirty pid => exact .markDirty pid ih
    | flushAll => exact .flushAll ih
    | invalidate pid => exact .invalidate pid ih

theorem orderly_iff {pager : Pager} {capacity : ℤ} (made : new pager capacity = .ok pool) (calls : List PlainCall) :
    (∀ earlier, earlier <:+ calls → Orderly earlier (after pool earlier)) ↔
      ∀ call earlier, call :: earlier <:+ calls → ¬ Stuck (after pool earlier) call := by
  have sane (earlier : List PlainCall) : Sane (after pool earlier) := (reached_after (.new made) earlier).sane
  constructor
  · intro orderly call earlier part stuck
    have before := (orderly earlier ((suffix_cons ..).trans part)).toBooked
    rcases before.steps (sane _) call with ⟨-, lost⟩ | ⟨free, -⟩
    · exact lost (orderly _ part).toBooked
    · exact free stuck
  · intro free earlier part
    obtain ⟨booked, ordered⟩ : Booked (after pool earlier) ∧
        (after pool earlier).cache.keys.Pairwise fun pid other => ago earlier other < ago earlier pid := by
      induction earlier with
      | nil =>
        rw [new] at made
        split_ifs at made
        cases made
        exact ⟨⟨fun _ here => absurd here (Finset.notMem_empty _), fun _ => .rfl⟩, .nil⟩
      | cons call earlier ih =>
        obtain ⟨booked, ordered⟩ := ih ((suffix_cons ..).trans part)
        obtain ⟨-, booked, keys⟩ := (booked.steps (sane _) call).resolve_left fun both => free call earlier part both.1
        exact ⟨booked, pairwise_ago call ordered keys⟩
    refine ⟨booked, ordered, fun pid data pager cached => ?_, fun pid pool' absent => ?_⟩
    · rw [fetchPage]
      simp [Returns, bind_apply, cached]
    · rintro (⟨data, returned⟩ | ⟨data, lsn, returned⟩)
      · exact ((booked.wp_fetchPage (sane _)).returns returned).2 absent
      · exact ((booked.wp_writePage (sane _)).returns returned).2 absent

/-- Page 1 is written, and then makes room for page 2. -/
def turns : List PlainCall := [.fetchPage 2, .writePage 1 (filled 7).bytes 5]

theorem orderly_turns : Orderly turns (after small turns) := by
  refine (orderly_iff (show new initNew 1 = .ok small from rfl) turns).mpr (fun call earlier part => ?_)
    turns (suffix_refl _)
  rcases suffix_cons_iff.mp part with same | part
  · obtain ⟨rfl, rfl⟩ := cons.inj same
    rintro ⟨-, -, -, victim, ⟨⟩, -, refused⟩
    exact absurd refused (by decide +kernel)
  · obtain ⟨rfl, rfl⟩ := cons.inj ((suffix_cons_iff.mp part).resolve_right (by simp))
    rintro ⟨-, full, -⟩
    exact absurd full (by decide)

/-- A page of no bytes is cached but cannot be written: it leaves the cache, and stays dirty. -/
theorem refused_page_stays_dirty : ¬ ∀ (pager : Pager) (capacity : ℤ) (pool : BufferPool) (calls : List PlainCall),
    new pager capacity = .ok pool → ∀ earlier, earlier <:+ calls → Orderly earlier (after pool earlier) := by
  intro claimed
  have orderly := claimed initNew 1 small [.fetchPage 2, .writePage 1 [] 5] rfl _ (suffix_refl _)
  exact absurd (orderly.dirty 1 (by decide +kernel)) (by decide +kernel)

end Tinydb.Storage.BufferPool
