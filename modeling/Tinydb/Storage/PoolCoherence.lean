import Tinydb.Storage.PoolRuns

/-! The page cache as a map from pages to their last data.

`view` is what the users of a pool see: the cached bytes, or those of the file.
A call of a `Coherent` pool loses no view but that of page 0, whose header the pager
keeps for itself.
-/

namespace Tinydb.Storage.BufferPool

open Lib Program Tx List Pager Finset Dict

def stored (pg : Pager) (pid : ℤ) : Option Bytes :=
  if 0 ≤ pid ∧ pid.toNat < pg.numPages then some (pg.file pid.toNat).bytes else none

def view (pool : BufferPool) (pid : ℤ) : Option Bytes := (pool.cache.get? pid).or (stored pool.pager pid)

/-- A page that can be written back: not the header, and within the range of the page count. -/
def Writable (pid : ℤ) : Prop := 0 < pid ∧ U32 (pid.toNat + 1)

instance (pid : ℤ) : Decidable (Writable pid) := inferInstanceAs (Decidable (_ ∧ _))

/-- No dirty page lies beyond the end of the file, so writing them back leaves the header as it is. -/
def Enclosed (pool : BufferPool) : Prop := ∀ pid ∈ pool.dirty, pid.toNat < pool.pager.numPages

instance (pool : BufferPool) : Decidable (Enclosed pool) := inferInstanceAs (Decidable (∀ pid ∈ pool.dirty, _))

structure Coherent (pool : BufferPool) : Prop where
  fits : pool.pager.HeaderFits
  clean : ∀ {pid data}, pool.cache.get? pid = some data → pid ∉ pool.dirty → stored pool.pager pid = some data
  dirty : ∀ {pid}, pid ∈ pool.dirty → Writable pid ∧ ∃ page : Page, pool.cache.get? pid = some page.bytes
  header : 0 ∈ pool.cache.keys → Enclosed pool

/-- The step from one pool to another loses nothing. -/
structure Keeps (pool pool' : BufferPool) : Prop where
  coherent : Coherent pool'
  kept : ∀ pid data, pid ≠ 0 → view pool pid = some data → view pool' pid = some data
  dirty : pool'.dirty ⊆ pool.dirty
  grows : pool.pager.numPages ≤ pool'.pager.numPages

variable {pool pool' : BufferPool} {pid : ℤ} {data : Bytes} {pg : Pager} {snapshot : Option Snapshot} {lsn : ℤ}
  {cache : Dict ℤ Bytes} {pageLsn : Dict ℤ ℤ}

theorem stored_eq_some :
    stored pg pid = some data ↔ 0 ≤ pid ∧ pid.toNat < pg.numPages ∧ (pg.file pid.toNat).bytes = data := by
  rw [stored]
  split_ifs with inside
  · simp [inside.1, inside.2]
  · simp only [false_iff]
    exact fun both => inside ⟨both.1, both.2.1⟩

theorem stored_eq_none : stored pg pid = none ↔ ¬ (0 ≤ pid ∧ pid.toNat < pg.numPages) := by simp [stored]

theorem view_of_cached (cached : pool.cache.get? pid = some data) : view pool pid = some data :=
    by rw [view, cached]; rfl

theorem view_of_uncached (uncached : pool.cache.get? pid = none) : view pool pid = stored pool.pager pid := by
  rw [view, uncached]; rfl

theorem Coherent.view_clean (coherent : Coherent pool) (clean : pid ∉ pool.dirty) :
    view pool pid = stored pool.pager pid := by
  cases cached : pool.cache.get? pid with
  | none => exact view_of_uncached cached
  | some data => rw [view_of_cached cached, coherent.clean cached clean]

theorem Coherent.refl (coherent : Coherent pool) : Keeps pool pool :=
    ⟨coherent, fun _ _ _ seen => seen, subset_refl _, le_refl _⟩

theorem Keeps.trans {mid : BufferPool} (first : Keeps pool mid) (second : Keeps mid pool') : Keeps pool pool' :=
  ⟨second.coherent, fun pid data other seen => second.kept pid data other (first.kept pid data other seen),
    second.dirty.trans first.dirty, first.grows.trans second.grows⟩

theorem pagerRead_result : (pagerRead pid pg).result = .ok data ↔ stored pg pid = some data := by
  have ends := (wp_pagerRead : (pagerRead pid).wp _ _ pg)
  rw [Program.wp] at ends
  cases answer : (pagerRead pid pg).result with
  | ok found =>
    rw [answer] at ends
    obtain ⟨-, sign, inside, rfl⟩ := ends
    simp [stored, sign, inside]
  | error e =>
    rw [answer] at ends
    simp [stored_eq_none.mpr ends.2]

theorem wp_pagerWrite_stored (fits : pg.HeaderFits) (writable : Writable pid) (page : Page) :
    (pagerWrite pid page.bytes).wp (fun _ pg' => pg'.HeaderFits ∧ stored pg' pid = some page.bytes ∧
      pg.numPages ≤ pg'.numPages ∧ (pid.toNat < pg.numPages → stored pg' 0 = stored pg 0) ∧
      ∀ q data, q ≠ 0 → q ≠ pid → stored pg q = some data → stored pg' q = some data) (fun _ _ => False) pg := by
  obtain ⟨positive, room⟩ := writable
  have nonzero : pid.toNat ≠ 0 := by omega
  have reads : pagerWrite pid page.bytes = Pager.writePage pid.toNat page.bytes := if_neg fun refused => by omega
  obtain ⟨pg', returned, wrote⟩ := writePage_returns fits nonzero room page
  rw [reads, wp_of_returns returned]
  refine ⟨wrote.fits, stored_eq_some.mpr ⟨positive.le, wrote.inside, congrArg _ wrote.same⟩,
    wrote.grows, fun inside => ?_, fun q data notHeader other seen => ?_⟩
  · obtain rfl : pg.put pid.toNat page = pg' := by
      rw [← returned.2, writePage_inside nonzero inside]
    simp [stored, put_file_other pg page (Ne.symm nonzero)]
  · obtain ⟨sign, inside, rfl⟩ := stored_eq_some.mp seen
    exact stored_eq_some.mpr ⟨sign, inside.trans_le wrote.grows,
      congrArg _ (wrote.other _ (by omega) (by omega) inside)⟩

section

variable (coherent : Coherent pool)
include coherent

theorem Coherent.reordered {hits misses : ℕ}
    (same : ∀ pid, cache.get? pid = pool.cache.get? pid) : Keeps pool { pool with cache, pageLsn, hits, misses } where
  coherent := ⟨coherent.fits, fun cached clean => coherent.clean (same _ ▸ cached) clean,
    fun dirty => same _ ▸ coherent.dirty dirty, fun cached => by
      obtain ⟨data, cached⟩ := mem_keys_iff.mp cached
      exact coherent.header (mem_keys_iff.mpr ⟨data, same 0 ▸ cached⟩)⟩
  kept := fun pid data _ seen => by
    show (cache.get? pid).or _ = _
    rw [same]
    exact seen
  dirty := subset_refl _
  grows := le_refl _

theorem Coherent.dropped (clean : pid ∉ pool.dirty) : Keeps pool (pool.drop pid) where
  coherent :=
    { fits := coherent.fits
      clean := fun {other data} cached clean' => by
        rw [drop, get?_erase] at cached
        split_ifs at cached with same
        exact coherent.clean cached fun dirty => clean' (mem_erase.mpr ⟨same, dirty⟩)
      dirty := fun {other} dirty => by
        obtain ⟨differs, dirty⟩ := mem_erase.mp dirty
        obtain ⟨writable, page, cached⟩ := coherent.dirty dirty
        exact ⟨writable, page, by rw [drop, get?_erase, if_neg differs, cached]⟩
      header := fun cached other dirty =>
        coherent.header ((mem_keys_erase ..).mp cached).2 other (mem_of_mem_erase dirty) }
  kept := fun other data _ seen => by
    by_cases same : other = pid
    · rw [view_of_uncached (by rw [drop, get?_erase, if_pos same])]
      rw [same] at seen ⊢
      exact coherent.view_clean clean ▸ seen
    · rw [view, drop, get?_erase, if_neg same]
      exact seen
  dirty := erase_subset ..
  grows := le_refl _

theorem Coherent.cached (seen : stored pool.pager pid = some data) (clean : pid ∉ pool.dirty)
    (header : pid = 0 → Enclosed pool) :
    Keeps pool { pool with cache := pool.cache.set pid data, pageLsn := pool.pageLsn.set pid lsn } where
  coherent :=
    { fits := coherent.fits
      clean := fun {other found} cached clean' => by
        rw [get?_set] at cached
        split_ifs at cached with same
        · rw [same, seen, cached]
        · exact coherent.clean cached clean'
      dirty := fun {other} dirty => by
        obtain ⟨writable, page, cached⟩ := coherent.dirty dirty
        have differs : other ≠ pid := fun same => clean (same ▸ dirty)
        exact ⟨writable, page, by rw [get?_set, if_neg differs, cached]⟩
      header := fun cached => ((mem_keys_set ..).mp cached).elim (fun same => header same.symm) coherent.header }
  kept := fun other found _ visible => by
    rw [view, get?_set]
    split_ifs with same
    · rw [same, coherent.view_clean clean, seen] at visible
      exact visible
    · exact visible
  dirty := subset_refl _
  grows := le_refl _

theorem Coherent.written (writable : Writable pid) (size : data.length = PAGE_SIZE)
    (header : 0 ∈ pool.cache.keys → pid.toNat < pool.pager.numPages)
    (same : ∀ q, cache.get? q = if q = pid then some data else pool.cache.get? q) :
    Coherent { pool with cache, pageLsn, dirty := insert pid pool.dirty } where
  fits := coherent.fits
  clean := fun {other found} cached clean => by
    obtain ⟨differs, clean⟩ := not_or.mp (mem_insert.not.mp clean)
    rw [same, if_neg differs] at cached
    exact coherent.clean cached clean
  dirty := fun {other} dirty => by
    rw [same]
    split_ifs with written
    · exact ⟨written ▸ writable, ⟨data, size⟩, rfl⟩
    · exact coherent.dirty (mem_of_mem_insert_of_ne dirty written)
  header := fun cached other dirty => by
    have here : 0 ∈ pool.cache.keys := by
      obtain ⟨found, cached⟩ := mem_keys_iff.mp cached
      rw [same, if_neg writable.1.ne] at cached
      exact mem_keys_iff.mpr ⟨found, cached⟩
    rcases mem_insert.mp dirty with rfl | dirty
    · exact header here
    · exact coherent.header here other dirty

theorem Coherent.wp_writeBack {page : Page} (dirty : pid ∈ pool.dirty)
    (cached : pool.cache.get? pid = some page.bytes) (fewer : ∀ q, q ≠ pid → cache.get? q = pool.cache.get? q)
    (gone : cache.get? pid = none ∨ cache.get? pid = some page.bytes) : (pagerWrite pid page.bytes).wp (fun _ pager =>
      Keeps pool { pool with pager, cache, dirty := pool.dirty.erase pid } ∧
      (Enclosed pool → stored pager 0 = stored pool.pager 0)) (fun _ _ => False) pool.pager := by
  have writable := (coherent.dirty dirty).1
  refine (wp_pagerWrite_stored coherent.fits writable page).mono (fun _ pager => ?_) fun _ _ never => never
  rintro ⟨fits, here, grows, headed, others⟩
  refine ⟨⟨⟨fits, ?clean, ?dirty, ?header⟩, ?kept, erase_subset .., grows⟩, fun enclosed => headed (enclosed pid dirty)⟩
  case clean =>
    intro other found inCache clean
    by_cases same : other = pid
    · rw [same] at inCache ⊢
      rcases gone with gone | gone <;> rw [gone] at inCache
      · cases inCache
      · rw [here, inCache]
    · have old := coherent.clean (fewer other same ▸ inCache) fun dirty => clean (mem_erase.mpr ⟨same, dirty⟩)
      by_cases header : other = 0
      · rw [header] at inCache old ⊢
        have enclosed := coherent.header (mem_keys_iff.mpr ⟨found, fewer 0 writable.1.ne ▸ inCache⟩)
        rw [headed (enclosed pid dirty), old]
      · exact others other found header same old
  case dirty =>
    intro other stays
    obtain ⟨differs, stays⟩ := mem_erase.mp stays
    rw [fewer other differs]
    exact coherent.dirty stays
  case header =>
    intro inCache other stays
    obtain ⟨found, inCache⟩ := mem_keys_iff.mp inCache
    exact (coherent.header (mem_keys_iff.mpr ⟨found, fewer 0 writable.1.ne ▸ inCache⟩) other
      (mem_of_mem_erase stays)).trans_le grows
  case kept =>
    intro other found notHeader seen
    by_cases same : other = pid
    · rw [same, view_of_cached cached] at seen
      rw [same, view, ← seen]
      rcases gone with gone | gone <;> rw [gone]
      · exact here
      · rfl
    · rw [view] at seen ⊢
      rw [fewer other same]
      cases inCache : pool.cache.get? other with
      | some old => rwa [inCache] at seen
      | none =>
        rw [inCache] at seen
        exact others other found notHeader same seen

theorem Coherent.wp_evict (nonempty : pool.cache.items ≠ []) :
    evict.wp (fun _ pool' => Keeps pool pool' ∧ (∀ pid, pool.cache.get? pid = none → pool'.cache.get? pid = none) ∧
      (Enclosed pool → stored pool'.pager 0 = stored pool.pager 0)) (fun _ _ => False) pool := by
  rw [evict, wp_bind, wp_read]
  obtain ⟨⟨pid, data⟩, rest, items⟩ := exists_cons_of_ne_nil nonempty
  have head : pool.cache.items.head? = some (pid, data) := by rw [items]; rfl
  have cached : pool.cache.get? pid = some data := get?_of_mem (mem_of_head? head)
  have fewer (q : ℤ) : pool.cache.rest.get? q = if q = pid then none else pool.cache.get? q := get?_rest head q
  have absent (q : ℤ) (uncached : pool.cache.get? q = none) : pool.cache.rest.get? q = none := by
    rw [fewer]
    split_ifs
    · rfl
    · exact uncached
  simp only [head, wp_bind, wp_modify]
  split_ifs with dirty
  · obtain ⟨-, page, bytes⟩ := coherent.dirty dirty
    obtain rfl : page.bytes = data := Option.some.inj (bytes.symm.trans cached)
    rw [wp_bind, wp_onPager]
    refine (coherent.wp_writeBack dirty cached (fun q differs => (fewer q).trans (if_neg differs))
      (.inl ((fewer pid).trans (if_pos rfl)))).mono (fun _ pager => ?_) fun _ _ never => never
    rintro ⟨keeps, headed⟩
    exact ⟨keeps.trans (keeps.coherent.reordered fun _ => rfl), absent, headed⟩
  · -- a clean page is dropped; it is not in `dirty`, so removing it from there changes nothing
    have keeps := coherent.dropped dirty
    have same : pool.drop pid = { pool.drop pid with dirty := pool.dirty } := by
      rw [drop, erase_eq_of_notMem dirty]
    refine ⟨keeps.trans ?_, absent, fun _ => rfl⟩
    rw [same] at keeps ⊢
    refine keeps.coherent.reordered fun q => ?_
    rw [fewer, drop, get?_erase]

theorem Coherent.wp_admitPage (sane : Sane pool) : (admitPage pid data lsn).wp (fun _ pool' => ∃ mid,
      Keeps pool mid ∧ (∀ pid, pool.cache.get? pid = none → mid.cache.get? pid = none) ∧
      (Enclosed pool → stored mid.pager 0 = stored pool.pager 0) ∧
      pool' = { mid with cache := mid.cache.set pid data, pageLsn := mid.pageLsn.set pid lsn })
      (fun _ _ => False) pool := by
  rw [admitPage, wp_bind, wp_read]
  split_ifs with full
  · have nonempty : pool.cache.items ≠ [] := ne_nil_of_length_pos (sane.positive.trans_le full)
    rw [wp_bind]
    refine (coherent.wp_evict nonempty).mono (fun _ mid => ?_) fun _ _ never => never
    rintro ⟨keeps, absent, headed⟩
    exact ⟨mid, keeps, absent, headed, rfl⟩
  · exact ⟨pool, coherent.refl, fun _ uncached => uncached, fun _ => rfl, rfl⟩

theorem Coherent.wp_load (sane : Sane pool) (uncached : pool.cache.get? pid = none)
    (header : pid = 0 → Enclosed pool) :
    (load pid).wp (fun data pool' => stored pool.pager pid = some data ∧ Keeps pool pool')
      (fun e pool' => (pagerRead pid pool.pager).result = .error e ∧ Keeps pool pool') pool := by
  have counted : Keeps pool { pool with misses := pool.misses + 1 } := coherent.reordered fun _ => rfl
  have saneCounted : Sane { pool with misses := pool.misses + 1 } :=
    sane.reordered rfl (fun _ => .rfl) fun _ here => here
  rw [load, wp_bind, wp_modify, wp_bind, wp_onPager]
  refine wp_iff.mpr ⟨fun data pager read => ?_, fun e pager raised => ?_⟩
  · obtain ⟨rfl, -⟩ := wp_pagerRead.returns read
    have seen : stored pool.pager pid = some data := pagerRead_result.mp read.1
    rw [wp_bind, wp_read, wp_bind]
    refine (counted.coherent.wp_admitPage saneCounted).mono (fun _ pool' => ?_) fun _ _ never => never.elim
    rintro ⟨mid, keeps, absent, headed, rfl⟩
    have clean : pid ∉ mid.dirty := fun dirty => by
      obtain ⟨-, page, cached⟩ := keeps.coherent.dirty dirty
      rw [absent pid uncached] at cached
      cases cached
    have seenMid : stored mid.pager pid = some data := by
      by_cases same : pid = 0
      · rw [same, headed (header same), ← same]
        exact seen
      · rw [← view_of_uncached (absent pid uncached)]
        exact keeps.kept pid data same ((view_of_uncached uncached).trans seen)
    refine ⟨seen, counted.trans (keeps.trans (keeps.coherent.cached seenMid clean fun same other dirty => ?_))⟩
    exact (header same other (keeps.dirty dirty)).trans_le keeps.grows
  · obtain ⟨rfl, -⟩ := wp_pagerRead.raises raised
    exact ⟨raised.1, counted⟩

/-- A fetch that does not drop a dirty page, and that caches the header only while it stays as it is. -/
def GentleFetch (pool : BufferPool) (pid : ℤ) (snapshot : Option Snapshot) : Prop :=
  (pid = 0 → Enclosed pool) ∧
    ∀ seen ∈ snapshot, pid ∈ pool.dirty → ¬ seen.isNewer ((pool.pageLsn.get? pid).getD 0)

instance (pool : BufferPool) (pid : ℤ) (snapshot : Option Snapshot) : Decidable (GentleFetch pool pid snapshot) :=
  inferInstanceAs (Decidable (_ ∧ ∀ seen ∈ snapshot, _))

theorem Coherent.wp_fetchPage (sane : Sane pool) (gentle : GentleFetch pool pid snapshot) :
    (fetchPage pid snapshot).wp (fun data pool' => view pool pid = some data ∧ Keeps pool pool')
      (fun e pool' => pid ∉ pool.dirty ∧ (pagerRead pid pool.pager).result = .error e ∧ Keeps pool pool') pool := by
  obtain ⟨header, undropped⟩ := gentle
  have moved {pageLsn : Dict ℤ ℤ} {hits : ℕ} :
    Keeps pool { pool with cache := pool.cache.moveToEnd pid, pageLsn, hits } :=
    coherent.reordered fun other => get?_moveToEnd ..
  rw [fetchPage, wp_bind, wp_read]
  cases cached : pool.cache.get? pid with
  | none =>
    have clean : pid ∉ pool.dirty := fun dirty => by
      obtain ⟨-, page, here⟩ := coherent.dirty dirty
      rw [cached] at here
      cases here
    refine (coherent.wp_load sane cached header).mono (fun data pool' loaded => ?_) fun e pool' raised =>
      ⟨clean, raised⟩
    exact ⟨(view_of_uncached cached).trans loaded.1, loaded.2⟩
  | some data =>
    cases snapshot with
    | none => exact ⟨view_of_cached cached, moved⟩
    | some seen =>
      have known : pid ∈ pool.pageLsn.keys := sane.lsns pid (mem_keys_iff.mpr ⟨data, cached⟩)
      dsimp only
      split_ifs with newer
      · -- the page is dropped while clean, so the file has the same bytes
        have clean : pid ∉ pool.dirty := fun dirty => undropped seen rfl dirty newer
        have dropped := coherent.dropped clean
        have uncached : (pool.drop pid).cache.get? pid = none := by rw [drop, get?_erase, if_pos rfl]
        have enclosed : pid = 0 → Enclosed (pool.drop pid) := fun same other dirty =>
          header same other (mem_of_mem_erase dirty)
        rw [wp_bind, wp_modify]
        refine (dropped.coherent.wp_load (sane.drop pid) uncached enclosed).mono (fun found pool' loaded => ?_)
          fun e pool' raised => ⟨clean, raised.1, dropped.trans raised.2⟩
        exact ⟨(coherent.view_clean clean).trans loaded.1, dropped.trans loaded.2⟩
      · exact ⟨view_of_cached cached, moved⟩

/-- A write the pager will take, and that does not move the header below a cached copy of it. -/
def GentleWrite (pool : BufferPool) (pid : ℤ) (data : Bytes) : Prop :=
  Writable pid ∧ data.length = PAGE_SIZE ∧ (0 ∈ pool.cache.keys → pid.toNat < pool.pager.numPages)

instance (pool : BufferPool) (pid : ℤ) (data : Bytes) : Decidable (GentleWrite pool pid data) :=
  inferInstanceAs (Decidable (_ ∧ _ ∧ _))

theorem Coherent.wp_writePage (sane : Sane pool) (gentle : GentleWrite pool pid data) :
    (writePage pid data lsn).wp
    (fun _ pool' => Coherent pool' ∧ view pool' pid = some data ∧ pool'.dirty ⊆ insert pid pool.dirty ∧
      ∀ other found, other ≠ 0 → other ≠ pid → view pool other = some found → view pool' other = some found)
      (fun _ _ => False) pool := by
  obtain ⟨writable, size, header⟩ := gentle
  rw [writePage, wp_bind, wp_read]
  split_ifs with cached
  · have same (q : ℤ) : ((pool.cache.set pid data).moveToEnd pid).get? q = if q = pid then some data
      else pool.cache.get? q := by
      rw [get?_moveToEnd, get?_set]
    refine ⟨coherent.written writable size header same, view_of_cached ((same pid).trans (if_pos rfl)), subset_refl _,
      fun other found _ differs seen => ?_⟩
    show (((pool.cache.set pid data).moveToEnd pid).get? other).or _ = _
    rw [same, if_neg differs]
    exact seen
  · rw [wp_bind]
    refine (coherent.wp_admitPage sane).mono (fun _ pool' => ?_) fun _ _ never => never
    rintro ⟨mid, keeps, absent, -, rfl⟩
    have same (q : ℤ) : (mid.cache.set pid data).get? q = if q = pid then some data else mid.cache.get? q := get?_set ..
    have enclosed (here : 0 ∈ mid.cache.keys) : pid.toNat < mid.pager.numPages := by
      refine (header (not_not.mp fun outside => ?_)).trans_le keeps.grows
      exact get?_eq_none.mp (absent 0 (get?_eq_none.mpr outside)) here
    refine ⟨keeps.coherent.written writable size enclosed same, view_of_cached ((same pid).trans (if_pos rfl)),
      insert_subset_insert _ keeps.dirty, fun other found notHeader differs seen => ?_⟩
    show ((mid.cache.set pid data).get? other).or _ = _
    rw [same, if_neg differs]
    exact keeps.kept other found notHeader seen

theorem Coherent.wp_flushAll :
    flushAll.wp (fun _ pool' => Keeps pool pool' ∧ pool'.dirty = ∅) (fun _ _ => False) pool := by
  rw [flushAll, wp_bind, wp_read]
  refine wp_forEach (fun rest pool' => Keeps pool pool' ∧ pool'.cache = pool.cache ∧
    (∀ entry ∈ rest, entry ∈ pool.cache.items) ∧ ∀ pid ∈ pool'.dirty, pid ∈ rest.map Prod.fst)
    ⟨coherent.refl, rfl, fun _ member => member, fun pid dirty => ?_⟩ ?_ ?_
  · obtain ⟨-, page, cached⟩ := coherent.dirty dirty
    exact mem_keys_iff.mpr ⟨_, cached⟩
  · rintro ⟨pid, data⟩ rest pool' ⟨keeps, same, members, unvisited⟩
    have later : ∀ entry ∈ rest, entry ∈ pool.cache.items :=
      fun entry member => members entry (mem_cons_of_mem _ member)
    have cached : pool'.cache.get? pid = some data := same ▸ get?_of_mem (members _ mem_cons_self)
    rw [flushPage, wp_bind, wp_read]
    split_ifs with dirty
    · obtain ⟨-, page, bytes⟩ := keeps.coherent.dirty dirty
      obtain rfl : page.bytes = data := Option.some.inj (bytes.symm.trans cached)
      rw [wp_bind, wp_onPager]
      refine (keeps.coherent.wp_writeBack dirty cached (fun _ _ => rfl) (.inr cached)).mono (fun _ pager back => ?_)
        fun _ _ never => never
      refine ⟨keeps.trans back.1, same, later, fun other stays => ?_⟩
      obtain ⟨differs, stays⟩ := mem_erase.mp stays
      exact (mem_cons.mp (unvisited other stays)).resolve_left differs
    · refine ⟨keeps, same, later, fun other stays => (mem_cons.mp (unvisited other stays)).resolve_left ?_⟩
      rintro rfl
      exact dirty stays
  · rintro pool' ⟨keeps, -, -, unvisited⟩
    exact ⟨keeps, eq_empty_of_forall_notMem fun pid dirty => not_mem_nil (unvisited pid dirty)⟩

end

inductive Call
  | fetchPage (pid : ℤ) (snapshot : Option Snapshot)
  | writePage (pid : ℤ) (data : Bytes) (lastLsn : ℤ)
  | flushAll

/-- A pool with the last data written to each page. -/
structure Session where
  pool : BufferPool
  latest : ℤ → Option Bytes

namespace Session

def advance (session : Session) : Call → Session
  | .fetchPage pid snapshot => { session with pool := (fetchPage pid snapshot session.pool).state }
  | .writePage pid data lastLsn =>
    let ran := writePage pid data lastLsn session.pool
    ⟨ran.state, match ran.result with
      | .ok _ => Function.update session.latest pid (some data)
      | .error _ => session.latest⟩
  | .flushAll => { session with pool := (flushAll session.pool).state }

def run (session : Session) (calls : List Call) : Session := calls.foldl advance session

/-- What a fetch should give: the last data written, or what the pager answers. -/
def expected (session : Session) (pid : ℤ) : Except Exc Bytes :=
  match session.latest pid with
  | some data => .ok data
  | none => (pagerRead pid session.pool.pager).result

/-- A flush writes the last data of every page, and the cache is within its capacity. -/
structure Durable (session : Session) : Prop where
  flushes : (flushAll session.pool).result = .ok ()
  written : ∀ pid data, session.latest pid = some data →
    (pagerRead pid (flushAll session.pool).state.pager).result = .ok data
  bounded : session.pool.cache.items.length ≤ session.pool.capacity

def Gentle (session : Session) : Call → Prop
  | .fetchPage pid snapshot => GentleFetch session.pool pid snapshot
  | .writePage pid data _ => GentleWrite session.pool pid data
  | .flushAll => True

def GentleRun (session : Session) : List Call → Prop
  | [] => True
  | call :: calls => session.Gentle call ∧ (session.advance call).GentleRun calls

instance (session : Session) : (call : Call) → Decidable (session.Gentle call)
  | .fetchPage pid snapshot => inferInstanceAs (Decidable (GentleFetch session.pool pid snapshot))
  | .writePage pid data _ => inferInstanceAs (Decidable (GentleWrite session.pool pid data))
  | .flushAll => inferInstanceAs (Decidable True)

instance decidableGentleRun : (calls : List Call) → (session : Session) → Decidable (session.GentleRun calls)
  | [], _ => inferInstanceAs (Decidable True)
  | call :: calls, session =>
    haveI := decidableGentleRun calls (session.advance call)
    inferInstanceAs (Decidable (session.Gentle call ∧ (session.advance call).GentleRun calls))

structure Held (start : Pager) (session : Session) : Prop where
  sane : Sane session.pool
  coherent : Coherent session.pool
  latest : ∀ pid data, session.latest pid = some data → pid ≠ 0 ∧ view session.pool pid = some data
  dirty : ∀ pid ∈ session.pool.dirty, session.latest pid ≠ none
  unwritten : ∀ pid data, pid ≠ 0 → session.latest pid = none → stored start pid = some data →
    view session.pool pid = some data

variable {start : Pager} {session : Session}

section

variable (held : Held start session)
include held

theorem Held.keeps (sane : Sane pool) (keeps : Keeps session.pool pool) :
    Held start { session with pool } where
  sane := sane
  coherent := keeps.coherent
  latest := fun pid data last =>
    have ⟨notHeader, seen⟩ := held.latest pid data last
    ⟨notHeader, keeps.kept pid data notHeader seen⟩
  dirty := fun pid dirty => held.dirty pid (keeps.dirty dirty)
  unwritten := fun pid data notHeader unwritten seen =>
    keeps.kept pid data notHeader (held.unwritten pid data notHeader unwritten seen)

theorem Held.advance {call : Call} (gentle : session.Gentle call) :
    Held start (session.advance call) := by
  cases call with
  | fetchPage pid snapshot =>
    have keeps : Keeps session.pool (fetchPage pid snapshot session.pool).state :=
      wp_state ((held.coherent.wp_fetchPage held.sane gentle).mono (fun _ _ ends => ends.2) fun _ _ ends => ends.2.2)
    exact held.keeps (wp_state (held.sane.wp_fetchPage snapshot)) keeps
  | writePage pid data lastLsn =>
    have notHeader : pid ≠ 0 := gentle.1.1.ne'
    obtain ⟨_, pool', returned, coherent, written, dirty, others⟩ :=
      (held.coherent.wp_writePage held.sane gentle : (writePage pid data lastLsn).wp _ _ session.pool).exists_returns
    have sane : Sane pool' := held.sane.wp_writePage.returns returned
    obtain ⟨latest, after, here, elsewhere⟩ : ∃ latest, session.advance (.writePage pid data lastLsn) =
      ⟨pool', latest⟩ ∧
        latest pid = some data ∧ ∀ other, other ≠ pid → latest other = session.latest other :=
      ⟨_, by rw [Session.advance, returned.1, returned.2], Function.update_self .., fun other differs =>
        Function.update_of_ne differs ..⟩
    rw [after]
    refine ⟨sane, coherent, fun other found last => ?_, fun other isDirty => ?_,
      fun other found apart unwritten seen => ?_⟩
    · rcases eq_or_ne other pid with rfl | differs
      · exact ⟨notHeader, written.trans (here.symm.trans last)⟩
      · have ⟨apart, seen⟩ := held.latest other found ((elsewhere other differs).symm.trans last)
        exact ⟨apart, others other found apart differs seen⟩
    · rcases eq_or_ne other pid with rfl | differs
      · simp [here]
      · exact fun absent => held.dirty other (mem_of_mem_insert_of_ne (dirty isDirty) differs)
          ((elsewhere other differs).symm.trans absent)
    · have differs : other ≠ pid := by
        rintro rfl
        cases here.symm.trans unwritten
      exact others other found apart differs
        (held.unwritten other found apart ((elsewhere other differs).symm.trans unwritten) seen)
  | flushAll =>
    have keeps : Keeps session.pool (flushAll session.pool).state :=
      wp_state (held.coherent.wp_flushAll.mono (fun _ _ ends => ends.1) fun _ _ never => never.elim)
    exact held.keeps (wp_state held.sane.wp_flushAll) keeps

theorem Held.run {calls : List Call} (gentle : session.GentleRun calls) :
    Held start (session.run calls) := by
  induction calls generalizing session with
  | nil => exact held
  | cons call calls ih => exact ih (held.advance gentle.1) gentle.2

theorem Held.fetches (gentle : session.Gentle (.fetchPage pid snapshot)) :
    (fetchPage pid snapshot session.pool).result = session.expected pid := by
  have ends := held.coherent.wp_fetchPage held.sane gentle
  rw [expected]
  rw [Program.wp] at ends
  cases answer : (fetchPage pid snapshot session.pool).result with
  | ok found =>
    rw [answer] at ends
    cases last : session.latest pid with
    | some data => rw [Option.some.inj (ends.1.symm.trans (held.latest pid data last).2)]
    | none =>
      have clean : pid ∉ session.pool.dirty := fun dirty => held.dirty pid dirty last
      exact (pagerRead_result.mpr ((held.coherent.view_clean clean).symm.trans ends.1)).symm
  | error e =>
    rw [answer] at ends
    obtain ⟨clean, refused, -⟩ := ends
    cases last : session.latest pid with
    | some data =>
      have seen := (held.coherent.view_clean clean).symm.trans (held.latest pid data last).2
      cases refused.symm.trans (pagerRead_result.mpr seen)
    | none => exact refused.symm

theorem Held.durable : Durable session := by
  obtain ⟨_, pool', returned, keeps, clean⟩ := held.coherent.wp_flushAll.exists_returns
  refine ⟨returned.1, fun pid data last => ?_, held.sane.bounded⟩
  have ⟨notHeader, seen⟩ := held.latest pid data last
  rw [returned.2, pagerRead_result, ← keeps.coherent.view_clean (clean ▸ notMem_empty pid)]
  exact keeps.kept pid data notHeader seen

end

def opened (pool : BufferPool) : Session := ⟨pool, fun _ => none⟩

theorem held_opened {pager : Pager} {capacity : ℤ} (made : new pager capacity = .ok pool)
    (fits : pager.HeaderFits) : Held pager (opened pool) := by
  have sane := sane_new made
  rw [new] at made
  split_ifs at made
  cases made
  refine ⟨sane, ⟨fits, ?_, ?_, ?_⟩, ?_, ?_, fun _ _ _ _ seen => seen⟩
  · intro pid data cached
    cases cached
  · intro pid dirty
    cases dirty
  · intro dirty
    cases dirty
  · intro pid data cached
    cases cached
  · intro pid dirty
    cases dirty

/-- A run of gentle calls loses no write, and leaves the other pages as they were. -/
theorem gentle_run_keeps_writes {pager : Pager} {capacity : ℤ} (made : new pager capacity = .ok pool)
    (fits : pager.HeaderFits) {calls : List Call} (gentle : (opened pool).GentleRun calls) :
    (∀ pid snapshot, ((opened pool).run calls).Gentle (.fetchPage pid snapshot) →
      (fetchPage pid snapshot ((opened pool).run calls).pool).result = ((opened pool).run calls).expected pid) ∧
    ((opened pool).run calls).Durable ∧
    ∀ pid data, pid ≠ 0 → ((opened pool).run calls).latest pid = none → stored pager pid = some data →
      ((opened pool).run calls).expected pid = .ok data := by
  have held := (held_opened made fits).run gentle
  refine ⟨fun pid snapshot => held.fetches, held.durable, fun pid data notHeader unwritten seen => ?_⟩
  have clean : pid ∉ ((opened pool).run calls).pool.dirty := fun dirty => held.dirty pid dirty unwritten
  rw [expected, unwritten]
  exact pagerRead_result.mpr ((held.coherent.view_clean clean).symm.trans
    (held.unwritten pid data notHeader unwritten seen))

/-- Page 2 pushes page 1 out of a cache of one page, and page 1 is read back with its data. -/
def evicting : List Call := [.writePage 1 (filled 7).bytes 5, .writePage 2 (filled 9).bytes 6]

theorem gentle_run_keeps_evicted : (((opened small).run evicting).latest 1).map List.head? = some (some 7) ∧
    (fetchPage 1 (some ⟨3⟩) ((opened small).run evicting).pool).result = ((opened small).run evicting).expected 1 :=
  ⟨by decide +kernel, (gentle_run_keeps_writes (show new initNew 1 = .ok small from rfl) (by decide)
    (show (opened small).GentleRun evicting by decide +kernel)).1 1 (some ⟨3⟩) (by decide +kernel)⟩

/-- A snapshot older than a page that was written and not yet flushed makes the pool forget the write. -/
theorem older_snapshot_loses_write : ¬ ∀ (pager : Pager) (capacity : ℤ) (pool : BufferPool) (calls : List Call),
    openFile pager.file = .ok pager → new pager capacity = .ok pool →
    (∀ pid snapshot, (fetchPage pid snapshot ((opened pool).run calls).pool).result =
      ((opened pool).run calls).expected pid) ∧
    ((opened pool).run calls).Durable := by
  intro claimed
  have fetched := (claimed initNew 1 small [.writePage 1 (filled 7).bytes 5] openFile_initNew rfl).1 1 (some ⟨3⟩)
  have wanted : ((opened small).run [.writePage 1 (filled 7).bytes 5]).expected 1 = .ok (filled 7).bytes := rfl
  have forgotten : (fetchPage 1 (some ⟨3⟩) ((opened small).run [.writePage 1 (filled 7).bytes 5]).pool).result =
    .ok zeroPage.bytes := rfl
  rw [wanted, forgotten] at fetched
  have same : zeroPage.bytes.head? = (filled 7).bytes.head? := congrArg _ (Except.ok.inj fetched)
  exact absurd same (by decide)

end Session

end Tinydb.Storage.BufferPool
