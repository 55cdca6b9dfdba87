import Tinydb.Storage.Heap

/-! What a heap page holds, and what the three edits of a page do to it.

A page is well formed when its records lie between the header and the end of the
data, and the slots behind it. One slot may reach into the data: a record that
just fits an empty page without a slot is written before its slot is.
-/

namespace Tinydb.Storage.Heap

open Lib Tx List

def slotPos (slotId : ℕ) : ℕ := PAGE_SIZE - (slotId + 1) * SLOT_SIZE

def slotAt (page : Page) (slotId : ℕ) : Slot := Slot.unpack (slice page.bytes (slotPos slotId) 5)

def SlotFits (slotId : ℕ) : Prop := HEADER_SIZE + (slotId + 1) * SLOT_SIZE ≤ PAGE_SIZE

variable {slotId : ℕ}

theorem SlotFits.pos (fits : SlotFits slotId) : HEADER_SIZE ≤ slotPos slotId ∧ slotPos slotId + 5 ≤ PAGE_SIZE := by
  unfold SlotFits HEADER_SIZE SLOT_SIZE PAGE_SIZE at fits
  unfold slotPos HEADER_SIZE SLOT_SIZE PAGE_SIZE
  omega

theorem resolveOffset_slot (fits : SlotFits slotId) :
    resolveOffset PAGE_SIZE 5 (slotOffset slotId) = .ok (slotPos slotId) := by
  unfold SlotFits HEADER_SIZE SLOT_SIZE PAGE_SIZE at fits
  unfold resolveOffset slotOffset slotPos SLOT_SIZE PAGE_SIZE
  rw [if_neg (by omega), if_neg (by omega)]
  exact congrArg Except.ok (by omega)

theorem readSlot_eq (page : Page) (fits : SlotFits slotId) : readSlot page slotId = .ok (slotAt page slotId) := by
  rw [readSlot, page.size, resolveOffset_slot fits]
  rfl

def withHeader (page : Page) (next slots data : ℕ) : Page :=
  page.patch 0 (packLE 4 next ++ packLE 2 slots ++ packLE 2 data) (by simp [PAGE_SIZE])

def withSlot (page : Page) (slotId : ℕ) (slot : Slot) : Page :=
  page.patch (slotPos slotId) slot.pack
    (by simp only [Slot.pack, length_append, packLE_length, slotPos, PAGE_SIZE, SLOT_SIZE]; omega)

def withRecord (page : Page) (data : ℕ) (encoded : Bytes) (fits : data + encoded.length ≤ PAGE_SIZE) : Page :=
  page.patch data encoded fits

variable {next off n i : ℕ} (page : Page) {slots data : ℕ} {slot : Slot} {encoded : Bytes}
  (fits : data + encoded.length ≤ PAGE_SIZE)

theorem writeHeader_eq (page : Page) (fits : U32 next ∧ slots < 2 ^ 16 ∧ data < 2 ^ 16) :
    writeHeader page.bytes next slots data = .ok (withHeader page next slots data).bytes := by
  rw [writeHeader, if_pos fits]
  rfl

theorem writeSlot_eq (page : Page) (fits : SlotFits slotId)
    (small : slot.offset < 2 ^ 16 ∧ slot.length < 2 ^ 16 ∧ slot.flags < 2 ^ 8) :
    writeSlot page.bytes slotId slot = .ok (withSlot page slotId slot).bytes := by
  rw [writeSlot, page.size, resolveOffset_slot fits]
  simp only [bind, Except.bind, if_pos small]
  rfl

theorem slice_withHeader (behind : 8 ≤ off) :
    slice (withHeader page next slots data).bytes off n = slice page.bytes off n :=
  slice_splice_other _ _ _ _ _ (Nat.zero_le _) (.inr (by simpa using behind))

theorem header_withHeader :
    slice (withHeader page next slots data).bytes 0 8 = packLE 4 next ++ packLE 2 slots ++ packLE 2 data := by
  have size : (packLE 4 next ++ packLE 2 slots ++ packLE 2 data).length = 8 := by simp
  rw [← size]
  exact slice_splice_same _ _ _ (Nat.zero_le _)

omit page in
theorem slice_slice (buf : Bytes) {m : ℕ} (inside : off + n ≤ m) : slice buf off n = slice (slice buf 0 m) off n := by
  apply ext_getElem?
  intro i
  rw [getElem?_slice, getElem?_slice, getElem?_slice]
  by_cases small : i < n
  · rw [if_pos small, if_pos small, if_pos (by omega), Nat.zero_add]
  · rw [if_neg small, if_neg small]

theorem nextPid_withHeader (fits : U32 next) : nextPid (withHeader page next slots data) = next := by
  rw [nextPid, slice_slice _ (by decide : 0 + 4 ≤ 8), header_withHeader, append_assoc,
    slice_front (packLE_length 4 next)]
  exact unpackLE_packLE fits

theorem slotCount_withHeader (fits : slots < 2 ^ 16) : slotCount (withHeader page next slots data) = slots := by
  rw [slotCount, slice_slice _ (by decide : 4 + 2 ≤ 8), header_withHeader, append_assoc,
    slice_skip 2 4 (packLE_length 4 next) (le_refl _), slice_front (packLE_length 2 slots)]
  exact unpackLE_packLE fits

theorem dataEnd_withHeader (fits : data < 2 ^ 16) : dataEnd (withHeader page next slots data) = data := by
  rw [dataEnd, slice_slice _ (by decide : 6 + 2 ≤ 8), header_withHeader, append_assoc,
    slice_skip 2 4 (packLE_length 4 next), slice_skip 2 2 (packLE_length 2 slots) (le_refl _),
    slice_all (packLE_length 2 data)]
  exact unpackLE_packLE fits

theorem slotAt_withHeader (fits : SlotFits i) : slotAt (withHeader page next slots data) i = slotAt page i := by
  rw [slotAt, slice_withHeader page (by have := fits.pos.1; unfold HEADER_SIZE at this; omega), slotAt]

theorem slot_pack_length (slot : Slot) : slot.pack.length = 5 := by simp [Slot.pack]

theorem slice_withSlot (apart : off + n ≤ slotPos slotId ∨ slotPos slotId + 5 ≤ off) :
    slice (withSlot page slotId slot).bytes off n = slice page.bytes off n :=
  slice_splice_other _ _ _ _ _ (by rw [page.size]; unfold slotPos PAGE_SIZE; omega)
    (by rw [slot_pack_length]; exact apart)

theorem header_withSlot (fits : SlotFits slotId) :
    nextPid (withSlot page slotId slot) = nextPid page ∧ slotCount (withSlot page slotId slot) = slotCount page ∧
      dataEnd (withSlot page slotId slot) = dataEnd page := by
  have behind := fits.pos.1
  unfold HEADER_SIZE at behind
  refine ⟨?_, ?_, ?_⟩ <;> simp only [nextPid, slotCount, dataEnd] <;> rw [slice_withSlot page (.inl (by omega))]

theorem Slot.unpack_pack (small : slot.offset < 2 ^ 16 ∧ slot.length < 2 ^ 16 ∧ slot.flags < 2 ^ 8) :
    Slot.unpack slot.pack = slot := by
  obtain ⟨offset, length, flags⟩ := small
  rw [Slot.unpack, Slot.pack, append_assoc, slice_front (packLE_length 2 _),
    slice_skip 2 2 (packLE_length 2 _) (le_refl _), slice_front (packLE_length 2 _),
    slice_skip 1 2 (packLE_length 2 _), slice_skip 1 2 (packLE_length 2 _) (le_refl _),
    slice_all (packLE_length 1 _), unpackLE_packLE offset, unpackLE_packLE length, unpackLE_packLE flags]

theorem slotAt_withSlot_same (small : slot.offset < 2 ^ 16 ∧ slot.length < 2 ^ 16 ∧ slot.flags < 2 ^ 8) :
    slotAt (withSlot page slotId slot) slotId = slot := by
  have written : slice (withSlot page slotId slot).bytes (slotPos slotId) 5 = slot.pack := by
    rw [← slot_pack_length slot]
    exact slice_splice_same _ _ _ (by rw [page.size]; unfold slotPos PAGE_SIZE; omega)
  rw [slotAt, written, Slot.unpack_pack small]

theorem slotAt_withSlot_other (fits : SlotFits slotId) (fits' : SlotFits i) (other : i ≠ slotId) :
    slotAt (withSlot page slotId slot) i = slotAt page i := by
  unfold SlotFits HEADER_SIZE SLOT_SIZE PAGE_SIZE at fits fits'
  rw [slotAt, slice_withSlot page, slotAt]
  unfold slotPos SLOT_SIZE PAGE_SIZE
  omega

theorem slice_withRecord (apart : off + n ≤ data ∨ data + encoded.length ≤ off) :
    slice (withRecord page data encoded fits).bytes off n = slice page.bytes off n :=
  slice_splice_other _ _ _ _ _ (by rw [page.size]; omega) apart

theorem slice_withRecord_same : slice (withRecord page data encoded fits).bytes data encoded.length = encoded :=
  slice_splice_same _ _ _ (by rw [page.size]; omega)

theorem slotAt_withRecord (below : data + encoded.length ≤ slotPos i) :
    slotAt (withRecord page data encoded fits) i = slotAt page i := by
  rw [slotAt, slice_withRecord page fits (.inr below), slotAt]

structure Slotted (page : Page) : Prop where
  start : DATA_START ≤ dataEnd page
  room : dataEnd page + slotCount page * SLOT_SIZE ≤ PAGE_SIZE ∨ slotCount page = 1 ∧ dataEnd page ≤ PAGE_SIZE
  live : ∀ i < slotCount page, (slotAt page i).flags ≠ 0 → DATA_START ≤ (slotAt page i).offset ∧
    (slotAt page i).offset + (slotAt page i).length ≤ dataEnd page

def recordAt (page : Page) (i : ℕ) : Option Bytes :=
  if (slotAt page i).flags = 0 ∨ (slotAt page i).length = 0 then none
  else some (slice page.bytes (slotAt page i).offset (slotAt page i).length)

def recordsOn (pid : ℕ) (page : Page) : List (Rid × Bytes) :=
  (List.range (slotCount page)).filterMap fun i => (recordAt page i).map (⟨pid, i⟩, ·)

def Solid (page : Page) : Prop := ∀ i < slotCount page, (slotAt page i).flags ≠ 0 → (slotAt page i).length ≠ 0

variable {page : Page} {pid : ℕ} {page' : Page} {j : ℕ}

theorem Slotted.slotFits (slotted : Slotted page) (inside : i < slotCount page) : SlotFits i := by
  have start := slotted.start
  have room := slotted.room
  unfold DATA_START HEADER_SIZE at start
  unfold SLOT_SIZE PAGE_SIZE at room
  unfold SlotFits HEADER_SIZE SLOT_SIZE PAGE_SIZE
  omega

theorem Slotted.dataEnd_le (slotted : Slotted page) : dataEnd page ≤ PAGE_SIZE := by
  have room := slotted.room
  omega

theorem nextPid_u32 (page : Page) : U32 (nextPid page) := by
  refine (unpackLE_lt _).trans_le (Nat.pow_le_pow_right (by decide) ?_ : _ ≤ 256 ^ 4)
  simp [slice]

theorem mem_recordsOn {rid : Rid} {record : Bytes} : (rid, record) ∈ recordsOn pid page ↔
      rid.pageId = pid ∧ rid.slotId < slotCount page ∧ recordAt page rid.slotId = some record := by
  rw [recordsOn, mem_filterMap]
  constructor
  · rintro ⟨i, inside, found⟩
    obtain ⟨record', here, ⟨⟩⟩ := Option.map_eq_some_iff.mp found
    exact ⟨rfl, mem_range.mp inside, here⟩
  · rintro ⟨rfl, inside, here⟩
    exact ⟨rid.slotId, mem_range.mpr inside, by rw [here]; rfl⟩

theorem recordsOn_congr (slots : slotCount page' = slotCount page)
    (same : ∀ i < slotCount page, recordAt page' i = recordAt page i) : recordsOn pid page' = recordsOn pid page := by
  rw [recordsOn, slots, recordsOn]
  exact filterMap_congr fun i inside => by rw [same i (mem_range.mp inside)]

theorem recordAt_congr (slot : slotAt page' i = slotAt page i)
    (bytes : (slotAt page i).flags ≠ 0 → slice page'.bytes (slotAt page i).offset (slotAt page i).length =
      slice page.bytes (slotAt page i).offset (slotAt page i).length) : recordAt page' i = recordAt page i := by
  rw [recordAt, slot, recordAt]
  by_cases gone : (slotAt page i).flags = 0 ∨ (slotAt page i).length = 0
  · rw [if_pos gone, if_pos gone]
  · rw [if_neg gone, if_neg gone, bytes fun zero => gone (.inl zero)]

theorem slotted_empty (page : Page) (next : ℕ) : Slotted (withHeader page next 0 DATA_START) := by
  have slots : slotCount (withHeader page next 0 DATA_START) = 0 := slotCount_withHeader page (by decide)
  have data : dataEnd (withHeader page next 0 DATA_START) = DATA_START := dataEnd_withHeader page (by decide)
  refine ⟨data.ge, .inl ?_, ?_⟩
  · rw [slots, data]
    decide
  · rw [slots]
    exact fun i absurd => (Nat.not_lt_zero i absurd).elim

theorem recordsOn_empty (page : Page) (next : ℕ) : recordsOn pid (withHeader page next 0 DATA_START) = [] := by
  rw [recordsOn, slotCount_withHeader page (by decide)]
  rfl

theorem solid_empty (page : Page) (next : ℕ) : Solid (withHeader page next 0 DATA_START) := by
  intro i inside
  rw [slotCount_withHeader page (by decide)] at inside
  exact (Nat.not_lt_zero i inside).elim

def linked (page : Page) (next : ℕ) : Page := withHeader page next (slotCount page) (dataEnd page)

section

variable (slotted : Slotted page)
include slotted

theorem Slotted.counts_lt : slotCount page < 2 ^ 16 ∧ dataEnd page < 2 ^ 16 := by
  have data := slotted.dataEnd_le
  have room := slotted.room
  unfold SLOT_SIZE PAGE_SIZE at *
  omega

theorem Slotted.linked_fields (fits : U32 next) :
    nextPid (linked page next) = next ∧ slotCount (linked page next) = slotCount page ∧
      dataEnd (linked page next) = dataEnd page :=
  ⟨nextPid_withHeader page fits, slotCount_withHeader page slotted.counts_lt.1,
    dataEnd_withHeader page slotted.counts_lt.2⟩

theorem Slotted.recordAt_linked (next : ℕ) (inside : i < slotCount page) :
    recordAt (linked page next) i = recordAt page i := by
  refine recordAt_congr (slotAt_withHeader page (slotted.slotFits inside)) fun used => slice_withHeader page ?_
  have behind := (slotted.live i inside used).1
  unfold DATA_START HEADER_SIZE at behind
  omega

theorem Slotted.linked (fits : U32 next) : Slotted (linked page next) := by
  obtain ⟨-, slots, data⟩ := slotted.linked_fields fits
  refine ⟨data ▸ slotted.start, by rw [slots, data]; exact slotted.room, fun i inside used => ?_⟩
  rw [slots] at inside
  have slot : slotAt (Heap.linked page next) i = slotAt page i := slotAt_withHeader page (slotted.slotFits inside)
  rw [slot] at used
  rw [data, slot]
  exact slotted.live i inside used

theorem Slotted.solid_linked (fits : U32 next) (solid : Solid page) :
    Solid (Heap.linked page next) := by
  intro i inside used
  rw [(slotted.linked_fields fits).2.1] at inside
  have slot : slotAt (Heap.linked page next) i = slotAt page i := slotAt_withHeader page (slotted.slotFits inside)
  rw [slot] at used ⊢
  exact solid i inside used

theorem Slotted.recordsOn_linked (fits : U32 next) :
    recordsOn pid (Heap.linked page next) = recordsOn pid page :=
  recordsOn_congr (slotted.linked_fields fits).2.1 fun _ inside => slotted.recordAt_linked next inside

end

/-- The page without the record in slot `i`. -/
def erased (page : Page) (i : ℕ) : Page := withSlot page i ⟨0, 0, 0⟩

theorem Slotted.erased_fields (slotted : Slotted page) (inside : i < slotCount page) :
    nextPid (erased page i) = nextPid page ∧ slotCount (erased page i) = slotCount page ∧
      dataEnd (erased page i) = dataEnd page := header_withSlot page (slotted.slotFits inside)

section

variable (slotted : Slotted page) (inside : i < slotCount page)
include slotted inside

theorem Slotted.slotAt_erased (inside' : j < slotCount page) :
    slotAt (erased page i) j = if j = i then ⟨0, 0, 0⟩ else slotAt page j := by
  by_cases same : j = i
  · rw [if_pos same, same]
    exact slotAt_withSlot_same page (by decide)
  · rw [if_neg same]
    exact slotAt_withSlot_other page (slotted.slotFits inside) (slotted.slotFits inside') same

theorem Slotted.slotPos_ge (inside' : j < slotCount page) (other : j ≠ i) : dataEnd page ≤ slotPos i := by
  have room := slotted.room
  unfold SLOT_SIZE PAGE_SIZE at room
  unfold slotPos SLOT_SIZE PAGE_SIZE
  omega

theorem Slotted.recordAt_erased (inside' : j < slotCount page) :
    recordAt (erased page i) j = if j = i then none else recordAt page j := by
  by_cases same : j = i
  · rw [if_pos same, recordAt, slotted.slotAt_erased inside inside', if_pos same]
    rfl
  · rw [if_neg same]
    refine recordAt_congr ((slotted.slotAt_erased inside inside').trans (if_neg same)) fun used => ?_
    have before := (slotted.live j inside' used).2
    exact slice_withSlot page (.inl (before.trans (slotted.slotPos_ge inside inside' same)))

theorem Slotted.erased : Slotted (erased page i) := by
  obtain ⟨-, slots, data⟩ := slotted.erased_fields inside
  refine ⟨data ▸ slotted.start, by rw [slots, data]; exact slotted.room, fun j inside' used => ?_⟩
  rw [slots] at inside'
  rw [slotted.slotAt_erased inside inside'] at used ⊢
  by_cases same : j = i
  · rw [if_pos same] at used
    exact (used rfl).elim
  · rw [if_neg same] at used ⊢
    rw [data]
    exact slotted.live j inside' used

theorem Slotted.solid_erased (solid : Solid page) :
    Solid (Heap.erased page i) := by
  intro j inside' used
  rw [(slotted.erased_fields inside).2.1] at inside'
  rw [slotted.slotAt_erased inside inside'] at used ⊢
  by_cases same : j = i
  · rw [if_pos same] at used
    exact (used rfl).elim
  · rw [if_neg same] at used ⊢
    exact solid j inside' used

theorem Slotted.recordsOn_erased :
    recordsOn pid (Heap.erased page i) = (recordsOn pid page).filter fun entry => entry.1 ≠ ⟨pid, i⟩ := by
  rw [recordsOn, (slotted.erased_fields inside).2.1, recordsOn, filter_filterMap]
  refine filterMap_congr fun j inside' => ?_
  rw [slotted.recordAt_erased inside (mem_range.mp inside')]
  by_cases same : j = i
  · rw [if_pos same, same]
    cases recordAt page i <;> simp [Option.filter]
  · rw [if_neg same]
    cases recordAt page j <;> simp [Option.filter, same]

end

def placed (page : Page) (encoded : Bytes) (fits : dataEnd page + encoded.length ≤ PAGE_SIZE) : Page :=
  withHeader (withSlot (withRecord page (dataEnd page) encoded fits) (slotCount page)
    ⟨dataEnd page, encoded.length, 1⟩) (nextPid page) (slotCount page + 1) (dataEnd page + encoded.length)

def Takes (page : Page) (encoded : Bytes) : Prop :=
  dataEnd page + encoded.length ≤ PAGE_SIZE ∧
    (dataEnd page + encoded.length + (slotCount page + 1) * SLOT_SIZE ≤ PAGE_SIZE ∨ slotCount page = 0)

variable (slotted : Slotted page) (takes : Takes page encoded)

include slotted takes

theorem Takes.slotFits : SlotFits (slotCount page) := by
  have start := slotted.start
  obtain ⟨-, room⟩ := takes
  unfold DATA_START HEADER_SIZE at start
  unfold SLOT_SIZE PAGE_SIZE at room
  unfold SlotFits HEADER_SIZE SLOT_SIZE PAGE_SIZE
  omega

theorem Takes.placed_fields : nextPid (placed page encoded takes.1) = nextPid page ∧
    slotCount (placed page encoded takes.1) = slotCount page + 1 ∧
      dataEnd (placed page encoded takes.1) = dataEnd page + encoded.length := by
  have counts := slotted.counts_lt
  have data := takes.1
  have fits := takes.slotFits slotted
  unfold PAGE_SIZE at data
  unfold SlotFits HEADER_SIZE SLOT_SIZE PAGE_SIZE at fits
  exact ⟨nextPid_withHeader _ (nextPid_u32 page), slotCount_withHeader _ (by omega), dataEnd_withHeader _ (by omega)⟩

omit slotted in
theorem Takes.older (inside : i < slotCount page) :
    dataEnd page + encoded.length ≤ slotPos (slotCount page) ∧ slotPos (slotCount page) + 5 ≤ slotPos i := by
  obtain ⟨data, room⟩ := takes
  unfold SLOT_SIZE PAGE_SIZE at room
  unfold slotPos SLOT_SIZE PAGE_SIZE
  omega

theorem Takes.slotAt_placed (inside : i < slotCount page) : slotAt (placed page encoded takes.1) i = slotAt page i := by
  have older := takes.older inside
  have fits := slotted.slotFits inside
  rw [placed, slotAt_withHeader _ fits, slotAt_withSlot_other _ (takes.slotFits slotted) fits (by omega),
    slotAt_withRecord _ _ (by omega)]

theorem Takes.slotAt_new :
    slotAt (placed page encoded takes.1) (slotCount page) = ⟨dataEnd page, encoded.length, 1⟩ := by
  have data := takes.1
  unfold PAGE_SIZE at data
  rw [placed, slotAt_withHeader _ (takes.slotFits slotted)]
  refine slotAt_withSlot_same _ ⟨?_, ?_, ?_⟩ <;> simp only <;> omega

theorem Takes.recordAt_placed (inside : i < slotCount page) :
    recordAt (placed page encoded takes.1) i = recordAt page i := by
  refine recordAt_congr (takes.slotAt_placed slotted inside) fun used => ?_
  have older := takes.older inside
  obtain ⟨behind, before⟩ := slotted.live i inside used
  unfold DATA_START HEADER_SIZE at behind
  rw [placed, slice_withHeader _ (by omega), slice_withSlot _ (.inl (by omega)),
    slice_withRecord _ _ (.inl before)]

theorem Takes.slotted_placed : Slotted (placed page encoded takes.1) := by
  obtain ⟨-, slots, data⟩ := takes.placed_fields slotted
  have start := slotted.start
  refine ⟨by rw [data]; omega, ?_, fun i inside used => ?_⟩
  · rw [slots, data]
    exact takes.2.imp id fun none => ⟨by omega, takes.1⟩
  · rw [slots] at inside
    rcases Nat.lt_succ_iff_lt_or_eq.mp inside with older | rfl
    · rw [takes.slotAt_placed slotted older] at used ⊢
      have := slotted.live i older used
      rw [data]
      omega
    · rw [takes.slotAt_new slotted, data]
      exact ⟨start, le_refl _⟩

theorem Takes.solid_placed (nonempty : encoded ≠ []) (solid : Solid page) : Solid (placed page encoded takes.1) := by
  intro i inside used
  rw [(takes.placed_fields slotted).2.1] at inside
  rcases Nat.lt_succ_iff_lt_or_eq.mp inside with older | rfl
  · rw [takes.slotAt_placed slotted older] at used ⊢
    exact solid i older used
  · rw [takes.slotAt_new slotted]
    simpa using nonempty

theorem Takes.recordsOn_placed (pid : ℕ) (nonempty : encoded ≠ []) : ∃ record,
    recordsOn pid (placed page encoded takes.1) = recordsOn pid page ++ [(⟨pid, slotCount page⟩, record)] ∧
      (dataEnd page + encoded.length + (slotCount page + 1) * SLOT_SIZE ≤ PAGE_SIZE → record = encoded) := by
  obtain ⟨-, slots, -⟩ := takes.placed_fields slotted
  have new : recordAt (placed page encoded takes.1) (slotCount page) =
      some (slice (placed page encoded takes.1).bytes (dataEnd page) encoded.length) := by
    rw [recordAt, takes.slotAt_new slotted, if_neg (by simpa using nonempty)]
  refine ⟨slice (placed page encoded takes.1).bytes (dataEnd page) encoded.length, ?_, fun room => ?_⟩
  · rw [recordsOn, slots, range_succ, filterMap_append]
    congr 1
    · exact filterMap_congr fun i inside => by rw [takes.recordAt_placed slotted (mem_range.mp inside)]
    · rw [filterMap_cons, new]
      rfl
  · have start := slotted.start
    unfold DATA_START HEADER_SIZE at start
    unfold SLOT_SIZE PAGE_SIZE at room
    rw [placed, slice_withHeader _ (by omega), slice_withSlot _ (.inl ?_), slice_withRecord_same]
    unfold slotPos SLOT_SIZE PAGE_SIZE
    omega

end Tinydb.Storage.Heap
