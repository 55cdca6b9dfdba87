import Tinydb.Tx.Recovery

/-! The log as a list of entries, and what analysis makes of it.

An entry is what one record means. The manager appends encoded entries and
analysis decodes them, so everything recovery does can be stated over entries.
-/

namespace Tinydb.Tx

open Lib Storage List Dict Analysis

inductive LogEntry where
  | began (txId : ℕ)
  | committed (txId : ℕ)
  | rolledBack (txId : ℕ)
  | page (touch : PageTouch)

namespace LogEntry

def type : LogEntry → ℕ
  | began _ => RT_BEGIN
  | committed _ => RT_COMMIT
  | rolledBack _ => RT_ROLLBACK
  | page _ => RT_PAGE

def payload : LogEntry → Bytes
  | began txId | committed txId | rolledBack txId => packBE 8 txId
  | page touch => packBE 8 touch.txId ++ packBE 4 touch.pageId ++ packBE 4 PAGE_SIZE ++ packBE 4 PAGE_SIZE ++
      touch.before.bytes ++ touch.after.bytes

def Fits : LogEntry → Prop
  | began txId | committed txId | rolledBack txId => txId < 2 ^ 64
  | page touch => touch.txId < 2 ^ 64 ∧ U32 touch.pageId

def touch? : LogEntry → Option PageTouch
  | page touch => some touch
  | _ => none

def decision? (txId : ℕ) : LogEntry → Option TxState
  | committed other => if other = txId then some .committed else none
  | rolledBack other => if other = txId then some .rolledBack else none
  | _ => none

theorem type_lt (entry : LogEntry) : entry.type < 2 ^ 8 := by cases entry <;> simp [type, RT_BEGIN, RT_COMMIT,
  RT_ROLLBACK, RT_PAGE]

theorem payload_length_lt (entry : LogEntry) : entry.payload.length < 2 ^ 32 := by
  cases entry with
  | page touch =>
    simp only [payload, length_append, packBE_length, touch.before.size, touch.after.size]
    decide
  | began _ | committed _ | rolledBack _ => simp [payload]

end LogEntry

variable {txId : ℕ} {wal : Wal} {entries : List LogEntry} {entry : LogEntry}

theorem encodePageRecord_ok {pageId : ℕ} {before after payload : Bytes} :
    encodePageRecord txId pageId before after = .ok payload ↔
      ∃ (first : before.length = PAGE_SIZE) (second : after.length = PAGE_SIZE),
        (LogEntry.page ⟨txId, pageId, ⟨before, first⟩, ⟨after, second⟩⟩).Fits ∧
          payload = (LogEntry.page ⟨txId, pageId, ⟨before, first⟩, ⟨after, second⟩⟩).payload := by
  unfold encodePageRecord
  split_ifs with sizes fits
  · refine iff_of_false (by simp) ?_
    rintro ⟨first, second, -⟩
    exact sizes.elim (fun wrong => wrong first) fun wrong => wrong second
  · rw [not_or, not_ne_iff, not_ne_iff] at sizes
    constructor
    · intro same
      exact ⟨sizes.1, sizes.2, fits, (Except.ok.inj same).symm⟩
    · rintro ⟨_, _, -, rfl⟩
      rfl
  · refine iff_of_false (by simp) ?_
    rintro ⟨_, _, wrong, -⟩
    exact fits wrong

theorem decodePageRecord_payload {touch : PageTouch} (fits : (LogEntry.page touch).Fits) :
    decodePageRecord (LogEntry.page touch).payload = .ok touch := by
  obtain ⟨txFits, pageFits⟩ := fits
  have layout : (LogEntry.page touch).payload = packBE 8 touch.txId ++ (packBE 4 touch.pageId ++
      (packBE 4 PAGE_SIZE ++ (packBE 4 PAGE_SIZE ++ (touch.before.bytes ++ touch.after.bytes)))) := by
    simp [LogEntry.payload]
  have total : (LogEntry.page touch).payload.length = 20 + PAGE_SIZE + PAGE_SIZE := by
    simp [layout, touch.before.size, touch.after.size]
    omega
  have pageSize : unpackBE (packBE 4 PAGE_SIZE) = PAGE_SIZE := unpackBE_packBE (by decide)
  have eight (n : ℕ) : (packBE 8 n).length = 8 := packBE_length 8 n
  have four (n : ℕ) : (packBE 4 n).length = 4 := packBE_length 4 n
  have txId : slice (LogEntry.page touch).payload 0 8 = packBE 8 touch.txId := by
    rw [layout, slice_front (eight _)]
  have pageId : slice (LogEntry.page touch).payload 8 4 = packBE 4 touch.pageId := by
    rw [layout, slice_skip _ 8 (eight _), slice_front (four _)]
  have beforeLen : slice (LogEntry.page touch).payload 12 4 = packBE 4 PAGE_SIZE := by
    rw [layout, slice_skip _ 8 (eight _), slice_skip _ 4 (four _), slice_front (four _)]
  have afterLen : slice (LogEntry.page touch).payload 16 4 = packBE 4 PAGE_SIZE := by
    rw [layout, slice_skip _ 8 (eight _), slice_skip _ 4 (four _),
      slice_skip _ 4 (four _), slice_front (four _)]
  have images (off : ℕ) : slice (LogEntry.page touch).payload (20 + off) PAGE_SIZE =
      slice (touch.before.bytes ++ touch.after.bytes) off PAGE_SIZE := by
    rw [layout, slice_skip _ 8 (eight _) (by omega), slice_skip _ 4 (four _) (by omega),
      slice_skip _ 4 (four _) (by omega), slice_skip _ 4 (four _) (by omega)]
    congr 1
    omega
  have before : slice (LogEntry.page touch).payload 20 PAGE_SIZE = touch.before.bytes := by
    rw [images 0, slice_front touch.before.size]
  have after : slice (LogEntry.page touch).payload (20 + PAGE_SIZE) PAGE_SIZE = touch.after.bytes := by
    rw [images, slice_skip _ PAGE_SIZE touch.before.size (le_refl _), Nat.sub_self, slice_all touch.after.size]
  simp only [decodePageRecord, total, PAGE_RECORD_HEADER, beforeLen, afterLen, pageSize, txId, pageId, before, after,
    unpackBE_packBE (show touch.txId < 256 ^ 8 from txFits),
    unpackBE_packBE (show touch.pageId < 256 ^ 4 from pageFits)]
  rfl

def Analysis.add (found : Analysis) (entry : LogEntry) : Analysis :=
  let found := { found with recordsScanned := found.recordsScanned + 1 }
  match entry with
  | .began txId => { found with txState := found.txState.setdefault txId .unknown }
  | .committed txId => { found with txState := found.txState.set txId .committed }
  | .rolledBack txId => { found with txState := found.txState.set txId .rolledBack }
  | .page touch => { found with
      pageRecords := found.pageRecords + 1
      pageTouches := found.pageTouches.set (touch.txId, touch.pageId) touch }

structure WALRecord.Holds (record : WALRecord) (entry : LogEntry) : Prop where
  type : record.type = entry.type
  payload : record.payload = entry.payload
  fits : entry.Fits

/-- The log is in sequence and its records encode the entries. -/
structure Wal.Holds (wal : Wal) (entries : List LogEntry) : Prop where
  sequence : wal.InSequence
  records : Forall₂ WALRecord.Holds wal.records entries

theorem Wal.holds_nil : (Wal.mk [] 1).Holds [] := ⟨⟨fun _ inside => absurd inside (Nat.not_lt_zero _), rfl⟩, .nil⟩

theorem Wal.Holds.push (holds : wal.Holds entries) (fits : entry.Fits)
    (room : wal.Appendable entry.type entry.payload) :
    (wal.push entry.type entry.payload).Holds (entries ++ [entry]) :=
  ⟨holds.sequence.append (returns_append.mpr ⟨room, rfl, rfl⟩),
    rel_append holds.records (.cons ⟨rfl, rfl, fits⟩ .nil)⟩

theorem unpackTxId_packBE (fits : txId < 2 ^ 64) : unpackTxId (packBE 8 txId) = .ok txId := by
  rw [unpackTxId, if_pos (packBE_length 8 txId), unpackBE_packBE (show txId < 256 ^ 8 from fits)]

theorem Analysis.scan_of_holds {record : WALRecord} (holds : record.Holds entry)
    (found : Analysis) : found.scan record = .ok (found.add entry) := by
  obtain ⟨type, payload, fits⟩ := holds
  unfold Analysis.scan
  cases entry with
  | began txId =>
    simp [type, payload, LogEntry.type, LogEntry.payload, unpackTxId_packBE fits, bind, Except.bind, pure, Except.pure,
      Analysis.add]
  | committed txId =>
    simp [type, payload, LogEntry.type, LogEntry.payload, unpackTxId_packBE fits, bind, Except.bind, pure, Except.pure,
      Analysis.add, RT_BEGIN, RT_COMMIT]
  | rolledBack txId =>
    simp [type, payload, LogEntry.type, LogEntry.payload, unpackTxId_packBE fits, bind, Except.bind, pure, Except.pure,
      Analysis.add, RT_BEGIN, RT_COMMIT, RT_ROLLBACK]
  | page touch =>
    simp [type, payload, LogEntry.type, decodePageRecord_payload fits, bind, Except.bind, pure, Except.pure,
      Analysis.add, RT_BEGIN, RT_COMMIT, RT_ROLLBACK, RT_PAGE]

def analysis (entries : List LogEntry) : Analysis := entries.foldl Analysis.add .start

theorem analysis_concat (entries : List LogEntry) (entry : LogEntry) :
    analysis (entries ++ [entry]) = (analysis entries).add entry := by simp [analysis]

theorem Wal.Holds.scan (holds : wal.Holds entries) :
    (wal.iterFrom 1).foldlM Analysis.scan .start = .ok (analysis entries) := by
  have go : ∀ (records : List WALRecord) (entries : List LogEntry) (found : Analysis),
      Forall₂ WALRecord.Holds records entries →
        records.foldlM Analysis.scan found = .ok (entries.foldl Analysis.add found) := by
    intro records entries found all
    induction all generalizing found with
    | nil => rfl
    | cons first _ ih =>
      rw [foldlM_cons, scan_of_holds first, foldl_cons]
      exact ih _
  rw [iterFrom_one holds.sequence]
  exact go _ _ _ holds.records

def decision (entries : List LogEntry) (txId : ℕ) : Option TxState :=
  entries.reverse.findSome? (LogEntry.decision? txId)

theorem decision_concat (entries : List LogEntry) (entry : LogEntry) (txId : ℕ) :
    decision (entries ++ [entry]) txId = (entry.decision? txId).or (decision entries txId) := by
  simp only [decision, reverse_concat, findSome?_cons]
  cases entry.decision? txId <;> rfl

theorem analysis_txState (entries : List LogEntry) (txId : ℕ) :
    ((analysis entries).txState.get? txId).getD .unknown = (decision entries txId).getD .unknown := by
  induction entries using reverseRecOn with
  | nil => rfl
  | append_singleton entries entry ih =>
    rw [analysis_concat, decision_concat]
    cases entry with
    | began other =>
      by_cases same : txId = other
      · subst same
        simpa [Analysis.add, get?_setdefault, LogEntry.decision?] using ih
      · simpa [Analysis.add, get?_setdefault, same, LogEntry.decision?] using ih
    | committed other | rolledBack other =>
      by_cases same : txId = other
      · simp [Analysis.add, get?_set, LogEntry.decision?, same]
      · simpa [Analysis.add, get?_set, LogEntry.decision?, same, Ne.symm same] using ih
    | page touch => simpa [Analysis.add, LogEntry.decision?] using ih

theorem analysis_isCommitted (entries : List LogEntry) (txId : ℕ) :
    (analysis entries).isCommitted txId = true ↔ txId = 0 ∨ decision entries txId = some .committed := by
  rw [isCommitted, analysis_txState]
  cases decision entries txId with
  | none => simp
  | some state => simp [or_comm]

def touches (entries : List LogEntry) : List ((ℕ × ℕ) × PageTouch) :=
  entries.filterMap fun entry => entry.touch?.map fun touch => ((touch.txId, touch.pageId), touch)

@[simp] theorem touches_nil : touches [] = [] := rfl

@[simp] theorem touches_append (early late : List LogEntry) :
    touches (early ++ late) = touches early ++ touches late := by simp [touches]

theorem analysis_pageTouches (entries : List LogEntry) :
    (analysis entries).pageTouches = .ofWrites (touches entries) := by
  induction entries using reverseRecOn with
  | nil => rfl
  | append_singleton entries entry ih =>
    rw [analysis_concat, touches_append]
    cases entry with
    | page touch =>
      have one : touches [.page touch] = [((touch.txId, touch.pageId), touch)] := rfl
      rw [one, ofWrites_concat, ← ih]
      rfl
    | began txId | committed txId | rolledBack txId => simpa [touches, LogEntry.touch?, Analysis.add] using ih

end Tinydb.Tx
