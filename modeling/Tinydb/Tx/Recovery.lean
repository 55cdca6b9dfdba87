import Tinydb.Lib.Dict
import Tinydb.Storage.Pager
import Tinydb.Tx.Wal
import Mathlib.Data.List.Sort

/-! Crash recovery (`tx/recovery.py`): analysis of the log, redo, undo.

Analysis keeps one touch per transaction and page and the last decision per
transaction number. Both are insertion-ordered maps, and the order in which the
touches are visited decides which image a page gets.
-/

namespace Tinydb.Tx

open Lib Storage

/-- Header of the `RT_PAGE` payload, `>QIII`. -/
def PAGE_RECORD_HEADER : ℕ := 20

/-- One page record's contribution to a single `(txId, pageId)` slot. -/
structure PageTouch where
  txId : ℕ
  pageId : ℕ
  before : Page
  after : Page

def encodePageRecord (txId pageId : ℕ) (before after : Bytes) : Except Exc Bytes :=
  if before.length ≠ PAGE_SIZE ∨ after.length ≠ PAGE_SIZE then
    .error ⟨.valueError, "page images must be " ++ toString PAGE_SIZE ++ " bytes, got before=" ++
      toString before.length ++ " after=" ++ toString after.length⟩
  else if txId < 2 ^ 64 ∧ U32 pageId then
    .ok (packBE 8 txId ++ packBE 4 pageId ++ packBE 4 PAGE_SIZE ++ packBE 4 PAGE_SIZE ++ before ++ after)
  else
    .error .packRange

def decodePageRecord (payload : Bytes) : Except Exc PageTouch :=
  if payload.length < PAGE_RECORD_HEADER then
    .error ⟨.pageRecordDecodeError, "RT_PAGE payload too short: " ++ toString payload.length ++ " bytes"⟩
  else
    let beforeLen := unpackBE (slice payload 12 4)
    let afterLen := unpackBE (slice payload 16 4)
    let expectedTotal := PAGE_RECORD_HEADER + beforeLen + afterLen
    if total : expectedTotal ≠ payload.length then
      .error ⟨.pageRecordDecodeError, "RT_PAGE length mismatch: header says " ++ toString expectedTotal ++
        ", got " ++ toString payload.length⟩
    else if sizes : beforeLen ≠ PAGE_SIZE ∨ afterLen ≠ PAGE_SIZE then
      .error ⟨.pageRecordDecodeError, "RT_PAGE image sizes must be " ++ toString PAGE_SIZE ++
        ", got before=" ++ toString beforeLen ++ " after=" ++ toString afterLen⟩
    else
      .ok { txId := unpackBE (slice payload 0 8)
            pageId := unpackBE (slice payload 8 4)
            before := ⟨slice payload PAGE_RECORD_HEADER beforeLen, by
              rw [slice_length] <;> omega⟩
            after := ⟨slice payload (PAGE_RECORD_HEADER + beforeLen) afterLen, by
              rw [slice_length] <;> omega⟩ }

inductive TxState where
  | committed | rolledBack | unknown
  deriving DecidableEq, Repr

structure Analysis where
  recordsScanned : ℕ
  pageRecords : ℕ
  pageTouches : Dict (ℕ × ℕ) PageTouch
  txState : Dict ℕ TxState

def Analysis.start : Analysis := ⟨0, 0, .empty, .empty⟩

/-- `struct.unpack(">Q", payload)`. -/
def unpackTxId (payload : Bytes) : Except Exc ℕ :=
  if payload.length = 8 then .ok (unpackBE payload) else .error .unpackSize

def Analysis.scan (found : Analysis) (record : WALRecord) : Except Exc Analysis := do
  let found := { found with recordsScanned := found.recordsScanned + 1 }
  if record.type = RT_BEGIN then
    let txId ← unpackTxId record.payload
    return { found with txState := found.txState.setdefault txId .unknown }
  else if record.type = RT_COMMIT then
    let txId ← unpackTxId record.payload
    return { found with txState := found.txState.set txId .committed }
  else if record.type = RT_ROLLBACK then
    let txId ← unpackTxId record.payload
    return { found with txState := found.txState.set txId .rolledBack }
  else if record.type = RT_PAGE then
    let touch ← decodePageRecord record.payload
    return { found with
      pageRecords := found.pageRecords + 1
      pageTouches := found.pageTouches.set (touch.txId, touch.pageId) touch }
  else
    return found

/-- The touches of a committed transaction, and of no transaction, are redone. -/
def Analysis.isCommitted (found : Analysis) (txId : ℕ) : Bool :=
  (found.txState.get? txId).getD .unknown = .committed || txId = 0

/-- `committed_after` and `unknown_before`. -/
structure Images where
  committedAfter : Dict ℕ Page
  unknownBefore : Dict ℕ Page

def Analysis.classify (found : Analysis) (images : Images) (entry : (ℕ × ℕ) × PageTouch) : Images :=
  if found.isCommitted entry.1.1 then
    { images with committedAfter := images.committedAfter.set entry.1.2 entry.2.after }
  else
    { images with unknownBefore := images.unknownBefore.setdefault entry.1.2 entry.2.before }

def Analysis.images (found : Analysis) : Images := found.pageTouches.items.foldl found.classify ⟨.empty, .empty⟩

structure RecoveryStats where
  recordsScanned : ℕ
  pageRecords : ℕ
  redo : ℕ
  undo : ℕ
  committed : List ℕ
  uncommitted : List ℕ

/-- `sorted` on the items of a page map: page numbers are distinct and decide the order. -/
def sortedItems (images : Dict ℕ Page) : List (ℕ × Page) := images.items.insertionSort fun a b => a.1 ≤ b.1

def Images.redone (images : Images) : List (ℕ × Page) := sortedItems images.committedAfter

def Images.undone (images : Images) : List (ℕ × Page) :=
  (sortedItems images.unknownBefore).filter fun entry => entry.1 ∉ images.committedAfter.keys

def Analysis.numbersIn (found : Analysis) (state : TxState) : List ℕ :=
  ((found.txState.items.filter (·.2 = state)).map Prod.fst).insertionSort (· ≤ ·)

def Analysis.stats (found : Analysis) : RecoveryStats where
  recordsScanned := found.recordsScanned
  pageRecords := found.pageRecords
  redo := found.images.redone.length
  undo := found.images.undone.length
  committed := found.numbersIn .committed
  uncommitted := found.numbersIn .unknown

def replay (wal : Wal) : PagerM RecoveryStats := do
  let found ← Program.ofExcept ((wal.iterFrom 1).foldlM Analysis.scan .start)
  Program.forEach found.images.redone fun entry => Pager.writePage entry.1 entry.2.bytes
  Program.forEach found.images.undone fun entry => Pager.writePage entry.1 entry.2.bytes
  return found.stats

end Tinydb.Tx
