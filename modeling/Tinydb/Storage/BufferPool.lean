import Mathlib.Data.Finset.Basic
import Tinydb.Lib.Dict
import Tinydb.Storage.Pager

/-! The page cache in front of the pager (`storage/buffer_pool.py`, `tx/snapshot.py`).

The cache is in the order of use, the page used last at its end. Page ids and LSNs are
Python integers, so an id that the pager refuses can still be cached.
-/

namespace Tinydb.Tx

/-- What a transaction sees, by the LSN at its start. -/
structure Snapshot where
  lsn : ℤ

def Snapshot.isNewer (snapshot : Snapshot) (pageLsn : ℤ) : Bool := pageLsn > snapshot.lsn

end Tinydb.Tx

namespace Tinydb.Storage

open Lib Tx Program

structure BufferPool where
  pager : Pager
  capacity : ℕ
  cache : Dict ℤ Bytes
  pageLsn : Dict ℤ ℤ
  dirty : Finset ℤ
  hits : ℕ
  misses : ℕ

abbrev PoolM := Program Exc BufferPool

namespace BufferPool

def new (pager : Pager) (capacity : ℤ) : Except Exc BufferPool :=
  if capacity ≤ 0 then .error ⟨.valueError, "capacity must be > 0, got " ++ toString capacity⟩
  else .ok ⟨pager, capacity.toNat, .empty, .empty, ∅, 0, 0⟩

def pagerRead (pid : ℤ) : PagerM Bytes :=
  if pid < 0 then raise ⟨.indexError, "page_id " ++ toString pid ++ " < 0"⟩
  else do return (← Pager.readPage pid.toNat).bytes

def pagerWrite (pid : ℤ) (data : Bytes) : PagerM Unit :=
  if data.length = PAGE_SIZE ∧ pid < 0 then raise ⟨.indexError, "page_id " ++ toString pid ++ " < 0"⟩
  else Pager.writePage pid.toNat data

def onPager {α : Type} (p : PagerM α) : PoolM α := zoom (·.pager) (fun pager pool => { pool with pager }) p

def evict : PoolM Unit := do
  let pool ← read
  match pool.cache.items.head? with
  | none => raise ⟨.keyError, "dictionary is empty"⟩
  | some (pid, data) =>
    modify fun pool => { pool with cache := pool.cache.rest }
    if pid ∈ pool.dirty then
      onPager (pagerWrite pid data)
      modify fun pool => { pool with dirty := pool.dirty.erase pid }
    modify fun pool => { pool with pageLsn := pool.pageLsn.erase pid }

/-- `_admit`. -/
def admitPage (pid : ℤ) (data : Bytes) (lastLsn : ℤ) : PoolM Unit := do
  let pool ← read
  if pool.capacity ≤ pool.cache.items.length then
    evict
  modify fun pool => { pool with cache := pool.cache.set pid data, pageLsn := pool.pageLsn.set pid lastLsn }

def load (pid : ℤ) : PoolM Bytes := do
  modify fun pool => { pool with misses := pool.misses + 1 }
  let data ← onPager (pagerRead pid)
  let pool ← read
  admitPage pid data pool.pager.lastLsn
  return data

def drop (pid : ℤ) (pool : BufferPool) : BufferPool :=
  { pool with cache := pool.cache.erase pid, pageLsn := pool.pageLsn.erase pid, dirty := pool.dirty.erase pid }

def use (pid : ℤ) (pool : BufferPool) : BufferPool :=
    { pool with cache := pool.cache.moveToEnd pid, hits := pool.hits + 1 }

def fetchPage (pid : ℤ) (snapshot : Option Snapshot) : PoolM Bytes := do
  let pool ← read
  match pool.cache.get? pid, snapshot with
  | none, _ => load pid
  | some cached, none =>
    modify (use pid)
    return cached
  | some cached, some snapshot =>
    if snapshot.isNewer ((pool.pageLsn.get? pid).getD 0) then
      modify (drop pid)
      load pid
    else
      modify fun pool => { pool with cache := pool.cache.moveToEnd pid }
      if pid ∈ pool.pageLsn.keys then
        modify fun pool => { pool with pageLsn := pool.pageLsn.moveToEnd pid, hits := pool.hits + 1 }
        return cached
      else
        raise ⟨.keyError, toString pid⟩

def writePage (pid : ℤ) (data : Bytes) (lastLsn : ℤ) : PoolM Unit := do
  let pool ← read
  if pid ∈ pool.cache.keys then
    modify fun pool => { pool with
      cache := (pool.cache.set pid data).moveToEnd pid
      pageLsn := (pool.pageLsn.set pid lastLsn).moveToEnd pid }
  else
    admitPage pid data lastLsn
  modify fun pool => { pool with dirty := insert pid pool.dirty }

def markDirty (pid : ℤ) : PoolM Unit := do
  let pool ← read
  if pid ∈ pool.cache.keys then
    modify fun pool => { pool with dirty := insert pid pool.dirty }
  else
    raise ⟨.valueError, "page " ++ toString pid ++ " is not in the cache; fetch it before mark_dirty"⟩

def flushPage (entry : ℤ × Bytes) : PoolM Unit := do
  let pool ← read
  if entry.1 ∈ pool.dirty then
    onPager (pagerWrite entry.1 entry.2)
    modify fun pool => { pool with dirty := pool.dirty.erase entry.1 }

def flushAll : PoolM Unit := do
  let pool ← read
  forEach pool.cache.items flushPage

def invalidate (pid : ℤ) : PoolM Unit := modify (drop pid)

end BufferPool

end Tinydb.Storage
