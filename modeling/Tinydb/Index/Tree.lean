import Tinydb.Index.Node
import Tinydb.Lib.Bisect

/-! The operations of an index tree (`index/btree.py`, `index/btree_split.py`,
`index/btree_delete.py`, `index/btree_rebalance.py`).

The root is kept in memory and changed there before it is written; every other
node is read from its page when an operation gets to it. A program on `Held` works
on one node in memory with the pager below it, so what a failed operation did to
the node stays visible. Keys are of one type, so no comparison fails, and a bound
that is a prefix of a key does not occur.
-/

namespace Tinydb.Index

open Lib Storage Heap Program Pager

variable {K : Type}

def ORDER : ℕ := 64
def MIN_LEAF_ENTRIES : ℕ := ORDER - 1
def MIN_INTERNAL_CHILDREN : ℕ := ORDER

/-- `_write_leaf` or `_write_internal`. -/
def writeNode (kt : KeyType K) (pid : ℕ) (node : Node K) : PagerM Unit := do
  let page ← ofExcept (node.pack kt pid)
  writePage pid page.bytes

def readNodeView (kt : KeyType K) (pid : ℕ) : PagerM (Node K) := do
  let page ← readPage pid
  ofExcept (Node.unpack kt "page " pid page)

/-- `_read_leaf_from_bytes` of a page of the file. -/
def readLeaf (kt : KeyType K) (pid : ℕ) : PagerM (List (K × Rid) × ℕ) := do
  let page ← readPage pid
  ofExcept (Node.unpackLeaf kt pid page)

def outOfRange : Exc := ⟨.indexError, "list index out of range"⟩

def childAt {σ : Type} (children : List ℕ) (idx : ℕ) : Program Exc σ ℕ :=
  match children[idx]? with
  | some pid => pure pid
  | none => raise outOfRange

def findChild [LinearOrder K] (keys : List K) (children : List ℕ) (key : K) : ℕ :=
  min (upperBound keys key) (children.length - 1)

def splitLeaf (kt : KeyType K) (pid : ℕ) (entries : List (K × Rid)) (next : ℕ) : PagerM (K × ℕ) := do
  let mid := entries.length / 2
  let rightPid ← allocatePage
  writeNode kt pid (.leaf (entries.take mid) rightPid)
  writeNode kt rightPid (.leaf (entries.drop mid) next)
  match entries[mid]? with
  | some (sep, _) => return (sep, rightPid)
  | none => raise outOfRange

def splitInternal (kt : KeyType K) (pid : ℕ) (keys : List K) (children : List ℕ) : PagerM (K × ℕ) := do
  let mid := keys.length / 2
  match keys[mid]? with
  | none => raise outOfRange
  | some up =>
    let rightPid ← allocatePage
    writeNode kt pid (.internal (keys.take mid) (children.take (mid + 1)))
    writeNode kt rightPid (.internal (keys.drop (mid + 1)) (children.drop (mid + 1)))
    return (up, rightPid)

def split (kt : KeyType K) (pid : ℕ) : Node K → PagerM (K × ℕ)
  | .leaf entries next => splitLeaf kt pid entries next
  | .internal keys children => splitInternal kt pid keys children

namespace Node

def kind : Node K → String
  | .leaf _ _ => "LeafNode"
  | .internal _ _ => "InternalNode"

/-- `_sibling_has_spare`. -/
def hasSpare : Node K → Bool
  | .leaf entries _ => decide (MIN_LEAF_ENTRIES < entries.length)
  | .internal _ children => decide (MIN_INTERNAL_CHILDREN < children.length)

/-- What moves to a child from the sibling on its left: the new separator, the sibling and the child. -/
def lendLast : Node K → Node K → Except Exc (K × Node K × Node K)
  | .leaf entries next, .leaf own ownNext =>
    match entries.getLast? with
    | some (key, rid) => .ok (key, .leaf entries.dropLast next, .leaf ((key, rid) :: own) ownNext)
    | none => .error outOfRange
  | .internal keys children, .internal ownKeys ownChildren =>
    match keys.getLast?, children.getLast? with
    | some key, some child =>
      .ok (key, .internal keys.dropLast children.dropLast, .internal (key :: ownKeys) (child :: ownChildren))
    | _, _ => .error outOfRange
  | left, right => .error ⟨.runtimeError, "borrow: node type mismatch (" ++ left.kind ++ " vs " ++ right.kind ++ ")"⟩

def lendFirst : Node K → Node K → Except Exc (K × Node K × Node K)
  | .leaf ((key, rid) :: (sep, rid') :: rest) next, .leaf own ownNext =>
    .ok (sep, .leaf ((sep, rid') :: rest) next, .leaf (own ++ [(key, rid)]) ownNext)
  | .leaf _ _, .leaf _ _ => .error outOfRange
  | .internal (key :: sep :: keys) (child :: children), .internal ownKeys ownChildren =>
    .ok (sep, .internal (sep :: keys) children, .internal (ownKeys ++ [key]) (ownChildren ++ [child]))
  | .internal _ _, .internal _ _ => .error outOfRange
  | left, right => .error ⟨.runtimeError, "borrow: node type mismatch (" ++ left.kind ++ " vs " ++ right.kind ++ ")"⟩

/-- Two neighbours as one node; the separator between internal nodes becomes one of its keys. -/
def joined (sep : K) : Node K → Node K → Except Exc (Node K)
  | .leaf left _, .leaf right next => .ok (.leaf (left ++ right) next)
  | .internal keys children, .internal keys' children' =>
    .ok (.internal (keys ++ [sep] ++ keys') (children ++ children'))
  | left, right => .error ⟨.runtimeError, "merge: node type mismatch (" ++ left.kind ++ " vs " ++ right.kind ++ ")"⟩

end Node

structure Held (K : Type) where
  pager : Pager
  node : Node K

abbrev HeldM (K : Type) := Program Exc (Held K)

namespace Held

def onPager {α : Type} (p : PagerM α) : HeldM K α := zoom Held.pager (fun pg held => { held with pager := pg }) p

def hold (node : Node K) : HeldM K Unit := modify fun held => { held with node }

def within {α : Type} (node : Node K) (p : HeldM K α) : HeldM K α :=
  zoom (fun held => ⟨held.pager, node⟩) (fun inner held => { held with pager := inner.pager }) p

def write (kt : KeyType K) (pid : ℕ) : HeldM K Unit := do
  let held ← read
  onPager (writeNode kt pid held.node)

/-- Write the node to its page, or split it if it does not fit; a split is the key between the halves and
the page of the right one. -/
def writeOrSplit (kt : KeyType K) (pid : ℕ) : HeldM K (Option (K × ℕ)) := do
  let held ← read
  catching (do
    write kt pid
    return none) fun e =>
      if e.cls = .btreeOverflowError then do
        let pair ← onPager (split kt pid held.node)
        return some pair
      else raise e

/-- `borrow_from_sibling`; the parent is the node held. -/
def borrowFromSibling (kt : KeyType K) (parentPid : ℕ) (keys : List K) (children : List ℕ) (childIdx : ℕ)
    (preferLeft : Bool) : HeldM K Bool := do
  if preferLeft ∧ childIdx = 0 ∨ ¬ preferLeft ∧ children.length ≤ childIdx + 1 then
    return false
  let siblingIdx := if preferLeft then childIdx - 1 else childIdx + 1
  let separatorIdx := if preferLeft then childIdx - 1 else childIdx
  let siblingPid ← childAt children siblingIdx
  let childPid ← childAt children childIdx
  let sibling ← onPager (readNodeView kt siblingPid)
  let child ← onPager (readNodeView kt childPid)
  if sibling.kind ≠ child.kind then
    raise ⟨.runtimeError, "borrow: node type mismatch (" ++ sibling.kind ++ " vs " ++ child.kind ++ ")"⟩
  else if sibling.hasSpare then
    let (sep, sibling', child') ← ofExcept
      (if preferLeft then sibling.lendLast child else sibling.lendFirst child)
    hold (.internal (keys.set separatorIdx sep) children)
    onPager (writeNode kt siblingPid sibling')
    onPager (writeNode kt childPid child')
    write kt parentPid
    return true
  else
    return false

def mergeIntoRight (kt : KeyType K) (parentPid : ℕ) (keys : List K) (children : List ℕ) (leftIdx : ℕ) :
    HeldM K Unit := do
  let leftPid ← childAt children leftIdx
  let rightPid ← childAt children (leftIdx + 1)
  match keys[leftIdx]? with
  | none => raise outOfRange
  | some sep =>
    let left ← onPager (readNodeView kt leftPid)
    let right ← onPager (readNodeView kt rightPid)
    let merged ← ofExcept (left.joined sep right)
    onPager (writeNode kt rightPid merged)
    hold (.internal (keys.eraseIdx leftIdx) (children.eraseIdx leftIdx))
    write kt parentPid

def mergeWithSibling (kt : KeyType K) (parentPid : ℕ) (keys : List K) (children : List ℕ) (childIdx : ℕ) :
    HeldM K Unit :=
  if childIdx + 1 < children.length then mergeIntoRight kt parentPid keys children childIdx
  else if 0 < childIdx then mergeIntoRight kt parentPid keys children (childIdx - 1)
  else raise ⟨.runtimeError, "merge_with_sibling called with no sibling available (parent has " ++
    toString children.length ++ " child(ren))"⟩

def tryBorrowOrMerge (kt : KeyType K) (parentPid : ℕ) (keys : List K) (children : List ℕ) (childIdx : ℕ) :
    HeldM K Unit := do
  if ← borrowFromSibling kt parentPid keys children childIdx true then
    return
  if ← borrowFromSibling kt parentPid keys children childIdx false then
    return
  mergeWithSibling kt parentPid keys children childIdx

variable [LinearOrder K]

def insertInto (kt : KeyType K) (key : K) (rid : Rid) : (fuel : ℕ) → (pid : ℕ) → HeldM K (Option (K × ℕ))
  | 0, _ => raise ⟨.nontermination, "index depth"⟩
  | fuel + 1, pid => do
    let held ← read
    match held.node with
    | .leaf entries next =>
      hold (.leaf (entries.insertIdx (upperBound (entries.map Prod.fst) key) (key, rid)) next)
      writeOrSplit kt pid
    | .internal keys children =>
      let idx := findChild keys children key
      let childPid ← childAt children idx
      let child ← onPager (readNodeView kt childPid)
      match ← within child (insertInto kt key rid fuel childPid) with
      | none => return none
      | some (up, rightPid) =>
        hold (.internal (keys.insertIdx idx up) (children.insertIdx (idx + 1) rightPid))
        writeOrSplit kt pid

/-- The first position from `start` up to `stop` with the rid. -/
def ridPosition (entries : List (K × Rid)) (rid : Rid) (start stop : ℕ) : Option ℕ :=
  (((entries.take stop).drop start).findIdx? fun e => e.2 = rid).map (start + ·)

def deleteFromLeaf (kt : KeyType K) (pid : ℕ) (entries : List (K × Rid)) (next : ℕ) (key : K) (rid : Rid) :
    HeldM K (Bool × Bool) :=
  let keys := entries.map Prod.fst
  match ridPosition entries rid (lowerBound keys key) (upperBound keys key) with
  | none => return (false, false)
  | some pos => do
    let left := entries.eraseIdx pos
    hold (.leaf left next)
    write kt pid
    return (true, decide (left.length < MIN_LEAF_ENTRIES))

def deleteFromSubtree (kt : KeyType K) (key : K) (rid : Rid) : (fuel : ℕ) → (pid : ℕ) → HeldM K (Bool × Bool)
  | 0, _ => raise ⟨.nontermination, "index depth"⟩
  | fuel + 1, pid => do
    let held ← read
    match held.node with
    | .leaf entries next => deleteFromLeaf kt pid entries next key rid
    | .internal keys children =>
      let childIdx := findChild keys children key
      let childPid ← childAt children childIdx
      let child ← onPager (readNodeView kt childPid)
      let (removed, childUnderflow) ← within child (deleteFromSubtree kt key rid fuel childPid)
      if ¬ removed ∨ ¬ childUnderflow then
        return (removed, false)
      tryBorrowOrMerge kt pid keys children childIdx
      write kt pid
      let held ← read
      match held.node with
      | .internal keys' _ => return (true, decide (keys'.length + 1 < MIN_INTERNAL_CHILDREN))
      | .leaf _ _ => return (true, false)

end Held

/-- The root view is absent until the first operation. -/
structure BTreeIndex (K : Type) where
  pager : Pager
  rootPid : ℕ
  rootView : Option (Node K)

namespace BTreeIndex

abbrev IndexM (K : Type) := Program Exc (BTreeIndex K)

/-- `__init__` reads nothing. -/
def new (pager : Pager) (rootPid : ℕ) : BTreeIndex K := ⟨pager, rootPid, none⟩

def onPager {α : Type} (p : PagerM α) : IndexM K α :=
  zoom BTreeIndex.pager (fun pg idx => { idx with pager := pg }) p

def onRoot {α : Type} (root : Node K) (p : HeldM K α) : IndexM K α :=
  zoom (fun idx => ⟨idx.pager, root⟩) (fun held idx => { idx with pager := held.pager, rootView := some held.node }) p

/-- `_ensure_loaded`, and the root it leaves. -/
def ensureLoaded (kt : KeyType K) : IndexM K (Node K) := do
  let idx ← read
  match idx.rootView with
  | some root => return root
  | none =>
    let page ← onPager (readPage idx.rootPid)
    let root ← ofExcept (Node.unpack kt "root page " idx.rootPid page)
    modify fun idx => { idx with rootView := some root }
    return root

/-- A path or a chain of nodes without repetition is no longer than the file. -/
def fuel (idx : BTreeIndex K) : ℕ := idx.pager.numPages + 1

variable [LinearOrder K]

def insert (kt : KeyType K) (key : K) (rid : Rid) : IndexM K Unit := do
  let root ← ensureLoaded kt
  let idx ← read
  match ← onRoot root (Held.insertInto kt key rid idx.fuel idx.rootPid) with
  | none => return
  | some (up, rightPid) =>
    let newRootPid ← onPager allocatePage
    let newRoot := .internal [up] [idx.rootPid, rightPid]
    onPager (writeNode kt newRootPid newRoot)
    modify fun idx => { idx with rootPid := newRootPid, rootView := some newRoot }

/-- `collapse_root_if_singleton`. -/
def collapseRoot (kt : KeyType K) : IndexM K Unit := do
  let idx ← read
  match idx.rootView with
  | some (.internal _ [child]) =>
    let view ← onPager (readNodeView kt child)
    modify fun idx => { idx with rootPid := child, rootView := some view }
  | _ => return

def delete (kt : KeyType K) (key : K) (rid : Rid) : IndexM K Unit := do
  let root ← ensureLoaded kt
  let idx ← read
  let _ ← onRoot root (Held.deleteFromSubtree kt key rid idx.fuel idx.rootPid)
  collapseRoot kt

def descend (kt : KeyType K) (key : K) : (fuel : ℕ) → Node K → PagerM (List (K × Rid) × ℕ)
  | 0, _ => raise ⟨.nontermination, "index depth"⟩
  | _ + 1, .leaf entries next => return (entries, next)
  | fuel + 1, .internal keys children => do
    let pid ← childAt children (findChild keys children key)
    let node ← readNodeView kt pid
    descend kt key fuel node

def search (kt : KeyType K) (key : K) : IndexM K (List Rid) := do
  let root ← ensureLoaded kt
  let idx ← read
  let (entries, _) ← onPager (descend kt key idx.fuel root)
  let keys := entries.map Prod.fst
  return ((entries.take (upperBound keys key)).drop (lowerBound keys key)).map Prod.snd

/-- `_is_past_upper`. -/
def isPastUpper (key hi : K) (inclusive : Bool) : Bool := if inclusive then decide (hi < key) else decide (hi ≤ key)

/-- The leaves from one on, until a key is past the bound or the chain ends. -/
def scanLeaves (kt : KeyType K) (lo hi : K) (inclusive : Bool) : (fuel : ℕ) → List (K × Rid) → ℕ → PagerM (List Rid)
  | 0, _, _ => raise ⟨.nontermination, "leaf chain"⟩
  | fuel + 1, entries, next => do
    let rest := entries.drop (lowerBound (entries.map Prod.fst) lo)
    let here := rest.takeWhile fun e => !isPastUpper e.1 hi inclusive
    if here.length < rest.length ∨ next = NO_NEXT then
      return here.map Prod.snd
    let (entries', next') ← readLeaf kt next
    let others ← scanLeaves kt lo hi inclusive fuel entries' next'
    return here.map Prod.snd ++ others

/-- Everything `range` yields. -/
def range (kt : KeyType K) (lo hi : K) (inclusive : Bool) : IndexM K (List Rid) := do
  if hi < lo then
    return []
  let root ← ensureLoaded kt
  let idx ← read
  let (entries, next) ← onPager (descend kt lo idx.fuel root)
  onPager (scanLeaves kt lo hi inclusive idx.fuel entries next)

end BTreeIndex

end Tinydb.Index
