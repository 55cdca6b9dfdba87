import Mathlib.Data.List.Chain
import Mathlib.Data.List.Perm.Subperm
import Mathlib.Order.Bounds.Basic
import Mathlib.Order.MinMax
import Tinydb.Lib.Dict

/-! The wait-for graph of the transaction manager (`concurrent/deadlock.py`) and its cycles.

Every transaction waits for at most one other, so a walk from a waiter is determined. It ends, or comes
back to a transaction it has passed: what it passed since then is a cycle, and nothing before that is.
-/

namespace Tinydb.Concurrent

open Lib List Dict

structure DeadlockDetector where
  waitsFor : Dict ℕ ℕ

namespace DeadlockDetector

def new : DeadlockDetector := ⟨.empty⟩

def addWait (d : DeadlockDetector) (waiter holder : ℕ) : DeadlockDetector := ⟨d.waitsFor.set waiter holder⟩

/-- Drop the edge out of `txId`, then every edge into it. -/
def remove (d : DeadlockDetector) (txId : ℕ) : DeadlockDetector :=
  let kept := d.waitsFor.erase txId
  let stale := (kept.items.filter (·.2 = txId)).map Prod.fst
  ⟨stale.foldl (fun waits waiter => waits.erase waiter) kept⟩

theorem unvisited_lt {waits : Dict ℕ ℕ} {node holder : ℕ} {path : List ℕ} (fresh : node ∉ path)
    (found : waits.get? node = some holder) :
    (waits.keys.filter (· ∉ path ++ [node])).length < (waits.keys.filter (· ∉ path)).length := by
  have waiting : node ∈ waits.keys := mem_keys_iff.mpr ⟨holder, found⟩
  have fewer : waits.keys.filter (· ∉ path ++ [node]) = (waits.keys.filter (· ∉ path)).filter (· ≠ node) := by
    rw [filter_filter]
    exact filter_congr fun waiter _ => by simp [and_comm]
  rw [fewer]
  exact length_filter_lt_length_iff_exists.mpr ⟨node, by simp [waiting, fresh], by simp⟩

/-- `_dfs_cycle`. A call that goes on puts one more waiter on the path. -/
def dfsCycle (d : DeadlockDetector) (node : ℕ) (path : List ℕ) : Option (List ℕ) :=
  if _ : node ∈ path then
    some (path.drop (path.idxOf node) ++ [node])
  else
    match _ : d.waitsFor.get? node with
    | none => none
    | some holder => dfsCycle d holder (path ++ [node])
termination_by (d.waitsFor.keys.filter (· ∉ path)).length
decreasing_by exact unvisited_lt ‹_› ‹_›

def detectCycle (d : DeadlockDetector) : Option ℕ :=
  let victim := d.waitsFor.keys.foldl (fun victim start =>
    match d.dfsCycle start [] with
    | none => victim
    | some cycle => max victim (cycle.foldl max 0)) 0
  if victim = 0 then none else some victim

end DeadlockDetector

abbrev WaitGraph := ℕ → Option ℕ

namespace WaitGraph

def Waits (graph : WaitGraph) (waiter holder : ℕ) : Prop := graph waiter = some holder

def OnCycle (graph : WaitGraph) (tx : ℕ) : Prop := Relation.TransGen graph.Waits tx tx

end WaitGraph

inductive WaitCall where
  | addWait (waiter holder : ℕ)
  | remove (txId : ℕ)
  deriving DecidableEq, Repr

namespace WaitCall

def run (d : DeadlockDetector) : WaitCall → DeadlockDetector
  | addWait waiter holder => d.addWait waiter holder
  | remove txId => d.remove txId

/-- What a call means: a new edge out of the waiter, or no edge at the transaction any more. -/
def change (graph : WaitGraph) : WaitCall → WaitGraph
  | addWait waiter holder => Function.update graph waiter (some holder)
  | remove txId => fun waiter => if waiter = txId ∨ graph waiter = some txId then none else graph waiter

def Numbered : WaitCall → Prop
  | addWait waiter holder => 1 ≤ waiter ∧ 1 ≤ holder
  | remove txId => 1 ≤ txId

end WaitCall

namespace DeadlockDetector

def after (calls : List WaitCall) : DeadlockDetector := calls.foldl WaitCall.run new

def graphAfter (calls : List WaitCall) : WaitGraph := calls.foldl WaitCall.change fun _ => none

variable {d : DeadlockDetector} {graph : WaitGraph} {node : ℕ} {path cycle : List ℕ}

theorem get?_foldl_erase (waiters : List ℕ) (waits : Dict ℕ ℕ) (waiter : ℕ) :
    (waiters.foldl (fun waits waiter => waits.erase waiter) waits).get? waiter =
      if waiter ∈ waiters then none else waits.get? waiter := by
  induction waiters generalizing waits with
  | nil => rfl
  | cons first rest ih =>
    rw [foldl_cons, ih, get?_erase]
    by_cases inRest : waiter ∈ rest <;> by_cases isFirst : waiter = first <;> simp [inRest, isFirst]

theorem get?_remove (d : DeadlockDetector) (txId waiter : ℕ) : (d.remove txId).waitsFor.get? waiter =
    if waiter = txId ∨ d.waitsFor.get? waiter = some txId then none else d.waitsFor.get? waiter := by
  have stale : waiter ∈ ((d.waitsFor.erase txId).items.filter (·.2 = txId)).map Prod.fst ↔
      (d.waitsFor.erase txId).get? waiter = some txId := by
    constructor
    · intro member
      obtain ⟨⟨_, holder⟩, among, rfl⟩ := mem_map.mp member
      obtain ⟨item, same⟩ := mem_filter.mp among
      obtain rfl : holder = txId := of_decide_eq_true same
      exact get?_of_mem item
    · intro found
      exact mem_map.mpr ⟨(waiter, txId), mem_filter.mpr ⟨mem_of_get? found, by simp⟩, rfl⟩
  rw [remove, get?_foldl_erase]
  simp only [stale, get?_erase]
  by_cases own : waiter = txId <;> simp [own]

theorem run_change (call : WaitCall) (table : d.waitsFor.get? = graph) :
    (call.run d).waitsFor.get? = call.change graph := by
  subst table
  funext waiter
  cases call with
  | addWait first holder => exact (get?_set ..).trans (Function.update_apply ..).symm
  | remove txId => exact get?_remove d txId waiter

theorem get?_after (calls : List WaitCall) : (after calls).waitsFor.get? = graphAfter calls := by
  induction calls using reverseRecOn with
  | nil => rfl
  | append_singleton calls call ih =>
    rw [after, graphAfter, foldl_concat, foldl_concat]
    exact run_change call ih

theorem numbered_graphAfter {calls : List WaitCall} (numbered : ∀ call ∈ calls, call.Numbered) {waiter holder : ℕ}
    (waits : (graphAfter calls).Waits waiter holder) : 1 ≤ waiter := by
  induction calls using reverseRecOn generalizing holder with
  | nil => cases waits
  | append_singleton calls call ih =>
    obtain ⟨before, last⟩ := forall_mem_append.mp numbered
    have here : call.Numbered := last call (mem_singleton_self call)
    rw [WaitGraph.Waits, graphAfter, foldl_concat] at waits
    cases call with
    | addWait first holder' =>
      rw [WaitCall.change, Function.update_apply] at waits
      split_ifs at waits with same
      · exact same ▸ here.1
      · exact ih before waits
    | remove txId =>
      simp only [WaitCall.change] at waits
      split_ifs at waits
      exact ih before waits

def Walk (d : DeadlockDetector) (nodes : List ℕ) : Prop := nodes.IsChain (WaitGraph.Waits d.waitsFor.get?)

section

variable (walk : d.Walk (path ++ [node]))
include walk

theorem Walk.next {v : ℕ} (member : v ∈ path) :
    ∃ holder ∈ path.tail ++ [node], d.waitsFor.get? v = some holder := by
  induction path with
  | nil => cases member
  | cons first rest ih =>
    cases rest with
    | nil =>
      obtain rfl := mem_singleton.mp member
      exact ⟨node, mem_singleton_self _, (isChain_cons_cons.mp walk).1⟩
    | cons second rest =>
      obtain ⟨waits, later⟩ := isChain_cons_cons.mp walk
      rcases mem_cons.mp member with rfl | member
      · exact ⟨second, mem_cons_self, waits⟩
      · obtain ⟨holder, among, found⟩ := ih later member
        exact ⟨holder, mem_cons_of_mem _ among, found⟩

theorem Walk.extend {holder : ℕ} (found : d.waitsFor.get? node = some holder) :
    d.Walk (path ++ [node] ++ [holder]) := by
  refine isChain_append.mpr ⟨walk, isChain_singleton _, fun last isLast first isFirst => ?_⟩
  rw [getLast?_concat, Option.mem_some_iff] at isLast
  rw [head?_cons, Option.mem_some_iff] at isFirst
  rw [← isLast, ← isFirst]
  exact found

theorem Walk.back (passed : node ∈ path) :
    d.Walk (path.drop (path.idxOf node) ++ [node]) := by
  have part := List.IsChain.drop walk (path.idxOf node)
  rwa [drop_append_of_le_length (idxOf_lt_length_of_mem passed).le] at part

end

theorem drop_idxOf (passed : node ∈ path) : path.drop (path.idxOf node) = node :: path.drop (path.idxOf node + 1) := by
  have inside := idxOf_lt_length_of_mem passed
  rw [drop_eq_getElem_cons inside, getElem_idxOf inside]

theorem Walk.onCycle (walk : d.Walk (path ++ [node])) (passed : node ∈ path) :
    ∀ v ∈ path.drop (path.idxOf node) ++ [node], WaitGraph.OnCycle d.waitsFor.get? v := by
  have part := walk.back passed
  rw [drop_idxOf passed] at part ⊢
  have reach := isChain_iff_pairwise.mp (part.imp fun _ _ => Relation.TransGen.single)
  obtain ⟨fromNode, between⟩ := pairwise_cons.mp reach
  have back : WaitGraph.OnCycle d.waitsFor.get? node := fromNode node (by simp)
  intro v member
  rcases mem_cons.mp member with rfl | later
  · exact back
  · rcases mem_append.mp later with inside | isNode
    · exact ((pairwise_append.mp between).2.2 v inside node (mem_singleton_self _)).trans (fromNode v later)
    · exact mem_singleton.mp isNode ▸ back

theorem Walk.closed (walk : d.Walk (path ++ [node])) (passed : node ∈ path) {v : ℕ}
    (way : Relation.ReflTransGen (WaitGraph.Waits d.waitsFor.get?) node v) : v ∈ path.drop (path.idxOf node) := by
  have part := walk.back passed
  have isNode : node ∈ path.drop (path.idxOf node) := by
    rw [drop_idxOf passed]
    exact mem_cons_self
  induction way with
  | refl => exact isNode
  | tail _ waits ih =>
    obtain ⟨holder, among, found⟩ := part.next ih
    cases waits.symm.trans found
    rcases mem_append.mp among with later | last
    · exact mem_of_mem_tail later
    · exact mem_singleton.mp last ▸ isNode

theorem onCycle_of_dfsCycle (walk : d.Walk (path ++ [node])) (found : d.dfsCycle node path = some cycle) :
    ∀ v ∈ cycle, WaitGraph.OnCycle d.waitsFor.get? v := by
  fun_induction dfsCycle d node path with
  | case1 node path passed =>
    cases found
    exact walk.onCycle passed
  | case2 => cases found
  | case3 node path _ holder next ih => exact ih (walk.extend next) found

theorem dfsCycle_of_onCycle (walk : d.Walk (path ++ [node])) {v : ℕ} (onCycle : WaitGraph.OnCycle d.waitsFor.get? v)
    (way : Relation.ReflTransGen (WaitGraph.Waits d.waitsFor.get?) node v) :
    ∃ cycle, d.dfsCycle node path = some cycle ∧ v ∈ cycle := by
  fun_induction dfsCycle d node path with
  | case1 node path passed => exact ⟨_, rfl, mem_append_left _ (walk.closed passed way)⟩
  | case2 node path _ last =>
    -- the walk cannot end here, for the way goes on
    obtain ⟨holder, found, -⟩ := Relation.TransGen.head'_iff.mp (Relation.TransGen.trans_right way onCycle)
    cases last.symm.trans found
  | case3 node path _ holder next ih =>
    obtain ⟨holder', found, onward⟩ := Relation.TransGen.head'_iff.mp (Relation.TransGen.trans_right way onCycle)
    cases next.symm.trans found
    exact ih (walk.extend next) onward

theorem foldl_max (ns : List ℕ) (n : ℕ) :
    n ≤ ns.foldl max n ∧ (∀ m ∈ ns, m ≤ ns.foldl max n) ∧ (ns.foldl max n = n ∨ ns.foldl max n ∈ ns) := by
  induction ns generalizing n with
  | nil => simp
  | cons m ns ih =>
    obtain ⟨le, all, which⟩ := ih (max n m)
    refine ⟨(le_max_left ..).trans le, forall_mem_cons.mpr ⟨(le_max_right ..).trans le, all⟩, ?_⟩
    rw [foldl_cons, mem_cons]
    rcases which with same | later
    · rw [same]
      rcases max_choice n m with isN | isM
      · exact .inl isN
      · exact .inr (.inl isM)
    · exact .inr (.inr later)

/-- The largest number on the cycle that the search from a transaction finds. -/
def worst (d : DeadlockDetector) (start : ℕ) : ℕ :=
  ((d.dfsCycle start []).map (·.foldl max 0)).getD 0

def victim (d : DeadlockDetector) : ℕ := (d.waitsFor.keys.map d.worst).foldl max 0

theorem detectCycle_eq (d : DeadlockDetector) : d.detectCycle = if d.victim = 0 then none else some d.victim := by
  rw [detectCycle, victim, foldl_map]
  refine congrArg (fun victim => if victim = 0 then none else some victim) (foldl_ext _ _ _ fun victim start _ => ?_)
  rw [worst]
  cases d.dfsCycle start [] <;> simp

theorem victim_spec (d : DeadlockDetector) :
    (∀ tx, WaitGraph.OnCycle d.waitsFor.get? tx → tx ≤ d.victim) ∧
      (d.victim = 0 ∨ WaitGraph.OnCycle d.waitsFor.get? d.victim) := by
  have single (start : ℕ) : d.Walk ([] ++ [start]) := isChain_singleton start
  obtain ⟨-, top, origin⟩ := foldl_max (d.waitsFor.keys.map d.worst) 0
  constructor
  · intro tx onCycle
    obtain ⟨holder, waits, -⟩ := Relation.TransGen.head'_iff.mp onCycle
    obtain ⟨cycle, found, member⟩ := dfsCycle_of_onCycle (single tx) onCycle .refl
    have worst : d.worst tx = cycle.foldl max 0 := by rw [worst, found]; rfl
    calc tx ≤ cycle.foldl max 0 := (foldl_max cycle 0).2.1 tx member
      _ = d.worst tx := worst.symm
      _ ≤ d.victim := top _ (mem_map_of_mem (mem_keys_iff.mpr ⟨holder, waits⟩))
  · rcases origin with zero | member
    · exact .inl zero
    · obtain ⟨start, -, same⟩ := mem_map.mp member
      rw [victim, ← same, worst]
      cases found : d.dfsCycle start [] with
      | none => exact .inl rfl
      | some cycle => exact (foldl_max cycle 0).2.2.imp_right (onCycle_of_dfsCycle (single start) found _)

/-- The detector finds the largest transaction on a cycle of the wait-for graph, whatever calls led to it. -/
theorem detect_cycle_exact (calls : List WaitCall) (numbered : ∀ call ∈ calls, call.Numbered) :
    ((after calls).detectCycle = none ↔ ¬ ∃ tx, (graphAfter calls).OnCycle tx) ∧
    ∀ victim, (after calls).detectCycle = some victim ↔ IsGreatest {tx | (graphAfter calls).OnCycle tx} victim := by
  have positive {tx : ℕ} (onCycle : (graphAfter calls).OnCycle tx) : 1 ≤ tx := by
    obtain ⟨holder, waits, -⟩ := Relation.TransGen.head'_iff.mp onCycle
    exact numbered_graphAfter numbered waits
  obtain ⟨top, origin⟩ := victim_spec (after calls)
  rw [get?_after calls] at top origin
  by_cases zero : (after calls).victim = 0
  · have acyclic (tx : ℕ) : ¬ (graphAfter calls).OnCycle tx := fun onCycle =>
      absurd (positive onCycle) (by have := top tx onCycle; omega)
    rw [detectCycle_eq, if_pos zero]
    exact ⟨by simp [acyclic], fun victim => ⟨nofun, fun greatest => (acyclic victim greatest.1).elim⟩⟩
  · have greatest : IsGreatest {tx | (graphAfter calls).OnCycle tx} (after calls).victim :=
      ⟨origin.resolve_left zero, top⟩
    rw [detectCycle_eq, if_neg zero]
    refine ⟨⟨nofun, fun acyclic => (acyclic ⟨_, greatest.1⟩).elim⟩, fun victim => ?_⟩
    rw [Option.some.injEq]
    exact ⟨fun same => same ▸ greatest, greatest.unique⟩

/-- A cycle of 2 and 3 that 1 and 9 lead into. -/
theorem detect_cycle_exact_tail : (after [.addWait 9 1, .addWait 1 2, .addWait 2 3, .addWait 3 2]).detectCycle =
    some 3 ∧
    IsGreatest {tx | (graphAfter [.addWait 9 1, .addWait 1 2, .addWait 2 3, .addWait 3 2]).OnCycle tx} 3 := by
  have found : (after [.addWait 9 1, .addWait 1 2, .addWait 2 3, .addWait 3 2]).detectCycle = some 3 := by
    decide +kernel
  exact ⟨found, ((detect_cycle_exact _ (by simp [WaitCall.Numbered])).2 3).mp found⟩

end DeadlockDetector

end Tinydb.Concurrent
