import Tinydb.Index.IndexInsert

/-! Indexes with INT keys.

Every INT key takes nine bytes, so a leaf has room for 240 entries and an internal
node for 272 keys. A node is one entry too large when it is split and its halves fit:
an insertion fails only where no page can be taken, and it loses entries only where a
leaf is cut between two entries with the same key.
-/

namespace Tinydb.Index

open Lib Storage Heap List Node

theorem codes_int {i : ℤ} : intKey.Codes i ↔ Int64 i := by
  constructor
  · rintro ⟨bs, encoded, -⟩
    by_contra outside
    rw [show intKey.encode i = encodeInt i from rfl, encodeInt, if_neg outside] at encoded
    cases encoded
  · intro range
    obtain ⟨bs, encoded, length⟩ := encodeInt_length range
    exact ⟨bs, encoded, by omega⟩

theorem size_int {i : ℤ} (range : Int64 i) : intKey.size i = 9 := by
  obtain ⟨bs, encoded, length⟩ := encodeInt_length range
  rw [KeyType.size, show intKey.encode i = .ok bs from encoded]
  exact length

namespace Node

def LEAF_CAPACITY : ℕ := 240

def INTERNAL_CAPACITY : ℕ := 272

variable {entries : List (ℤ × Rid)}

theorem entriesSize_int (range : ∀ e ∈ entries, Int64 e.1) :
    entriesSize intKey ridSuffix entries = 17 * entries.length := by
  induction entries with
  | nil => rfl
  | cons e rest ih =>
    obtain ⟨first, range⟩ := forall_mem_cons.mp range
    have size : entriesSize intKey ridSuffix (e :: rest) = (2 + intKey.size e.1 + 6) +
      entriesSize intKey ridSuffix rest := rfl
    rw [size, ih range, size_int first, length_cons]
    omega

theorem keysSize_int {keys : List ℤ} (range : ∀ key ∈ keys, Int64 key) :
    (keys.map fun key => entrySize intKey childSuffix key).sum = 15 * keys.length := by
  induction keys with
  | nil => rfl
  | cons key rest ih =>
    obtain ⟨first, range⟩ := forall_mem_cons.mp range
    have size : entrySize intKey childSuffix key = 2 + intKey.size key + 4 := rfl
    rw [map_cons, sum_cons, ih range, size, size_int first, length_cons]
    omega

theorem leaf_fits_int {next : ℕ} (range : ∀ e ∈ entries, Int64 e.1) :
    (leaf entries next).Fits intKey ↔ entries.length ≤ LEAF_CAPACITY := by
  show 12 + entriesSize intKey ridSuffix entries ≤ 4096 ↔ entries.length ≤ 240
  rw [entriesSize_int range]
  omega

theorem internal_fits_int {keys : List ℤ} {children : List ℕ} (range : ∀ key ∈ keys, Int64 key) :
    (internal keys children).Fits intKey ↔ keys.length ≤ INTERNAL_CAPACITY := by
  show 12 + (keys.map fun key => entrySize intKey childSuffix key).sum ≤ 4096 ↔ keys.length ≤ 272
  rw [keysSize_int range]
  omega

def AlmostFits : Node ℤ → Prop
  | .leaf entries _ => (∀ e ∈ entries, Int64 e.1) ∧ entries.length ≤ LEAF_CAPACITY + 1
  | .internal keys _ => (∀ key ∈ keys, Int64 key) ∧ keys.length ≤ INTERNAL_CAPACITY + 1

theorem AlmostFits.halves {node : Node ℤ} (almost : node.AlmostFits) : node.HalvesFit intKey := by
  cases node with
  | leaf entries next =>
    obtain ⟨range, count⟩ := almost
    unfold LEAF_CAPACITY at count
    refine ⟨(leaf_fits_int fun e among => range e (mem_of_mem_take among)).mpr ?_,
      (leaf_fits_int fun e among => range e (mem_of_mem_drop among)).mpr ?_⟩
    · rw [length_take, LEAF_CAPACITY]
      omega
    · rw [length_drop, LEAF_CAPACITY]
      omega
  | internal keys children =>
    obtain ⟨range, count⟩ := almost
    unfold INTERNAL_CAPACITY at count
    refine ⟨(internal_fits_int fun key among => range key (mem_of_mem_take among)).mpr ?_,
      (internal_fits_int fun key among => range key (mem_of_mem_drop among)).mpr ?_⟩
    · rw [length_take, INTERNAL_CAPACITY]
      omega
    · rw [length_drop, INTERNAL_CAPACITY]
      omega

theorem AlmostFits.pushed {node : Node ℤ} (almost : node.AlmostFits) {up : ℤ} (pushed : node.pushed intKey = some up) :
    Int64 up := by
  rw [Node.pushed] at pushed
  split at pushed
  case isTrue => cases pushed
  case isFalse =>
    cases node with
    | leaf entries next =>
      obtain ⟨e, here, rfl⟩ := Option.map_eq_some_iff.mp pushed
      exact almost.1 e (mem_of_getElem? here)
    | internal keys children => exact almost.1 up (mem_of_getElem? pushed)

end Node

theorem halving_int : Halving intKey ⟨120, 136⟩ := by
  refine ⟨fun entries next coded large => ?_, fun keys children coded large => ?_⟩
  · rw [leaf_fits_int fun e among => codes_int.mp (coded.1 e among).1, Node.LEAF_CAPACITY] at large
    show 2 * 120 ≤ entries.length
    omega
  · rw [internal_fits_int fun key among => codes_int.mp (coded.1 key among), Node.INTERNAL_CAPACITY] at large
    show 2 * 136 + 1 ≤ keys.length
    omega

variable {fill : Fill} {nodes : Nodes ℤ} {key : ℤ} {rid : Rid} {height fuel pid : ℕ} {node : Node ℤ}
  {lo hi : Option ℤ} {items : List (Item ℤ)}

theorem almostFits_grown (holds : Holds (Filled intKey fill) nodes height node pid lo hi items)
    (coded : node.Coded intKey) (fits : node.Fits intKey) (range : Int64 key) (enough : height < fuel) :
    (grown intKey nodes key rid fuel node).AlmostFits := by
  obtain _ | fuel := fuel
  · omega
  induction holds using Holds.upward generalizing fuel with
  | leaf =>
    have old (e : ℤ × Rid) (among : e ∈ _) : Int64 e.1 := codes_int.mp (coded.1 e among).1
    refine ⟨fun e among => ?_, ?_⟩
    · rcases mem_cons.mp ((place_perm _ key rid).mem_iff.mp among) with rfl | among
      · exact range
      · exact old e among
    · rw [length_place]
      exact Nat.succ_le_succ ((leaf_fits_int old).mp fits)
  | @inner height keys children pid lo hi below forest ih =>
    have old (k : ℤ) (among : k ∈ keys) : Int64 k := codes_int.mp (coded.1 k among)
    have count := (internal_fits_int old).mp fits
    rw [grown]
    split
    case h_1 up pushes =>
      obtain ⟨child, inFocus, pushed⟩ := Option.bind_eq_some_iff.mp pushes
      obtain ⟨childPid, childNode, l, u, here, routed, filled, holds⟩ := Forest.route forest key
      cases routed.symm.trans inFocus
      obtain _ | fuel := fuel
      · omega
      have almost := ih holds filled.1 filled.2.1 fuel (by omega)
      refine ⟨fun k among => ?_, ?_⟩
      · rcases eq_or_mem_of_mem_insertIdx among with rfl | among
        · exact almost.pushed pushed
        · exact old k among
      · exact length_insertIdx_le_succ.trans (Nat.succ_le_succ count)
    case h_2 => exact ⟨old, Nat.le_succ_of_le count⟩

def CutsApart (key : ℤ) (rid : Rid) (entries : List (ℤ × Rid)) : Prop :=
  entries.length < Node.LEAF_CAPACITY ∨ (leaf (place entries key rid) 0).Separated

theorem absorbs_int (holds : Holds (Filled intKey fill) nodes height node pid lo hi items) (coded : node.Coded intKey)
    (fits : node.Fits intKey) (range : Int64 key) (enough : height < fuel)
    (cuts : ∀ leaf, leafOn nodes key fuel node = some leaf → CutsApart key rid leaf.1) :
    Absorbs intKey nodes key rid fuel node ∧ ((grown intKey nodes key rid fuel node).Fits intKey ∨
      (grown intKey nodes key rid fuel node).HalvesFit intKey ∧ (grown intKey nodes key rid fuel node).Separated) := by
  obtain _ | fuel := fuel
  · omega
  have almost := @almostFits_grown _ _ _ rid _ _ _ _ _ _ _ holds coded fits range enough
  induction holds using Holds.upward generalizing fuel with
  | @leaf entries next =>
    refine ⟨trivial, ?_⟩
    rcases cuts (entries, next) rfl with small | separated
    · refine .inl ((leaf_fits_int almost.1).mpr ?_)
      rw [length_place]
      exact small
    · exact .inr ⟨almost.halves, separated⟩
  | inner forest ih =>
    obtain ⟨childPid, childNode, l, u, here, inFocus, filled, holds⟩ := Forest.route forest key
    obtain _ | fuel := fuel
    · omega
    rw [leafOn, inFocus] at cuts
    refine ⟨?_, .inr ⟨almost.halves, ?_⟩⟩
    · rw [Absorbs, inFocus]
      rintro child ⟨⟩
      exact ih holds filled.1 filled.2.1 fuel (by omega) cuts
        (almostFits_grown holds filled.1 filled.2.1 range (by omega))
    · rw [grown]
      split <;> trivial

end Tinydb.Index
