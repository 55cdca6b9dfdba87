import Tinydb.Index.NodeStore
import Tinydb.Lib.Forest

/-! The shape of an index tree.

A tree is described by its pages in the order a walk from left to right meets them:
an internal node before its subtrees. `Holds` says that a node in memory is the root
of a tree of one height whose separators bound its subtrees. The leaves, in that
order, are linked to each other, and what they hold is the contents of the tree.
-/

namespace Tinydb.Index

open Lib Storage Heap List

variable {K : Type}

inductive Item (K : Type) where
  | inner (pid : ℕ)
  | leaf (pid : ℕ) (entries : List (K × Rid)) (next : ℕ)

namespace Item

def pid : Item K → ℕ
  | .inner pid => pid
  | .leaf pid _ _ => pid

def entries : Item K → List (K × Rid)
  | .inner _ => []
  | .leaf _ entries _ => entries

end Item

def contents (items : List (Item K)) : List (K × Rid) := items.flatMap Item.entries

def pids (items : List (Item K)) : List ℕ := items.map Item.pid

def firstLeaf : List (Item K) → ℕ → ℕ
  | [], after => after
  | .inner _ :: rest, after => firstLeaf rest after
  | .leaf pid _ _ :: _, _ => pid

def Linked : List (Item K) → ℕ → Prop
  | [], _ => True
  | .inner _ :: rest, after => Linked rest after
  | .leaf _ _ next :: rest, after => next = firstLeaf rest after ∧ Linked rest after

variable {items more : List (Item K)} {after : ℕ}

@[simp] theorem contents_nil : contents ([] : List (Item K)) = [] := rfl

@[simp] theorem contents_inner (pid : ℕ) : contents (.inner pid :: items) = contents items := rfl

@[simp] theorem contents_leaf (pid : ℕ) (entries : List (K × Rid)) (next : ℕ) :
    contents (.leaf pid entries next :: items) = entries ++ contents items := rfl

@[simp] theorem contents_append : contents (items ++ more) = contents items ++ contents more := flatMap_append

@[simp] theorem pids_nil : pids ([] : List (Item K)) = [] := rfl

@[simp] theorem pids_cons (item : Item K) : pids (item :: items) = item.pid :: pids items := rfl

@[simp] theorem pids_append : pids (items ++ more) = pids items ++ pids more := map_append

@[simp] theorem firstLeaf_append : firstLeaf (items ++ more) after = firstLeaf items (firstLeaf more after) := by
  induction items with
  | nil => rfl
  | cons item rest ih =>
    cases item with
    | inner pid => exact ih
    | leaf pid entries next => rfl

@[simp] theorem linked_append :
    Linked (items ++ more) after ↔ Linked items (firstLeaf more after) ∧ Linked more after := by
  induction items with
  | nil => simp [Linked]
  | cons item rest ih =>
    cases item with
    | inner pid => exact ih
    | leaf pid entries next =>
      show next = firstLeaf (rest ++ more) after ∧ Linked (rest ++ more) after ↔ (_ ∧ Linked rest _) ∧ _
      rw [ih, firstLeaf_append, and_assoc]

variable [LinearOrder K] {ok : Node K → Prop} {nodes nodes' : Nodes K} {height child pid q n : ℕ}
  {node : Node K} {keys keys₁ keys₂ : List K} {children children₁ children₂ bs : List ℕ} {lo hi : Option K} {key : K}
  {items out : List (Item K)} {σ : Type} {E : Exc → σ → Prop} {s : σ} {Q : ℕ → σ → Prop}

/-- The node is the root of a tree between the bounds; `ok` is asked of every node below it. -/
def Holds (ok : Node K → Prop) (nodes : Nodes K) : ℕ → Node K → ℕ → Option K → Option K → List (Item K) → Prop
  | 0, .leaf entries next, pid, lo, hi, items =>
    items = [.leaf pid entries next] ∧ Keyed entries ∧ (∀ e ∈ entries, Above lo e.1 ∧ Below hi e.1) ∧ Apart lo hi
  | height + 1, .internal keys children, pid, lo, hi, items => ∃ below, items = .inner pid :: below ∧
    Forest (fun child l u out => ∃ node, nodes child = some node ∧ ok node ∧ Holds ok nodes height node child l u out)
      lo keys children hi below
  | _, _, _, _, _, _ => False

def Part (ok : Node K → Prop) (nodes : Nodes K) (height child : ℕ) (l u : Option K) (out : List (Item K)) :
    Prop := ∃ node, nodes child = some node ∧ ok node ∧ Holds ok nodes height node child l u out

theorem holds_internal :
    Holds ok nodes (height + 1) (.internal keys children) pid lo hi items ↔
      ∃ below, items = .inner pid :: below ∧ Forest (Part ok nodes height) lo keys children hi below := Iff.rfl

/-- Induction over a tree: from the subtrees to the node above them. -/
theorem Holds.upward {motive : ∀ {height pid : ℕ} {node : Node K} {lo hi : Option K} {items : List (Item K)},
      Holds ok nodes height node pid lo hi items → Prop}
    (leaf : ∀ {entries next pid lo hi} (keyed : Keyed entries) (bounded : ∀ e ∈ entries, Above lo e.1 ∧ Below hi e.1)
      (apart : Apart lo hi), @motive 0 pid (.leaf entries next) lo hi _ ⟨rfl, keyed, bounded, apart⟩)
    (inner : ∀ {height keys children pid lo hi below}
      (forest : Forest (Part ok nodes height) lo keys children hi below),
      (∀ {node child l u out} (holds : Holds ok nodes height node child l u out), motive holds) →
      @motive (height + 1) pid (.internal keys children) lo hi _ ⟨below, rfl, forest⟩)
    (holds : Holds ok nodes height node pid lo hi items) : motive holds := by
  induction height generalizing node pid lo hi items with
  | zero =>
    match node, holds with
    | .leaf entries next, ⟨same, keyed, bounded, apart⟩ =>
      subst same
      exact leaf keyed bounded apart
  | succ height ih =>
    match node, holds with
    | .internal keys children, ⟨below, same, forest⟩ =>
      subst same
      exact inner forest fun holds => ih holds

theorem Holds.within (holds : Holds ok nodes height node pid lo hi items) :
    Apart lo hi ∧ ∀ item ∈ items, ∀ e ∈ item.entries, Above lo e.1 ∧ Below hi e.1 := by
  induction holds using Holds.upward with
  | leaf keyed bounded apart => exact ⟨apart, by simpa [Item.entries] using bounded⟩
  | inner forest ih =>
    have each : Within (Part ok nodes _) Item.entries := fun child l u out ⟨_, _, _, holds⟩ => ih holds
    refine ⟨(forest.sorted fun b l u o part => (each b l u o part).1).1, fun item among e inside => ?_⟩
    rcases mem_cons.mp among with rfl | among
    · cases inside
    · exact forest.within each among inside

theorem part_within (height : ℕ) : Within (Part ok nodes height) Item.entries :=
    fun _ _ _ _ ⟨_, _, _, holds⟩ => holds.within

section

variable (holds : Holds ok nodes height node pid lo hi items)
include holds

theorem Holds.keyed : Keyed (contents items) := by
  induction holds using Holds.upward with
  | leaf keyed => simpa [contents, Item.entries] using keyed
  | inner forest ih =>
    rw [contents_inner]
    exact Forest.keyed forest (part_within _) fun _ _ _ _ ⟨_, _, _, holds⟩ => ih holds

theorem Holds.head : ∃ rest, pids items = pid :: rest := by
  match height, node, holds with
  | 0, .leaf entries next, ⟨same, _⟩ => exact ⟨[], by rw [same]; rfl⟩
  | height + 1, .internal keys children, ⟨below, same, _⟩ => exact ⟨pids below, by rw [same]; rfl⟩

theorem Holds.root_mem : pid ∈ pids items := by
  obtain ⟨rest, same⟩ := holds.head
  rw [same]
  exact mem_cons_self

theorem Holds.stored (among : q ∈ pids items) : q = pid ∨ nodes q ≠ none := by
  induction holds using Holds.upward with
  | leaf => exact .inl (by simpa [pids, Item.pid] using among)
  | inner forest ih =>
    rcases mem_cons.mp among with rfl | among
    · exact .inl rfl
    · obtain ⟨item, inside, rfl⟩ := mem_map.mp among
      obtain ⟨child, l, u, out, ⟨root, found, _, holds⟩, here, -, -⟩ := Forest.mem forest inside
      refine .inr ?_
      rcases ih holds (mem_map_of_mem here) with same | present
      · simp [same, found]
      · exact present

theorem Holds.leaf_stored {next : ℕ} {entries : List (K × Rid)}
    (among : .leaf q entries next ∈ items) :
    nodes q = some (.leaf entries next) ∨ height = 0 ∧ q = pid ∧ node = .leaf entries next := by
  induction holds using Holds.upward with
  | leaf =>
    obtain ⟨rfl, rfl, rfl⟩ := Item.leaf.inj (mem_singleton.mp among)
    exact .inr ⟨rfl, rfl, rfl⟩
  | inner forest ih =>
    rcases mem_cons.mp among with absurd | among
    · cases absurd
    · obtain ⟨child, l, u, out, ⟨root, found, _, holds⟩, inside, -, -⟩ := Forest.mem forest among
      refine .inl ?_
      rcases ih holds inside with stored | ⟨-, rfl, same⟩
      · exact stored
      · rw [found, same]

theorem Holds.congr (same : ∀ q ∈ (pids items).tail, nodes' q = nodes q) :
    Holds ok nodes' height node pid lo hi items := by
  induction holds using Holds.upward with
  | leaf keyed bounded apart => exact ⟨rfl, keyed, bounded, apart⟩
  | inner forest ih =>
    refine ⟨_, rfl, Forest.mono forest ?_⟩
    rintro child l u out sub ⟨root, found, isOk, holds⟩
    have kept (q : ℕ) (among : q ∈ pids out) : nodes' q = nodes q := by
      obtain ⟨item, inside, rfl⟩ := mem_map.mp among
      exact same _ (mem_map_of_mem (sub inside))
    refine ⟨root, (kept child holds.root_mem).trans found, isOk, ih holds fun q among => kept q ?_⟩
    exact mem_of_mem_tail among

end

theorem Holds.weaken {ok' : Node K → Prop} (weaker : ∀ node, ok node → ok' node)
    (holds : Holds ok nodes height node pid lo hi items) : Holds ok' nodes height node pid lo hi items := by
  induction holds using Holds.upward with
  | leaf keyed bounded apart => exact ⟨rfl, keyed, bounded, apart⟩
  | inner forest ih =>
    refine ⟨_, rfl, Forest.mono forest ?_⟩
    rintro child l u out - ⟨root, found, isOk, holds⟩
    exact ⟨root, found, weaker root isOk, ih holds⟩

theorem Part.congr (part : Part ok nodes height child lo hi items)
    (same : ∀ q ∈ pids items, nodes' q = nodes q) : Part ok nodes' height child lo hi items := by
  obtain ⟨root, found, isOk, holds⟩ := part
  exact ⟨root, (same child holds.root_mem).trans found, isOk,
    holds.congr fun q among => same q (mem_of_mem_tail among)⟩

theorem Leading.carry {l : Option K} (leading : Leading (Part ok nodes height) lo keys bs l out)
    (same : ∀ q ∈ pids out, nodes' q = nodes q) : Leading (Part ok nodes' height) lo keys bs l out :=
  Lib.Leading.mono leading fun _ _ _ _ sub part => part.congr fun q among => same q (map_subset _ sub among)

theorem Trailing.carry {u : Option K} (trailing : Trailing (Part ok nodes height) u keys bs hi out)
    (same : ∀ q ∈ pids out, nodes' q = nodes q) : Trailing (Part ok nodes' height) u keys bs hi out :=
  Lib.Trailing.mono trailing fun _ _ _ _ sub part => part.congr fun q among => same q (map_subset _ sub among)

theorem Forest.carry (forest : Forest (Part ok nodes height) lo keys bs hi out)
    (same : ∀ q ∈ pids out, nodes' q = nodes q) : Forest (Part ok nodes' height) lo keys bs hi out :=
  Lib.Forest.mono forest fun _ _ _ _ sub part => part.congr fun q among => same q (map_subset _ sub among)

theorem Holds.height_lt (holds : Holds ok nodes height node pid lo hi items) : height < items.length := by
  induction holds using Holds.upward with
  | leaf => simp
  | inner forest ih =>
    obtain ⟨child, rest, u, here, more, -, rfl, ⟨_, _, _, holds⟩⟩ := Forest.first forest
    have := ih holds
    rw [length_cons, length_append]
    omega

theorem upperBound_append (sorted : (keys₁ ++ keys₂).Pairwise (· < ·))
    (low : ∀ k ∈ keys₁, k ≤ key) (high : ∀ k ∈ keys₂, key < k) : upperBound (keys₁ ++ keys₂) key = keys₁.length := by
  have none : keys₂.takeWhile (fun k => decide (k ≤ key)) = [] := by
    cases keys₂ with
    | nil => rfl
    | cons k rest => exact takeWhile_cons_of_neg (by simpa using high k (by simp))
  rw [upperBound_eq (sorted.imp le_of_lt), takeWhile_append_of_pos fun k among => decide_eq_true (low k among), none,
    append_nil]

theorem findChild_focus
    (sorted : (keys₁ ++ keys₂).Pairwise (· < ·)) (low : ∀ k ∈ keys₁, k ≤ key) (high : ∀ k ∈ keys₂, key < k)
    (length : children₁.length = keys₁.length) :
    findChild (keys₁ ++ keys₂) (children₁ ++ child :: children₂) key = keys₁.length := by
  rw [findChild, upperBound_append sorted low high]
  simp [length]

theorem Forest.separators (forest : Forest (Part ok nodes height) lo keys children hi out) : keys.Pairwise (· < ·) :=
  (Lib.Forest.sorted forest fun b l u o part => (part_within height b l u o part).1).2.1

theorem getElem?_focus (length : children₁.length = n) : (children₁ ++ child :: children₂)[n]? = some child := by
  rw [← length, getElem?_append_right (le_refl _), Nat.sub_self]
  rfl

/-- The child that the search for a key goes on with. -/
theorem Forest.route (forest : Forest (Part ok nodes height) lo keys children hi out) (key : K) :
    ∃ childPid node l u here, children[findChild keys children key]?.bind nodes = some node ∧ ok node ∧
      Holds ok nodes height node childPid l u here := by
  have sorted := Forest.separators forest
  obtain ⟨keys₁, keys₂, children₁, children₂, childPid, l, u, front, here, back, low, high, leading,
    ⟨node, found, isOk, holds⟩, -⟩ := Lib.Forest.focus forest sorted key
  refine ⟨childPid, node, l, u, here, ?_, isOk, holds⟩
  rw [findChild_focus sorted low high leading.length, getElem?_focus leading.length, Option.bind_some, found]

theorem wp_childAt_of (route : children[n]? = some child) : (childAt children n).wp Q E s ↔ Q child s := by
  rw [childAt, route]
  rfl

theorem wp_childAt (length : children₁.length = n) :
    (childAt (children₁ ++ child :: children₂) n).wp Q E s ↔ Q child s := wp_childAt_of (getElem?_focus length)

end Tinydb.Index
