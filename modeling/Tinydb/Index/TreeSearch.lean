import Tinydb.Index.TreeShape

/-! Searches of a tree.

A descent ends at the leaf that is between the keys below the one searched and those
above it. A search is answered from that leaf; a range starts there and follows the
links, and both give what the contents of the tree have.
-/

namespace Tinydb.Index

open Lib Program Storage Heap List BTreeIndex

variable {K : Type} [LinearOrder K] {kt : KeyType K} {ok : Node K → Prop} {nodes : Nodes K} {key : K}
  {height fuel pid next : ℕ} {node : Node K} {lo : Option K} {items : List (Item K)} {entries : List (K × Rid)}
  {pg : Pager} {hi : K} {inclusive : Bool} {after : List (Item K)}

/-- The leaf is where the key is searched: what is before it is smaller, what is behind it is greater. -/
inductive Reached (key : K) : List (Item K) → List (K × Rid) × ℕ → Prop where
  | mk (before after : List (Item K)) (pid : ℕ) (entries : List (K × Rid)) (next : ℕ)
    (low : ∀ e ∈ contents before, e.1 < key) (high : ∀ e ∈ contents after, key < e.1) :
    Reached key (before ++ .leaf pid entries next :: after) (entries, next)

theorem Reached.nested {front here back : List (Item K)} {leaf : List (K × Rid) × ℕ} (reached : Reached key here leaf)
    (low : ∀ e ∈ contents front, e.1 < key) (high : ∀ e ∈ contents back, key < e.1) :
    Reached key (front ++ (here ++ back)) leaf := by
  obtain ⟨before, after, pid, entries, next, below, above⟩ := reached
  have whole : front ++ (before ++ .leaf pid entries next :: after ++ back) =
      (front ++ before) ++ .leaf pid entries next :: (after ++ back) := by simp
  rw [whole]
  refine .mk _ _ _ _ _ (fun e among => ?_) fun e among => ?_
  · rw [contents_append] at among
    exact (mem_append.mp among).elim (low e) (below e)
  · rw [contents_append] at among
    exact (mem_append.mp among).elim (above e) (high e)

def leafOn (nodes : Nodes K) (key : K) : ℕ → Node K → Option (List (K × Rid) × ℕ)
  | _ + 1, .leaf entries next => some (entries, next)
  | fuel + 1, .internal keys children =>
    (children[findChild keys children key]?.bind nodes).bind (leafOn nodes key fuel)
  | 0, _ => none

theorem Holds.leafOn_ok {hi : Option K} (holds : Holds ok nodes height node pid lo hi items) (below : 0 < height)
    (path : leafOn nodes key fuel node = some (entries, next)) : ok (.leaf entries next) := by
  induction holds using Holds.upward generalizing fuel with
  | leaf => exact absurd below (lt_irrefl 0)
  | @inner height keys children pid lo hi out forest ih =>
    obtain ⟨childPid, child, l, u, here, inFocus, isOk, holds⟩ := Forest.route forest key
    cases fuel with
    | zero => cases path
    | succ fuel =>
      rw [leafOn, inFocus, Option.bind_some] at path
      match height, child, holds with
      | 0, .leaf entries' next', _ =>
        match fuel, path with
        | fuel + 1, path =>
          cases path
          exact isOk
      | height + 1, child, holds => exact ih holds (Nat.succ_pos _) path

theorem wp_descend {hi : Option K} (stored : Stored kt pg nodes) (holds : Holds ok nodes height node pid lo hi items)
    (enough : height < fuel) : (descend kt key fuel node).wp
      (fun leaf pg' => pg' = pg ∧ leafOn nodes key fuel node = some leaf ∧ Reached key items leaf)
      (fun _ _ => False) pg := by
  obtain _ | fuel := fuel
  · omega
  induction holds using Holds.upward generalizing fuel with
  | leaf => exact ⟨rfl, rfl, Reached.mk [] [] _ _ _ (by simp) (by simp)⟩
  | @inner height keys children pid lo hi below forest ih =>
    have sorted := Forest.separators forest
    obtain ⟨keys₁, keys₂, children₁, children₂, childPid, l, u, front, here, back, low, high, leading,
      ⟨child, found, _, holds⟩, trailing⟩ := Forest.focus forest sorted key
    have position : findChild (keys₁ ++ keys₂) (children₁ ++ childPid :: children₂) key = keys₁.length :=
      findChild_focus sorted low high leading.length
    obtain _ | fuel := fuel
    · omega
    rw [descend, leafOn, position, getElem?_focus leading.length, Option.bind_some, found, wp_bind,
      wp_childAt leading.length, wp_bind, stored.wp_readNodeView found]
    refine (ih holds fuel (by omega)).mono (fun leaf pg' ⟨same, path, reached⟩ => ⟨same, path, ?_⟩) fun _ _ => id
    have smaller (e : K × Rid) (among : e ∈ contents (.inner pid :: front)) : e.1 < key := by
      rw [contents_inner] at among
      obtain ⟨item, inside, here⟩ := mem_flatMap.mp among
      exact Leading.before leading (part_within height) low inside here
    have greater (e : K × Rid) (among : e ∈ contents back) : key < e.1 := by
      obtain ⟨item, inside, here⟩ := mem_flatMap.mp among
      exact Trailing.behind trailing (part_within height) high inside here
    exact reached.nested smaller greater

def inRange (lo hi : K) (inclusive : Bool) (e : K × Rid) : Bool :=
  decide (lo ≤ e.1) && !isPastUpper e.1 hi inclusive

theorem isPastUpper_mono {a b : K} (le : a ≤ b) (past : isPastUpper a hi inclusive) :
    isPastUpper b hi inclusive := by
  cases inclusive with
  | true => exact decide_eq_true ((of_decide_eq_true past : hi < a).trans_le le)
  | false => exact decide_eq_true ((of_decide_eq_true past : hi ≤ a).trans le)

theorem inRange_inclusive (lo hi : K) (entries : List (K × Rid)) :
    entries.filter (inRange lo hi true) = between entries lo hi := by
  refine filter_congr fun e _ => ?_
  simp [inRange, isPastUpper, ← decide_not]

theorem takeWhile_inRange (keyed : Keyed entries) (lo hi : K) (inclusive : Bool) :
    (entries.drop (lowerBound (entries.map Prod.fst) lo)).takeWhile (fun e => !isPastUpper e.1 hi inclusive) =
      entries.filter (inRange lo hi inclusive) := by
  have front : Front (fun e : K × Rid => !isPastUpper e.1 hi inclusive)
      (entries.filter fun e => decide (lo ≤ e.1)) := by
    refine (keyed.filter _).imp fun {a b} le notPast => ?_
    rw [Bool.not_eq_true', ← Bool.not_eq_true] at notPast ⊢
    exact fun past => notPast (isPastUpper_mono le past)
  rw [keyed.drop_lowerBound, front.takeWhile_eq_filter, filter_filter]
  refine filter_congr fun e _ => ?_
  simp [inRange, Bool.and_comm]

theorem stops_early (keyed : Keyed entries) {lo : K} (early : (entries.filter (inRange lo hi inclusive)).length <
      (entries.drop (lowerBound (entries.map Prod.fst) lo)).length) :
    ∃ e ∈ entries, isPastUpper e.1 hi inclusive := by
  by_contra none
  have all : entries.filter (inRange lo hi inclusive) = entries.filter fun e => decide (lo ≤ e.1) := by
    refine filter_congr fun e among => ?_
    have within : isPastUpper e.1 hi inclusive = false := by
      simpa using fun past => none ⟨e, among, past⟩
    simp [inRange, within]
  rw [all, keyed.drop_lowerBound] at early
  exact lt_irrefl _ early

/-- A leaf's entries and link, and the items behind the leaf. -/
structure Behind (nodes : Nodes K) (entries : List (K × Rid)) (next : ℕ) (after : List (Item K)) (fuel : ℕ) :
    Prop where
  keyed : Keyed (entries ++ contents after)
  onPage : ∀ q es n, .leaf q es n ∈ after → nodes q = some (.leaf es n)
  link : next = firstLeaf after NO_NEXT
  linked : Linked after NO_NEXT
  enough : after.length < fuel

/-- Leaves are read along their links until an entry of one is past the bound, and of each the entries inside are
taken. -/
theorem wp_followLinks {β : Type} {walk : ℕ → List (K × Rid) → ℕ → PagerM (List β)} (stops : List (K × Rid) → Prop)
    [DecidablePred stops] {inside : K × Rid → Bool} {out : K × Rid → β}
    (step : ∀ fuel entries next, Keyed entries → walk (fuel + 1) entries next =
      if stops entries ∨ next = NO_NEXT then return (entries.filter inside).map out else do
        let (entries', next') ← readLeaf kt next
        let others ← walk fuel entries' next'
        return (entries.filter inside).map out ++ others)
    (past : ∀ entries, Keyed entries → stops entries → ∃ e ∈ entries, ∀ e' : K × Rid, e.1 ≤ e'.1 → inside e' = false)
    (stored : Stored kt pg nodes) (behind : Behind nodes entries next after fuel) :
    (walk fuel entries next).wp (fun found pg' => pg' = pg ∧
      found = ((entries ++ contents after).filter inside).map out)
      (fun _ _ => False) pg := by
  obtain ⟨keyed, onPage, link, linked, enough⟩ := behind
  induction after generalizing fuel entries next with
  | nil =>
    obtain _ | fuel := fuel
    · omega
    rw [contents_nil, append_nil] at keyed ⊢
    rw [step fuel entries next keyed, if_pos (.inr link)]
    exact ⟨rfl, rfl⟩
  | cons item after ih =>
    cases item with
    | inner q =>
      exact ih keyed (fun q es n among => onPage q es n (mem_cons_of_mem _ among)) link linked
        (by rw [length_cons] at enough; omega)
    | leaf q es n =>
      obtain _ | fuel := fuel
      · omega
      have here := onPage q es n mem_cons_self
      obtain rfl : next = q := link
      have real : next ≠ NO_NEXT := (stored.usable (by simp [here])).2.2.2
      rw [contents_leaf] at keyed ⊢
      obtain ⟨first, later, across⟩ := pairwise_append.mp keyed
      rw [step fuel entries next first]
      split
      case isTrue done =>
        -- an entry past the bound: nothing behind it is inside
        obtain ⟨e, among, outside⟩ := past entries first (done.resolve_right real)
        have none : (es ++ contents after).filter inside = [] :=
          filter_eq_nil_iff.mpr fun e' behind => by simp [outside e' (across e among e' behind)]
        rw [filter_append, none, append_nil]
        exact ⟨rfl, rfl⟩
      case isFalse =>
        rw [wp_bind, stored.wp_readLeaf here, wp_bind]
        refine (ih later (fun q es n among => onPage q es n (mem_cons_of_mem _ among)) linked.1 linked.2
          (by rw [length_cons] at enough; omega)).mono ?_ fun _ _ => id
        rintro found pg' ⟨rfl, rfl⟩
        exact ⟨rfl, by simp only [filter_append, map_append]⟩

theorem wp_scanLeaves (stored : Stored kt pg nodes) {lo : K} (behind : Behind nodes entries next after fuel) :
    (scanLeaves kt lo hi inclusive fuel entries next).wp
      (fun rids pg' => pg' = pg ∧ rids = ((entries ++ contents after).filter (inRange lo hi inclusive)).map Prod.snd)
      (fun _ _ => False) pg := by
  refine wp_followLinks (fun entries => (entries.filter (inRange lo hi inclusive)).length <
    (entries.drop (lowerBound (entries.map Prod.fst) lo)).length)
    (fun fuel entries next keyed => ?_) (fun entries keyed early => ?_) stored behind
  · rw [scanLeaves, takeWhile_inRange keyed]
  · obtain ⟨e, among, past⟩ := stops_early keyed early
    exact ⟨e, among, fun e' le => by simp [inRange, isPastUpper_mono le past]⟩

/-- The root in memory, or still on its page, over a store. -/
structure Loaded (kt : KeyType K) (idx : BTreeIndex K) (nodes : Nodes K) (root : Node K) : Prop where
  stored : Stored kt idx.pager nodes
  page : nodes idx.rootPid ≠ none
  view : idx.rootView = some root ∨ idx.rootView = none ∧ nodes idx.rootPid = some root

omit [LinearOrder K] in
theorem Loaded.wp_ensureLoaded {idx : BTreeIndex K} {root : Node K} (loaded : Loaded kt idx nodes root)
    {Q : Node K → BTreeIndex K → Prop} {E : Exc → BTreeIndex K → Prop} :
    (ensureLoaded kt).wp Q E idx ↔ Q root { idx with rootView := some root } := by
  rw [ensureLoaded, wp_bind, wp_read]
  rcases loaded.view with inMemory | ⟨absent, onPage⟩
  · have same : { idx with rootView := some root } = idx := by rw [← inMemory]
    rw [same, inMemory]
    rfl
  · rw [absent]
    show (onPager (Pager.readPage idx.rootPid) >>= _).wp Q E idx ↔ _
    rw [wp_bind, onPager, wp_zoom, loaded.stored.wp_readPage loaded.page,
      loaded.stored.unpack onPage]
    rfl

/-- A root and the tree below it. -/
structure Tree (kt : KeyType K) (ok : Node K → Prop) (idx : BTreeIndex K) (nodes : Nodes K) (height : ℕ)
    (root : Node K) (items : List (Item K)) : Prop extends Loaded kt idx nodes root where
  holds : Holds ok nodes height root idx.rootPid none none items
  distinct : (pids items).Nodup
  linked : Linked items NO_NEXT

/-- Searches and ranges give what the entries have. -/
structure Answers (kt : KeyType K) (idx : BTreeIndex K) (entries : List (K × Rid)) : Prop where
  search : ∀ key, ∃ idx', (search kt key).Returns idx ((between entries key key).map Prod.snd) idx'
  range : ∀ lo hi, ∃ idx', (BTreeIndex.range kt lo hi true).Returns idx ((between entries lo hi).map Prod.snd) idx'

namespace Tree

variable {idx : BTreeIndex K} {root : Node K}

section

variable (tree : Tree kt ok idx nodes height root items)
include tree

theorem pid_lt {q : ℕ} (among : q ∈ pids items) : q < idx.pager.numPages := by
  rcases tree.holds.stored among with rfl | present
  · exact (tree.stored.usable tree.page).2.1
  · exact (tree.stored.usable present).2.1

theorem length_le : items.length ≤ idx.pager.numPages := by
  have sub : pids items ⊆ List.range idx.pager.numPages := fun q among => mem_range.mpr (tree.pid_lt among)
  simpa [pids] using (subperm_of_subset tree.distinct sub).length_le

theorem enough : height < idx.fuel :=
  Nat.lt_succ_of_lt (tree.holds.height_lt.trans_le tree.length_le)

theorem wp_search (key : K) : (search kt key).wp
    (fun rids idx' => idx' = { idx with rootView := some root } ∧
      rids = (between (contents items) key key).map Prod.snd)
    (fun _ _ => False) idx := by
  have keyed := tree.holds.keyed
  rw [search, wp_bind, tree.toLoaded.wp_ensureLoaded, wp_bind, wp_read, wp_bind,
    onPager, wp_zoom]
  refine (wp_descend tree.stored tree.holds tree.enough).mono ?_ fun _ _ => id
  rintro _ pg ⟨rfl, -, reached⟩
  obtain ⟨before, after, pid, entries, next, low, high⟩ := reached
  rw [contents_append, contents_leaf] at keyed ⊢
  refine ⟨rfl, congrArg _ ?_⟩
  have inner : Keyed entries := (pairwise_append.mp (pairwise_append.mp keyed).2.1).1
  rw [inner.slice_eq, between_append, between_append, between_eq_nil fun e among => .inl (low e among),
    between_eq_nil fun e among => .inr (high e among), nil_append, append_nil]

end

/-- The leaves from the one a search gets to. -/
structure ChainFrom (idx : BTreeIndex K) (nodes : Nodes K) (items : List (Item K)) (key : K)
    (entries : List (K × Rid)) (next : ℕ) (before after : List (Item K)) : Prop
    extends Behind nodes entries next after idx.fuel where
  whole : contents items = contents before ++ (entries ++ contents after)
  low : ∀ e ∈ contents before, e.1 < key

theorem chainFrom (tree : Tree kt ok idx nodes height root items)
    (reached : Reached key items (entries, next)) : ∃ before after,
    ChainFrom idx nodes items key entries next before after := by
  have keyed := tree.holds.keyed
  have linked := tree.linked
  have length := tree.length_le
  have onPage (q : ℕ) (es : List (K × Rid)) (n : ℕ) (among : .leaf q es n ∈ items) := tree.holds.leaf_stored among
  obtain ⟨before, after, pid, entries, next, low, high⟩ := reached
  rw [contents_append, contents_leaf] at keyed
  obtain ⟨-, link, linked⟩ := linked_append.mp linked
  rw [length_append, length_cons] at length
  refine ⟨before, after, ⟨(pairwise_append.mp keyed).2.1, fun q es n among => ?_, link, linked,
    show after.length < idx.pager.numPages + 1 by omega⟩, by rw [contents_append, contents_leaf], low⟩
  rcases onPage q es n (by simp [among]) with stored | ⟨rfl, -, rfl⟩
  · exact stored
  · -- a tree that is one leaf has nothing behind it
    have single := congrArg List.length tree.holds.1
    have := length_pos_of_mem among
    simp at single
    omega

theorem wp_range (tree : Tree kt ok idx nodes height root items) (lo hi : K) (inclusive : Bool) :
    (BTreeIndex.range kt lo hi inclusive).wp
      (fun rids _ => rids = ((contents items).filter (inRange lo hi inclusive)).map Prod.snd)
      (fun _ _ => False) idx := by
  rw [BTreeIndex.range, wp_ite]
  refine ⟨fun crossed => ?_, fun _ => ?_⟩
  · have none : (contents items).filter (inRange lo hi inclusive) = [] := by
      refine filter_eq_nil_iff.mpr fun e _ inside => ?_
      obtain ⟨above, below⟩ : lo ≤ e.1 ∧ isPastUpper e.1 hi inclusive = false := by
        simpa [inRange] using inside
      have past : isPastUpper lo hi inclusive := by
        cases inclusive with
        | true => exact decide_eq_true crossed
        | false => exact decide_eq_true crossed.le
      rw [isPastUpper_mono above past] at below
      cases below
    rw [none]
    rfl
  · rw [wp_bind, tree.toLoaded.wp_ensureLoaded, wp_bind, wp_read, wp_bind, onPager,
      wp_zoom]
    refine (wp_descend tree.stored tree.holds tree.enough).mono ?_ fun _ _ => id
    rintro ⟨entries, next⟩ pg ⟨rfl, -, reached⟩
    obtain ⟨before, after, chain⟩ := tree.chainFrom reached
    show (Program.zoom _ _ (scanLeaves kt lo hi inclusive _ entries next)).wp _ _ _
    rw [wp_zoom]
    refine (wp_scanLeaves tree.stored chain.toBehind).mono ?_ fun _ _ => id
    rintro rids pg ⟨-, rfl⟩
    have none : (contents before).filter (inRange lo hi inclusive) = [] :=
      filter_eq_nil_iff.mpr fun e among => by simp [inRange, (chain.low e among).not_ge]
    rw [chain.whole, filter_append (contents before), none, nil_append]

theorem answers (tree : Tree kt ok idx nodes height root items) : Answers kt idx (contents items) := by
  refine ⟨fun key => ?_, fun lo hi => ?_⟩
  · obtain ⟨_, idx', returned, -, rfl⟩ := (tree.wp_search key).exists_returns
    exact ⟨idx', returned⟩
  · obtain ⟨_, idx', returned, rfl⟩ := (tree.wp_range lo hi true).exists_returns
    rw [inRange_inclusive] at returned
    exact ⟨idx', returned⟩

end Tree

end Tinydb.Index
