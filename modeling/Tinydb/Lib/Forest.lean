import Mathlib.Data.List.Basic
import Mathlib.Order.Lattice

/-! Parts in a row with keys between them.

A forest is a list of parts, each within the keys on its two sides, and what they
hold put together. It can be cut around some of its parts: the parts before them
keep the keys to their right, the parts behind them the keys to their left, and
anything that fits the gap may take their place.
-/

namespace Tinydb.Lib

open List

variable {K β γ : Type} {key : K} {P P' : β → Option K → Option K → List γ → Prop} {lo hi l h : Option K}
  {keys keys₁ keys₂ : List K} {bs bs₁ bs₂ : List β} {out : List γ} {x : γ}

section Bounds

variable [LinearOrder K] {hi : Option K}

def Above (lo : Option K) (key : K) : Prop := ∀ l ∈ lo, l ≤ key

def Below (hi : Option K) (key : K) : Prop := ∀ h ∈ hi, key < h

def Apart (lo hi : Option K) : Prop := ∀ l ∈ lo, Below hi l

@[simp] theorem above_none (key : K) : Above none key := fun _ absent => by cases absent

@[simp] theorem above_some (l key : K) : Above (some l) key ↔ l ≤ key := by simp [Above]

@[simp] theorem below_none (key : K) : Below none key := fun _ absent => by cases absent

@[simp] theorem below_some (h key : K) : Below (some h) key ↔ key < h := by simp [Below]

@[simp] theorem apart_none (hi : Option K) : Apart none hi := fun _ absent => by cases absent

@[simp] theorem apart_some (l : K) (hi : Option K) : Apart (some l) hi ↔ Below hi l := by simp [Apart]

theorem Below.mono {a b : K} (below : Below hi b) (le : a ≤ b) : Below hi a := fun h isHi => le.trans_lt (below h isHi)

theorem Above.apart (above : Above lo key) (below : Below hi key) : Apart lo hi :=
  fun l isLo => below.mono (above l isLo)

end Bounds

/-- Parts from `lo` to `hi` with a key between any two. -/
inductive Forest (P : β → Option K → Option K → List γ → Prop) : Option K → List K → List β → Option K → List γ → Prop
  | last {lo hi : Option K} {b : β} {out : List γ} (part : P b lo hi out) : Forest P lo [] [b] hi out
  | next {lo hi : Option K} {k : K} {keys : List K} {b : β} {rest : List β} {first more : List γ}
      (part : P b lo (some k) first) (later : Forest P (some k) keys rest hi more) :
      Forest P lo (k :: keys) (b :: rest) hi (first ++ more)

/-- Parts that each have a key to their right; `l` is where they end. -/
inductive Leading (P : β → Option K → Option K → List γ → Prop) : Option K → List K → List β → Option K → List γ → Prop
  | nil {lo : Option K} : Leading P lo [] [] lo []
  | next {lo l : Option K} {k : K} {keys : List K} {b : β} {rest : List β} {first more : List γ}
      (part : P b lo (some k) first) (later : Leading P (some k) keys rest l more) :
      Leading P lo (k :: keys) (b :: rest) l (first ++ more)

/-- Parts that each have a key to their left; `h` is where they begin. -/
inductive Trailing (P : β → Option K → Option K → List γ → Prop) : Option K → List K → List β → Option K → List γ → Prop
  | nil {h : Option K} : Trailing P h [] [] h []
  | more {k : K} {keys : List K} {bs : List β} {hi : Option K} {out : List γ}
      (forest : Forest P (some k) keys bs hi out) :
      Trailing P (some k) (k :: keys) bs hi out

theorem Forest.length (forest : Forest P lo keys bs hi out) : bs.length = keys.length + 1 := by
  induction forest with
  | last => rfl
  | next _ _ ih => simp [ih]

theorem Leading.length (leading : Leading P lo keys bs l out) : bs.length = keys.length := by
  induction leading with
  | nil => rfl
  | next _ _ ih => simp [ih]

theorem Trailing.length (trailing : Trailing P h keys bs hi out) : bs.length = keys.length := by
  cases trailing with
  | nil => rfl
  | more forest => exact forest.length

theorem Forest.first (forest : Forest P lo keys bs hi out) :
    ∃ b rest u here more, bs = b :: rest ∧ out = here ++ more ∧ P b lo u here := by
  cases forest with
  | last part => exact ⟨_, [], hi, out, [], rfl, (append_nil out).symm, part⟩
  | next part _ => exact ⟨_, _, _, _, _, rfl, rfl, part⟩

theorem forest_leading (length : bs₁.length = keys₁.length) : Forest P lo (keys₁ ++ keys) (bs₁ ++ bs) hi out ↔
    ∃ l front rest, out = front ++ rest ∧ Leading P lo keys₁ bs₁ l front ∧ Forest P l keys bs hi rest := by
  induction keys₁ generalizing lo bs₁ out with
  | nil =>
    obtain rfl : bs₁ = [] := length_eq_zero_iff.mp length
    constructor
    · exact fun forest => ⟨lo, [], out, rfl, .nil, forest⟩
    · rintro ⟨_, _, rest, rfl, ⟨⟩, forest⟩
      exact forest
  | cons k keys₁ ih =>
    obtain ⟨b, rest₁, rfl⟩ := exists_cons_of_length_eq_add_one length
    have inner : rest₁.length = keys₁.length := by simpa using length
    rw [cons_append, cons_append]
    constructor
    · rintro (_ | ⟨part, later⟩)
      obtain ⟨l, front, rest, rfl, leading, forest⟩ := (ih inner).mp later
      exact ⟨l, _, rest, (append_assoc ..).symm, .next part leading, forest⟩
    · rintro ⟨l, _, rest, rfl, _ | ⟨part, leading⟩, forest⟩
      rw [append_assoc]
      exact .next part ((ih inner).mpr ⟨l, _, rest, rfl, leading, forest⟩)

theorem forest_trailing (length : bs.length = keys.length + 1) (length₂ : bs₂.length = keys₂.length) :
    Forest P lo (keys ++ keys₂) (bs ++ bs₂) hi out ↔
      ∃ h here back, out = here ++ back ∧ Forest P lo keys bs h here ∧ Trailing P h keys₂ bs₂ hi back := by
  induction keys generalizing lo bs out with
  | nil =>
    obtain ⟨b, rfl⟩ := length_eq_one_iff.mp length
    rw [nil_append, singleton_append]
    cases keys₂ with
    | nil =>
      obtain rfl : bs₂ = [] := length_eq_zero_iff.mp length₂
      constructor
      · exact fun forest => ⟨hi, out, [], (append_nil _).symm, forest, .nil⟩
      · rintro ⟨_, here, _, rfl, forest, ⟨⟩⟩
        rwa [append_nil]
    | cons k keys₂ =>
      constructor
      · rintro (_ | ⟨part, later⟩)
        exact ⟨some k, _, _, rfl, .last part, .more later⟩
      · rintro ⟨_, here, back, rfl, ⟨part⟩, _ | later⟩
        exact .next part later
  | cons k keys ih =>
    obtain ⟨b, rest, rfl⟩ := exists_cons_of_length_eq_add_one length
    have inner : rest.length = keys.length + 1 := by simpa using length
    rw [cons_append, cons_append]
    constructor
    · rintro (_ | ⟨part, later⟩)
      obtain ⟨h, here, back, rfl, forest, trailing⟩ := (ih inner).mp later
      exact ⟨h, _, back, (append_assoc ..).symm, .next part forest, trailing⟩
    · rintro ⟨h, _, back, rfl, _ | ⟨part, forest⟩, trailing⟩
      rw [append_assoc]
      exact .next part ((ih inner).mpr ⟨h, _, back, rfl, forest, trailing⟩)

theorem forest_splice (length₁ : bs₁.length = keys₁.length) (length : bs.length = keys.length + 1)
    (length₂ : bs₂.length = keys₂.length) : Forest P lo (keys₁ ++ (keys ++ keys₂)) (bs₁ ++ (bs ++ bs₂)) hi out ↔
      ∃ l h front here back, out = front ++ (here ++ back) ∧ Leading P lo keys₁ bs₁ l front ∧
        Forest P l keys bs h here ∧ Trailing P h keys₂ bs₂ hi back := by
  rw [forest_leading length₁]
  constructor
  · rintro ⟨l, front, _, rfl, leading, forest⟩
    obtain ⟨h, here, back, rfl, forest, trailing⟩ := (forest_trailing length length₂).mp forest
    exact ⟨l, h, front, here, back, rfl, leading, forest, trailing⟩
  · rintro ⟨l, h, front, here, back, rfl, leading, forest, trailing⟩
    exact ⟨l, front, here ++ back, rfl, leading,
      (forest_trailing length length₂).mpr ⟨h, here, back, rfl, forest, trailing⟩⟩

theorem Forest.halve (forest : Forest P lo keys bs hi out) {mid : ℕ} (here : keys[mid]? = some key) :
    ∃ left right, out = left ++ right ∧ Forest P lo (keys.take mid) (bs.take (mid + 1)) (some key) left ∧
      Forest P (some key) (keys.drop (mid + 1)) (bs.drop (mid + 1)) hi right := by
  obtain ⟨inside, isKey⟩ := List.getElem?_eq_some_iff.mp here
  have length := forest.length
  have whole : keys = keys.take mid ++ key :: keys.drop (mid + 1) := by
    rw [← isKey, getElem_cons_drop, take_append_drop]
  have cut : Forest P lo (keys.take mid ++ key :: keys.drop (mid + 1))
    (bs.take (mid + 1) ++ bs.drop (mid + 1)) hi out := by
    rw [← whole, take_append_drop]
    exact forest
  obtain ⟨h, left, right, same, first, _ | rest⟩ := (forest_trailing
    (by rw [length_take, length_take]; omega)
    (by rw [length_drop, length_cons, length_drop]; omega)).mp cut
  exact ⟨left, right, same, first, rest⟩

theorem Forest.mono (forest : Forest P lo keys bs hi out)
    (imp : ∀ b l h o, o ⊆ out → P b l h o → P' b l h o) : Forest P' lo keys bs hi out := by
  induction forest with
  | last part => exact .last (imp _ _ _ _ (fun _ here => here) part)
  | next part _ ih =>
    refine .next (imp _ _ _ _ (subset_append_left _ _) part) (ih fun b l h o sub => imp b l h o ?_)
    exact List.Subset.trans sub (subset_append_right _ _)

theorem Leading.mono (leading : Leading P lo keys bs l out)
    (imp : ∀ b l h o, o ⊆ out → P b l h o → P' b l h o) : Leading P' lo keys bs l out := by
  induction leading with
  | nil => exact .nil
  | next part _ ih =>
    refine .next (imp _ _ _ _ (subset_append_left _ _) part) (ih fun b l h o sub => imp b l h o ?_)
    exact List.Subset.trans sub (subset_append_right _ _)

theorem Trailing.mono (trailing : Trailing P h keys bs hi out)
    (imp : ∀ b l h o, o ⊆ out → P b l h o → P' b l h o) : Trailing P' h keys bs hi out := by
  cases trailing with
  | nil => exact .nil
  | more forest => exact .more (forest.mono imp)

theorem Forest.mem (forest : Forest P lo keys bs hi out) (here : x ∈ out) :
    ∃ b l h o, P b l h o ∧ x ∈ o ∧ (l = lo ∨ ∃ k ∈ keys, l = some k) ∧ (h = hi ∨ ∃ k ∈ keys, h = some k) := by
  induction forest with
  | last part => exact ⟨_, _, _, _, part, here, .inl rfl, .inl rfl⟩
  | @next lo hi k keys b rest first more part later ih =>
    rcases mem_append.mp here with early | late
    · exact ⟨b, lo, some k, first, part, early, .inl rfl, .inr ⟨k, by simp, rfl⟩⟩
    · obtain ⟨b', l, h, o, part, inside, low, high⟩ := ih late
      refine ⟨b', l, h, o, part, inside, .inr ?_, high.imp id fun ⟨k', among, same⟩ => ⟨k', by simp [among], same⟩⟩
      exact low.elim (fun same => ⟨k, by simp, same⟩) fun ⟨k', among, same⟩ => ⟨k', by simp [among], same⟩

theorem Leading.mem (leading : Leading P lo keys bs l out) (here : x ∈ out) :
    ∃ b l' h o, P b l' h o ∧ x ∈ o ∧ ∃ k ∈ keys, h = some k := by
  induction leading with
  | nil => cases here
  | next part _ ih =>
    rcases mem_append.mp here with early | late
    · exact ⟨_, _, _, _, part, early, _, mem_cons_self, rfl⟩
    · obtain ⟨b', l', h, o, part, inside, k', among, same⟩ := ih late
      exact ⟨b', l', h, o, part, inside, k', mem_cons_of_mem _ among, same⟩

theorem Trailing.mem (trailing : Trailing P h keys bs hi out) (here : x ∈ out) :
    ∃ b l h' o, P b l h' o ∧ x ∈ o ∧ ∃ k ∈ keys, l = some k := by
  cases trailing with
  | nil => cases here
  | @more k keys bs hi out forest =>
    obtain ⟨b, l, h', o, part, inside, low, -⟩ := forest.mem here
    refine ⟨b, l, h', o, part, inside, ?_⟩
    exact low.elim (fun same => ⟨k, by simp, same⟩) fun ⟨k', among, same⟩ => ⟨k', by simp [among], same⟩

variable [LinearOrder K] {V : Type} {f : γ → List (K × V)} {e : K × V}

theorem Leading.above (leading : Leading P lo keys bs l out) (above : Above lo key)
    (low : ∀ k ∈ keys, k ≤ key) : Above l key := by
  induction leading with
  | nil => exact above
  | @next lo l k keys b rest first more part later ih =>
    obtain ⟨here, others⟩ := forall_mem_cons.mp low
    exact ih ((above_some k key).mpr here) others

theorem Trailing.below (trailing : Trailing P h keys bs hi out) (below : Below hi key)
    (high : ∀ k ∈ keys, key < k) : Below h key := by
  cases trailing with
  | nil => exact below
  | more => exact (below_some _ _).mpr (high _ mem_cons_self)

theorem Forest.sorted (forest : Forest P lo keys bs hi out) (apart : ∀ b l h o, P b l h o → Apart l h) :
    Apart lo hi ∧ keys.Pairwise (· < ·) ∧ ∀ k ∈ keys, Apart lo (some k) ∧ Below hi k := by
  induction forest with
  | last part => exact ⟨apart _ _ _ _ part, Pairwise.nil, by simp⟩
  | @next lo hi k keys b rest _ more part later ih =>
    obtain ⟨whole, sorted, bounded⟩ := ih
    have first := apart b lo (some k) _ part
    have below : Below hi k := (apart_some k hi).mp whole
    have climb {k' : K} (less : k < k') : Apart lo (some k') := fun l isLo =>
      (below_some _ _).mpr (((below_some _ _).mp (first l isLo)).trans less)
    have later' (k' : K) (among : k' ∈ keys) : k < k' := by simpa using (bounded k' among).1
    refine ⟨fun l isLo => below.mono ((below_some _ _).mp (first l isLo)).le,
      pairwise_cons.mpr ⟨later', sorted⟩, forall_mem_cons.mpr ⟨⟨first, below⟩, fun k' among => ?_⟩⟩
    exact ⟨climb (later' k' among), (bounded k' among).2⟩

def Within (P : β → Option K → Option K → List γ → Prop) (f : γ → List (K × V)) : Prop :=
  ∀ b l h o, P b l h o → Apart l h ∧ ∀ x ∈ o, ∀ e ∈ f x, Above l e.1 ∧ Below h e.1

theorem Forest.within (forest : Forest P lo keys bs hi out) (within : Within P f) (here : x ∈ out)
    (among : e ∈ f x) : Above lo e.1 ∧ Below hi e.1 := by
  obtain ⟨-, -, bounded⟩ := forest.sorted fun b l h o part => (within b l h o part).1
  obtain ⟨b, l, h, o, part, inside, low, high⟩ := forest.mem here
  obtain ⟨above, below⟩ := (within b l h o part).2 x inside e among
  constructor
  · rcases low with rfl | ⟨k, isKey, rfl⟩
    · exact above
    · exact fun l isLo => (((below_some _ _).mp ((bounded k isKey).1 l isLo)).le).trans ((above_some _ _).mp above)
  · rcases high with rfl | ⟨k, isKey, rfl⟩
    · exact below
    · exact (bounded k isKey).2.mono ((below_some _ _).mp below).le

theorem Leading.before (leading : Leading P lo keys bs l out) (within : Within P f)
    (low : ∀ k ∈ keys, k ≤ key) (here : x ∈ out) (among : e ∈ f x) : e.1 < key := by
  obtain ⟨b, l', h, o, part, inside, k, isKey, rfl⟩ := leading.mem here
  exact ((below_some _ _).mp ((within b l' _ o part).2 x inside e among).2).trans_le (low k isKey)

theorem Trailing.behind (trailing : Trailing P h keys bs hi out) (within : Within P f)
    (high : ∀ k ∈ keys, key < k) (here : x ∈ out) (among : e ∈ f x) : key < e.1 := by
  obtain ⟨b, l, h', o, part, inside, k, isKey, rfl⟩ := trailing.mem here
  exact (high k isKey).trans_le ((above_some _ _).mp ((within b _ h' o part).2 x inside e among).1)

theorem Forest.keyed (forest : Forest P lo keys bs hi out) (within : Within P f)
    (each : ∀ b l h o, P b l h o → (o.flatMap f).Pairwise fun a b => a.1 ≤ b.1) :
    (out.flatMap f).Pairwise fun a b => a.1 ≤ b.1 := by
  induction forest with
  | last part => exact each _ _ _ _ part
  | next part later ih =>
    rw [flatMap_append, pairwise_append]
    refine ⟨each _ _ _ _ part, ih, fun e early e' late => ?_⟩
    obtain ⟨x, inside, among⟩ := mem_flatMap.mp early
    obtain ⟨x', inside', among'⟩ := mem_flatMap.mp late
    have below := ((within _ _ _ _ part).2 x inside e among).2
    have above := (later.within within inside' among').1
    exact ((below_some _ _).mp below).le.trans ((above_some _ _).mp above)

/-- A forest cut around the part between the keys that are not greater and those that are. -/
inductive Focus (P : β → Option K → Option K → List γ → Prop) (lo hi : Option K) (key : K) :
    List K → List β → List γ → Prop where
  | mk (keys₁ keys₂ : List K) (bs₁ bs₂ : List β) (b : β) (l u : Option K) (front here back : List γ)
    (low : ∀ k ∈ keys₁, k ≤ key) (high : ∀ k ∈ keys₂, key < k) (leading : Leading P lo keys₁ bs₁ l front)
    (part : P b l u here) (trailing : Trailing P u keys₂ bs₂ hi back) :
    Focus P lo hi key (keys₁ ++ keys₂) (bs₁ ++ b :: bs₂) (front ++ (here ++ back))

theorem Forest.focus (forest : Forest P lo keys bs hi out) (sorted : keys.Pairwise (· < ·)) (key : K) :
    Focus P lo hi key keys bs out := by
  obtain ⟨keys₁, keys₂, same, low, high⟩ : ∃ keys₁ keys₂, keys = keys₁ ++ keys₂ ∧ (∀ k ∈ keys₁, k ≤ key) ∧
      ∀ k ∈ keys₂, key < k := by
    refine ⟨keys.filter fun k => decide (k ≤ key), keys.filter fun k => decide (key < k), ?_, ?_, ?_⟩
    · clear forest
      induction keys with
      | nil => rfl
      | cons k keys ih =>
        obtain ⟨before, sorted⟩ := pairwise_cons.mp sorted
        by_cases le : k ≤ key
        · rw [filter_cons_of_pos (by simpa using le), filter_cons_of_neg (by simpa using le)]
          exact congrArg (k :: ·) (ih sorted)
        · have above : ∀ k' ∈ keys, key < k' := fun k' among => (not_le.mp le).trans (before k' among)
          have none : keys.filter (fun k => decide (k ≤ key)) = [] :=
            filter_eq_nil_iff.mpr fun k' among => by simpa using above k' among
          have all : keys.filter (fun k => decide (key < k)) = keys :=
            filter_eq_self.mpr fun k' among => decide_eq_true (above k' among)
          rw [filter_cons_of_neg (by simpa using le), filter_cons_of_pos (by simpa using le), none, all]
          rfl
    · exact fun k among => of_decide_eq_true (mem_filter.mp among).2
    · exact fun k among => of_decide_eq_true (mem_filter.mp among).2
  subst same
  have length := forest.length
  rw [length_append] at length
  have inside : keys₁.length < bs.length := by omega
  obtain ⟨b, whole⟩ : ∃ b, bs = bs.take keys₁.length ++ ([b] ++ bs.drop (keys₁.length + 1)) :=
    ⟨bs[keys₁.length], by rw [singleton_append, getElem_cons_drop, take_append_drop]⟩
  rw [whole] at forest ⊢
  have cut : Forest P lo (keys₁ ++ ([] ++ keys₂))
    (bs.take keys₁.length ++ ([b] ++ bs.drop (keys₁.length + 1))) hi out :=
    forest
  obtain ⟨l, u, front, here, back, rfl, leading, ⟨part⟩, trailing⟩ := (forest_splice (by simp; omega) rfl
    (by rw [length_drop]; omega)).mp cut
  exact .mk keys₁ keys₂ _ _ b l u front here back low high leading part trailing

end Tinydb.Lib
