import Mathlib.Data.List.Perm.Basic
import Tinydb.Lib.Program

/-! Stable sorting with a comparison that may fail. -/

namespace Tinydb.Lib

open List

variable {ε α : Type} {x : α} {items sorted : List α} {less : α → α → Except ε Bool} {among : α → Prop}
  {before later : α → α → Prop} {β : Type} {out : List β} {f : α → Except ε β} {R : α → β → Prop}
  {less' : β → β → Except ε Bool} {images : List β}

def insertBy (less : α → α → Except ε Bool) (x : α) : List α → Except ε (List α)
  | [] => .ok [x]
  | y :: rest => do
    if ← less x y then return x :: y :: rest else return y :: (← insertBy less x rest)

def sortBy (less : α → α → Except ε Bool) (items : List α) : Except ε (List α) :=
  items.foldlM (fun sorted x => insertBy less x sorted) []

theorem perm_of_insertBy
    (inserted : insertBy less x items = .ok sorted) : sorted.Perm (x :: items) := by
  induction items generalizing sorted with
  | nil =>
    cases inserted
    exact .refl _
  | cons y rest ih =>
    obtain ⟨smaller, -, chosen⟩ := bind_ok_iff.mp inserted
    cases smaller with
    | true =>
      cases chosen
      exact .refl _
    | false =>
      obtain ⟨later, placed, rfl⟩ := bind_return_iff.mp chosen
      exact ((ih placed).cons y).trans (.swap x y rest)

theorem perm_of_sortBy (done : sortBy less items = .ok sorted) : sorted.Perm items := by
  have run (items : List α) : ∀ {before sorted : List α},
      items.foldlM (fun sorted x => insertBy less x sorted) before = .ok sorted → sorted.Perm (items ++ before) := by
    induction items with
    | nil =>
      intro before sorted done
      cases done
      exact .refl _
    | cons x rest ih =>
      intro before sorted done
      rw [foldlM_cons] at done
      obtain ⟨next, inserted, later⟩ := bind_ok_iff.mp done
      exact (ih later).trans (((perm_of_insertBy inserted).append_left rest).trans perm_middle)
  simpa using run items done

/-- A strict order of some elements in which those that are not ordered are in one place. -/
structure Weak (among : α → Prop) (before : α → α → Prop) : Prop where
  asymm : ∀ a b, among a → among b → before a b → ¬ before b a
  splits : ∀ a b c, among a → among b → among c → before a c → before a b ∨ before b c

def Decides (less : α → α → Except ε Bool) (among : α → Prop) (before : α → α → Prop) : Prop :=
  ∀ a b, among a → among b → ∃ answer, less a b = .ok answer ∧ (answer = true ↔ before a b)

abbrev Arranged (before : α → α → Prop) (items : List α) : Prop := items.Pairwise fun a b => ¬ before b a

theorem insertBy_arranged (weak : Weak among before) (decides : Decides less among before)
    (here : among x) (each : ∀ y ∈ items, among y) (arranged : Arranged before items) :
    ∃ sorted, insertBy less x items = .ok sorted ∧ Arranged before sorted ∧
      ∀ same : α → Bool, (∀ y ∈ items, same x = true → same y = true → ¬ before x y) →
        sorted.filter same = items.filter same ++ [x].filter same := by
  induction items with
  | nil => exact ⟨[x], rfl, pairwise_singleton _ _, fun _ _ => rfl⟩
  | cons y rest ih =>
    obtain ⟨member, others⟩ := forall_mem_cons.mp each
    obtain ⟨first, later⟩ := pairwise_cons.mp arranged
    obtain ⟨answer, compared, smaller⟩ := decides x y here member
    have step : insertBy less x (y :: rest) =
        if answer then .ok (x :: y :: rest) else insertBy less x rest >>= fun sorted => .ok (y :: sorted) := by
      rw [insertBy, compared]
      rfl
    cases answer with
    | true =>
      have isBefore : before x y := smaller.mp rfl
      -- what is not before `y` cannot be before `x`
      have behind : ∀ z ∈ y :: rest, among z → before x z := by
        intro z among' zAmong
        rcases mem_cons.mp among' with rfl | later'
        · exact isBefore
        · exact (weak.splits x z y here zAmong member isBefore).resolve_right (first z later')
      refine ⟨x :: y :: rest, step, ?_, fun same apart => ?_⟩
      · refine pairwise_cons.mpr ⟨fun z among' => ?_, arranged⟩
        exact weak.asymm x z here (each z among') (behind z among' (each z among'))
      · by_cases chosen : same x = true
        · have none : (y :: rest).filter same = [] := by
            refine filter_eq_nil_iff.mpr fun z among' isSame => ?_
            exact apart z among' chosen isSame (behind z among' (each z among'))
          rw [filter_cons, if_pos chosen, none]
          simp [chosen]
        · rw [filter_cons, if_neg chosen]
          simp [chosen]
    | false =>
      have notBefore : ¬ before x y := fun isBefore => Bool.false_ne_true (smaller.mpr isBefore)
      obtain ⟨sorted, inserted, ordered, stable⟩ := ih others later
      refine ⟨y :: sorted, by rw [step, inserted]; rfl, ?_, fun same apart => ?_⟩
      · refine pairwise_cons.mpr ⟨fun z among' => ?_, ordered⟩
        rcases mem_cons.mp ((perm_of_insertBy inserted).subset among') with rfl | old
        · exact notBefore
        · exact first z old
      · have rest' := stable same fun z among' => apart z (mem_cons_of_mem _ among')
        by_cases chosen : same y = true
        · rw [filter_cons_of_pos chosen, filter_cons_of_pos chosen, rest', cons_append]
        · rw [filter_cons_of_neg chosen, filter_cons_of_neg chosen, rest']

theorem sortBy_arranged (weak : Weak (· ∈ items) before) (decides : Decides less (· ∈ items) before) :
    ∃ sorted, sortBy less items = .ok sorted ∧ Arranged before sorted ∧
      ∀ same : α → Bool, (∀ a ∈ items, ∀ b ∈ items, same a = true → same b = true → ¬ before a b) →
        sorted.filter same = items.filter same := by
  have run (rest : List α) : ∀ sofar : List α, (∀ a ∈ rest ++ sofar, a ∈ items) → Arranged before sofar →
      ∃ sorted, rest.foldlM (fun sorted x => insertBy less x sorted) sofar = .ok sorted ∧ Arranged before sorted ∧
        ∀ same : α → Bool, (∀ a ∈ items, ∀ b ∈ items, same a = true → same b = true → ¬ before a b) →
          sorted.filter same = sofar.filter same ++ rest.filter same := by
    induction rest with
    | nil => exact fun sofar _ arranged => ⟨sofar, rfl, arranged, by simp⟩
    | cons x rest ih =>
      intro sofar each arranged
      have here : x ∈ items := each x (by simp)
      obtain ⟨next, inserted, ordered, kept⟩ :=
        insertBy_arranged weak decides here (fun y member => each y (by simp [member])) arranged
      have nextEach : ∀ a ∈ rest ++ next, a ∈ items := by
        intro a member
        rcases mem_append.mp member with old | new
        · exact each a (by simp [old])
        · rcases mem_cons.mp ((perm_of_insertBy inserted).subset new) with rfl | old
          · exact here
          · exact each a (by simp [old])
      obtain ⟨sorted, done, final, stable⟩ := ih next nextEach ordered
      refine ⟨sorted, by rw [foldlM_cons, inserted]; exact done, final, fun same apart => ?_⟩
      rw [stable same apart, kept same fun y member => apart x here y (each y (by simp [member])), append_assoc,
        ← filter_append, singleton_append]
  obtain ⟨sorted, done, arranged, stable⟩ := run items [] (by simp) Pairwise.nil
  exact ⟨sorted, done, arranged, fun same apart => by simpa using stable same apart⟩

theorem Weak.flip (weak : Weak among before) : Weak among fun a b => before b a :=
  ⟨fun a b here there => weak.asymm b a there here, fun a b c ha hb hc less => (weak.splits c b a hc hb ha less).symm⟩

theorem Weak.comap {chosen : β → Prop} {f : β → α} (weak : Weak among before) (maps : ∀ b, chosen b → among (f b)) :
    Weak chosen fun a b => before (f a) (f b) :=
  ⟨fun a b here there => weak.asymm _ _ (maps a here) (maps b there),
    fun a b c ha hb hc => weak.splits _ _ _ (maps a ha) (maps b hb) (maps c hc)⟩

theorem Weak.congr (weak : Weak among before) (same : ∀ a b, among a → among b → (before a b ↔ later a b)) :
    Weak among later := by
  refine ⟨fun a b here there => ?_, fun a b c ha hb hc => ?_⟩
  · rw [← same a b here there, ← same b a there here]
    exact weak.asymm a b here there
  · rw [← same a c ha hc, ← same a b ha hb, ← same b c hb hc]
    exact weak.splits a b c ha hb hc

theorem Weak.lex (first : Weak among before) (second : Weak among later) :
    Weak among fun a b => before a b ∨ (¬ before a b ∧ ¬ before b a) ∧ later a b := by
  constructor
  · rintro a b aHere bHere (isBefore | ⟨⟨notBefore, notBehind⟩, isLater⟩) (isBehind | ⟨_, isEarlier⟩)
    · exact first.asymm a b aHere bHere isBefore isBehind
    · rename_i apart
      exact apart.2 isBefore
    · exact notBehind isBehind
    · exact second.asymm a b aHere bHere isLater isEarlier
  · rintro a b c aHere bHere cHere (isBefore | ⟨⟨notBefore, notBehind⟩, isLater⟩)
    · rcases first.splits a b c aHere bHere cHere isBefore with left | right
      · exact .inl (.inl left)
      · exact .inr (.inl right)
    · by_cases ab : before a b
      · exact .inl (.inl ab)
      by_cases bc : before b c
      · exact .inr (.inl bc)
      have ba : ¬ before b a := fun ba => (first.splits b c a bHere cHere aHere ba).elim bc notBehind
      have cb : ¬ before c b := fun cb => (first.splits c a b cHere aHere bHere cb).elim notBehind ab
      rcases second.splits a b c aHere bHere cHere isLater with left | right
      · exact .inl (.inr ⟨⟨ab, ba⟩, left⟩)
      · exact .inr (.inr ⟨⟨bc, cb⟩, right⟩)

theorem forall₂_of_mapM (mapped : items.mapM f = .ok out) :
    Forall₂ (fun a b => f a = .ok b) items out := by
  induction items generalizing out with
  | nil =>
    cases mapped
    exact .nil
  | cons a rest ih =>
    rw [mapM_cons] at mapped
    obtain ⟨b, first, others⟩ := bind_ok_iff.mp mapped
    obtain ⟨bs, later, rfl⟩ := bind_return_iff.mp others
    exact .cons first (ih later)

theorem mapM_of_forall₂
    (each : Forall₂ (fun a b => f a = .ok b) items out) : items.mapM f = .ok out := by
  induction each with
  | nil => rfl
  | cons first _ ih =>
    rw [mapM_cons, first, ih]
    rfl

theorem map_of_mapM {g : β → α} (back : ∀ a b, f a = .ok b → g b = a)
    (mapped : items.mapM f = .ok out) : out.map g = items := by
  have each := forall₂_of_mapM mapped
  clear mapped
  induction each with
  | nil => rfl
  | cons first _ ih => rw [map_cons, ih, back _ _ first]

theorem exists_perm_forall₂ {images sorted : List β}
    (related : Forall₂ R items images) (perm : images.Perm sorted) :
    ∃ items', items'.Perm items ∧ Forall₂ R items' sorted := by
  have both : Relation.Comp (Forall₂ R) Perm items sorted := ⟨images, related, perm⟩
  rw [forall₂_comp_perm_eq_perm_comp_forall₂] at both
  obtain ⟨items', same, related'⟩ := both
  exact ⟨items', same.symm, related'⟩

theorem insertBy_related (alike : ∀ a a' b b', R a a' → R b b' → less' a' b' = less a b) {y : β} (here : R x y)
    (related : Forall₂ R items images) (inserted : insertBy less x items = .ok sorted) :
    ∃ sorted', insertBy less' y images = .ok sorted' ∧ Forall₂ R sorted sorted' := by
  induction related generalizing sorted with
  | nil =>
    cases inserted
    exact ⟨[y], rfl, .cons here .nil⟩
  | @cons a b items images first later ih =>
    obtain ⟨smaller, compared, chosen⟩ := bind_ok_iff.mp inserted
    rw [insertBy, alike x y a b here first, compared, ok_bind]
    cases smaller with
    | true =>
      cases chosen
      exact ⟨y :: b :: images, rfl, .cons here (.cons first later)⟩
    | false =>
      obtain ⟨rest, placed, rfl⟩ := bind_return_iff.mp chosen
      obtain ⟨rest', placed', related'⟩ := ih placed
      refine ⟨b :: rest', ?_, .cons first related'⟩
      rw [if_neg Bool.false_ne_true, placed']
      rfl

theorem sortBy_related (alike : ∀ a a' b b', R a a' → R b b' → less' a' b' = less a b)
    (related : Forall₂ R items images) (done : sortBy less items = .ok sorted) :
    ∃ sorted', sortBy less' images = .ok sorted' ∧ Forall₂ R sorted sorted' := by
  have run : ∀ {before : List α} {before' : List β}, Forall₂ R before before' →
      items.foldlM (fun sorted x => insertBy less x sorted) before = .ok sorted →
      ∃ sorted', images.foldlM (fun sorted x => insertBy less' x sorted) before' = .ok sorted' ∧
      Forall₂ R sorted sorted' := by
    clear done
    induction related with
    | nil =>
      intro before before' sofar done
      cases done
      exact ⟨before', rfl, sofar⟩
    | cons first _ ih =>
      intro before before' sofar done
      rw [foldlM_cons] at done ⊢
      obtain ⟨next, inserted, later⟩ := bind_ok_iff.mp done
      obtain ⟨next', inserted', sofar'⟩ := insertBy_related alike first sofar inserted
      rw [inserted', ok_bind]
      exact ih sofar' later
  exact run .nil done

theorem insertBy_of_never (never : ∀ a b, less a b = .ok false) (x : α) (items : List α) :
    insertBy less x items = .ok (items ++ [x]) := by
  induction items with
  | nil => rfl
  | cons y rest ih =>
    rw [insertBy, never, ok_bind, if_neg Bool.false_ne_true, ih]
    rfl

theorem sortBy_of_never (never : ∀ a b, less a b = .ok false) (items : List α) :
    sortBy less items = .ok items := by
  have run : ∀ before : List α, items.foldlM (fun sorted x => insertBy less x sorted) before =
    .ok (before ++ items) := by
    induction items with
    | nil => intro before; rw [append_nil]; rfl
    | cons x rest ih =>
      intro before
      rw [foldlM_cons, insertBy_of_never never, ok_bind, ih, append_assoc, singleton_append]
  exact run []

end Tinydb.Lib
