import Mathlib.Data.String.Basic
import Mathlib.Tactic.FinCases
import Tinydb.Executor.Projection

/-! ORDER BY is a stable sort.

The keys of a row are encoded so that the order of tuples is the order of the clause: a code
tells NULL from the other values, and in descending order numbers are negated, truth values inverted
and other values wrapped so that their comparison is turned round.
-/

namespace Tinydb.Executor

open Lib Tinydb.Types Sql List

variable {X : Type} [Runtime X] {values : Value X → Prop}

/-- `a < b`. -/
def Lt (a b : Value X) : Prop := a.order .lt b = .ok true

/-- A value stands before another: NULL is last in ascending and first in descending order. -/
def Precedes (descending : Bool) (a b : Value X) : Prop :=
  match a.isNone, b.isNone with
  | true, true => False
  | true, false => descending = true
  | false, true => descending = false
  | false, false => if descending then Lt b a else Lt a b

def ties (a b : Value X) : Bool :=
  match a.isNone, b.isNone with
  | true, true => true
  | false, false => a.eq b
  | _, _ => false

def keyValue (index : NameIdx) (column : String) (row : Row X) : Value X :=
  ((index column).bind (row[·]?)).getD .none

/-- A row stands before another: the first key on which they are not equal decides. -/
def RowPrecedes (index : NameIdx) : List OrderBy → Row X → Row X → Prop
  | [], _, _ => False
  | key :: keys, a, b =>
    Precedes key.descending (keyValue index key.column a) (keyValue index key.column b) ∨
      ties (keyValue index key.column a) (keyValue index key.column b) = true ∧ RowPrecedes index keys a b

def tied (index : NameIdx) (keys : List OrderBy) (a b : Row X) : Bool :=
  keys.all fun key => ties (keyValue index key.column a) (keyValue index key.column b)

/-- `<` answers on some values, and those that it does not order are equal. -/
structure Ordered (values : Value X → Prop) : Prop where
  answers : ∀ a b, values a → values b → ∃ answer, a.order .lt b = .ok answer
  weak : Weak values Lt
  eq : ∀ a b, values a → values b → (a.eq b = true ↔ ¬ Lt a b ∧ ¬ Lt b a)

/-- The encoding for descending order turns `<` round and keeps `==`. -/
def TurnsRound (values : Value X → Prop) : Prop :=
  ∀ a b, values a → values b → ∃ a' b', neg a = .ok a' ∧ neg b = .ok b' ∧ a'.less b' = b.order .lt a ∧ a'.eq b' = a.eq b

/-- Values of one totally ordered type. What the runtime knows about the order of its own objects is assumed, and for
floats that the minus sign turns it round. -/
inductive OneType (values : Value X → Prop) : Prop where
  | bools (all : ∀ a, values a → ∃ b, a = .bool b)
  | ints (all : ∀ a, values a → ∃ i, a = .int i)
  | strs (all : ∀ a, values a → ∃ s, a = .str s)
  | bytes (all : ∀ a, values a → ∃ bs, a = .bytes bs)
  | floats (all : ∀ a, values a → ∃ x, a = .foreign x ∧ Runtime.kind x = .float) (ordered : Ordered values)
      (turns : TurnsRound values)
  | objects (all : ∀ a, values a → ∃ x, a = .foreign x ∧ Runtime.kind x ≠ .float) (ordered : Ordered values)

theorem ordered_of_rank {L : Type} [LinearOrder L] (rank : Value X → L)
    (less : ∀ a b, values a → values b → a.order .lt b = .ok (decide (rank a < rank b)))
    (eq : ∀ a b, values a → values b → (a.eq b = true ↔ rank a = rank b)) : Ordered values := by
  have lt {a b : Value X} (here : values a) (there : values b) : Lt a b ↔ rank a < rank b := by
    rw [Lt, less a b here there]
    simp
  refine ⟨fun a b here there => ⟨_, less a b here there⟩, ⟨fun a b here there => ?_, fun a b c ha hb hc => ?_⟩,
    fun a b here there => ?_⟩
  · rw [lt here there, lt there here]
    exact lt_asymm
  · rw [lt ha hc, lt ha hb, lt hb hc]
    exact fun less => (lt_or_ge (rank a) (rank b)).imp_right fun le => le.trans_lt less
  · rw [eq a b here there, lt here there, lt there here, not_lt, not_lt]
    exact ⟨fun same => ⟨same.ge, same.le⟩, fun both => le_antisymm both.2 both.1⟩

def textOf : Value X → String
  | .str s => s
  | _ => ""

theorem OneType.ordered (one : OneType values) : Ordered values := by
  cases one with
  | bools all | ints all =>
    refine ordered_of_rank (fun a => a.number?.getD 0) (fun a b here there => ?_) fun a b here there => ?_
    · obtain ⟨a, rfl⟩ := all a here
      obtain ⟨b, rfl⟩ := all b there
      rfl
    · obtain ⟨a, rfl⟩ := all a here
      obtain ⟨b, rfl⟩ := all b there
      simp [Value.eq, Value.isForeign, Value.number?]
  | strs all =>
    refine ordered_of_rank textOf (fun a b here there => ?_) fun a b here there => ?_
    · obtain ⟨a, rfl⟩ := all a here
      obtain ⟨b, rfl⟩ := all b there
      simp [Value.order, Order.decideBy, textOf]
    · obtain ⟨a, rfl⟩ := all a here
      obtain ⟨b, rfl⟩ := all b there
      simp [Value.eq, textOf]
  | bytes all =>
    have lt (a b : Bytes) : Lt (.bytes a : Value X) (.bytes b) ↔ a < b := by simp [Lt, Value.order, Order.decideBy]
    refine ⟨fun a b here there => ?_, ⟨fun a b here there => ?_, fun a b c ha hb hc => ?_⟩, fun a b here there => ?_⟩
    · obtain ⟨a, rfl⟩ := all a here
      obtain ⟨b, rfl⟩ := all b there
      exact ⟨_, rfl⟩
    · obtain ⟨a, rfl⟩ := all a here
      obtain ⟨b, rfl⟩ := all b there
      rw [lt, lt]
      exact List.lt_asymm
    · obtain ⟨a, rfl⟩ := all a ha
      obtain ⟨b, rfl⟩ := all b hb
      obtain ⟨c, rfl⟩ := all c hc
      rw [lt, lt, lt]
      intro less
      by_cases ab : a < b
      · exact .inl ab
      · exact .inr (List.lt_of_le_of_lt (List.not_lt.mp ab) less)
    · obtain ⟨a, rfl⟩ := all a here
      obtain ⟨b, rfl⟩ := all b there
      rw [lt, lt]
      simp only [Value.eq, decide_eq_true_eq]
      refine ⟨?_, fun both => List.le_antisymm (List.not_lt.mp both.2) (List.not_lt.mp both.1)⟩
      rintro rfl
      exact ⟨List.lt_irrefl a, List.lt_irrefl a⟩
  | floats _ ordered | objects _ ordered => exact ordered

theorem turnsRound_marker (wrapped : ∀ a, values a → neg a = .ok (.marker a)) : TurnsRound values :=
  fun a b here there => ⟨.marker a, .marker b, wrapped a here, wrapped b there, rfl, rfl⟩

theorem OneType.turnsRound (one : OneType values) : TurnsRound values := by
  cases one with
  | bools all =>
    intro a b here there
    obtain ⟨a, rfl⟩ := all a here
    obtain ⟨b, rfl⟩ := all b there
    exact ⟨_, _, rfl, rfl, by cases a <;> cases b <;> rfl, by cases a <;> cases b <;> rfl⟩
  | ints all =>
    intro a b here there
    obtain ⟨a, rfl⟩ := all a here
    obtain ⟨b, rfl⟩ := all b there
    refine ⟨_, _, rfl, rfl, ?_, ?_⟩
    · simp [SortValue.less, Value.order, Value.isForeign, Value.number?, Order.decideBy]
    · simp [SortValue.eq, Value.eq, Value.isForeign, Value.number?]
  | floats _ _ turns => exact turns
  | strs all | bytes all =>
    refine turnsRound_marker fun a here => ?_
    obtain ⟨content, rfl⟩ := all a here
    rfl
  | objects all _ =>
    refine turnsRound_marker fun a here => ?_
    obtain ⟨x, rfl, kind⟩ := all a here
    rw [neg, if_neg kind]

section Part

variable {descending : Bool} {a b : Value X} (some : ∀ a, values a → a ≠ .none) (ordered : Ordered values)

def Nullable (values : Value X → Prop) (a : Value X) : Prop := a = .none ∨ values a

omit [Runtime X] in
theorem isNone_of_ne (some : a ≠ .none) : a.isNone = false := by
  rw [Bool.eq_false_iff]
  exact mt Value.isNone_iff.mp some

theorem precedes_none_none : ¬ Precedes descending (.none : Value X) .none := id

theorem precedes_none_iff (some : b ≠ .none) : Precedes descending .none b ↔ descending = true := by
  rw [Precedes, isNone_of_ne some]
  rfl

theorem precedes_iff_none (some : a ≠ .none) : Precedes descending a .none ↔ descending = false := by
  rw [Precedes, isNone_of_ne some]
  rfl

theorem precedes_iff (aSome : a ≠ .none) (bSome : b ≠ .none) :
    Precedes descending a b ↔ if descending then Lt b a else Lt a b := by
  rw [Precedes, isNone_of_ne aSome, isNone_of_ne bSome]

include some ordered

theorem precedes_asymm (here : Nullable values a) (there : Nullable values b) (before : Precedes descending a b) :
    ¬ Precedes descending b a := by
  rcases here with rfl | here <;> rcases there with rfl | there
  · exact precedes_none_none
  · rw [precedes_none_iff (some b there)] at before
    rw [precedes_iff_none (some b there), before]
    decide
  · rw [precedes_iff_none (some a here)] at before
    rw [precedes_none_iff (some a here), before]
    decide
  · rw [precedes_iff (some a here) (some b there)] at before
    rw [precedes_iff (some b there) (some a here)]
    cases descending with
    | true => exact ordered.weak.asymm b a there here before
    | false => exact ordered.weak.asymm a b here there before

theorem precedes_splits {c : Value X} (ha : Nullable values a) (hb : Nullable values b) (hc : Nullable values c)
    (before : Precedes descending a c) : Precedes descending a b ∨ Precedes descending b c := by
  rcases ha with rfl | ha <;> rcases hb with rfl | hb
  · exact .inr before
  · left
    rcases hc with rfl | hc
    · exact (precedes_none_none before).elim
    · exact (precedes_none_iff (some b hb)).mpr ((precedes_none_iff (some c hc)).mp before)
  · rcases hc with rfl | hc
    · exact .inl before
    · cases descending with
      | true => exact .inr ((precedes_none_iff (some c hc)).mpr rfl)
      | false => exact .inl ((precedes_iff_none (some a ha)).mpr rfl)
  · rcases hc with rfl | hc
    · exact .inr ((precedes_iff_none (some b hb)).mpr ((precedes_iff_none (some a ha)).mp before))
    · rw [precedes_iff (some a ha) (some c hc)] at before
      rw [precedes_iff (some a ha) (some b hb), precedes_iff (some b hb) (some c hc)]
      cases descending with
      | true => exact (ordered.weak.splits c b a hc hb ha before).symm
      | false => exact ordered.weak.splits a b c ha hb hc before

theorem precedes_weak : Weak (Nullable values) (Precedes descending) :=
  ⟨fun _ _ here there => precedes_asymm some ordered here there, fun _ _ _ ha hb hc =>
    precedes_splits some ordered ha hb hc⟩

theorem ties_iff (here : Nullable values a) (there : Nullable values b) :
    ties a b = true ↔ ¬ Precedes descending a b ∧ ¬ Precedes descending b a := by
  rcases here with rfl | here <;> rcases there with rfl | there
  · exact ⟨fun _ => ⟨precedes_none_none, precedes_none_none⟩, fun _ => rfl⟩
  · rw [ties, isNone_of_ne (some b there), precedes_none_iff (some b there), precedes_iff_none (some b there)]
    cases descending <;> simp [Value.isNone]
  · rw [ties, isNone_of_ne (some a here), precedes_none_iff (some a here), precedes_iff_none (some a here)]
    cases descending <;> simp [Value.isNone]
  · rw [ties, isNone_of_ne (some a here), isNone_of_ne (some b there), precedes_iff (some a here) (some b there),
      precedes_iff (some b there) (some a here)]
    have same := ordered.eq a b here there
    cases descending with
    | true => exact same.trans and_comm
    | false => exact same

omit ordered in
theorem sortPart_value (turns : TurnsRound values) (here : values a) :
    ∃ encoded, sortPart descending a = .ok (if descending then 1 else 0, encoded) := by
  rw [sortPart, isNone_of_ne (some a here)]
  cases descending with
  | true =>
    obtain ⟨a', -, turned, -⟩ := turns a a here here
    exact ⟨a', by rw [turned]; rfl⟩
  | false => exact ⟨.plain a, rfl⟩

theorem sortPart_compares (turns : TurnsRound values) (here : Nullable values a) (there : Nullable values b) :
    ∃ p q, sortPart descending a = .ok p ∧ sortPart descending b = .ok q ∧
      ((p.1 = q.1 ∧ p.2.eq q.2 = true) ↔ ties a b = true) ∧
      (ties a b = false → ∃ answer, (if p.1 = q.1 then p.2.less q.2 else .ok (decide (p.1 < q.1))) = .ok answer ∧
        (answer = true ↔ Precedes descending a b)) := by
  have null : sortPart descending (.none : Value X) = .ok (if descending then 0 else 1, .plain (.int 0)) := rfl
  rcases here with rfl | here <;> rcases there with rfl | there
  · exact ⟨_, _, null, null, ⟨fun _ => rfl, fun _ => ⟨rfl, rfl⟩⟩, nofun⟩
  · obtain ⟨encoded, value⟩ : ∃ encoded, sortPart descending b = _ := sortPart_value some turns there
    have apart : ties .none b = false := by rw [ties, isNone_of_ne (some b there)]; rfl
    refine ⟨_, _, null, value, ?_, fun _ => ?_⟩
    · rw [apart]
      cases descending <;> simp
    · rw [precedes_none_iff (some b there)]
      cases descending
      · exact ⟨false, rfl, Iff.rfl⟩
      · exact ⟨true, rfl, Iff.rfl⟩
  · obtain ⟨encoded, value⟩ : ∃ encoded, sortPart descending a = _ := sortPart_value some turns here
    have apart : ties a .none = false := by rw [ties, isNone_of_ne (some a here)]; rfl
    refine ⟨_, _, value, null, ?_, fun _ => ?_⟩
    · rw [apart]
      cases descending <;> simp
    · rw [precedes_iff_none (some a here)]
      cases descending
      · exact ⟨true, rfl, by decide⟩
      · exact ⟨false, rfl, by decide⟩
  · have same : ties a b = a.eq b := by rw [ties, isNone_of_ne (some a here), isNone_of_ne (some b there)]
    rw [precedes_iff (some a here) (some b there), same]
    cases descending with
    | true =>
      obtain ⟨a', b', aTurned, bTurned, less, eq⟩ := turns a b here there
      refine ⟨(1, a'), (1, b'), ?_, ?_, ?_, fun _ => ?_⟩
      · rw [sortPart, isNone_of_ne (some a here), aTurned]
        rfl
      · rw [sortPart, isNone_of_ne (some b there), bTurned]
        rfl
      · simp [eq]
      · obtain ⟨answer, compared⟩ := ordered.answers b a there here
        refine ⟨answer, ?_, ?_⟩
        · rw [if_pos rfl, less, compared]
        · rw [if_pos rfl, Lt, compared, Except.ok.injEq]
    | false =>
      refine ⟨(0, .plain a), (0, .plain b), ?_, ?_, ?_, fun _ => ?_⟩
      · rw [sortPart, isNone_of_ne (some a here)]
        rfl
      · rw [sortPart, isNone_of_ne (some b there)]
        rfl
      · simp [SortValue.eq]
      · obtain ⟨answer, compared⟩ := ordered.answers a b here there
        refine ⟨answer, ?_, ?_⟩
        · rw [if_pos rfl, SortValue.less, compared]
        · rw [if_neg (by decide), Lt, compared, Except.ok.injEq]

end Part

section Keys

variable {index : NameIdx} {keys : List OrderBy} {rows : List (Row X)}

/-- The rows have the column of a key, with values of one type or NULL. -/
structure KeyedBy (index : NameIdx) (rows : List (Row X)) (key : OrderBy) : Prop where
  column : ∃ i, index key.column = some i ∧ ∀ row ∈ rows, i < row.length
  oneType : OneType fun a => a ≠ .none ∧ ∃ row ∈ rows, a = keyValue index key.column row

variable {key : OrderBy} {row a b : Row X} (each : ∀ key ∈ keys, KeyedBy index rows key)

omit [Runtime X] in
theorem nullable_keyValue (member : row ∈ rows) :
    Nullable (fun a => a ≠ .none ∧ ∃ row ∈ rows, a = keyValue index key.column row)
    (keyValue index key.column row) := by
  by_cases null : keyValue index key.column row = .none
  · exact .inl null
  · exact .inr ⟨null, row, member, rfl⟩

theorem KeyedBy.ties_iff (keyed : KeyedBy index rows key) (here : a ∈ rows) (there : b ∈ rows) :
    ties (keyValue index key.column a) (keyValue index key.column b) = true ↔
      ¬ Precedes key.descending (keyValue index key.column a) (keyValue index key.column b) ∧
        ¬ Precedes key.descending (keyValue index key.column b) (keyValue index key.column a) :=
  Executor.ties_iff (fun _ isValue => isValue.1) keyed.oneType.ordered (nullable_keyValue here)
  (nullable_keyValue there)

theorem KeyedBy.sortKey_cons (keyed : KeyedBy index rows key) (member : row ∈ rows)
    {p : ℕ × SortValue X} {ps : List (ℕ × SortValue X)}
    (part : sortPart key.descending (keyValue index key.column row) = .ok p) (rest : sortKey index keys row = .ok ps) :
    sortKey index (key :: keys) row = .ok (p :: ps) := by
  obtain ⟨i, known, wide⟩ := keyed.column
  have value : rowAt row i = .ok (keyValue index key.column row) := by
    simp [rowAt, keyValue, known, getElem?_eq_getElem (wide row member)]
  rw [sortKey] at rest ⊢
  rw [mapM_cons, rest]
  simp only [known, value, ok_bind, part]
  rfl

include each

theorem rowPrecedes_weak : Weak (· ∈ rows) (RowPrecedes index keys) := by
  induction keys with
  | nil => exact ⟨nofun, nofun⟩
  | cons key keys ih =>
    obtain ⟨keyed, others⟩ := forall_mem_cons.mp each
    have first : Weak (· ∈ rows) fun a b : Row X =>
        Precedes key.descending (keyValue index key.column a) (keyValue index key.column b) :=
      (precedes_weak (fun _ isValue => isValue.1) keyed.oneType.ordered).comap fun row member =>
      nullable_keyValue member
    refine (first.lex (ih others)).congr fun a b here there => ?_
    rw [RowPrecedes, keyed.ties_iff here there]

theorem not_rowPrecedes_of_tied (here : a ∈ rows) (there : b ∈ rows) (same : tied index keys a b = true) :
    ¬ RowPrecedes index keys a b ∧ ¬ RowPrecedes index keys b a := by
  induction keys with
  | nil => exact ⟨nofun, nofun⟩
  | cons key keys ih =>
    obtain ⟨keyed, others⟩ := forall_mem_cons.mp each
    rw [tied, all_cons, Bool.and_eq_true] at same
    have apart := (keyed.ties_iff here there).mp same.1
    have later := ih others same.2
    refine ⟨?_, ?_⟩
    · rintro (before | ⟨-, before⟩)
      · exact apart.1 before
      · exact later.1 before
    · rintro (before | ⟨-, before⟩)
      · exact apart.2 before
      · exact later.2 before

theorem sortKey_compares (here : a ∈ rows) (there : b ∈ rows) :
    ∃ p q, sortKey index keys a = .ok p ∧ sortKey index keys b = .ok q ∧
      ∃ answer, keyLess p q = .ok answer ∧ (answer = true ↔ RowPrecedes index keys a b) := by
  induction keys with
  | nil => exact ⟨[], [], rfl, rfl, false, rfl, by simp [RowPrecedes]⟩
  | cons key keys ih =>
    obtain ⟨keyed, others⟩ := forall_mem_cons.mp each
    obtain ⟨ps, qs, aKeys, bKeys, answer, compared, decided⟩ := ih others
    obtain ⟨p, q, aPart, bPart, equal, apart⟩ :=
      sortPart_compares (fun a isValue => isValue.1) keyed.oneType.ordered keyed.oneType.turnsRound
      (nullable_keyValue here)
        (nullable_keyValue there)
    refine ⟨p :: ps, q :: qs, keyed.sortKey_cons here aPart aKeys, keyed.sortKey_cons there bPart bKeys, ?_⟩
    rw [keyLess, RowPrecedes]
    by_cases tie : ties (keyValue index key.column a) (keyValue index key.column b) = true
    · have neither := (keyed.ties_iff here there).mp tie
      refine ⟨answer, by rw [if_pos (equal.mpr tie), compared], decided.trans ⟨fun later => .inr ⟨tie, later⟩, ?_⟩⟩
      rintro (before | ⟨-, later⟩)
      · exact (neither.1 before).elim
      · exact later
    · obtain ⟨answer, compared, decided⟩ := apart (Bool.eq_false_iff.mpr tie)
      refine ⟨answer, by rw [if_neg (mt equal.mp tie), compared], decided.trans ⟨.inl, ?_⟩⟩
      rintro (before | ⟨isTie, -⟩)
      · exact before
      · exact (tie isTie).elim

/-- ORDER BY yields the rows in the order of the keys, and rows that are equal on all keys as they came. -/
theorem order_by_stable (table : String) : ∃ sorted, sortRows index table keys rows = .ok sorted ∧
    sorted.Perm rows ∧ sorted.Pairwise (fun a b => ¬ RowPrecedes index keys b a) ∧
    ∀ row ∈ rows, sorted.filter (tied index keys row) = rows.filter (tied index keys row) := by
  have known : keys.find? (fun key => (index key.column).isNone) = none := by
    refine find?_eq_none.mpr fun key member => ?_
    obtain ⟨i, found, -⟩ := (each key member).column
    simp [found]
  let encode (row : Row X) : List (ℕ × SortValue X) × Row X := ((sortKey index keys row).toOption.getD [], row)
  have encoded (row : Row X) (member : row ∈ rows) : sortKey index keys row = .ok (encode row).1 := by
    obtain ⟨p, -, key, -⟩ := sortKey_compares each member member
    simp [encode, key, Except.toOption]
  have keyed : (rows.mapM fun row => do return (← sortKey index keys row, row)) = .ok (rows.map encode) := by
    refine mapM_eq_ok fun row member => ?_
    rw [encoded row member]
    rfl
  have rowsOf : ∀ p ∈ rows.map encode, p.2 ∈ rows ∧ sortKey index keys p.2 = .ok p.1 := by
    simpa [encode] using fun row member => ⟨member, encoded row member⟩
  have decides : Decides (fun p q => keyLess p.1 q.1) (· ∈ rows.map encode) fun p q =>
    RowPrecedes index keys p.2 q.2 := by
    intro p q here there
    obtain ⟨pRow, pKey⟩ := rowsOf p here
    obtain ⟨qRow, qKey⟩ := rowsOf q there
    obtain ⟨a, b, aKey, bKey, decided⟩ := sortKey_compares each pRow qRow
    cases pKey.symm.trans aKey
    cases qKey.symm.trans bKey
    exact decided
  have weak := (rowPrecedes_weak each).comap fun p member => (rowsOf p member).1
  obtain ⟨sorted, done, arranged, stable⟩ := sortBy_arranged weak decides
  have back : (rows.map encode).map Prod.snd = rows := by
    rw [map_map]
    exact map_id rows
  refine ⟨sorted.map Prod.snd, ?_, ?_, pairwise_map.mpr arranged, fun row member => ?_⟩
  · rw [sortRows, known]
    simp only [keyed, ok_bind, done]
    rfl
  · rw [← back]
    exact (perm_of_sortBy done).map Prod.snd
  · have kept := stable (fun p => tied index keys row p.2) fun p here q there pSame qSame before => ?_
    · rw [filter_map, Function.comp_def, kept, ← Function.comp_def, ← filter_map, back]
    · have first := not_rowPrecedes_of_tied each member (rowsOf p here).1 pSame
      have second := not_rowPrecedes_of_tied each member (rowsOf q there).1 qSame
      rcases (rowPrecedes_weak each).splits p.2 row q.2 (rowsOf p here).1 member (rowsOf q there).1 before
        with left | right
      · exact first.2 left
      · exact second.1 right

end Keys

/-- `ORDER BY a, b DESC` over an INT column and a TEXT column, with NULLs in both. -/
def mixedKeys : List OrderBy := [⟨"a", false⟩, ⟨"b", true⟩]

def mixedIndex (name : String) : Option ℕ := if name = "a" then some 0 else if name = "b" then some 1 else none

def mixedRows : List (Row Unit) :=
  [[.none, .str "x"], [.int 2, .str "x"], [.int 1, .none], [.int 2, .str "y"], [.int 1, .str "x"]]

theorem order_by_stable_mixed : (∀ key ∈ mixedKeys, KeyedBy mixedIndex mixedRows key) ∧
    ∃ sorted, sortRows mixedIndex "t" mixedKeys mixedRows = .ok sorted ∧
      sorted.Pairwise fun a b => ¬ RowPrecedes mixedIndex mixedKeys b a := by
  have each : ∀ key ∈ mixedKeys, KeyedBy mixedIndex mixedRows key := by
    simp only [mixedKeys, forall_mem_cons, not_mem_nil, false_implies, implies_true, and_true]
    refine ⟨⟨⟨0, rfl, by decide⟩, .ints ?_⟩, ⟨1, rfl, by decide⟩, .strs ?_⟩
    all_goals
      rintro _ ⟨some, row, member, rfl⟩
      fin_cases member <;> first | exact ⟨_, rfl⟩ | exact (some rfl).elim
  obtain ⟨sorted, done, -, arranged, -⟩ := order_by_stable each "t"
  exact ⟨each, sorted, done, arranged⟩

example : sortRows mixedIndex "t" mixedKeys mixedRows =
    .ok [[.int 1, .none], [.int 1, .str "x"], [.int 2, .str "y"], [.int 2, .str "x"], [.none, .str "x"]] := by
  decide +kernel

end Tinydb.Executor
