import Tinydb.Executor.Aggregate

/-! GROUP BY and its definition.

For INT and TEXT columns the pass over the rows gives what the clause means: one row for every
distinct combination of key values that are not NULL, in the order of their first appearance, with the
aggregates of the rows that have it. A different order of the rows only changes the order of the result.
-/

namespace Tinydb.Executor

open Lib Tinydb.Types Sql List Bool

variable {X : Type} [Runtime X]

/-- The aggregate functions of the grammar. -/
inductive Func where
  | count | sum | avg | min | max
  deriving DecidableEq, Repr

def Func.text : Func → String
  | count => "COUNT"
  | sum => "SUM"
  | avg => "AVG"
  | min => "MIN"
  | max => "MAX"

def named (aggregate : Func × String) : String × String := (aggregate.1.text, aggregate.2)

def present (index : NameIdx) (column : String) (rows : List (Row X)) : List (Value X) :=
  (rows.map (keyValue index column)).filter fun value => !value.isNone

def total (index : NameIdx) (column : String) (rows : List (Row X)) : ℤ :=
  ((present index column rows).filterMap Value.number?).sum

/-- The values have none before this one; it is NULL if there are no values. -/
def Extreme (before : Value X → Value X → Prop) (values : List (Value X)) (out : Value X) : Prop :=
  values = [] ∧ out = .none ∨ out ∈ values ∧ ∀ value ∈ values, ¬ before value out

def AggregateIs (index : NameIdx) (rows : List (Row X)) : Func × String → Value X → Prop
  | (.count, column), out => out = .int (if column = "*" then rows.length else (present index column rows).length : ℕ)
  | (.sum, column), out =>
    present index column rows = [] ∧ out = .none ∨ present index column rows ≠ [] ∧ out = .int (total index column rows)
  | (.avg, column), out => present index column rows = [] ∧ out = .none ∨ present index column rows ≠ [] ∧
    (Value.int (total index column rows)).arith .div (.int (present index column rows).length) = .ok out
  | (.min, column), out => Extreme Lt (present index column rows) out
  | (.max, column), out => Extreme (fun a b => Lt b a) (present index column rows) out

def rowKey (index : NameIdx) (keys : List String) (row : Row X) : Option (List (Value X)) :=
  if keys.any fun key => (keyValue index key row).isNone then none
    else some (keys.map fun key => keyValue index key row)

/-- The distinct keys in the order of their first appearance; without key columns the empty key. -/
def groupKeys [DecidableEq X] (index : NameIdx) (keys : List String) (rows : List (Row X)) : List (List (Value X)) :=
  if keys = [] then [[]] else firsts (rows.filterMap (rowKey index keys))

def groupRows [DecidableEq X] (index : NameIdx) (keys : List String) (rows : List (Row X)) (key : List (Value X)) :
    List (Row X) := rows.filter fun row => rowKey index keys row = some key

def Grouped [DecidableEq X] (index : NameIdx) (keys : List String) (aggregates : List (Func × String))
    (rows out : List (Row X)) : Prop :=
  Forall₂ (fun key o => ∃ values, o = key ++ values ∧
    Forall₂ (AggregateIs index (groupRows index keys rows key)) aggregates values) (groupKeys index keys rows) out

def IsInt (value : Value X) : Prop := ∃ i, value = .int i

def IsText (value : Value X) : Prop := ∃ s, value = .str s

def HasColumn (index : NameIdx) (rows : List (Row X)) (column : String) (values : Value X → Prop) : Prop :=
  ∃ i, index column = some i ∧ ∀ row ∈ rows, ∃ value, row[i]? = some value ∧ (value = .none ∨ values value)

def HasPlain (index : NameIdx) (rows : List (Row X)) (column : String) : Prop :=
  HasColumn index rows column IsInt ∨ HasColumn index rows column IsText

/-- An aggregate over a column whose type it fits. For an average, the quotients are numbers of the runtime. -/
def Suits (index : NameIdx) (rows : List (Row X)) : Func × String → Prop
  | (.count, column) => column = "*" ∨ HasPlain index rows column
  | (.sum, column) => column ≠ "*" ∧ HasColumn index rows column IsInt
  | (.avg, column) => column ≠ "*" ∧ HasColumn index rows column IsInt ∧
      ∀ members : List (Row X), members.Subperm rows →
    present index column members ≠ [] →
      ∃ q, (Value.int (total index column members) : Value X).arith .div (.int (present index column members).length) =
      .ok q
  | (.min, column) | (.max, column) => column ≠ "*" ∧ HasPlain index rows column

variable {value : Value X} {aggregate : Func × String} {before : Value X → Value X → Prop} {values : Value X → Prop}
  {index : NameIdx} {rows done : List (Row X)} {column : String} {row : Row X} {state : AggState X}
  {func : Func} {a b : Value X} {keys : List String} {key : List (Value X)} {rows' : List (Row X)} {out : Value X}

section Columns

variable {members : List (Row X)}

omit [Runtime X]

theorem HasColumn.mono (has : HasColumn index rows column values) (sub : members ⊆ rows) :
    HasColumn index members column values := by
  obtain ⟨i, found, each⟩ := has
  exact ⟨i, found, fun row among => each row (sub among)⟩

theorem HasPlain.mono (has : HasPlain index rows column) (sub : members ⊆ rows) : HasPlain index members column :=
  has.imp (·.mono sub) (·.mono sub)

theorem HasColumn.reads (has : HasColumn index rows column values) (among : row ∈ rows) :
    ∃ i, index column = some i ∧ rowAt row i = .ok (keyValue index column row) ∧
      (keyValue index column row = .none ∨ values (keyValue index column row)) := by
  obtain ⟨i, found, each⟩ := has
  obtain ⟨value, here, typed⟩ := each row among
  have isValue : keyValue index column row = value := by simp [keyValue, found, here]
  exact ⟨i, found, by rw [rowAt, here, isValue], isValue ▸ typed⟩

theorem HasPlain.reads (has : HasPlain index rows column) (among : row ∈ rows) :
    ∃ i, index column = some i ∧ rowAt row i = .ok (keyValue index column row) ∧
      (keyValue index column row = .none ∨ IsInt (keyValue index column row) ∨ IsText (keyValue index column row)) := by
  rcases has with ints | texts
  · obtain ⟨i, found, read, typed⟩ := ints.reads among
    exact ⟨i, found, read, typed.imp_right .inl⟩
  · obtain ⟨i, found, read, typed⟩ := texts.reads among
    exact ⟨i, found, read, typed.imp_right .inr⟩

theorem resolveColumn_eq (has : HasColumn index rows column values) (among : row ∈ rows) (notStar : column ≠ "*") :
    resolveColumn index column row = .ok (some (keyValue index column row)) := by
  obtain ⟨i, found, read, -⟩ := has.reads among
  rw [resolveColumn, if_neg notStar, found]
  simp only [read]
  rfl

theorem present_concat (row : Row X) : present index column (members ++ [row]) =
    if (keyValue index column row).isNone then present index column members
    else present index column members ++ [keyValue index column row] := by
  rw [present, map_append, filter_append]
  cases here : (keyValue index column row).isNone <;> simp [present, here]

theorem HasColumn.present (has : HasColumn index rows column values)
    (among : value ∈ present index column rows) : values value := by
  obtain ⟨inRows, notNone⟩ := mem_filter.mp among
  obtain ⟨row, here, rfl⟩ := mem_map.mp inRows
  obtain ⟨i, -, -, typed⟩ := has.reads here
  refine typed.resolve_left fun none => ?_
  rw [none] at notNone
  cases notNone

theorem total_concat (row : Row X) : total index column (done ++ [row]) =
    total index column done + ((keyValue index column row).number?.getD 0) := by
  rw [total, present_concat]
  cases here : keyValue index column row <;> simp [Value.isNone, Value.number?, total, filterMap_append, filterMap_cons]

/-- A choice between two values takes the second only if it stands before the first. -/
def Chooses (choose : Value X → Value X → Except Exc (Value X)) (among : Value X → Prop)
    (before : Value X → Value X → Prop) :
    Prop :=
  ∀ a b, among a → among b → ∃ next, choose a b = .ok next ∧ (before b a ∧ next = b ∨ ¬ before b a ∧ next = a)

theorem Extreme.next {among : Value X → Prop} {values : List (Value X)} {old : Value X}
    {choose : Value X → Value X → Except Exc (Value X)} (extreme : Extreme before values old) (weak : Weak among before)
    (real : ∀ v, among v → v.isNone = false) (chooses : Chooses choose among before) (typed : ∀ v ∈ values, among v)
    (isValue : among value) : ∃ next, better choose old value = .ok next ∧ Extreme before (values ++ [value]) next := by
  have self : ¬ before value value := fun less => weak.asymm _ _ isValue isValue less less
  rcases extreme with ⟨rfl, rfl⟩ | ⟨inside, least⟩
  · exact ⟨value, rfl, .inr ⟨by simp, by simpa using self⟩⟩
  · have isOld := typed old inside
    obtain ⟨next, chosen, which⟩ := chooses old value isOld isValue
    refine ⟨next, by rw [better, real old isOld]; exact chosen, .inr ?_⟩
    simp only [mem_append, mem_singleton]
    rcases which with ⟨less, rfl⟩ | ⟨notLess, rfl⟩
    · refine ⟨.inr rfl, ?_⟩
      rintro v (inValues | rfl) smaller
      · rcases weak.splits v old next (typed v inValues) isOld isValue smaller with toOld | fromOld
        · exact least v inValues toOld
        · exact weak.asymm _ _ isOld isValue fromOld less
      · exact self smaller
    · refine ⟨.inl inside, ?_⟩
      rintro v (inValues | rfl)
      · exact least v inValues
      · exact notLess

theorem rowKey_cons (key : String) : rowKey index (key :: keys) row =
    if (keyValue index key row).isNone then none else (rowKey index keys row).map (keyValue index key row :: ·) := by
  rw [rowKey, rowKey]
  cases none : (keyValue index key row).isNone with
  | true => simp [none]
  | false => cases others : keys.any fun key => (keyValue index key row).isNone <;> simp [none, others]

theorem present_perm (perm : rows'.Perm rows) (column : String) :
    (present index column rows').Perm (present index column rows) :=
  (perm.map _).filter _

theorem total_perm (perm : rows'.Perm rows) (column : String) : total index column rows' = total index column rows :=
  ((present_perm perm column).filterMap _).sum_eq

theorem Extreme.perm (before : Value X → Value X → Prop) {values values' : List (Value X)}
    (perm : values'.Perm values) (extreme : Extreme before values out) : Extreme before values' out := by
  rcases extreme with ⟨rfl, isNone⟩ | ⟨inside, least⟩
  · exact .inl ⟨perm_nil.mp perm, isNone⟩
  · exact .inr ⟨perm.mem_iff.mpr inside, fun value among => least value (perm.mem_iff.mp among)⟩

theorem Extreme.unique {shown : List (Value X)}
    (same : ∀ a b, values a → values b → ¬ before a b → ¬ before b a → a = b) (typed : ∀ v ∈ shown, values v)
    (first : Extreme before shown a) (second : Extreme before shown b) : a = b := by
  rcases first with ⟨rfl, rfl⟩ | ⟨inside, least⟩
  · rcases second with ⟨-, rfl⟩ | ⟨inside, -⟩
    · rfl
    · cases inside
  · rcases second with ⟨rfl, -⟩ | ⟨inside', least'⟩
    · cases inside
    · exact same a b (typed a inside) (typed b inside') (least' a inside) (least b inside')

end Columns

theorem Suits.mono {rows members : List (Row X)} (typed : Suits index rows aggregate)
    (part : members.Subperm rows) :
    Suits index members aggregate := by
  have sub := part.subset
  obtain ⟨func, column⟩ := aggregate
  cases func with
  | count => exact typed.imp_right (·.mono sub)
  | sum => exact ⟨typed.1, typed.2.mono sub⟩
  | avg => exact ⟨typed.1, typed.2.1.mono sub, fun fewer among => typed.2.2 fewer (among.trans part)⟩
  | min | max => exact ⟨typed.1, typed.2.mono sub⟩

/-- The order of one type, as the operators answer. -/
structure Comparable (values : Value X → Prop) : Prop where
  ordered : Ordered values
  gt : ∀ a b, values a → values b → a.order .gt b = b.order .lt a
  same : ∀ a b, values a → values b → a.eq b = true → a = b
  real : ∀ a, values a → a.isNone = false

theorem comparable_int : Comparable (IsInt : Value X → Prop) := by
  refine ⟨(OneType.ints fun _ isInt => isInt).ordered, ?_, ?_, ?_⟩
  · rintro _ _ ⟨i, rfl⟩ ⟨j, rfl⟩
    simp only [Value.order, Value.isForeign, Value.number?, Order.decideBy, Bool.or_self, Bool.false_eq_true, if_false]
    congr 1
    rw [Bool.eq_iff_iff]
    simp
    omega
  · rintro _ _ ⟨i, rfl⟩ ⟨j, rfl⟩ same
    simpa [Value.eq, Value.isForeign, Value.number?] using same
  · rintro _ ⟨i, rfl⟩
    rfl

theorem comparable_text : Comparable (IsText : Value X → Prop) := by
  refine ⟨(OneType.strs fun _ isText => isText).ordered, ?_, ?_, ?_⟩
  · rintro _ _ ⟨s, rfl⟩ ⟨t, rfl⟩
    simp only [Value.order, Order.decideBy]
    congr 1
    rw [Bool.eq_iff_iff]
    simp only [not_eq_true', or_eq_false_iff, decide_eq_false_iff_not, decide_eq_true_eq]
    exact ⟨fun both => lt_of_le_of_ne (not_lt.mp both.1) (Ne.symm both.2), fun less => ⟨less.asymm, less.ne'⟩⟩
  · rintro _ _ ⟨s, rfl⟩ ⟨t, rfl⟩ same
    simpa [Value.eq] using same
  · rintro _ ⟨s, rfl⟩
    rfl

def Accumulates (index : NameIdx) (aggregate : Func × String) (done : List (Row X)) (state : AggState X) : Prop :=
  match aggregate with
  | (.count, column) => state.count = if column = "*" then done.length else (present index column done).length
  | (.sum, column) | (.avg, column) => state.count = (present index column done).length ∧
    state.sum = if present index column done = [] then .none else .int (total index column done)
  | (.min, column) => Extreme Lt (present index column done) state.min
  | (.max, column) => Extreme (fun a b => Lt b a) (present index column done) state.max

theorem accumulates_new (aggregate : Func × String) : Accumulates index aggregate ([] : List (Row X)) newState := by
  obtain ⟨func, column⟩ := aggregate
  cases func <;> simp [Accumulates, newState, present, Extreme]

theorem accumulates_count (typed : Suits index rows (.count, column)) (among : row ∈ rows)
    (before : Accumulates index (.count, column) done state) :
    ∃ state', foldRow index (named (.count, column)) state row = .ok state' ∧
      Accumulates index (.count, column) (done ++ [row]) state' := by
  have counted : state.count = if column = "*" then done.length else (present index column done).length := before
  by_cases star : column = "*"
  · refine ⟨{ state with count := state.count + 1 }, ?_, ?_⟩
    · rw [foldRow, named, resolveColumn, if_pos star]
      rfl
    · simp [Accumulates, star, counted]
  · obtain ⟨i, found, read, -⟩ := (typed.resolve_left star).reads among
    have resolved : resolveColumn index column row = .ok (some (keyValue index column row)) := by
      rw [resolveColumn, if_neg star, found]
      simp only [read]
      rfl
    rw [foldRow, named, resolved, ok_bind]
    rw [if_neg star] at counted
    cases none : (keyValue index column row).isNone with
    | true =>
      refine ⟨state, by simp [accumulate, Func.text, none], ?_⟩
      simp [Accumulates, star, present_concat, none, counted]
    | false =>
      refine ⟨{ state with count := state.count + 1 }, by simp [accumulate, Func.text, none], ?_⟩
      simp [Accumulates, star, present_concat, none, counted]

theorem accumulates_sum (isSum : func = .sum ∨ func = .avg) (notStar : column ≠ "*")
    (has : HasColumn index rows column IsInt) (among : row ∈ rows)
    (before : Accumulates index (.sum, column) done state) :
    ∃ state', foldRow index (named (func, column)) state row = .ok state' ∧
      Accumulates index (.sum, column) (done ++ [row]) state' := by
  obtain ⟨counted, summed⟩ := before
  obtain ⟨i, -, -, typed⟩ := has.reads among
  rw [foldRow, named, resolveColumn_eq has among notStar, ok_bind]
  rcases typed with none | ⟨n, isInt⟩
  · refine ⟨state, ?_, ?_⟩
    · rcases isSum with rfl | rfl <;> simp [accumulate, Func.text, none, Value.isNone]
    · simp only [Accumulates, present_concat, total_concat, none, Value.isNone, if_true]
      simpa [Value.number?] using ⟨counted, summed⟩
  · have before : (if state.sum.truthy then state.sum else .int 0) = (.int (total index column done) : Value X) := by
      rw [summed]
      by_cases empty : present index column done = []
      · rw [if_pos empty, total, empty]
        rfl
      · rw [if_neg empty]
        by_cases zero : total index column done = 0 <;> simp [Value.truthy, zero]
    have added : (if state.sum.truthy then state.sum else .int 0).arith .add (.int n) =
        .ok (.int (total index column (done ++ [row])) : Value X) := by
      rw [before, total_concat, isInt]
      rfl
    refine ⟨{ state with count := state.count + 1, sum := .int (total index column (done ++ [row])) }, ?_, ?_⟩
    · rcases isSum with rfl | rfl <;> simp [accumulate, Func.text, isInt, Value.isNone, added]
    · simp [Accumulates, present_concat, isInt, Value.isNone, counted]

theorem chooses_of_order {op : Order}
    (answers : ∀ a b, values a → values b → ∃ answer, b.order op a = .ok answer ∧ (answer = true ↔ before b a)) :
    Chooses (fun a b => do if ← b.order op a then return b else return a) values before := by
  intro a b here there
  obtain ⟨answer, ordered, decided⟩ := answers a b here there
  simp only [ordered, ok_bind]
  cases answer with
  | true => exact ⟨b, rfl, .inl ⟨decided.mp rfl, rfl⟩⟩
  | false => exact ⟨a, rfl, .inr ⟨fun less => Bool.noConfusion (decided.mpr less), rfl⟩⟩

theorem chooses_pyMin (comparable : Comparable values) : Chooses pyMin values Lt := by
  refine chooses_of_order fun a b here there => ?_
  obtain ⟨answer, ordered⟩ := comparable.ordered.answers b a there here
  exact ⟨answer, ordered, by rw [Lt, ordered, Except.ok.injEq]⟩

theorem chooses_pyMax (comparable : Comparable values) : Chooses pyMax values fun a b => Lt b a := by
  refine chooses_of_order fun a b here there => ?_
  obtain ⟨answer, ordered⟩ := comparable.ordered.answers a b here there
  exact ⟨answer, by rw [comparable.gt b a there here, ordered], by rw [Lt, ordered, Except.ok.injEq]⟩

theorem accumulates_extreme (isExtreme : func = .min ∨ func = .max)
    (comparable : Comparable values) (notStar : column ≠ "*") (has : HasColumn index rows column values)
    (among : row ∈ rows) (sub : done ⊆ rows) (before : Accumulates index (func, column) done state) :
    ∃ state', foldRow index (named (func, column)) state row = .ok state' ∧
      Accumulates index (func, column) (done ++ [row]) state' := by
  obtain ⟨i, -, -, typed⟩ := has.reads among
  rw [foldRow, named, resolveColumn_eq has among notStar, ok_bind]
  have known (v : Value X) (inside : v ∈ present index column done) : values v := (has.mono sub).present inside
  rcases typed with none | isValue
  · refine ⟨state, ?_, ?_⟩
    · rcases isExtreme with rfl | rfl <;> simp [accumulate, Func.text, none, Value.isNone]
    · rcases isExtreme with rfl | rfl
      · simpa [Accumulates, present_concat, none, Value.isNone] using before
      · simpa [Accumulates, present_concat, none, Value.isNone] using before
  · have real := comparable.real _ isValue
    rcases isExtreme with rfl | rfl
    · have extreme : Extreme Lt (present index column done) state.min := before
      obtain ⟨next, isNext, extreme⟩ := extreme.next comparable.ordered.weak comparable.real
        (chooses_pyMin comparable) known isValue
      refine ⟨{ state with min := next }, ?_, ?_⟩
      · simp [accumulate, Func.text, real, isNext, bind, Except.bind, pure, Except.pure]
      · simpa [Accumulates, present_concat, real] using extreme
    · have extreme : Extreme (fun a b => Lt b a) (present index column done) state.max := before
      obtain ⟨next, isNext, extreme⟩ := extreme.next comparable.ordered.weak.flip comparable.real
        (chooses_pyMax comparable) known isValue
      refine ⟨{ state with max := next }, ?_, ?_⟩
      · simp [accumulate, Func.text, real, isNext, bind, Except.bind, pure, Except.pure]
      · simpa [Accumulates, present_concat, real] using extreme

theorem accumulates_step (suits : Suits index rows aggregate) (among : row ∈ rows) (sub : done ⊆ rows)
    (before : Accumulates index aggregate done state) :
    ∃ state', foldRow index (named aggregate) state row = .ok state' ∧
    Accumulates index aggregate (done ++ [row]) state' := by
  obtain ⟨func, column⟩ := aggregate
  cases func with
  | count => exact accumulates_count suits among before
  | sum => exact accumulates_sum (.inl rfl) suits.1 suits.2 among before
  | avg => exact accumulates_sum (.inr rfl) suits.1 suits.2.1 among before
  | min =>
    rcases suits.2 with ints | texts
    · exact accumulates_extreme (.inl rfl) comparable_int suits.1 ints among sub before
    · exact accumulates_extreme (.inl rfl) comparable_text suits.1 texts among sub before
  | max =>
    rcases suits.2 with ints | texts
    · exact accumulates_extreme (.inr rfl) comparable_int suits.1 ints among sub before
    · exact accumulates_extreme (.inr rfl) comparable_text suits.1 texts among sub before

theorem accumulates_rows (suits : Suits index rows aggregate) (sub : done ⊆ rows) :
    ∃ state, done.foldlM (foldRow index (named aggregate)) newState = .ok state ∧
    Accumulates index aggregate done state := by
  induction done using reverseRecOn with
  | nil => exact ⟨newState, rfl, accumulates_new aggregate⟩
  | append_singleton done row ih =>
    obtain ⟨state, folded, before⟩ := ih fun row' among => sub (mem_append_left _ among)
    obtain ⟨state', stepped, after⟩ := accumulates_step suits (sub (mem_append_right _ mem_cons_self))
      (fun row' among => sub (mem_append_left _ among)) before
    exact ⟨state', foldlM_concat_eq_ok.mpr ⟨state, folded, stepped⟩, after⟩

theorem aggregateValue_is (suits : Suits index rows aggregate) (part : done.Subperm rows) :
    ∃ value, aggregateValue index (named aggregate) done = .ok value ∧ AggregateIs index done aggregate value := by
  obtain ⟨state, folded, after⟩ := accumulates_rows suits part.subset
  rw [aggregateValue, folded, ok_bind]
  obtain ⟨func, column⟩ := aggregate
  cases func with
  | count => exact ⟨.int state.count, rfl, congrArg (fun n : ℕ => Value.int n) after⟩
  | min => exact ⟨state.min, rfl, after⟩
  | max => exact ⟨state.max, rfl, after⟩
  | sum =>
    obtain ⟨counted, summed⟩ := after
    by_cases empty : present index column done = []
    · exact ⟨.none, by simp [finalize, named, Func.text, counted, empty], .inl ⟨empty, rfl⟩⟩
    · refine ⟨.int (total index column done), ?_, .inr ⟨empty, rfl⟩⟩
      simp [finalize, named, Func.text, counted, empty, summed]
  | avg =>
    obtain ⟨counted, summed⟩ := after
    by_cases empty : present index column done = []
    · exact ⟨.none, by simp [finalize, named, Func.text, counted, empty], .inl ⟨empty, rfl⟩⟩
    · obtain ⟨q, divided⟩ := suits.2.2 done part empty
      refine ⟨q, ?_, .inr ⟨empty, divided⟩⟩
      simpa [finalize, named, Func.text, counted, empty, summed] using divided

section

variable (plain : ∀ key ∈ keys, HasPlain index rows key) (among : row ∈ rows)
include plain among

omit [Runtime X] in
theorem extractGroupKey_eq :
    extractGroupKey index keys row = .ok (rowKey index keys row) := by
  induction keys with
  | nil => rfl
  | cons key keys ih =>
    obtain ⟨here, later⟩ := forall_mem_cons.mp plain
    obtain ⟨i, found, read, -⟩ := here.reads among
    rw [extractGroupKey, rowKey_cons, ih later]
    simp only [found, read, ok_bind]
    split_ifs <;> rfl

omit [Runtime X] in
theorem plain_of_rowKey
    (isKey : rowKey index keys row = some key) : ∀ value ∈ key, IsInt value ∨ IsText value := by
  rw [rowKey] at isKey
  split_ifs at isKey with some
  cases isKey
  intro value inKey
  obtain ⟨column, inKeys, rfl⟩ := mem_map.mp inKey
  obtain ⟨i, -, -, typed⟩ := (plain column inKeys).reads among
  refine typed.resolve_left fun none => some (any_eq_true.mpr ⟨column, inKeys, ?_⟩)
  rw [none]
  rfl

omit plain among in
theorem hashKey_plain (plain : ∀ value ∈ key, IsInt value ∨ IsText value) : hashKey key = .ok () := by
  induction key with
  | nil => rfl
  | cons value key ih =>
    obtain ⟨⟨i, rfl⟩ | ⟨s, rfl⟩, later⟩ := forall_mem_cons.mp plain
    · exact ih later
    · exact ih later

theorem groupKey_eq :
    groupKey index keys row = .ok (rowKey index keys row) := by
  rw [groupKey, extractGroupKey_eq plain among, ok_bind]
  cases isKey : rowKey index keys row with
  | none => rfl
  | some key =>
    simp only [hashKey_plain (plain_of_rowKey plain among isKey)]
    rfl

end

theorem eq_plain [DecidableEq X] (here : IsInt a ∨ IsText a) (there : IsInt b ∨ IsText b) :
    a.eq b = decide (a = b) := by
  rcases here with ⟨i, rfl⟩ | ⟨s, rfl⟩ <;> rcases there with ⟨j, rfl⟩ | ⟨t, rfl⟩ <;>
    simp [Value.eq, Value.isForeign, Value.number?]

theorem tupleEq_plain [DecidableEq X] {a b : List (Value X)} (here : ∀ value ∈ a, IsInt value ∨ IsText value)
    (there : ∀ value ∈ b, IsInt value ∨ IsText value) : tupleEq a b = decide (a = b) := by
  induction a generalizing b with
  | nil => cases b <;> simp [tupleEq]
  | cons v a ih =>
    cases b with
    | nil => simp [tupleEq]
    | cons w b =>
      obtain ⟨first, rest⟩ := forall_mem_cons.mp here
      obtain ⟨first', rest'⟩ := forall_mem_cons.mp there
      rw [tupleEq, eq_plain first first', ih rest rest', ← decide_and]
      exact decide_eq_decide.mpr cons_eq_cons.symm

theorem groupsBy_eq [DecidableEq X] (plain : ∀ key ∈ keys, HasPlain index rows key) :
    groupsBy keys (rowKey index keys) rows = (groupKeys index keys rows).map fun key =>
    (key, groupRows index keys rows key) := by
  have decides : ∀ a ∈ (Lib.keyed (rowKey index keys) rows).map Prod.fst,
    ∀ b ∈ (Lib.keyed (rowKey index keys) rows).map Prod.fst,
      tupleEq a b = decide (a = b) := by
    rw [map_fst_keyed]
    intro a here b there
    obtain ⟨row, among, isKey⟩ := mem_filterMap.mp here
    obtain ⟨row', among', isKey'⟩ := mem_filterMap.mp there
    exact tupleEq_plain (plain_of_rowKey plain among isKey) (plain_of_rowKey plain among' isKey')
  have groups := gather_eq decides
  rw [map_fst_keyed] at groups
  simp only [membersOf_keyed] at groups
  rw [groupsBy, groupKeys, groups]
  by_cases noKeys : keys = []
  · -- every row has the empty key
    subst noKeys
    cases rows with
    | nil => rfl
    | cons row rows =>
      have all : (row :: rows).filterMap (rowKey index []) = replicate (rows.length + 1) [] := by
        rw [← length_cons (a := row), ← map_const', ← filterMap_eq_map]
        rfl
      rw [all, firsts_replicate]
      rfl
  · rw [if_neg fun both => noKeys both.1, if_neg noKeys]
    rfl

theorem AggregateIs.perm (perm : rows'.Perm rows)
    (value : AggregateIs index rows aggregate out) : AggregateIs index rows' aggregate out := by
  obtain ⟨func, column⟩ := aggregate
  have shown : (present index column rows').Perm (present index column rows) := present_perm perm column
  have empty : present index column rows' = [] ↔ present index column rows = [] :=
    ⟨fun none => nil_perm.mp (none ▸ shown), fun none => perm_nil.mp (none ▸ shown)⟩
  cases func with
  | count => simpa only [AggregateIs, perm.length_eq, shown.length_eq] using value
  | sum => simpa only [AggregateIs, empty, ne_eq, total_perm perm] using value
  | avg => simpa only [AggregateIs, empty, ne_eq, total_perm perm, shown.length_eq] using value
  | min => exact Extreme.perm Lt shown value
  | max => exact Extreme.perm (fun v w => Lt w v) shown value

theorem HasPlain.unique (has : HasPlain index rows column) :
    (Extreme Lt (present index column rows) a → Extreme Lt (present index column rows) b → a = b) ∧
      (Extreme (fun v w => Lt w v) (present index column rows) a →
        Extreme (fun v w => Lt w v) (present index column rows) b → a = b) := by
  have alike {values : Value X → Prop} (comparable : Comparable values) (v w : Value X)
    (here : values v) (there : values w)
      (notLess : ¬ Lt v w) (notMore : ¬ Lt w v) : v = w :=
    comparable.same v w here there ((comparable.ordered.eq v w here there).mpr ⟨notLess, notMore⟩)
  rcases has with ints | texts
  · exact ⟨Extreme.unique (alike comparable_int) fun v inside => ints.present inside,
      Extreme.unique (fun v w here there less more => alike comparable_int v w here there more less) fun v inside =>
      ints.present inside⟩
  · exact ⟨Extreme.unique (alike comparable_text) fun v inside => texts.present inside,
      Extreme.unique (fun v w here there less more => alike comparable_text v w here there more less) fun v inside =>
      texts.present inside⟩

theorem AggregateIs.unique (suits : Suits index rows aggregate)
    (first : AggregateIs index rows aggregate a) (second : AggregateIs index rows aggregate b) : a = b := by
  obtain ⟨func, column⟩ := aggregate
  cases func with
  | count => exact first.trans second.symm
  | sum =>
    rcases first with ⟨empty, rfl⟩ | ⟨some, rfl⟩ <;> rcases second with ⟨empty', rfl⟩ | ⟨some', rfl⟩
    · rfl
    · exact absurd empty some'
    · exact absurd empty' some
    · rfl
  | avg =>
    rcases first with ⟨empty, rfl⟩ | ⟨some, divided⟩ <;> rcases second with ⟨empty', rfl⟩ | ⟨some', divided'⟩
    · rfl
    · exact absurd empty some'
    · exact absurd empty' some
    · exact Except.ok.inj (divided.symm.trans divided')
  | min => exact suits.2.unique.1 first second
  | max => exact suits.2.unique.2 first second

variable [DecidableEq X] {aggregates : List (Func × String)}

theorem exists_grouped (plain : ∀ key ∈ keys, HasPlain index rows key)
    (suits : ∀ aggregate ∈ aggregates, Suits index rows aggregate) :
    ∃ out, aggregateRows index (aggregates.map named) keys rows = .ok out ∧ Grouped index keys aggregates rows out := by
  have each (key : List (Value X)) : ∃ values, Forall₂ (fun aggregate value =>
      aggregateValue index (named aggregate) (groupRows index keys rows key) = .ok value ∧
        AggregateIs index (groupRows index keys rows key) aggregate value) aggregates values :=
    exists_forall₂ fun aggregate among => aggregateValue_is (suits aggregate among) filter_sublist.subperm
  choose values each using each
  refine ⟨(groupKeys index keys rows).map fun key => key ++ values key, ?_, ?_⟩
  · rw [aggregateRows_eq_ok_iff fun row among => groupKey_eq plain among, groupsBy_eq plain, forall₂_map_left_iff,
      forall₂_map_right_iff, forall₂_same]
    exact fun key _ => ⟨values key, rfl, forall₂_map_left_iff.mpr ((each key).imp fun _ _ both => both.1)⟩
  · rw [Grouped, forall₂_map_right_iff, forall₂_same]
    exact fun key _ => ⟨values key, rfl, (each key).imp fun _ _ both => both.2⟩

omit [Runtime X] in
theorem groupKeys_perm (perm : rows'.Perm rows) : (groupKeys index keys rows').Perm (groupKeys index keys rows) := by
  rw [groupKeys, groupKeys]
  split_ifs
  · exact .refl _
  · refine (perm_ext_iff_of_nodup (nodup_firsts _) (nodup_firsts _)).mpr fun key => ?_
    rw [mem_firsts, mem_firsts, (perm.filterMap _).mem_iff]

theorem Grouped.perm {out out' : List (Row X)} (suits : ∀ aggregate ∈ aggregates, Suits index rows aggregate)
    (perm : rows'.Perm rows) (grouped : Grouped index keys aggregates rows out)
    (grouped' : Grouped index keys aggregates rows' out') :
    out'.Perm out := by
  obtain ⟨sorted, related, same⟩ := perm_comp_forall₂ (groupKeys_perm perm) grouped
  suffices isSorted : out' = sorted from isSorted ▸ same
  refine forall₂_agree (fun key _ o' o => ?_) grouped' related
  rintro ⟨values', rfl, each'⟩ ⟨values, rfl, each⟩
  refine congrArg (key ++ ·) (forall₂_agree (fun aggregate among value' value is' is => ?_) each' each)
  have here : Suits index (groupRows index keys rows key) aggregate :=
    (suits aggregate among).mono filter_sublist.subperm
  exact AggregateIs.unique here (is'.perm (perm.symm.filter _)) is

/-- GROUP BY over INT and TEXT columns is what it is defined to be, and the order of the rows only decides the order of
the result. -/
theorem group_by_defined (plain : ∀ key ∈ keys, HasPlain index rows key)
    (suits : ∀ aggregate ∈ aggregates, Suits index rows aggregate) :
    ∃ out, aggregateRows index (aggregates.map named) keys rows = .ok out ∧ Grouped index keys aggregates rows out ∧
      ∀ rows', rows'.Perm rows → ∃ out', aggregateRows index (aggregates.map named) keys rows' = .ok out' ∧
      out'.Perm out := by
  obtain ⟨out, returned, grouped⟩ := exists_grouped plain suits
  refine ⟨out, returned, grouped, fun rows' perm => ?_⟩
  obtain ⟨out', returned', grouped'⟩ := exists_grouped (fun key among => (plain key among).mono perm.subset)
    fun aggregate among => (suits aggregate among).mono perm.subperm
  exact ⟨out', returned', grouped.perm suits perm grouped'⟩

/-- `(name TEXT, score INT)`. -/
def scoreColumns : List Column := [⟨"name", .text, false, false, false⟩, ⟨"score", .int, false, false, false⟩]

def scores : List (Row Unit) :=
  [[.str "b", .int 4], [.str "a", .none], [.none, .int 9], [.str "b", .int (-4)], [.str "b", .none]]

/-- `COUNT(*), COUNT(score), SUM(score), MIN(score), MAX(name)` by `name`. -/
theorem group_by_defined_scores :
    aggregateRows (nameToIdx scoreColumns)
      [("COUNT", "*"), ("COUNT", "score"), ("SUM", "score"), ("MIN", "score"), ("MAX", "name")]
      ["name"] scores = .ok [[.str "b", .int 3, .int 2, .int 0, .int (-4), .str "b"],
        [.str "a", .int 1, .int 0, .none, .none, .str "a"]] ∧
    Grouped (nameToIdx scoreColumns) ["name"]
      [(.count, "*"), (.count, "score"), (.sum, "score"), (.min, "score"), (.max, "name")]
      scores [[.str "b", .int 3, .int 2, .int 0, .int (-4), .str "b"],
        [.str "a", .int 1, .int 0, .none, .none, .str "a"]] := by
  have names : HasColumn (nameToIdx scoreColumns) scores "name" IsText := ⟨0, rfl, by simp [scores, IsText]⟩
  have numbers : HasColumn (nameToIdx scoreColumns) scores "score" IsInt := ⟨1, rfl, by simp [scores, IsInt]⟩
  have plain : ∀ key ∈ ["name"], HasPlain (nameToIdx scoreColumns) scores key := by
    simpa [HasPlain] using Or.inr names
  have suits : ∀ aggregate ∈ [(.count, "*"), (.count, "score"), (.sum, "score"), (.min, "score"), (.max, "name")],
      Suits (nameToIdx scoreColumns) scores aggregate := by
    simpa [Suits, HasPlain] using ⟨.inl numbers, numbers, .inl numbers, .inr names⟩
  obtain ⟨out, returned, grouped, -⟩ := group_by_defined plain suits
  have computed : aggregateRows (nameToIdx scoreColumns)
      [("COUNT", "*"), ("COUNT", "score"), ("SUM", "score"), ("MIN", "score"), ("MAX", "name")] ["name"] scores =
      .ok [[.str "b", .int 3, .int 2, .int 0, .int (-4), .str "b"],
        [.str "a", .int 1, .int 0, .none, .none, .str "a"]] := by
    decide +kernel
  cases computed.symm.trans returned
  exact ⟨computed, grouped⟩

end Tinydb.Executor
