import Tinydb.Executor.JoinRows
import Tinydb.Executor.JoinSelect

/-! The names of a joined row.

A joined row is the rows of its tables one after the other. With distinct aliases the map
that `row_n2i_for_plan` merges finds every column of every table under its alias, and under its bare
name the first of the columns of that name.
-/

namespace Tinydb.Executor

open Lib Tinydb.Types Sql Storage Index List Option Dict

/-- The tables of a joined row: their aliases and columns, from left to right. -/
abbrev JoinLayout := List (String × List Column)

namespace JoinLayout

def width (layout : JoinLayout) : ℕ := (layout.map fun leaf => leaf.2.length).sum

def aliases (layout : JoinLayout) : List String := layout.map Prod.fst

def position : JoinLayout → String → String → Option ℕ
  | [], _, _ => none
  | (here, columns) :: rest, aliasName, name =>
    if here = aliasName then nameToIdx columns name else (position rest aliasName name).map (· + columns.length)

def barePosition : JoinLayout → String → Option ℕ
  | [], _ => none
  | (_, columns) :: rest, name => (nameToIdx columns name).or ((barePosition rest name).map (· + columns.length))

variable {left right : JoinLayout} {aliasName name : String}

@[simp] theorem width_append (left right : JoinLayout) : width (left ++ right) = left.width + right.width := by
  simp [width]

theorem position_eq_none (absent : aliasName ∉ left.aliases) : left.position aliasName name = none := by
  induction left with
  | nil => rfl
  | cons leaf rest ih =>
    rw [aliases, map_cons, mem_cons, not_or] at absent
    rw [position, if_neg (Ne.symm absent.1), ih absent.2]
    rfl

theorem position_append (left right : JoinLayout) (aliasName name : String) : position (left ++ right) aliasName name =
    if aliasName ∈ left.aliases then left.position aliasName name
      else (right.position aliasName name).map (· + left.width) := by
  induction left with
  | nil => simp [aliases, width]
  | cons leaf rest ih =>
    obtain ⟨here, columns⟩ := leaf
    rw [cons_append, position, position, ih]
    by_cases same : here = aliasName
    · simp [same, aliases]
    · rw [if_neg same, if_neg same]
      have other : aliasName ∈ aliases ((here, columns) :: rest) ↔ aliasName ∈ aliases rest := by
        simp [aliases, Ne.symm same]
      simp only [other]
      split_ifs
      · rfl
      · rw [Option.map_map]
        refine congrArg (Option.map · _) (funext fun i => ?_)
        simp only [Function.comp, width, map_cons, sum_cons]
        omega

theorem barePosition_append (left right : JoinLayout) (name : String) : barePosition (left ++ right) name =
    (left.barePosition name).or ((right.barePosition name).map (· + left.width)) := by
  induction left with
  | nil => simp [barePosition, width]
  | cons leaf rest ih =>
    obtain ⟨here, columns⟩ := leaf
    rw [cons_append, barePosition, barePosition, ih]
    cases nameToIdx columns name with
    | some i => rfl
    | none =>
      simp only [Option.none_or]
      cases barePosition rest name with
      | some i => rfl
      | none =>
        simp only [Option.none_or, Option.map_none, Option.map_map]
        refine congrArg (Option.map · _) (funext fun i => ?_)
        simp only [Function.comp, width, map_cons, sum_cons]
        omega

end JoinLayout

def Dotless (text : String) : Prop := '.' ∉ text.toList

theorem dotted (aliasName name : String) : '.' ∈ (aliasName ++ "." ++ name).toList := by simp

theorem get?_foldl_merge (w : ℕ) {items : List (String × ℕ)} (distinct : (items.map Prod.fst).Nodup) (out : NameMap)
    (key : String) :
    (items.foldl (fun out item =>
      if '.' ∈ item.1.toList ∨ item.1 ∉ out.keys then out.set item.1 (item.2 + w) else out) out).get? key =
    if '.' ∈ key.toList then ((items.find? (·.1 = key)).map (·.2 + w)).or (out.get? key)
    else (out.get? key).or ((items.find? (·.1 = key)).map (·.2 + w)) := by
  induction items generalizing out with
  | nil => simp
  | cons item rest ih =>
    rw [map_cons, nodup_cons] at distinct
    rw [foldl_cons, ih distinct.2, find?_cons]
    by_cases same : item.1 = key
    · have absent : rest.find? (·.1 = key) = none := by
        rw [find?_eq_none]
        intro other member equal
        exact distinct.1 (same ▸ (of_decide_eq_true equal) ▸ mem_map_of_mem member)
      subst same
      rw [absent]
      by_cases dot : '.' ∈ item.1.toList
      · simp [dot, get?_set]
      · by_cases known : item.1 ∈ out.keys
        · obtain ⟨i, found⟩ := mem_keys_iff.mp known
          simp [dot, known, found]
        · simp [dot, known, get?_set, get?_eq_none.mpr known]
    · have kept : (if '.' ∈ item.1.toList ∨ item.1 ∉ out.keys then out.set item.1 (item.2 + w) else out).get? key =
        out.get? key := by
        split_ifs
        · rw [get?_set, if_neg (Ne.symm same)]
        · rfl
      simp [kept, same]

theorem get?_mergeMaps (left right : NameMap) (key : String) : (mergeMaps left right).get? key =
    if '.' ∈ key.toList then ((right.get? key).map (· + mapWidth left)).or (left.get? key)
    else (left.get? key).or ((right.get? key).map (· + mapWidth left)) := by
  rw [mergeMaps, get?_foldl_merge _ right.distinct]
  simp only [get?, Option.map_map]
  rfl

variable {names : NameMap} {columns : List Column} {aliasName name : String} {layout front back : JoinLayout} {X : Type}
  {catalog : Catalog} {indexer : Option (List (LiveIndex X))} {info : TableMeta} {source : FromTable} {plan : Plan X}
  {kind : JoinKind} {on : Option (Expr X)} {first : FromTable} {joins : List (JoinClause X)}

theorem mapWidth_le {w : ℕ} (inside : ∀ key i, names.get? key = some i → i < w) : mapWidth names ≤ w := by
  have bounded : ∀ (l : List ℕ) (start : ℕ), start ≤ w → (∀ n ∈ l, n ≤ w) → l.foldl max start ≤ w := by
    intro l
    induction l with
    | nil => exact fun _ low _ => low
    | cons n l ih =>
      exact fun start low all => ih _ (max_le low (all n mem_cons_self)) fun m member =>
        all m (mem_cons_of_mem _ member)
  refine bounded _ 0 (Nat.zero_le _) fun n member => ?_
  obtain ⟨item, among, rfl⟩ := mem_map.mp member
  exact inside item.1 item.2 (get?_of_mem among)

/-- The map finds the columns of a layout. -/
structure Resolves (names : NameMap) (layout : JoinLayout) : Prop where
  qualified : ∀ {aliasName name}, Dotless aliasName → Dotless name →
    names.get? (aliasName ++ "." ++ name) = layout.position aliasName name
  bare : ∀ {name}, Dotless name → names.get? name = layout.barePosition name
  inside : ∀ {key i}, names.get? key = some i → i < layout.width
  width : mapWidth names = layout.width

/-- Aliases that differ, and names that can be told from qualified ones. -/
structure Proper (layout : JoinLayout) : Prop where
  distinct : layout.aliases.Nodup
  aliases : ∀ aliasName ∈ layout.aliases, Dotless aliasName
  columns : ∀ leaf ∈ layout, ∀ column ∈ leaf.2, Dotless column.name

theorem append_dot_inj {a b c d : String} (first : Dotless a) (second : Dotless c)
    (same : a ++ "." ++ b = c ++ "." ++ d) : a = c ∧ b = d := by
  have chars : a.toList ++ '.' :: b.toList = c.toList ++ '.' :: d.toList := by
    simpa using congrArg String.toList same
  have all {text : String} (plain : Dotless text) : ∀ x ∈ text.toList, decide (x ≠ '.') = true :=
    fun x member => decide_eq_true fun dot => plain (dot ▸ member)
  have front : a.toList = c.toList := by
    have cut := congrArg (List.takeWhile (· ≠ '.')) chars
    rw [takeWhile_append_of_pos (all first), takeWhile_append_of_pos (all second)] at cut
    simpa using cut
  rw [front] at chars
  exact ⟨String.toList_inj.mp front, String.toList_inj.mp (List.cons.inj (append_cancel_left chars)).2⟩

theorem nameToIdx_concat (columns : List Column) (last : Column) (name : String) :
    nameToIdx (columns ++ [last]) name = if last.name = name then some columns.length else nameToIdx columns name := by
  induction columns with
  | nil => rfl
  | cons column columns ih =>
    rw [cons_append, nameToIdx, ih, nameToIdx]
    split_ifs <;> simp

theorem get?_bare (columns : List Column) (key : String) :
    (ofWrites (columns.zipIdx.map fun item => (item.1.name, item.2))).get? key = nameToIdx columns key := by
  induction columns using reverseRecOn with
  | nil => rfl
  | append_singleton columns last ih =>
    rw [zipIdx_append, map_append, zipIdx_singleton, map_singleton, ofWrites_concat, get?_set, ih,
      nameToIdx_concat]
    simp [eq_comm]

theorem get?_qualified (writes : List (String × ℕ)) (key : String) :
    (ofWrites (writes ++ columns.zipIdx.map fun item => (aliasName ++ "." ++ item.1.name, item.2))).get? key =
      ((columns.zipIdx.reverse.find? fun item => aliasName ++ "." ++ item.1.name = key).map Prod.snd).or
    ((ofWrites writes).get? key) := by
  induction columns using reverseRecOn with
  | nil => simp
  | append_singleton columns last ih =>
    rw [zipIdx_append, map_append, zipIdx_singleton, map_singleton, ← append_assoc, ofWrites_concat,
      get?_set, ih, reverse_append, reverse_singleton, singleton_append, find?_cons]
    by_cases same : key = aliasName ++ "." ++ last.name
    · simp [same]
    · simp [same, Ne.symm same]

theorem find?_qualified {other : String} (dotless : Dotless aliasName) (dotless' : Dotless other) :
    (columns.zipIdx.reverse.find? fun item => aliasName ++ "." ++ item.1.name = other ++ "." ++ name).map Prod.snd =
      if aliasName = other then nameToIdx columns name else none := by
  induction columns using reverseRecOn with
  | nil => simp [nameToIdx]
  | append_singleton columns last ih =>
    rw [zipIdx_append, zipIdx_singleton, reverse_append, reverse_singleton, singleton_append, find?_cons,
      nameToIdx_concat]
    by_cases same : aliasName ++ "." ++ last.name = other ++ "." ++ name
    · obtain ⟨rfl, rfl⟩ := append_dot_inj dotless dotless' same
      simp
    · have differs : aliasName = other → last.name ≠ name := fun first second => same (by rw [first, second])
      simp only [same, decide_false, ih]
      split_ifs with first second
      · exact absurd second (differs first)
      · rfl
      · rfl

theorem resolves_leaf (dotless : Dotless aliasName)
    (names : ∀ column ∈ columns, Dotless column.name) :
    Resolves (leafMap columns (some aliasName)) [(aliasName, columns)] := by
  have width : JoinLayout.width [(aliasName, columns)] = columns.length := by simp [JoinLayout.width]
  refine ⟨fun {other name} first second => ?_, fun {name} bare => ?_, fun found => width ▸ get?_leafMap_lt found, ?_⟩
  · have unwritten : (ofWrites (columns.zipIdx.map fun item => (item.1.name, item.2))).get? (other ++ "." ++ name) =
      none := by
      rw [get?_eq_none, mem_keys_ofWrites]
      intro written
      obtain ⟨item, member, same⟩ := mem_map.mp written
      obtain ⟨⟨column, i⟩, place, rfl⟩ := mem_map.mp member
      have plain : Dotless column.name := names column (fst_mem_of_mem_zipIdx place)
      rw [show column.name = other ++ "." ++ name from same] at plain
      exact plain (dotted other name)
    rw [leafMap, get?_qualified, find?_qualified dotless first, unwritten, or_none, JoinLayout.position,
      JoinLayout.position]
    rfl
  · rw [leafMap, get?_qualified, get?_bare]
    have unqualified : (columns.zipIdx.reverse.find? fun item => aliasName ++ "." ++ item.1.name = name) = none := by
      rw [find?_eq_none]
      intro item _ same
      exact bare (of_decide_eq_true same ▸ dotted aliasName item.1.name)
    rw [unqualified]
    simp [JoinLayout.barePosition]
  · rw [width]
    exact le_antisymm (mapWidth_le fun key i found => get?_leafMap_lt found) (le_mapWidth_leafMap ..)

theorem Proper.left (proper : Proper (front ++ back)) : Proper front := by
  obtain ⟨distinct, aliases, columns⟩ := proper
  rw [JoinLayout.aliases, map_append] at distinct aliases
  exact ⟨(nodup_append.mp distinct).1, fun aliasName member => aliases aliasName (mem_append_left _ member),
    fun leaf member => columns leaf (mem_append_left _ member)⟩

theorem Proper.right (proper : Proper (front ++ back)) : Proper back := by
  obtain ⟨distinct, aliases, columns⟩ := proper
  rw [JoinLayout.aliases, map_append] at distinct aliases
  exact ⟨(nodup_append.mp distinct).2.1, fun aliasName member => aliases aliasName (mem_append_right _ member),
    fun leaf member => columns leaf (mem_append_right _ member)⟩

theorem Proper.not_mem_left (proper : Proper (front ++ back)) (later : aliasName ∈ back.aliases) :
    aliasName ∉ front.aliases := by
  have distinct := proper.distinct
  rw [JoinLayout.aliases, map_append] at distinct
  exact fun early => (nodup_append.mp distinct).2.2 _ early _ later rfl

theorem mem_aliases_of_position {i : ℕ} (found : layout.position aliasName name = some i) :
    aliasName ∈ layout.aliases := by
  by_contra absent
  rw [JoinLayout.position_eq_none absent] at found
  exact nomatch found

theorem exists_last (proper : Proper layout) (wide : 0 < layout.width) :
    ∃ aliasName name, Dotless aliasName ∧ Dotless name ∧ layout.position aliasName name = some (layout.width - 1) := by
  induction layout using reverseRecOn with
  | nil => simp [JoinLayout.width] at wide
  | append_singleton front leaf ih =>
    obtain ⟨here, columns⟩ := leaf
    have total : JoinLayout.width (front ++ [(here, columns)]) = JoinLayout.width front + columns.length := by
      simp [JoinLayout.width]
    rcases eq_nil_or_concat' columns with rfl | ⟨early, last, rfl⟩
    · rw [total, length_nil, Nat.add_zero] at wide ⊢
      obtain ⟨aliasName, name, plain, plain', found⟩ := ih proper.left wide
      exact ⟨aliasName, name, plain, plain',
        by rw [JoinLayout.position_append, if_pos (mem_aliases_of_position found), found]⟩
    · refine ⟨here, last.name, proper.aliases here (by simp [JoinLayout.aliases]),
        proper.columns (here, early ++ [last]) (by simp) last (by simp), ?_⟩
      rw [JoinLayout.position_append, if_neg (proper.not_mem_left (by simp [JoinLayout.aliases])),
        JoinLayout.position, if_pos rfl,
        nameToIdx_concat, if_pos rfl, total, length_append, length_singleton, map_some]
      exact congrArg some (by omega)

theorem resolves_merge {left right : NameMap} (first : Resolves left front) (second : Resolves right back)
    (proper : Proper (front ++ back)) : Resolves (mergeMaps left right) (front ++ back) := by
  have qualified {aliasName name : String} (plain : Dotless aliasName) (plain' : Dotless name) :
      (mergeMaps left right).get? (aliasName ++ "." ++ name) = JoinLayout.position (front ++ back) aliasName name := by
    rw [get?_mergeMaps, if_pos (dotted ..), first.qualified plain plain', second.qualified plain plain', first.width,
      JoinLayout.position_append]
    split_ifs with early
    · have gone : back.position aliasName name = none :=
        JoinLayout.position_eq_none fun later => proper.not_mem_left later early
      rw [gone]
      rfl
    · rw [JoinLayout.position_eq_none early, or_none]
  have inside {key : String} {i : ℕ} (found : (mergeMaps left right).get? key = some i) : i <
    JoinLayout.width (front ++ back) := by
    rw [get?_mergeMaps] at found
    rw [JoinLayout.width_append]
    have either : left.get? key = some i ∨ ∃ j, right.get? key = some j ∧ j + mapWidth left = i := by
      split_ifs at found <;> rcases or_eq_some_iff.mp found with here | ⟨-, here⟩
      · exact .inr (map_eq_some_iff.mp here)
      · exact .inl here
      · exact .inl here
      · exact .inr (map_eq_some_iff.mp here)
    rcases either with here | ⟨j, there, rfl⟩
    · have := first.inside here
      omega
    · have := second.inside there
      rw [first.width]
      omega
  refine ⟨qualified, fun {name} plain => ?_, inside, ?_⟩
  · rw [get?_mergeMaps, if_neg plain, first.bare plain, second.bare plain, first.width, JoinLayout.barePosition_append]
  · refine le_antisymm (mapWidth_le fun _ _ => inside) ?_
    rcases Nat.eq_zero_or_pos (JoinLayout.width (front ++ back)) with none | wide
    · omega
    · obtain ⟨aliasName, name, plain, plain', found⟩ := exists_last proper wide
      have := lt_mapWidth ((qualified plain plain').trans found)
      omega

def FromTable.key (source : FromTable) : String :=
  match source.aliasName with
  | none => source.table
  | some aliasName => if aliasName = "" then source.table else aliasName

def Keyed (catalog : Catalog) : Prop := ∀ {name info}, catalog.byName.get? name = some info → info.name = name

/-- The layout of a joined row: the tables of the FROM clause with their columns. -/
def LaysOut (catalog : Catalog) (tables : List FromTable) (layout : JoinLayout) : Prop :=
  Forall₂ (fun source leaf => ∃ info, catalog.byName.get? source.table = some info ∧ leaf = (source.key, info.columns))
  tables layout

theorem aliasName_plan (source : FromTable) : (source.plan : LogicalPlan X).aliasName = some source.key := by
  obtain ⟨table, _ | aliasName⟩ := source <;> rfl

theorem requireTable_eq_ok : requireTable catalog name = .ok info ↔ catalog.byName.get? name = some info := by
  rw [requireTable]
  split <;> simp [*]

theorem emitPhysical_plan (planned : emitPhysical catalog indexer source.plan = .ok plan) :
    ∃ info, catalog.byName.get? source.table = some info ∧ plan = .seqScan info.name := by
  obtain ⟨info, found, rfl⟩ := bind_return_iff.mp planned
  exact ⟨info, requireTable_eq_ok.mp found, rfl⟩

/-- The plan of a join is a loop over the plans of its sides. -/
inductive JoinsTo (catalog : Catalog) (left right : Plan X) (aliasLeft aliasRight : Option String) (kind : JoinKind)
    (on : Option (Expr X)) : Plan X → Prop
  | nested : JoinsTo catalog left right aliasLeft aliasRight kind on
      (.nestedLoopJoin left right on (kind = .left) aliasLeft aliasRight)
  | indexed {info : TableMeta} (found : requireTable catalog right.table = .ok info) (index key : String)
      (keyAlias : Option String) :
      JoinsTo catalog left right aliasLeft aliasRight kind on
        (.indexedNestedLoopJoin left right on kind aliasLeft aliasRight info.name index key keyAlias)

theorem emitPhysical_join {left right : LogicalPlan X}
    (planned : emitPhysical catalog indexer (.join left right kind on (kind = .left)) = .ok plan) :
    ∃ leftPlan rightPlan, emitPhysical catalog indexer left = .ok leftPlan ∧
    emitPhysical catalog indexer right = .ok rightPlan ∧
      JoinsTo catalog leftPlan rightPlan left.aliasName right.aliasName kind on plan := by
  obtain ⟨leftPlan, first, planned⟩ := bind_ok_iff.mp planned
  obtain ⟨rightPlan, second, planned⟩ := bind_ok_iff.mp planned
  obtain ⟨info, found, planned⟩ := bind_ok_iff.mp planned
  obtain ⟨chosen, -, planned⟩ := bind_ok_iff.mp planned
  refine ⟨leftPlan, rightPlan, first, second, ?_⟩
  cases chosen with
  | some index =>
    cases planned
    exact .indexed found ..
  | none =>
    cases planned
    exact .nested

theorem emitFrom_concat (first : FromTable) (joins : List (JoinClause X)) (clause : JoinClause X) :
    emitFrom first (joins ++ [clause]) =
      .join (emitFrom first joins) clause.right.plan clause.kind (some clause.on) (clause.kind = .left) := by
  rw [emitFrom, foldl_append]
  rfl

theorem forall₂_concat_left {α β : Type} {R : α → β → Prop} {l : List α} {a : α} {m : List β}
    (related : Forall₂ R (l ++ [a]) m) :
    ∃ front b, m = front ++ [b] ∧ Forall₂ R l front ∧ R a b := by
  induction l generalizing m with
  | nil =>
    obtain ⟨b, _, here, ⟨⟩, rfl⟩ := forall₂_cons_left_iff.mp related
    exact ⟨[], b, rfl, .nil, here⟩
  | cons x l ih =>
    obtain ⟨y, rest, here, later, rfl⟩ := forall₂_cons_left_iff.mp related
    obtain ⟨front, b, rfl, before, last⟩ := ih later
    exact ⟨y :: front, b, rfl, .cons here before, last⟩

theorem LaysOut.concat {clause : JoinClause X}
    (lays : LaysOut catalog (first :: (joins ++ [clause]).map (·.right)) layout) :
    ∃ front info, layout = front ++ [(clause.right.key, info.columns)] ∧
    LaysOut catalog (first :: joins.map (·.right)) front ∧
      catalog.byName.get? clause.right.table = some info := by
  rw [map_append, map_singleton, ← cons_append] at lays
  obtain ⟨front, leaf, rfl, before, info, found, rfl⟩ := forall₂_concat_left lays
  exact ⟨front, info, rfl, before, found⟩

theorem rowN2i_of_joinsTo {left right : Plan X} {aliasLeft aliasRight aliasName : Option String}
    (joins : JoinsTo catalog left right aliasLeft aliasRight kind on plan)
    (named : rowN2i catalog plan aliasName = .ok names) : ∃ leftNames rightNames,
    rowN2i catalog left aliasLeft = .ok leftNames ∧
      rowN2i catalog right aliasRight = .ok rightNames ∧ names = mergeMaps leftNames rightNames := by
  cases joins <;>
  · obtain ⟨leftNames, first, named⟩ := bind_ok_iff.mp named
    obtain ⟨rightNames, second, rfl⟩ := bind_return_iff.mp named
    exact ⟨leftNames, rightNames, first, second, rfl⟩

theorem resolves_table (keyed : Keyed catalog) (found : catalog.byName.get? source.table = some info)
    (proper : Proper [(source.key, info.columns)])
    (named : rowN2i catalog (.seqScan info.name : Plan X) (some source.key) = .ok names) :
    Resolves names [(source.key, info.columns)] := by
  obtain ⟨info', got, rfl⟩ := bind_return_iff.mp named
  rw [Catalog.getTable, keyed found, found] at got
  cases got
  exact resolves_leaf (proper.aliases _ (by simp [JoinLayout.aliases])) (proper.columns _ (mem_singleton_self _))

theorem resolves_emitFrom (keyed : Keyed catalog)
    (planned : emitPhysical catalog indexer (emitFrom first joins) = .ok plan)
    (lays : LaysOut catalog (first :: joins.map (·.right)) layout) (proper : Proper layout)
    (named : rowN2i catalog plan (emitFrom first joins).aliasName = .ok names) : Resolves names layout := by
  induction joins using reverseRecOn generalizing plan layout names with
  | nil =>
    obtain ⟨leaf, _, ⟨info, found, rfl⟩, ⟨⟩, rfl⟩ := forall₂_cons_left_iff.mp lays
    obtain ⟨info', found', rfl⟩ := emitPhysical_plan planned
    cases found.symm.trans found'
    rw [show (emitFrom first []).aliasName = _ from aliasName_plan first] at named
    exact resolves_table keyed found proper named
  | append_singleton joins clause ih =>
    rw [emitFrom_concat] at planned
    obtain ⟨left, right, planLeft, planRight, joined⟩ := emitPhysical_join planned
    obtain ⟨leftNames, rightNames, namedLeft, namedRight, rfl⟩ := rowN2i_of_joinsTo joined named
    obtain ⟨front, info, rfl, before, found⟩ := lays.concat
    obtain ⟨info', found', rfl⟩ := emitPhysical_plan planRight
    cases found.symm.trans found'
    rw [aliasName_plan] at namedRight
    exact resolves_merge (ih planLeft before proper.left namedLeft)
      (resolves_table keyed found proper.right namedRight) proper

end Tinydb.Executor
