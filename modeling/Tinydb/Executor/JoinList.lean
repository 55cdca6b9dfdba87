import Tinydb.Executor.JoinNames
import Tinydb.Executor.SelectList

/-! Select lists over joins.

The labels of a join are bare names, each listed once. So two columns of one name from different
tables share a label, and the list gets shorter than the select list.
-/

namespace Tinydb.Executor

open Lib Tinydb.Types Sql Storage Index List JoinLayout
open Storage.Heap (Rid)

variable {X : Type} [Runtime X] {row : Row X} {columns : List Column} {plan : Plan X} {info : TableMeta}
  {first : FromTable} {joins : List (JoinClause X)} {layout : JoinLayout}

section Widths

variable {ctx : Snapshot X} {on : Option (Expr X)} {left : Row X} {rights found : List (Row X)} {names : NameMap}
  {keep : Bool} {size : ℕ} {rows : List (Row X)}

theorem mem_of_matching
    (matched : matching on names left rights = .ok found) (member : row ∈ found) : ∃ right ∈ rights,
    row = left ++ right := by
  induction rights generalizing found with
  | nil =>
    cases matched
    exact nomatch member
  | cons right rights ih =>
    obtain ⟨accepted, -, matched⟩ := bind_ok_iff.mp matched
    obtain ⟨others, later, rfl⟩ := bind_return_iff.mp matched
    have rest (member : row ∈ others) : ∃ right' ∈ right :: rights, row = left ++ right' := by
      obtain ⟨right', among, joined⟩ := ih later member
      exact ⟨right', mem_cons_of_mem _ among, joined⟩
    cases accepted with
    | true =>
      rcases mem_cons.mp member with rfl | member
      · exact ⟨right, mem_cons_self, rfl⟩
      · exact rest member
    | false => exact rest member

theorem mem_padded
    (matched : matching on names left rights = .ok found) (member : row ∈ padded keep (left ++ nulls size) found) :
    ∃ right, (right ∈ rights ∨ right = nulls size) ∧ row = left ++ right := by
  rw [padded] at member
  split_ifs at member
  · exact ⟨nulls size, .inr rfl, mem_singleton.mp member⟩
  · obtain ⟨right, among, rfl⟩ := mem_of_matching matched member
    exact ⟨right, .inl among, rfl⟩

theorem mem_of_indexedRow {rights : List (Rid × Row X)} {keyIdx : ℕ} {search : Key X → List Rid}
    (made : indexedRow on names keep size rights search keyIdx left = .ok found) (member : row ∈ found) :
    ∃ right, (right ∈ rights.map Prod.snd ∨ right = nulls size) ∧ row = left ++ right := by
  obtain ⟨key, -, made⟩ := bind_ok_iff.mp made
  split_ifs at made
  · cases made
    have unmatched : matching on names left [] = .ok [] := rfl
    obtain ⟨right, origin, rfl⟩ := mem_padded unmatched member
    exact ⟨right, origin.imp_left nofun, rfl⟩
  · obtain ⟨pairs, matched, rfl⟩ := bind_return_iff.mp made
    obtain ⟨right, origin, rfl⟩ := mem_padded matched member
    exact ⟨right, origin.imp_left mem_of_mem_fetch, rfl⟩

theorem length_columnMap (distinct : (columns.map (·.name)).Nodup) :
    (columnMap columns).items.length = columns.length := by
  induction columns using reverseRecOn with
  | nil => rfl
  | append_singleton columns last ih =>
    rw [map_append, map_singleton, nodup_append] at distinct
    obtain ⟨early, -, apart⟩ := distinct
    have new : last.name ∉ (columnMap columns).keys := by
      rw [columnMap, Dict.mem_keys_ofWrites, map_map]
      intro member
      obtain ⟨item, place, same⟩ := mem_map.mp member
      exact apart _ (mem_map_of_mem (fst_mem_of_mem_zipIdx place)) _ (mem_singleton_self _) same
    rw [columnMap] at ih new ⊢
    rw [zipIdx_append, map_append, zipIdx_singleton, map_singleton, Dict.ofWrites_concat,
      Dict.items_set_of_not_mem _ new, length_append, ih early, length_append, length_singleton, length_singleton]

def Snapshot.Wide (ctx : Snapshot X) : Prop := ∀ {name info}, ctx.catalog.byName.get? name = some info →
  ∀ item ∈ ctx.rows name, item.2.length = info.columns.length

theorem mem_of_joinsTo {left : Plan X} {aliasLeft aliasRight : Option String} {kind : JoinKind}
    (got : ctx.catalog.byName.get? info.name = some info)
    (joined : JoinsTo ctx.catalog left (.seqScan info.name) aliasLeft aliasRight kind on plan)
    (opened : openPlan ctx plan = .ok rows) : ∀ row ∈ rows, ∃ lefts, openPlan ctx left = .ok lefts ∧
    ∃ first ∈ lefts, ∃ second,
      (second ∈ (ctx.rows info.name).map Prod.snd ∨ second = nulls (columnMap info.columns).items.length) ∧
      row = first ++ second := by
  have known : ctx.catalog.getTable info.name = .ok info := by rw [Catalog.getTable, got]
  intro row member
  cases joined with
  | nested =>
    obtain ⟨names, -, opened⟩ := bind_ok_iff.mp opened
    obtain ⟨info', known', opened⟩ := bind_ok_iff.mp opened
    cases known.symm.trans known'
    obtain ⟨rights, openRight, opened⟩ := bind_ok_iff.mp opened
    obtain ⟨lefts, openLeft, collected⟩ := bind_ok_iff.mp opened
    obtain ⟨info', -, rfl⟩ := bind_return_iff.mp openRight
    obtain ⟨f, each, rfl⟩ := collectRows_eq_ok collected
    obtain ⟨first, among, here⟩ := mem_flatMap.mp member
    obtain ⟨pairs, matched, same⟩ := bind_return_iff.mp (each first among)
    rw [← same] at here
    exact ⟨lefts, openLeft, first, among, mem_padded matched here⟩
  | @indexed info' found' index key keyAlias =>
    cases (requireTable_eq_ok.mpr got).symm.trans found'
    obtain ⟨info', known', opened⟩ := bind_ok_iff.mp opened
    cases known.symm.trans known'
    split at opened
    · cases opened
      exact absurd member not_mem_nil
    · obtain ⟨info', -, opened⟩ := bind_ok_iff.mp opened
      dsimp only at opened
      split_ifs at opened
      swap
      · obtain ⟨_, thrown, -⟩ := bind_ok_iff.mp opened
        cases thrown
      obtain ⟨leftNames, -, opened⟩ := bind_ok_iff.mp opened
      obtain ⟨names, -, opened⟩ := bind_ok_iff.mp opened
      obtain ⟨keys, -, opened⟩ := bind_ok_iff.mp opened
      split at opened
      · cases opened
        exact absurd member not_mem_nil
      · obtain ⟨lefts, openLeft, collected⟩ := bind_ok_iff.mp opened
        obtain ⟨f, each, rfl⟩ := collectRows_eq_ok collected
        obtain ⟨first, among, here⟩ := mem_flatMap.mp member
        exact ⟨lefts, openLeft, first, among, mem_of_indexedRow (each first among) here⟩

def JoinLayout.Named (layout : JoinLayout) : Prop := ∀ leaf ∈ layout, (leaf.2.map (·.name)).Nodup

theorem length_of_emitFrom (keyed : Keyed ctx.catalog) (wide : ctx.Wide)
    (lays : LaysOut ctx.catalog (first :: joins.map (·.right)) layout) (named : layout.Named)
    (planned : emitPhysical ctx.catalog ctx.indexer (emitFrom first joins) = .ok plan)
    (opened : openPlan ctx plan = .ok rows) : ∀ row ∈ rows, row.length = layout.width := by
  induction joins using reverseRecOn generalizing plan layout rows with
  | nil =>
    obtain ⟨leaf, _, ⟨info, found, rfl⟩, ⟨⟩, rfl⟩ := forall₂_cons_left_iff.mp lays
    obtain ⟨info', found', rfl⟩ := emitPhysical_plan planned
    cases found.symm.trans found'
    obtain ⟨-, -, rfl⟩ := bind_return_iff.mp opened
    intro row member
    obtain ⟨item, place, rfl⟩ := mem_map.mp member
    rw [keyed found] at place
    simp [width, wide found item place]
  | append_singleton joins clause ih =>
    rw [emitFrom_concat] at planned
    obtain ⟨left, right, planLeft, planRight, joined⟩ := emitPhysical_join planned
    obtain ⟨front, info, rfl, before, found⟩ := lays.concat
    obtain ⟨info', found', rfl⟩ := emitPhysical_plan planRight
    cases found.symm.trans found'
    rw [← keyed found] at found
    intro row member
    obtain ⟨lefts, openLeft, early, among, late, origin, rfl⟩ := mem_of_joinsTo found joined opened row member
    have start : early.length = width front :=
      ih before (fun leaf member => named leaf (mem_append_left _ member)) planLeft openLeft early among
    have rest : late.length = info.columns.length := by
      rcases origin with present | rfl
      · obtain ⟨item, place, rfl⟩ := mem_map.mp present
        exact wide found item place
      · rw [nulls, length_replicate]
        exact length_columnMap (named _ (mem_append_right _ (mem_singleton_self _)))
    rw [length_append, start, rest, width_append]
    simp [width]

end Widths

def JoinLayout.names (layout : JoinLayout) : List String := layout.flatMap fun leaf => leaf.2.map (·.name)

def JoinLayout.value (layout : JoinLayout) (row : Row X) (ref : String × String) : Option (Value X) :=
  (layout.position ref.1 ref.2).bind (row[·]?)

/-- `alias.column`, as an item of the list. -/
def qualifiedItem (ref : String × String) : Expr X := .columnRef ref.2 (some ref.1)

variable {name : String} {labels : List String} {catalog : Catalog} {all : List String} {items : List (SelectItem X)}
  {names : NameMap} {out : Row X} {i : ℕ} {refs : List (String × String)} {stmt : JoinSelect X} {column : String}

section Labels

omit [Runtime X]

theorem foldl_addName_cases (names out : List String) :
    (names.foldl addName out = out ++ names ∧ names.Nodup ∧ ∀ name ∈ names, name ∉ out) ∨
      ((names.foldl addName out).length < out.length + names.length ∧
        ¬ (names.Nodup ∧ ∀ name ∈ names, name ∉ out)) := by
  induction names generalizing out with
  | nil => exact .inl ⟨by simp, .nil, forall_mem_nil _⟩
  | cons name names ih =>
    rw [foldl_cons, addName, nodup_cons, forall_mem_cons]
    split_ifs with seen
    · refine .inr ⟨?_, fun distinct => distinct.2.1 seen⟩
      rcases ih out with ⟨same, -⟩ | ⟨short, -⟩
      · simp [same]
      · rw [length_cons]
        omega
    · rcases ih (out ++ [name]) with ⟨same, distinct, absent⟩ | ⟨short, twice⟩
      · refine .inl ⟨by simp [same], ⟨fun again => ?_, distinct⟩, seen, fun other member old => ?_⟩
        · exact absent name again (by simp)
        · exact absent other member (mem_append_left _ old)
      · refine .inr ⟨by simp at short ⊢; omega, ?_⟩
        rintro ⟨⟨first, distinct⟩, -, absent⟩
        refine twice ⟨distinct, fun other member old => ?_⟩
        rcases mem_append.mp old with old | same
        · exact absent other member old
        · exact first (mem_singleton.mp same ▸ member)

theorem mem_foldl_addName {names out : List String} : name ∈ names.foldl addName out ↔ name ∈ names ∨ name ∈ out := by
  induction names generalizing out with
  | nil => simp
  | cons first names ih =>
    rw [foldl_cons, ih, addName, mem_cons]
    split_ifs with seen
    · constructor
      · tauto
      · rintro ((rfl | member) | old)
        · exact .inr seen
        · exact .inl member
        · exact .inr old
    · simp only [mem_append, mem_singleton]
      tauto

theorem nameToIdx_eq_idxOf? (distinct : (columns.map (·.name)).Nodup) (name : String) :
    nameToIdx columns name = (columns.map (·.name)).idxOf? name := by
  induction columns with
  | nil => rfl
  | cons column columns ih =>
    rw [map_cons, nodup_cons] at distinct
    rw [nameToIdx, ih distinct.2, map_cons, idxOf?_cons]
    by_cases same : column.name = name
    · rw [idxOf?_eq_none_iff.mpr (same ▸ distinct.1)]
      simp [same]
    · simp only [same, beq_iff_eq, if_false]
      cases (columns.map (·.name)).idxOf? name <;> rfl

theorem barePosition_eq_idxOf? (named : layout.Named) (name : String) :
    layout.barePosition name = layout.names.idxOf? name := by
  induction layout with
  | nil => rfl
  | cons leaf rest ih =>
    rw [barePosition, nameToIdx_eq_idxOf? (named leaf mem_cons_self),
      ih fun other member => named other (mem_cons_of_mem _ member)]
    simp [names, idxOf?, findIdx?_append]

theorem length_names (layout : JoinLayout) : layout.names.length = layout.width := by
  simp [names, width, length_flatMap]

theorem joinedNames_eq {tables : List FromTable} (lays : LaysOut catalog tables layout)
    {names : List String} (joined : joinedNames catalog tables = .ok names) : names = layout.names := by
  obtain ⟨infos, found, rfl⟩ := bind_return_iff.mp joined
  have each := forall₂_of_mapM found
  clear found joined
  induction lays generalizing infos with
  | nil =>
    cases each
    rfl
  | cons first _ ih =>
    obtain ⟨info, got, rfl⟩ := first
    obtain ⟨info', others, got', later, rfl⟩ := forall₂_cons_left_iff.mp each
    cases got.symm.trans (requireTable_eq_ok.mp got')
    rw [flatMap_cons, ih others later]
    rfl

theorem rowAt_eq_ok {value : Value X} : rowAt row i = .ok value ↔ row[i]? = some value := by
  rw [rowAt]
  split <;> simp [*]

theorem aliasName_emitFrom (joined : joins ≠ []) : (emitFrom first joins).aliasName = none := by
  rcases eq_nil_or_concat' joins with rfl | ⟨early, last, rfl⟩
  · exact absurd rfl joined
  · rw [emitFrom_concat]
    rfl

theorem emitLogical_eq_ok {logical : LogicalPlan X}
    (emitted : emitLogical catalog stmt = .ok logical) : logical = emitFrom stmt.first stmt.joins := by
  rw [emitLogical] at emitted
  dsimp only at emitted
  split at emitted
  · obtain ⟨-, -, rfl⟩ := bind_return_iff.mp emitted
    rfl
  · obtain ⟨-, -, emitted⟩ := bind_ok_iff.mp emitted
    obtain ⟨-, -, rfl⟩ := bind_return_iff.mp emitted
    rfl

end Labels

theorem subset_joinItem (all out : List String) (item : SelectItem X) : out ⊆ joinItem all out item := by
  intro name old
  cases item with
  | star => exact mem_foldl_addName.mpr (.inr old)
  | expr e =>
    rw [joinItem, addName]
    split_ifs
    · exact old
    · exact mem_append_left _ old

theorem subset_foldl_joinItem (all out : List String) (items : List (SelectItem X)) :
    out ⊆ items.foldl (joinItem all) out := by
  induction items generalizing out with
  | nil => exact List.Subset.refl _
  | cons item items ih => exact List.Subset.trans (subset_joinItem all out item) (ih _)

theorem mem_joinProjectionColumns (star : .star ∈ items) : all ⊆ joinProjectionColumns all items := by
  obtain ⟨early, late, rfl⟩ := append_of_mem star
  rw [joinProjectionColumns, foldl_append, foldl_cons]
  exact fun name member => subset_foldl_joinItem _ _ late (mem_foldl_addName.mpr (.inl member))

theorem length_joinProjectionColumns (plain : .star ∉ items) :
    (joinProjectionColumns all items).length ≤ items.length := by
  have longer (out : List String) : (items.foldl (joinItem all) out).length ≤ out.length + items.length := by
    induction items generalizing out with
    | nil => simp
    | cons item items ih =>
      rw [mem_cons, not_or] at plain
      refine (ih plain.2 _).trans ?_
      cases item with
      | star => exact absurd rfl plain.1
      | expr e =>
        rw [joinItem, addName, length_cons]
        split_ifs
        · omega
        · rw [length_append, length_singleton]
          omega
  simpa [joinProjectionColumns] using longer []

theorem covers_join (resolves : Resolves names layout) (named : layout.Named)
    {keys : List OrderBy} (plain : ∀ key ∈ keys, Dotless key.column) (items : List (SelectItem X)) :
    (joinProjectionColumns layout.names items).length ≤ items.length ∨
      ∀ key ∈ keys, (names.get? key.column).isSome →
    (labelIndex (joinProjectionColumns layout.names items) key.column).isSome := by
  by_cases star : .star ∈ items
  · refine .inr fun key member known => labelIndex_isSome.mpr (mem_joinProjectionColumns star ?_)
    rw [resolves.bare (plain key member), barePosition_eq_idxOf? named] at known
    by_contra absent
    rw [idxOf?_eq_none_iff.mpr absent] at known
    exact nomatch known
  · exact .inl (length_joinProjectionColumns star)

theorem mem_of_filterJoined {filter : Option (Expr X)} {base kept : List (Row X)}
    (filtered : filterJoined names filter base = .ok kept) (member : row ∈ kept) : row ∈ base := by
  obtain ⟨answers, decided, rfl⟩ := bind_return_iff.mp filtered
  have rows : answers.map Prod.fst = base := map_of_mapM (fun row answer decided => by
    obtain ⟨accepted, -, same⟩ := bind_ok_iff.mp decided
    exact Except.ok.inj same ▸ rfl) decided
  obtain ⟨answer, chosen, rfl⟩ := mem_map.mp member
  exact rows ▸ mem_map_of_mem (mem_of_mem_filter chosen)

theorem joinProjectionColumns_expr (all : List String) (items : List (Expr X)) :
    joinProjectionColumns all (items.map .expr) = (items.map label).foldl addName [] := by
  rw [joinProjectionColumns, foldl_map, foldl_map]
  rfl

theorem exists_column_of_position {aliasName : String} (found : layout.position aliasName name = some i) :
    ∃ leaf ∈ layout, ∃ column ∈ leaf.2, column.name = name := by
  induction layout generalizing i with
  | nil => exact nomatch found
  | cons leaf rest ih =>
    obtain ⟨here, columns⟩ := leaf
    rw [position] at found
    split_ifs at found
    · exact ⟨_, mem_cons_self, nameToIdx_isSome.mp (found ▸ rfl)⟩
    · obtain ⟨j, later, -⟩ := Option.map_eq_some_iff.mp found
      obtain ⟨leaf, among, named⟩ := ih later
      exact ⟨leaf, mem_cons_of_mem _ among, named⟩

theorem forall₂_of_qualified (resolves : Resolves names layout) (proper : Proper layout)
    (known : ∀ ref ∈ refs, (layout.position ref.1 ref.2).isSome)
    (projected : projectRow names.get? row ((refs.map qualifiedItem).map .expr)
      ((refs.map (qualifiedItem (X := X))).map label) = .ok out) :
    Forall₂ (fun ref value => layout.value row ref = some value) refs out := by
  have reads : ReadsAs names.get? (refs.map qualifiedItem) row row := fun e member => by
    obtain ⟨ref, -, rfl⟩ := mem_map.mp member
    exact projectValue_column names.get? row rfl
  have each := forall₂_map_left_iff.mp (reads.projectRow_iff.mp projected)
  clear projected reads
  induction each with
  | nil => exact .nil
  | @cons ref value refs values first _ ih =>
    rw [forall_mem_cons] at known
    refine .cons ?_ (ih known.2)
    obtain ⟨i, found⟩ := Option.isSome_iff_exists.mp known.1
    obtain ⟨leaf, among, column, listed, name⟩ := exists_column_of_position found
    have index : names.get? (ref.1 ++ "." ++ ref.2) = some i :=
      (resolves.qualified (proper.aliases _ (mem_aliases_of_position found))
        (name ▸ proper.columns leaf among column listed)).trans found
    have read : evalExpr names.get? row (qualifiedItem ref) = rowAt row i := by
      simp only [qualifiedItem, evalExpr, evalColumn, Option.bind_some, index]
    rw [JoinLayout.value, found]
    exact rowAt_eq_ok.mp (read.symm.trans first)

theorem forall₂_of_bare {index : NameIdx}
    (unqualified : ∀ item ∈ items, qualifier item = none) (known : ∀ name ∈ labels, (index name).isSome)
    (projected : projectRow index row items labels = .ok out) :
    Forall₂ (fun name value => ∃ i, index name = some i ∧ row[i]? = some value) labels out := by
  induction labels generalizing items out with
  | nil =>
    cases projected
    exact .nil
  | cons name labels ih =>
    obtain ⟨value, first, others⟩ := bind_ok_iff.mp projected
    obtain ⟨values, later, rfl⟩ := bind_return_iff.mp others
    rw [forall_mem_cons] at known
    refine .cons ?_ (ih (fun item member => unqualified item (mem_of_mem_tail member)) known.2 later)
    obtain ⟨i, found⟩ := Option.isSome_iff_exists.mp known.1
    have bare : items.head?.bind qualifier = none := by
      cases items with
      | nil => rfl
      | cons item items => exact unqualified item mem_cons_self
    simp only [projectValue, slot, bare, Option.bind_none, found] at first
    exact ⟨i, found, rowAt_eq_ok.mp first⟩

theorem qualified_iff (resolves : Resolves names layout) (proper : Proper layout)
    (known : ∀ ref ∈ refs, (layout.position ref.1 ref.2).isSome)
    (projected : projectRow names.get? row ((refs.map qualifiedItem).map .expr)
      (joinProjectionColumns all ((refs.map (qualifiedItem (X := X))).map .expr)) = .ok out) :
    Forall₂ (fun ref value => layout.value row ref = some value) refs out ↔ (refs.map Prod.snd).Nodup := by
  have labels : (refs.map (qualifiedItem (X := X))).map label = refs.map Prod.snd := by
    rw [map_map]
    rfl
  rw [joinProjectionColumns_expr] at projected
  rcases foldl_addName_cases ((refs.map (qualifiedItem (X := X))).map label) []
    with ⟨same, distinct, -⟩ | ⟨short, twice⟩
  · rw [same, nil_append] at projected
    exact iff_of_true (forall₂_of_qualified resolves proper known projected) (labels ▸ distinct)
  · refine iff_of_false (fun answered => ?_) fun distinct => twice ⟨labels ▸ distinct, nofun⟩
    have wide := answered.length_eq
    rw [length_projectRow projected] at wide
    rw [labels, length_map, length_nil, Nat.zero_add, ← labels, ← wide] at short
    exact lt_irrefl _ short

theorem star_iff (resolves : Resolves names layout) (proper : Proper layout) (named : layout.Named)
    (wide : row.length = layout.width)
    (projected : projectRow names.get? row [.star] (joinProjectionColumns layout.names [(.star : SelectItem X)]) =
      .ok out) :
    out = row ↔ layout.names.Nodup := by
  have listed : joinProjectionColumns layout.names [(.star : SelectItem X)] = layout.names.foldl addName [] := rfl
  have size := length_projectRow projected
  rw [listed] at projected size
  rcases foldl_addName_cases layout.names [] with ⟨same, distinct, -⟩ | ⟨short, twice⟩
  · rw [same, nil_append] at projected size
    have bare (name : String) (member : name ∈ layout.names) : names.get? name = layout.names.idxOf? name := by
      obtain ⟨leaf, among, here⟩ := mem_flatMap.mp member
      obtain ⟨column, listed, rfl⟩ := mem_map.mp here
      rw [resolves.bare (proper.columns leaf among column listed), barePosition_eq_idxOf? named]
    have values := forall₂_of_bare (fun item member => mem_singleton.mp member ▸ rfl) (fun name member => by
      rw [bare name member]
      simpa [Option.isSome_iff_ne_none] using member) projected
    refine iff_of_true (ext_getElem (by rw [size, length_names, wide]) fun j inside inside' => ?_) distinct
    obtain ⟨i, index, read⟩ := (forall₂_iff_get.mp values).2 j (size ▸ inside) inside
    rw [bare _ (get_mem ..), idxOf?_eq_some_iff] at index
    obtain ⟨within, same, -⟩ := index
    obtain rfl := (distinct.getElem_inj_iff).mp same
    rw [getElem?_eq_getElem inside'] at read
    exact (Option.some.inj read).symm
  · refine iff_of_false (fun whole => ?_) fun distinct => twice ⟨distinct, nofun⟩
    rw [whole, wide, ← length_names] at size
    simp at short
    omega

theorem planJoinSelect_eq_ok {indexer : Option (List (LiveIndex X))}
    (planned : planJoinSelect catalog indexer stmt = .ok (plan, labels)) :
    emitPhysical catalog indexer (emitFrom stmt.first stmt.joins) = .ok plan ∧
      ∃ names, joinedNames catalog stmt.tables = .ok names ∧
      labels = joinProjectionColumns names stmt.clauses.columns := by
  obtain ⟨logical, emitted, later⟩ := bind_ok_iff.mp planned
  obtain rfl := emitLogical_eq_ok emitted
  obtain ⟨plan', physical, later⟩ := bind_ok_iff.mp later
  obtain ⟨names, joined, later⟩ := bind_ok_iff.mp later
  have ended : (plan', joinProjectionColumns names stmt.clauses.columns) = (plan, labels) := by
    dsimp only at later
    split at later
    · exact Except.ok.inj later
    · obtain ⟨-, -, same⟩ := bind_return_iff.mp later
      exact same
  cases ended
  exact ⟨physical, names, joined, rfl⟩

/-- Every row of the result comes from a row of the join. A list of qualified columns is answered on it in its order
exactly if no two of them have the same name, and `*` is answered by the whole row exactly if no two columns of the
joined tables have the same name. -/
theorem join_list_positional_iff {ctx : Snapshot X} (keyed : Keyed ctx.catalog) (wide : ctx.Wide)
    (joined : stmt.joins ≠ []) (lays : LaysOut ctx.catalog stmt.tables layout) (proper : Proper layout)
    (named : layout.Named) (plain : ∀ key ∈ stmt.clauses.orderBy, Dotless key.column) {out : List (Row X)}
    (selected : selectJoin ctx stmt = .ok out) :
    ∃ plan names base kept rows, emitPhysical ctx.catalog ctx.indexer (emitFrom stmt.first stmt.joins) = .ok plan ∧
      rowN2i ctx.catalog plan none = .ok names ∧ openPlan ctx plan = .ok base ∧
      filterJoined names stmt.filter base = .ok kept ∧
      rows.Subperm kept ∧
      (∀ refs, stmt.clauses.columns = (refs.map qualifiedItem).map .expr →
        (∀ ref ∈ refs, (layout.position ref.1 ref.2).isSome) →
        Forall₂ (fun row o => Forall₂ (fun ref value => layout.value row ref = some value) refs o ↔
          (refs.map Prod.snd).Nodup) rows out) ∧
      (stmt.clauses.columns = [.star] → Forall₂ (fun row o => o = row ↔ layout.names.Nodup) rows out) := by
  obtain ⟨⟨plan, labels⟩, planned, selected⟩ := bind_ok_iff.mp selected
  obtain ⟨names, mapped, selected⟩ := bind_ok_iff.mp selected
  obtain ⟨base, opened, selected⟩ := bind_ok_iff.mp selected
  obtain ⟨kept, filtered, answered⟩ := bind_ok_iff.mp selected
  obtain ⟨physical, all, listed, rfl⟩ := planJoinSelect_eq_ok planned
  obtain rfl := joinedNames_eq lays listed
  have resolves : Resolves names layout :=
    resolves_emitFrom keyed physical lays proper (aliasName_emitFrom joined ▸ mapped)
  obtain ⟨rows, among, related⟩ := answer_projects (covers_join resolves named plain _) answered
  have inside : ∀ row ∈ rows, row.length = layout.width := fun row member =>
    length_of_emitFrom keyed wide lays named physical opened row (mem_of_filterJoined filtered (among.subset member))
  refine ⟨plan, names, base, kept, rows, physical, mapped, opened, filtered, among,
    fun refs items known => ?_, fun star => ?_⟩
  · rw [items] at related
    exact related.imp fun row o projected => qualified_iff resolves proper known projected
  · rw [star] at related
    exact ((forall₂_and_left ..).mpr ⟨inside, related⟩).imp fun row o ⟨size, projected⟩ =>
      star_iff resolves proper named size projected

def pairLeft : TableMeta := ⟨1, "a", [⟨"m", .int, false, false, false⟩], 2⟩

def pairRight (column : String) : TableMeta := ⟨2, "b", [⟨column, .int, false, false, false⟩], 3⟩

/-- `a (m INT)` with the row `(1)` and `b (column INT)` with the row `(2)`. -/
def pair (column : String) : Snapshot Unit :=
  { catalog := ⟨.ofWrites [("a", pairLeft), ("b", pairRight column)], 3⟩
    rows := fun table => if table = "a" then [(⟨2, 0⟩, [.int 1])] else [(⟨3, 0⟩, [.int 2])]
    indexer := some []
    search := fun index => index.tree.search }

/-- `SELECT ... FROM a x JOIN b y ON x.m < y.column`. -/
def pairSelect (column : String) (items : List (SelectItem Unit)) : JoinSelect Unit :=
  { first := ⟨"a", some "x"⟩
    joins := [⟨.inner, ⟨"b", some "y"⟩, .binaryOp (.order .lt) (.columnRef "m" (some "x"))
      (.columnRef column (some "y"))⟩]
    filter := none
    clauses := ⟨items, [], none, none⟩ }

def pairLayout (column : String) : JoinLayout := [("x", pairLeft.columns), ("y", (pairRight column).columns)]

theorem pair_known (found : (pair column).catalog.byName.get? name = some info) :
    name = "a" ∧ info = pairLeft ∨ name = "b" ∧ info = pairRight column := by
  rw [show (pair column).catalog.byName = .ofWrites [("a", pairLeft), ("b", pairRight column)] from rfl] at found
  have member := (Dict.get?_ofWrites_of_nodup (by simp)).mp found
  simpa using member

theorem keyed_pair (column : String) : Keyed (pair column).catalog := by
  intro name info found
  rcases pair_known found with ⟨rfl, rfl⟩ | ⟨rfl, rfl⟩ <;> rfl

theorem wide_pair (column : String) : (pair column).Wide := by
  intro name info found
  rcases pair_known found with ⟨rfl, rfl⟩ | ⟨rfl, rfl⟩ <;> simp [pair, pairLeft, pairRight]

theorem joins_pair (column : String) (items : List (SelectItem Unit)) :
    (pairSelect column items).joins ≠ [] := cons_ne_nil _ _

theorem lays_pair (column : String) (items : List (SelectItem Unit)) :
    LaysOut (pair column).catalog (pairSelect column items).tables (pairLayout column) :=
  .cons ⟨pairLeft, rfl, rfl⟩ (.cons ⟨pairRight column, rfl, rfl⟩ .nil)

theorem proper_pair (plain : Dotless column) : Proper (pairLayout column) := by
  refine ⟨by simp [aliases, pairLayout], ?_, ?_⟩
  · simp [aliases, pairLayout, Dotless]
  · simp [pairLayout, pairLeft, pairRight, Dotless] at plain ⊢
    exact plain

theorem named_pair (column : String) : (pairLayout column).Named := by
  simp [JoinLayout.Named, pairLayout, pairLeft, pairRight]

/-- `SELECT y.n, x.m` gives the values in the order of the list. -/
theorem join_list_positional_pair : ∃ row : Row Unit,
    selectJoin (pair "n") (pairSelect "n" [.expr (.columnRef "n" (some "y")), .expr (.columnRef "m" (some "x"))]) =
      .ok [[.int 2, .int 1]] ∧
    Forall₂ (fun ref value => (pairLayout "n").value row ref = some value) [("y", "n"), ("x", "m")]
      [.int 2, .int 1] := by
  have selected : selectJoin (pair "n") (pairSelect "n"
    [.expr (.columnRef "n" (some "y")), .expr (.columnRef "m" (some "x"))]) =
    .ok [[.int 2, .int 1]] := rfl
  obtain ⟨plan, names, base, kept, rows, -, -, -, -, -, listed, -⟩ :=
    join_list_positional_iff (keyed_pair "n") (wide_pair "n")
    (joins_pair "n" _) (lays_pair "n" _) (proper_pair (by simp [Dotless])) (named_pair "n") nofun selected
  obtain ⟨row, _, iff, -, -⟩ := forall₂_cons_right_iff.mp (listed [("y", "n"), ("x", "m")] rfl (by decide))
  exact ⟨row, selected, iff.mpr (by decide)⟩

/-- With a column `m` in both tables, `SELECT x.m, y.m` and `SELECT *` have rows of one value. -/
theorem shared_name_dropped :
    (¬ ∀ (ctx : Snapshot Unit) (stmt : JoinSelect Unit) (layout : JoinLayout) (refs : List (String × String))
      (out : List (Row Unit)),
      Keyed ctx.catalog → ctx.Wide → stmt.joins ≠ [] → LaysOut ctx.catalog stmt.tables layout →
      Proper layout → layout.Named →
      stmt.clauses.columns = (refs.map qualifiedItem).map .expr → (∀ ref ∈ refs, (layout.position ref.1 ref.2).isSome) →
      selectJoin ctx stmt = .ok out → ∀ o ∈ out, o.length = refs.length) ∧
    ¬ ∀ (ctx : Snapshot Unit) (stmt : JoinSelect Unit) (layout : JoinLayout) (out : List (Row Unit)),
      Keyed ctx.catalog → ctx.Wide → stmt.joins ≠ [] → LaysOut ctx.catalog stmt.tables layout →
      Proper layout → layout.Named →
      stmt.clauses.columns = [.star] → selectJoin ctx stmt = .ok out → ∀ o ∈ out, o.length = layout.width := by
  have proper : Proper (pairLayout "m") := proper_pair (by simp [Dotless])
  refine ⟨fun claimed => ?_, fun claimed => ?_⟩
  · have selected : selectJoin (pair "m")
      (pairSelect "m" [.expr (.columnRef "m" (some "x")), .expr (.columnRef "m" (some "y"))]) =
      .ok [[.int 1]] := rfl
    exact absurd (claimed _ _ _ [("x", "m"), ("y", "m")] _ (keyed_pair "m") (wide_pair "m")
      (joins_pair "m" _) (lays_pair "m" _) proper
      (named_pair "m") rfl (by decide) selected _ (mem_singleton_self _)) (by decide)
  · have selected : selectJoin (pair "m") (pairSelect "m" [.star]) = .ok [[.int 1]] := rfl
    exact absurd (claimed _ _ _ _ (keyed_pair "m") (wide_pair "m") (joins_pair "m" _) (lays_pair "m" _)
      proper (named_pair "m") rfl selected _ (mem_singleton_self _)) (by decide)

end Tinydb.Executor
