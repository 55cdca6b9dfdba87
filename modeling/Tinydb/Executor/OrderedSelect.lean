import Tinydb.Executor.SelectList
import Tinydb.Lib.Grouping

/-! ORDER BY beside the select list.

`Sort` stands above `Project`. If all keys are labels, the projected rows are sorted by them;
otherwise the rows below `Project` are sorted and cut down to the labels afterwards, for which every
label must be the name of a column. Both ways sort the rows of the source as they come, which with an
index need not be the rows of the table, nor in their order.
-/

namespace Tinydb.Executor

open Lib Program Tinydb.Types Sql Storage Tx Index List
open Storage.Heap (Rid)

variable {X : Type} [Runtime X] {index : NameIdx} {labels : List String} {listed : List (SelectItem X)}
  {row out : Row X} {name : String}

/-- The rows in the order of the clause, each answered item by item. -/
def SortedAnswers (index : NameIdx) (table : String) (keys : List OrderBy) (items : List (Expr X))
    (rows out : List (Row X)) : Prop :=
  ∃ sorted, sortRows index table keys rows = .ok sorted ∧ Forall₂ (Answers index items) sorted out

/-- There is nothing to sort by, all keys are labels of items, or all labels are names of columns. -/
def KeysFound (columns : List String) (keys : List OrderBy) (labels : List String) : Prop :=
  keys = [] ∨ (∀ key ∈ keys, key.column ∈ labels) ∨ ∀ name ∈ labels, name ∈ columns

/-- Sorted, the rows of the source read as the rows asked for. -/
def Agree (index : NameIdx) (table : String) (keys : List OrderBy) (items : List (Expr X))
    (base rows : List (Row X)) : Prop :=
  ∃ delivered asked, sortRows index table keys base = .ok delivered ∧ sortRows index table keys rows = .ok asked ∧
    (delivered = [] ∧ asked = [] ∨ ListedOnce items ∧ Forall₂ (ReadsAs index items) delivered asked)

/-- What it takes of a source that a row asked for is projected to its answers. Rows of the table may not have an item
mistaken for a column; the rows that an index finds in addition have to agree with those of the table. -/
def Delivers (scanned : IndexScan X → Except Exc (List Rid)) (info : TableMeta) (filter : Option (Expr X))
    (keys : List OrderBy) (items : List (Expr X)) (db : Database X) (rows : List (Row X)) : Source X → Prop
  | .seqScan => rows = [] ∨ ListedOnce items ∧ ∀ row ∈ rows, Unshadowed (nameToIdx info.columns) row items
  | .indexScan scan => ∃ base, (sourceRows scanned info filter (.indexScan scan)).Returns db base db ∧
      Agree (nameToIdx info.columns) info.name keys items base rows

def Bare (index : NameIdx) : Prop := ∀ table name, index (table ++ "." ++ name) = none

theorem bare_nameToIdx {columns : List Column} (undotted : ∀ column ∈ columns, '.' ∉ column.name.toList) :
    Bare (nameToIdx columns) := by
  intro table name
  by_contra found
  obtain ⟨column, among, named⟩ := nameToIdx_isSome.mp (Option.isSome_iff_ne_none.mpr found)
  refine undotted column among ?_
  simp [named]

omit [Runtime X] in
theorem Bare.slot_eq (bare : Bare index) (item : Option (SelectItem X)) (name : String) :
    slot index item name = index name := by
  rw [slot]
  cases item.bind qualifier with
  | none => rfl
  | some table => rw [Option.bind_some, bare table name]

theorem rowAt_of_projectRow (bare : Bare index) (projected : projectRow index row listed labels = .ok out) {j i : ℕ}
    (labelled : labels[j]? = some name) (named : index name = some i) : rowAt out j = rowAt row i := by
  induction labels generalizing listed out j with
  | nil => simp at labelled
  | cons first labels ih =>
    obtain ⟨value, here, others⟩ := bind_ok_iff.mp projected
    obtain ⟨rest, later, rfl⟩ := bind_return_iff.mp others
    cases j with
    | zero =>
      obtain rfl : first = name := by simpa using labelled
      have read : projectValue index row listed.head? first = rowAt row i := by
        unfold projectValue
        rw [bare.slot_eq, named]
      exact here.symm.trans read
    | succ j => exact ih later (by simpa using labelled)

theorem getElem?_of_labelIndex {j : ℕ} (found : labelIndex labels name = some j) : labels[j]? = some name := by
  rw [labelIndex] at found
  exact mem_zipIdx_iff_getElem?.mp (Dict.mem_of_mem_items_ofWrites (Dict.mem_of_get? found))

theorem sortKey_of_projectRow (bare : Bare index) {keys : List OrderBy} (labelled : ∀ key ∈ keys, key.column ∈ labels)
    (known : ∀ key ∈ keys, (index key.column).isSome) (projected : projectRow index row listed labels = .ok out) :
    sortKey (labelIndex labels) keys out = sortKey index keys row := by
  induction keys with
  | nil => rfl
  | cons key keys ih =>
    obtain ⟨here, later⟩ := forall_mem_cons.mp labelled
    obtain ⟨hereKnown, laterKnown⟩ := forall_mem_cons.mp known
    obtain ⟨j, found⟩ := Option.isSome_iff_exists.mp (labelIndex_isSome.mpr here)
    obtain ⟨i, named⟩ := Option.isSome_iff_exists.mp hereKnown
    have rest := ih later laterKnown
    rw [sortKey, sortKey] at rest ⊢
    rw [mapM_cons, mapM_cons, rest, found, named]
    simp only [rowAt_of_projectRow bare projected (getElem?_of_labelIndex found) named]

omit [Runtime X] in
theorem resolved_iff (bare : Bare index) (covers : labels.length ≤ listed.length) :
    (∃ slots, (listed.zip labels).mapM (fun pair => resolveProjIndex index (some pair.1) pair.2) = .ok slots) ↔
      ∀ name ∈ labels, (index name).isSome := by
  have one (item : SelectItem X) (name : String) : (∃ i, resolveProjIndex index (some item) name = .ok i) ↔
    (index name).isSome := by
    rw [resolveProjIndex, bare.slot_eq]
    cases index name <;> simp
  constructor
  · rintro ⟨slots, resolved⟩ name among
    rw [← map_snd_zip covers] at among
    obtain ⟨pair, member, rfl⟩ := mem_map.mp among
    exact (one pair.1 pair.2).mp (exists_of_forall₂ (forall₂_of_mapM resolved) pair member)
  · intro each
    obtain ⟨slots, related⟩ := exists_forall₂ fun pair (member : pair ∈ listed.zip labels) =>
      (one pair.1 pair.2).mpr (each pair.2 (of_mem_zip member).2)
    exact ⟨slots, mapM_of_forall₂ related⟩

variable {index' : NameIdx} {table : String} {keys : List OrderBy} {rows images sorted base out : List (Row X)}
  {info : TableMeta} {items : List (Expr X)}

def withKey (index : NameIdx) (keys : List OrderBy) (row : Row X) : Except Exc (List (ℕ × SortValue X) × Row X) := do
  return (← sortKey index keys row, row)

theorem sortRows_eq_ok_iff : sortRows index table keys rows = .ok sorted ↔
    (∀ key ∈ keys, (index key.column).isSome) ∧ ∃ keyed ordered, rows.mapM (withKey index keys) = .ok keyed ∧
      sortBy (fun a b => keyLess a.1 b.1) keyed = .ok ordered ∧ ordered.map Prod.snd = sorted := by
  constructor
  · intro done
    refine ⟨mem_names_of_sortRows done, ?_⟩
    rw [sortRows] at done
    split at done
    · cases done
    · obtain ⟨keyed, encoded, sorting⟩ := bind_ok_iff.mp done
      obtain ⟨ordered, arranged, same⟩ := bind_return_iff.mp sorting
      exact ⟨keyed, ordered, encoded, arranged, same⟩
  · rintro ⟨known, keyed, ordered, encoded, arranged, rfl⟩
    have none : keys.find? (fun key => (index key.column).isNone) = none := by
      refine find?_eq_none.mpr fun key member => ?_
      rw [Option.isNone_eq_false_iff.mpr (known key member)]
      exact Bool.false_ne_true
    rw [sortRows, none]
    exact bind_ok_iff.mpr ⟨keyed, encoded, bind_ok_iff.mpr ⟨ordered, arranged, rfl⟩⟩

theorem sortRows_related {R : Row X → Row X → Prop} (known : ∀ key ∈ keys, (index' key.column).isSome)
    (alike : ∀ row image, R row image → sortKey index' keys image = sortKey index keys row)
    (related : Forall₂ R rows images) (done : sortRows index table keys rows = .ok sorted) :
    ∃ sorted', sortRows index' table keys images = .ok sorted' ∧ Forall₂ R sorted sorted' := by
  obtain ⟨-, keyed, ordered, encoded, arranged, rfl⟩ := sortRows_eq_ok_iff.mp done
  have both : ∃ keyed', images.mapM (withKey index' keys) = .ok keyed' ∧
      Forall₂ (fun p q => q.1 = p.1 ∧ R p.2 q.2) keyed keyed' := by
    clear arranged done
    induction related generalizing keyed with
    | nil =>
      cases encoded
      exact ⟨[], rfl, .nil⟩
    | @cons row image rows images first _ ih =>
      rw [mapM_cons] at encoded
      obtain ⟨pair, here, others⟩ := bind_ok_iff.mp encoded
      obtain ⟨rest, later, rfl⟩ := bind_return_iff.mp others
      obtain ⟨key, made, rfl⟩ := bind_return_iff.mp here
      obtain ⟨rest', later', related'⟩ := ih rest later
      refine ⟨(key, image) :: rest', ?_, .cons ⟨rfl, first⟩ related'⟩
      rw [mapM_cons, later', withKey, alike row image first, made]
      rfl
  obtain ⟨keyed', encoded', related'⟩ := both
  have compared : ∀ a a' b b' : List (ℕ × SortValue X) × Row X, (a'.1 = a.1 ∧ R a.2 a'.2) → (b'.1 = b.1 ∧ R b.2 b'.2) →
      keyLess a'.1 b'.1 = keyLess a.1 b.1 := fun a a' b b' here there => by rw [here.1, there.1]
  obtain ⟨ordered', arranged', sorted'⟩ := sortBy_related compared related' arranged
  refine ⟨ordered'.map Prod.snd, sortRows_eq_ok_iff.mpr ⟨known, keyed', ordered', encoded', arranged', rfl⟩, ?_⟩
  rw [forall₂_map_left_iff, forall₂_map_right_iff]
  exact sorted'.imp fun _ _ pair => pair.2

theorem sortRows_nil (rows : List (Row X)) : sortRows index table [] rows = .ok rows := by
  have encoded : rows.mapM (withKey index []) = .ok (rows.map ([], ·)) := mapM_eq_ok fun _ _ => rfl
  have related : Forall₂ (fun row (pair : List (ℕ × SortValue X) × Row X) => pair = ([], row))
    rows (rows.map ([], ·)) := by
    rw [forall₂_map_right_iff]
    exact forall₂_same.mpr fun _ _ => rfl
  have compared : ∀ (a : Row X) (a' : List (ℕ × SortValue X) × Row X) (b : Row X) (b' : List (ℕ × SortValue X) × Row X),
      a' = ([], a) → b' = ([], b) → keyLess a'.1 b'.1 = .ok false := by
    rintro a _ b _ rfl rfl
    rfl
  obtain ⟨ordered, arranged, sorted⟩ := sortBy_related compared related (sortBy_of_never (fun _ _ => rfl) rows)
  refine sortRows_eq_ok_iff.mpr ⟨forall_mem_nil _, _, ordered, encoded, arranged, ?_⟩
  rw [← forall₂_eq_eq_eq, forall₂_map_left_iff]
  exact sorted.flip.imp fun _ _ same => by rw [same]

/-- The rows of a select list with a clause are the projections of the rows in the order of the clause, if the clause
finds its keys at all. -/
theorem sortProjected_eq_ok_iff (bare : Bare index) (covers : labels.length ≤ listed.length)
    (known : ∀ key ∈ keys, (index key.column).isSome) : sortProjected index table listed labels keys base = .ok out ↔
      (keys = [] ∨ (∀ key ∈ keys, key.column ∈ labels) ∨ ∀ name ∈ labels, (index name).isSome) ∧
        ∃ sorted, sortRows index table keys base = .ok sorted ∧
          Forall₂ (fun row o => projectRow index row listed labels = .ok o) sorted out := by
  have unlabelled : (keys.any fun key => (labelIndex labels key.column).isNone) = true ↔
    ¬ ∀ key ∈ keys, key.column ∈ labels := by
    simp only [any_eq_true, Option.isNone_iff_eq_none, ← labelIndex_isSome, Option.isSome_iff_ne_none]
    push Not
    rfl
  constructor
  · intro returned
    obtain ⟨rows, all, chosen⟩ := bind_ok_iff.mp returned
    have related := forall₂_of_mapM all
    split_ifs at chosen with noKeys missing
    · subst noKeys
      cases chosen
      exact ⟨.inl rfl, base, sortRows_nil base, related⟩
    · obtain ⟨slots, resolved, ordering⟩ := bind_ok_iff.mp chosen
      obtain ⟨sorted, arranged, cut⟩ := bind_ok_iff.mp ordering
      refine ⟨.inr (.inr ((resolved_iff bare covers).mp ⟨slots, resolved⟩)), sorted, arranged, ?_⟩
      refine (forall₂_of_mapM cut).imp fun row o kept => ?_
      rw [projectRow_eq_slots covers resolved]
      exact kept
    · have labelled := not_not.mp (mt unlabelled.mpr missing)
      obtain ⟨sorted, arranged, related'⟩ := sortRows_related known
        (fun _ _ projected => (sortKey_of_projectRow bare labelled known projected).symm) related.flip chosen
      exact ⟨.inr (.inl labelled), sorted, arranged, related'.flip⟩
  · rintro ⟨found, sorted, done, related⟩
    have perm := perm_of_sortRows done
    obtain ⟨rows, projected⟩ := exists_forall₂ fun row (member : row ∈ base) =>
      exists_of_forall₂ related row (perm.mem_iff.mpr member)
    refine bind_ok_iff.mpr ⟨rows, mapM_of_forall₂ projected, ?_⟩
    split_ifs with noKeys missing
    · subst noKeys
      cases (sortRows_nil base).symm.trans done
      rw [forall₂_agree (fun _ _ _ _ here there => Except.ok.inj (here.symm.trans there)) projected related]
      rfl
    · have names := (found.resolve_left noKeys).resolve_left (unlabelled.mp missing)
      obtain ⟨slots, resolved⟩ := (resolved_iff bare covers).mpr names
      refine bind_ok_iff.mpr ⟨slots, resolved, bind_ok_iff.mpr ⟨sorted, done, mapM_of_forall₂ ?_⟩⟩
      refine related.imp fun row o kept => ?_
      rw [← projectRow_eq_slots covers resolved]
      exact kept
    · have labelled := not_not.mp (mt unlabelled.mpr missing)
      obtain ⟨sorted', arranged, related'⟩ :=
        sortRows_related (fun key member => labelIndex_isSome.mpr (labelled key member))
        (fun _ _ projected => sortKey_of_projectRow bare labelled known projected) projected done
      rw [arranged, forall₂_agree (fun _ _ _ _ here there => Except.ok.inj (here.symm.trans there)) related' related]

theorem mem_projectItems {names before after : List String}
    (listed : (items.map SelectItem.expr).foldlM (projectItem names) before = .ok after) (name : String) :
    name ∈ after ↔ name ∈ before ∨ name ∈ items.map label := by
  induction items generalizing before with
  | nil =>
    cases listed
    simp
  | cons e rest ih =>
    rw [map_cons, foldlM_cons] at listed
    obtain ⟨mid, first, later⟩ := bind_ok_iff.mp listed
    rw [ih later, map_cons, mem_cons]
    rcases projectItem_cases first with ⟨rfl, -⟩ | ⟨rfl, -, old⟩
    · simp [or_assoc]
    · have known : name = label e → name ∈ mid := fun same => same ▸ old
      tauto

theorem mem_projectColumns (listed : projectColumns info (items.map .expr) = .ok labels) (name : String) :
    name ∈ labels ↔ name ∈ items.map label := by
  rw [projectColumns_expr] at listed
  simpa using mem_projectItems listed name

theorem projectColumns_defined (known : ∀ e ∈ items, isColumn e → label e ∈ columnNames info) :
    ∃ labels, projectColumns info (items.map .expr) = .ok labels := by
  have run : ∀ before, ∃ labels, (items.map SelectItem.expr).foldlM (projectItem (columnNames info)) before =
    .ok labels := by
    induction items with
    | nil => exact fun before => ⟨before, rfl⟩
    | cons e rest ih =>
      intro before
      obtain ⟨here, later⟩ := forall_mem_cons.mp known
      obtain ⟨mid, first⟩ : ∃ mid, projectItem (columnNames info) before (.expr e) = .ok mid := by
        cases e with
        | columnRef name table => exact ⟨_, if_pos (here rfl)⟩
        | literal | typedLiteral | binaryOp | unaryOp | aggregate => exact ⟨_, rfl⟩
      obtain ⟨labels, done⟩ := ih later mid
      exact ⟨labels, by rw [map_cons, foldlM_cons, first]; exact done⟩
  rw [projectColumns_expr]
  exact run []

theorem mem_columnNames : name ∈ columnNames info ↔ (nameToIdx info.columns name).isSome := by
  rw [nameToIdx_isSome, columnNames, mem_map]

theorem agree_iff_forall₂ {delivered asked out : List (Row X)}
    (listed : projectColumns info (items.map .expr) = .ok labels)
    (answers : Forall₂ (Answers index items) asked out) :
    Forall₂ (fun row o => projectRow index row (items.map .expr) labels = .ok o) delivered out ↔
      delivered = [] ∧ asked = [] ∨ ListedOnce items ∧ Forall₂ (ReadsAs index items) delivered asked := by
  constructor
  · intro projected
    cases delivered with
    | nil =>
      obtain rfl := forall₂_nil_left_iff.mp projected
      exact .inl ⟨rfl, forall₂_nil_right_iff.mp answers⟩
    | cons row rows =>
      obtain ⟨o, _, first, -, rfl⟩ := forall₂_cons_left_iff.mp projected
      obtain ⟨ask, _, answered, -, rfl⟩ := forall₂_cons_right_iff.mp answers
      have once := listedOnce_of_projectRow listed first answered.length_eq.symm
      obtain rfl := labels_of_listedOnce listed once
      exact .inr ⟨once, forall₂_through projected answers fun _ _ _ => readsAs_of_projectRow⟩
  · rintro (⟨rfl, rfl⟩ | ⟨once, reads⟩)
    · obtain rfl := forall₂_nil_left_iff.mp answers
      exact .nil
    · obtain rfl := labels_of_listedOnce listed once
      exact forall₂_through reads answers.flip fun _ _ _ read => read.projectRow_iff.mpr

/-- The rows are those of the select list on the sorted rows if the rows of the source agree with them and the keys are
found. -/
theorem sortProjected_answers_iff
    (undotted : ∀ column ∈ info.columns, '.' ∉ column.name.toList) (known : ∀ key ∈ keys, key.column ∈ columnNames info)
    (listed : projectColumns info (items.map .expr) = .ok labels) :
    (∃ out, SortedAnswers (nameToIdx info.columns) info.name keys items rows out ∧
        sortProjected (nameToIdx info.columns) info.name (items.map .expr) labels keys base = .ok out) ↔
      (∃ out, SortedAnswers (nameToIdx info.columns) info.name keys items rows out) ∧
        KeysFound (columnNames info) keys (items.map label) ∧
        Agree (nameToIdx info.columns) info.name keys items base rows := by
  have covers : labels.length ≤ (items.map SelectItem.expr).length := by
    rw [length_map]
    exact length_projectColumns listed
  have found : (keys = [] ∨ (∀ key ∈ keys, key.column ∈ labels) ∨ ∀ name ∈ labels,
    (nameToIdx info.columns name).isSome) ↔
      KeysFound (columnNames info) keys (items.map label) := by
    simp only [KeysFound, mem_projectColumns listed, mem_columnNames]
  simp only [sortProjected_eq_ok_iff (bare_nameToIdx undotted) covers fun key member =>
    mem_columnNames.mp (known key member), found]
  constructor
  · rintro ⟨out, ⟨asked, done, answers⟩, keysFound, delivered, sorted, projected⟩
    exact ⟨⟨out, asked, done, answers⟩, keysFound, delivered, asked, sorted, done,
      (agree_iff_forall₂ listed answers).mp projected⟩
  · rintro ⟨⟨out, asked, done, answers⟩, keysFound, delivered, asked', sorted, done', agree⟩
    cases done.symm.trans done'
    exact ⟨out, ⟨asked, done, answers⟩, keysFound, delivered, sorted, (agree_iff_forall₂ listed answers).mpr agree⟩

/-- Read from the table, the rows agree with themselves unless an item is dropped or mistaken for a column. -/
theorem agree_self (done : sortRows index table keys rows = .ok sorted) : Agree index table keys items rows rows ↔
    rows = [] ∨ ListedOnce items ∧ ∀ row ∈ rows, Unshadowed index row items := by
  have perm := perm_of_sortRows done
  have empty : sorted = [] ↔ rows = [] := by rw [← length_eq_zero_iff, perm.length_eq, length_eq_zero_iff]
  have reads : Forall₂ (ReadsAs index items) sorted sorted ↔ ∀ row ∈ rows, Unshadowed index row items := by
    simp only [forall₂_same, readsAs_self, perm.mem_iff]
  rw [← reads, ← empty]
  constructor
  · rintro ⟨delivered, asked, here, there, agree⟩
    cases done.symm.trans here
    cases done.symm.trans there
    exact agree.imp_left And.left
  · exact fun agree => ⟨sorted, sorted, done, done, agree.imp_left fun none => ⟨none, none⟩⟩

/-- `SELECT ... FROM t ORDER BY a`. -/
def orderedList (items : List (Expr Unit)) : TableSelect Unit :=
    ⟨"t", none, ⟨items.map .expr, [⟨"a", false⟩], none, none⟩⟩

/-- `t (a INT)` with the rows `(7)` and `(3)`. -/
def sevenThree : Database Unit := (execute (.insert "t" none [[.int 7], [.int 3]]) (numbers [1])).state

theorem heapFor_sevenThree : (heapFor numbersInfo).Returns sevenThree () sevenThree :=
  returns_heapFor_bound (by decide +kernel)

theorem filtered_sevenThree :
    (sourceRows IndexScan.rids numbersInfo none .seqScan).Returns sevenThree [[.int 7], [.int 3]] sevenThree :=
  ⟨by decide +kernel, (reads_sourceRows _ _ _ _).state _⟩

end Tinydb.Executor
