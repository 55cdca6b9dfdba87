import Tinydb.Executor.Relational
import Tinydb.Server.Substitute
import Tinydb.Sql.Parser

/-! Parameters as values.

A parameter is spelled as text, read by the tokenizer and put into the VALUES list by
the parser. A negative number is spelled with a sign, which is a token of its own, and
the VALUES list takes a single literal.
-/

namespace Tinydb.Server

open Lib Tinydb.Types Sql Storage Executor List Function
open Storage.Heap (Layout Rid)

variable {X : Type} [Runtime X] [Lexicon X] {tag : TypeTag} {value a b c : Value X} {table : String} {rest : List Char}
  {lexemes : List (Lexeme X)}

def paramLexemes : Value X → List (Lexeme X)
  | .none => [.nullLit]
  | .bool b => [.boolLit b]
  | .int (.ofNat n) => [.intLit n]
  | .int (.negSucc n) => [.op .sub, .intLit (n + 1 : ℕ)]
  | .str s => [.stringLit s]
  | _ => []

/-- The parameters that a client of these columns sends. -/
inductive Sent : TypeTag → Value X → Prop
  | null (tag : TypeTag) : Sent tag .none
  | int (i : ℤ) (range : -(2 ^ 63) ≤ i ∧ i < 2 ^ 63) : Sent .int (.int i)
  | bool (b : Bool) : Sent .bool (.bool b)
  | text (s : String) : Sent .text (.str s)

def Closes (rest : List Char) : Prop := rest.head? = some ',' ∨ rest.head? = some ')'

theorem Closes.forall {p : Char → Prop} (closes : Closes rest) (comma : p ',') (paren : p ')') : ∀ c ∈ rest.head?,
    p c := by
  rcases closes with same | same <;> rw [same] <;> rintro c ⟨⟩ <;> assumption

omit [Runtime X] in
theorem scan_sign (n : ℕ) (rest : List Char) :
    scan '-' (Nat.toDigits 10 n ++ rest) = .ok ⟨.lexeme (.op .sub : Lexeme X), ['-'], Nat.toDigits 10 n ++ rest⟩ := by
  obtain ⟨c, more, same⟩ : ∃ c more, Nat.toDigits 10 n = c :: more := exists_cons_of_ne_nil Nat.toDigits_ne_nil
  have digit : c.isDigit = true := Nat.isDigit_of_mem_toDigits (by decide) (by decide) (same ▸ mem_cons_self)
  have other (d : Char) (nonDigit : d.isDigit = false) : c ≠ d := by
    rintro rfl
    exact absurd digit (by rw [nonDigit]; decide)
  rw [same]
  exact scan_single rfl rfl (fun opens => other '-' rfl (Option.some.inj opens.2)) nofun

theorem lexes_param (later : Lexes rest lexemes) (sent : Sent tag value) (closes : Closes rest) :
    Lexes (formatValue value ++ rest) (paramLexemes value ++ lexemes) := by
  have word : ∀ d ∈ rest.head?, inWord X d = false := closes.forall rfl rfl
  have digit : ∀ d ∈ rest.head?, isDigit X d = false := closes.forall rfl rfl
  have quote : rest.head? ≠ some '\'' := fun same => closes.forall (p := (· ≠ '\'')) (by decide) (by decide) _ same rfl
  have point : rest.head? ≠ some '.' := fun same => closes.forall (p := (· ≠ '.')) (by decide) (by decide) _ same rfl
  have short (n : ℕ) (small : n ≤ 2 ^ 63) : n < 10 ^ MAX_STR_DIGITS := by
    refine small.trans_lt (lt_of_lt_of_le (b := 10 ^ 19) (by decide) (Nat.pow_le_pow_right (by decide) (by decide)))
  cases sent with
  | null => exact later.word ⟨'N', _, rfl, rfl, wordy_of_ascii (by decide)⟩ word
  | int i range =>
    cases i with
    | ofNat n =>
      rw [formatValue_ofNat]
      exact later.number (short n (by simp at range; omega)) digit point
    | negSucc n =>
      rw [formatValue_negSucc]
      exact (later.number (short (n + 1) (by simp at range; omega)) digit point).char (scan_sign ..)
  | bool b =>
    cases b with
    | true => exact later.word ⟨'T', _, rfl, rfl, wordy_of_ascii (by decide)⟩ word
    | false => exact later.word ⟨'F', _, rfl, rfl, wordy_of_ascii (by decide)⟩ word
  | text s => exact later.cons (scan_quoted s quote)

/-- A name that is read as an identifier. -/
structure Identifier (X : Type) [Lexicon X] (name : String) : Prop where
  isWord : IsWord X name.toList
  word : (word name.toList : Lexeme X) = .ident name

/-- `INSERT INTO t VALUES (?, ?, ?)`. -/
def insertText (table : String) : String := "INSERT INTO " ++ table ++ " VALUES (?, ?, ?)"

omit [Runtime X] in
theorem Identifier.plain {name : String} (identifier : Identifier X name) : Plain name.toList := by
  obtain ⟨c, more, same, starts, wordy⟩ := identifier.isWord
  rw [same]
  exact (inert_append (inert_letter starts) (inert_word wordy)).plain

theorem substitute_insertText (identifier : Identifier X table) (a b c : Value X) :
    substituteParams (insertText table) [a, b, c] = String.ofList ("INSERT INTO ".toList ++ (table.toList ++
      (" VALUES (".toList ++ (formatValue a ++
        (", ".toList ++ (formatValue b ++ (", ".toList ++ (formatValue c ++ [')'])))))))) := by
  rw [substituteParams, insertText]
  simp only [String.toList_append, append_assoc]
  rw [substituteFrom_plain (plain_of_all rfl), substituteFrom_plain identifier.plain]
  rfl

def insertLexemes (table : String) (a b c : Value X) : List (Lexeme X) :=
  .keyword .INSERT :: .keyword .INTO :: .ident table :: .keyword .VALUES :: .lparen :: (paramLexemes a ++
    .comma :: (paramLexemes b ++ .comma :: (paramLexemes c ++ [.rparen, .eof])))

theorem lexes_insert (identifier : Identifier X table) (sentInt : Sent .int a)
    (sentBool : Sent .bool b) (sentText : Sent .text c) :
    Lexes ("INSERT INTO ".toList ++ (table.toList ++ (" VALUES (".toList ++ (formatValue a ++ (", ".toList ++
      (formatValue b ++ (", ".toList ++ (formatValue c ++ [')'])))))))) (insertLexemes table a b c) := by
  have third := lexes_param (lexes_nil.char (c := ')') rfl) sentText (.inr rfl)
  have second := lexes_param ((third.char (c := ' ') rfl).char (c := ',') rfl) sentBool (.inl rfl)
  have first := lexes_param ((second.char (c := ' ') rfl).char (c := ',') rfl) sentInt (.inl rfl)
  have opened := (first.char (c := '(') (scan_single rfl rfl nofun nofun)).char (c := ' ') rfl
  have values : Lexes ("VALUES".toList ++ _) _ :=
    opened.word ⟨'V', _, rfl, rfl, wordy_of_ascii (by decide)⟩ (by rintro d ⟨⟩; rfl)
  have named := (values.char (c := ' ') rfl).word identifier.isWord (by rintro d ⟨⟩; rfl)
  have into : Lexes ("INTO".toList ++ _) _ :=
    (named.char (c := ' ') rfl).word ⟨'I', _, rfl, rfl, wordy_of_ascii (by decide)⟩ (by rintro d ⟨⟩; rfl)
  have whole : Lexes ("INSERT".toList ++ _) _ :=
    (into.char (c := ' ') rfl).word ⟨'I', _, rfl, rfl, wordy_of_ascii (by decide)⟩ (by rintro d ⟨⟩; rfl)
  rw [identifier.word] at whole
  exact whole

variable [IsoFormat X] {result : List (Row X)} {heads : List ℕ} {info : TableMeta} {lay : Layout}
  {records : List (Rid × Bytes)} {rows : List (Rid × Row X)} {db db' : Database X}

def place (position : ℕ → Position) : ℕ → List (Lexeme X) → List (Token X)
  | _, [] => []
  | i, lexeme :: lexemes => ⟨lexeme, position i⟩ :: place position (i + 1) lexemes

omit [Runtime X] [Lexicon X] [IsoFormat X] in
theorem exists_place (tokens : List (Token X)) (i : ℕ) :
    ∃ position, tokens = place position i (tokens.map Token.lexeme) := by
  induction tokens generalizing i with
  | nil => exact ⟨fun _ => ⟨1, 1⟩, rfl⟩
  | cons tok tokens ih =>
    obtain ⟨position, same⟩ := ih (i + 1)
    have later (j : ℕ) (lexemes : List (Lexeme X)) (above : i < j) :
        place (update position i tok.position) j lexemes = place position j lexemes := by
      induction lexemes generalizing j with
      | nil => rfl
      | cons lexeme lexemes ih => rw [place, place, update_of_ne above.ne', ih (j + 1) (by omega)]
    refine ⟨update position i tok.position, ?_⟩
    rw [map_cons, place, update_self, later _ _ (Nat.lt_succ_self i), ← same]

def Unsigned : Value X → Prop
  | .int (.negSucc _) => False
  | _ => True

omit [Lexicon X] in
theorem parseTokens_insert (position : ℕ → Position) (table : String) (sentInt : Sent .int a) (sentBool : Sent .bool b)
    (sentText : Sent .text c) (unsigned : Unsigned a) :
    parseTokens (place position 0 (insertLexemes table a b c)) = .ok (.insert table none [[a, b, c]]) := by
  rcases sentInt with _ | ⟨i, -⟩
  · rcases sentBool with _ | _ <;> rcases sentText with _ | _ <;> rfl
  · cases i with
    | ofNat n => rcases sentBool with _ | _ <;> rcases sentText with _ | _ <;> rfl
    | negSucc n => exact unsigned.elim

omit [Lexicon X] in
theorem parseTokens_insert_signed (position : ℕ → Position) (table : String) {n : ℕ} :
    parseTokens (place position 0 (insertLexemes table (.int (.negSucc n)) b c)) =
      .error (parseError (position 5) ("expected expression, got OP " ++ Runtime.repr (.str "-" : Value X))) := rfl

/-- What a statement of the grammar does; SELECT and DROP TABLE are left to a parameter. -/
def runParsed (other : Parsed X → DbM X (List (Row X))) : Parsed X → DbM X (List (Row X))
  | .createTable name columns => execute (.createTable name columns)
  | .createIndex name table columns unique => execute (.createIndex name table columns unique)
  | .insert table columns values => execute (.insert table columns values)
  | .update table clauses filter => execute (.update table clauses filter)
  | .delete table filter => execute (.delete table filter)
  | stmt => other stmt

/-- `Database.execute`. -/
def executeSql (other : Parsed X → DbM X (List (Row X))) (sql : String) : DbM X (List (Row X)) := do
  runParsed other (← Program.ofExcept (parse sql))

theorem returns_executeSql {other : Parsed X → DbM X (List (Row X))} {sql : String} :
    (executeSql other sql).Returns db result db' ↔ ∃ stmt, parse sql = .ok stmt ∧
    (runParsed other stmt).Returns db result db' := by
  rw [executeSql, Program.returns_bind]
  simp only [Program.returns_ofExcept]
  constructor
  · rintro ⟨stmt, _, ⟨parsed, rfl⟩, ran⟩
    exact ⟨stmt, parsed, ran⟩
  · rintro ⟨stmt, parsed, ran⟩
    exact ⟨stmt, db, ⟨parsed, rfl⟩, ran⟩

theorem exists_parse_insert (identifier : Identifier X table) (sentInt : Sent .int a)
    (sentBool : Sent .bool b) (sentText : Sent .text c) : ∃ position,
    parse (substituteParams (insertText table) [a, b, c]) =
    parseTokens (place position 0 (insertLexemes table a b c)) := by
  have lexed := lexes_insert identifier sentInt sentBool sentText
  rw [← String.toList_ofList (l := _ ++ _), ← substitute_insertText identifier] at lexed
  obtain ⟨tokens, tokenized, same⟩ := lexed.tokenize
  obtain ⟨position, placed⟩ := exists_place tokens 0
  rw [same] at placed
  exact ⟨position, by rw [parse, tokenized, placed]; rfl⟩

omit [Lexicon X] [IsoFormat X] in
theorem scan_of_insert {row : Row X} (columns : info.columns ≠ []) (packs : .float ∉ info.tags)
    (safe : ∀ tag ∈ info.tags, SafeTag X tag)
    (given : coercedRow info.tags row = row) (table : TableIn heads db.txn lay info records)
    (known : db.catalog.byName.get? info.name = some info) (scanned : (tableScan info).Returns db.txn rows db.txn)
    (returned : (execute (.insert info.name none [row])).Returns db result db') :
    result = [[.int 1]] ∧ ∃ found : List (Rid × Row X), (tableScan info).Returns db'.txn found db'.txn ∧
      (found.map Prod.snd).Perm (row :: rows.map Prod.snd) := by
  have sound : Sound heads info (fun _ _ => True) lay records db := ⟨table, trivial, known⟩
  obtain ⟨inserted, n, planned, stored, rfl⟩ := returns_execute_insert.mp returned
  obtain rfl := planInsert_ok known planned
  obtain ⟨lay', news, encoded, after, -, rfl⟩ := sound.returns_insertRows (indexInvariant_true info) columns stored
  obtain ⟨old, reads, perm⟩ := exists_visited table scanned (.refl _)
  obtain ⟨new, _, encodes, ⟨⟩, rfl⟩ := forall₂_cons_left_iff.mp encoded
  have decoded : decodeRow new.2 info.tags = .ok row := by
    have survives : Forall₂ Survives info.tags (coercedRow info.tags row) := (encodedRow encodes).survive safe
    rw [(decodeRow_coercedRow_iff (fun float => absurd float packs) encodes).mpr survives, given]
  have reads' := Forall₂.cons (R := fun (item : Rid × Bytes) row => decodeRow item.2 info.tags = .ok row) decoded reads
  refine ⟨rfl, after.table.scans_iff.mpr ⟨decodes_of_forall reads', ?_⟩⟩
  rw [show [new] ++ records = new :: records from rfl, decodedRows_of_forall reads']
  exact perm.cons row

omit [Lexicon X] [IsoFormat X] in
theorem coerced_of_sent (sent : Sent tag value) (plain : tag ∈ [.int, .bool, .text]) : coerced tag value = value := by
  simp only [mem_cons, not_mem_nil, or_false] at plain
  rcases plain with rfl | rfl | rfl <;> rcases sent with _ | _ <;> rfl

/-- EXEC of `INSERT INTO t VALUES (?, ?, ?)` adds a row of the parameters if the number has no sign and the table
takes such a row. -/
theorem exec_insert_stores_iff (other : Parsed X → DbM X (List (Row X))) (typed : info.tags = [.int, .bool, .text])
    (identifier : Identifier X info.name) (table : TableIn heads db.txn lay info records)
    (known : db.catalog.byName.get? info.name = some info) (scanned : (tableScan info).Returns db.txn rows db.txn)
    (sentInt : Sent .int a) (sentBool : Sent .bool b) (sentText : Sent .text c) :
    (∃ db', (executeSql other (substituteParams (insertText info.name) [a, b, c])).Returns db [[.int 1]] db' ∧
      ∃ found : List (Rid × Row X), (tableScan info).Returns db'.txn found db'.txn ∧
        (found.map Prod.snd).Perm ([a, b, c] :: rows.map Prod.snd)) ↔
      Unsigned a ∧ ∃ result db', (execute (.insert info.name none [[a, b, c]])).Returns db result db' := by
  obtain ⟨position, parsed⟩ := exists_parse_insert identifier sentInt sentBool sentText
  have columns : info.columns ≠ [] := fun none => by simp [TableMeta.tags, none] at typed
  have safe : ∀ tag ∈ info.tags, SafeTag X tag := by
    simp only [typed, forall_mem_cons]
    exact ⟨readsBack_int.safe, readsBack_bool.safe, readsBack_text.safe, forall_mem_nil _⟩
  have given : coercedRow info.tags [a, b, c] = [a, b, c] := by
    simp [typed, coercedRow, coerced_of_sent sentInt, coerced_of_sent sentBool, coerced_of_sent sentText]
  constructor
  · rintro ⟨db', returned, -⟩
    obtain ⟨stmt, read, ran⟩ := returns_executeSql.mp returned
    rw [parsed] at read
    by_cases unsigned : Unsigned a
    · rw [parseTokens_insert position _ sentInt sentBool sentText unsigned] at read
      cases read
      exact ⟨unsigned, _, db', ran⟩
    · rcases sentInt with _ | ⟨n | n, -⟩
      · exact absurd trivial unsigned
      · exact absurd trivial unsigned
      · rw [parseTokens_insert_signed] at read
        cases read
  · rintro ⟨unsigned, result, db', returned⟩
    obtain ⟨rfl, stored⟩ := scan_of_insert columns (by simp [typed]) safe given table known scanned returned
    rw [parseTokens_insert position _ sentInt sentBool sentText unsigned] at parsed
    exact ⟨db', returns_executeSql.mpr ⟨_, parsed, returned⟩, stored⟩

/-- `t (i INT, b BOOL, s TEXT)`, in a new file. -/
def settingsInfo : TableMeta :=
  ⟨1, "t", [⟨"i", .int, false, false, false⟩, ⟨"b", .bool, false, false, false⟩, ⟨"s", .text, false, false, false⟩], 4⟩

def settings : Database Unit := ⟨Heap.firstHeap, ⟨Dict.empty.set "t" settingsInfo, 2⟩, [], [], [], false⟩

theorem identifier_settings : Identifier Unit settingsInfo.name := ⟨⟨'t', [], rfl, rfl, nofun⟩, by decide +kernel⟩

/-- `(7, TRUE, 'it''s ?')`. -/
theorem exec_insert_stores_settings : ∃ db' found, (executeSql (fun _ => pure [])
      (substituteParams (insertText "t") [(.int 7 : Value Unit), .bool true, .str "it's ?"])).Returns
      settings [[.int 1]] db' ∧
    (tableScan settingsInfo).Returns db'.txn found db'.txn ∧
    (found.map Prod.snd).Perm [[(.int 7 : Value Unit), .bool true, .str "it's ?"]] := by
  obtain ⟨lay, table⟩ := tableIn_firstHeap settingsInfo rfl
  obtain ⟨found, scanned, none⟩ := (table.returns_tableScan (X := Unit)).mpr ⟨nofun, .refl _⟩
  obtain rfl := none.eq_nil
  have returned : (execute (.insert "t" Option.none [[.int 7, .bool true, .str "it's ?"]])).Returns
    settings [[.int 1]] _ :=
    ⟨by decide +kernel, rfl⟩
  obtain ⟨db', ran, found, after, perm⟩ :=
    (exec_insert_stores_iff (fun _ => pure []) rfl identifier_settings table rfl scanned
      (.int 7 (by decide)) (.bool true) (.text "it's ?")).mpr ⟨trivial, _, _, returned⟩
  exact ⟨db', found, ran, after, perm⟩

/-- The number -1 is refused, in a table that has room for it. -/
theorem negative_parameter_refused :
    ¬ ∀ (heads : List ℕ) (lay : Layout) (records : List (Rid × Bytes)) (info : TableMeta)
    (db : Database Unit) (rows : List (Rid × Row Unit)) (a b c : Value Unit), info.tags = [.int, .bool, .text] →
    Identifier Unit info.name → TableIn heads db.txn lay info records → db.catalog.byName.get? info.name = some info →
    (tableScan info).Returns db.txn rows db.txn → Sent .int a → Sent .bool b → Sent .text c →
    (∃ result db', (execute (.insert info.name none [[a, b, c]])).Returns db result db') →
    ∃ db', (executeSql (fun _ => pure []) (substituteParams (insertText info.name) [a, b, c])).Returns
    db [[.int 1]] db' ∧
      ∃ found : List (Rid × Row Unit), (tableScan info).Returns db'.txn found db'.txn ∧
        (found.map Prod.snd).Perm ([a, b, c] :: rows.map Prod.snd) := by
  intro claimed
  obtain ⟨lay, table⟩ := tableIn_firstHeap settingsInfo rfl
  obtain ⟨found, scanned, none⟩ := (table.returns_tableScan (X := Unit)).mpr ⟨nofun, .refl _⟩
  have sent : Sent .int (.int (.negSucc 0) : Value Unit) := .int _ (by decide)
  have taken : (execute (.insert "t" Option.none [[.int (.negSucc 0), .none, .none]])).Returns settings [[.int 1]] _ :=
    ⟨by decide +kernel, rfl⟩
  obtain ⟨db', returned, -⟩ := claimed [4] lay [] settingsInfo settings found _ _ _ rfl
    identifier_settings table rfl scanned sent (.null _) (.null _) ⟨_, _, taken⟩
  obtain ⟨stmt, read, -⟩ := returns_executeSql.mp returned
  obtain ⟨position, parsed⟩ := exists_parse_insert identifier_settings sent (.null _) (.null _)
  rw [parsed, parseTokens_insert_signed] at read
  exact nomatch read

end Tinydb.Server
