import Tinydb.Lib.Parser
import Tinydb.Sql.Ast
import Tinydb.Sql.Tokens

/-! The parser (`sql/parser.py`).

The methods of the source take the tokens from the front of the list. An expression in
parentheses is parsed by a parser that the methods of the ladder are given; how deep
parentheses may nest is bounded by the number of tokens.
-/

namespace Tinydb.Sql

open Lib Tinydb.Types Runtime
open Executor (JoinKind)

inductive TokenKind where
  | KEYWORD | IDENT | INT_LIT | FLOAT_LIT | STRING_LIT | BOOL_LIT | NULL_LIT | OP | LPAREN |
      RPAREN | COMMA | SEMI | DOT | EOF
  deriving DecidableEq

def TokenKind.name : TokenKind → String
  | KEYWORD => "KEYWORD"
  | IDENT => "IDENT"
  | INT_LIT => "INT_LIT"
  | FLOAT_LIT => "FLOAT_LIT"
  | STRING_LIT => "STRING_LIT"
  | BOOL_LIT => "BOOL_LIT"
  | NULL_LIT => "NULL_LIT"
  | OP => "OP"
  | LPAREN => "LPAREN"
  | RPAREN => "RPAREN"
  | COMMA => "COMMA"
  | SEMI => "SEMI"
  | DOT => "DOT"
  | EOF => "EOF"

def Keyword.text (keyword : Keyword) : String := ((table.find? (·.2 = keyword)).map Prod.fst).getD ""

def Op.text : Op → String
  | ge => ">="
  | le => "<="
  | ne => "!="
  | add => "+"
  | sub => "-"
  | mul => "*"
  | div => "/"
  | lt => "<"
  | gt => ">"
  | eq => "="

namespace Lexeme

variable {X : Type}

def kind : Lexeme X → TokenKind
  | keyword _ => .KEYWORD
  | ident _ => .IDENT
  | intLit _ => .INT_LIT
  | floatLit _ => .FLOAT_LIT
  | stringLit _ => .STRING_LIT
  | boolLit _ => .BOOL_LIT
  | nullLit => .NULL_LIT
  | op _ => .OP
  | lparen => .LPAREN
  | rparen => .RPAREN
  | comma => .COMMA
  | semi => .SEMI
  | dot => .DOT
  | eof => .EOF

def value : Lexeme X → Value X
  | keyword word => .str word.text
  | ident name => .str name
  | intLit n => .int n
  | floatLit x => .foreign x
  | stringLit s => .str s
  | boolLit b => .bool b
  | nullLit => .none
  | op symbol => .str symbol.text
  | lparen => .str "("
  | rparen => .str ")"
  | comma => .str ","
  | semi => .str ";"
  | dot => .str "."
  | eof => .none

def isKeyword (sought : Keyword) : Lexeme X → Bool
  | keyword word => word = sought
  | _ => false

end Lexeme

/-- `date.fromisoformat`, `time.fromisoformat` and `datetime.fromisoformat`. -/
class IsoFormat (X : Type) where
  fromisoformat : TypeTag → String → Except Exc X

instance : IsoFormat Unit := ⟨fun _ _ => .ok ()⟩

abbrev SqlParser (X α : Type) := Parser (Token X) Exc α

variable {X : Type} [Runtime X]

def Token.shown (tok : Token X) : String := tok.lexeme.kind.name ++ " " ++ repr tok.lexeme.value

omit [Runtime X]

def pastEnd : Exc := ⟨.indexError, "list index out of range"⟩

def stuck : Exc := ⟨.nontermination, "parser"⟩

def peek : SqlParser X (Token X) := Parser.peek pastEnd

def advance : SqlParser X (Token X) := Parser.advance pastEnd

def failAt {α : Type} (tok : Token X) (msg : String) : SqlParser X α := throw (parseError tok.position msg)

def matchKind (kind : TokenKind) : SqlParser X Bool := do
  if (← peek).lexeme.kind = kind then
    let _ ← advance
    return true
  else return false

def matchKeyword (keyword : Keyword) : SqlParser X Bool := do
  if (← peek).lexeme.isKeyword keyword then
    let _ ← advance
    return true
  else return false

/-- `NULL`, as a literal or a keyword. -/
def matchNull : SqlParser X Bool := do
  let tok ← peek
  if tok.lexeme.kind = .NULL_LIT ∨ tok.lexeme.isKeyword .NULL then
    let _ ← advance
    return true
  else return false

def matchOpIn (ops : Op → Option BinOp) : SqlParser X (Option BinOp) := do
  match (← peek).lexeme with
  | .op op =>
    match ops op with
    | some binary =>
      let _ ← advance
      return some binary
    | none => return none
  | _ => return none

def expectKind (kind : TokenKind) : SqlParser X (Token X) := do
  let tok ← peek
  if tok.lexeme.kind = kind then advance
  else failAt tok ("expected " ++ kind.name ++ ", got " ++ tok.shown)

def expectKeyword (keyword : Keyword) : SqlParser X Unit := do
  let tok ← peek
  if tok.lexeme.isKeyword keyword then
    let _ ← advance
  else failAt tok ("expected keyword " ++ keyword.text ++ ", got " ++ tok.shown)

def expectIdent : SqlParser X String := do
  let tok ← peek
  match tok.lexeme with
  | .ident name =>
    let _ ← advance
    return name
  | _ => failAt tok ("expected identifier, got " ++ tok.shown)

/-- `_expect_kind(TokenKind.INT_LIT).value`. -/
def expectInt : SqlParser X ℤ := do
  let tok ← peek
  match tok.lexeme with
  | .intLit n =>
    let _ ← advance
    return n
  | _ => failAt tok ("expected INT_LIT, got " ++ tok.shown)

def commaList {α : Type} (item : SqlParser X α) : SqlParser X (List α) := do
  let first ← item
  Parser.loop stuck (fun out => do
    if ← matchKind .COMMA then return some (out ++ [← item]) else return none) [first]

/-- `_parse_ident_list`. -/
def parseIdentList : SqlParser X (List String) := commaList expectIdent

def hexDigit (c : Char) : Option ℕ :=
  if c.isDigit then some (c.toNat - '0'.toNat)
  else if 'a' ≤ c ∧ c ≤ 'f' then some (c.toNat - 'a'.toNat + 10)
  else if 'A' ≤ c ∧ c ≤ 'F' then some (c.toNat - 'A'.toNat + 10)
  else none

/-- `bytes.fromhex`: pairs of digits, with blanks between them. -/
def fromHex (at' : ℕ) : List Char → Except Exc Bytes
  | [] => .ok []
  | c :: rest =>
    if c ∈ [' ', '\t', '\n', '\r', '\x0b', '\x0c'] then fromHex (at' + 1) rest
    else
      match hexDigit c, rest with
      | some high, d :: rest =>
        match hexDigit d with
        | some low => do return UInt8.ofNat (16 * high + low) :: (← fromHex (at' + 2) rest)
        | none =>
          .error ⟨.valueError, "non-hexadecimal number found in fromhex() arg at position " ++ toString (at' + 1)⟩
      | some _, [] =>
        .error ⟨.valueError, "non-hexadecimal number found in fromhex() arg at position " ++ toString (at' + 1)⟩
      | none, _ => .error ⟨.valueError, "non-hexadecimal number found in fromhex() arg at position " ++ toString at'⟩

variable [IsoFormat X]

/-- `_TYPED_LITERAL_PARSERS`. -/
def typedLiteralParsers : Keyword → Option (TypeTag × (String → Except Exc (Value X)))
  | .DATE => some (.date, fun s => .foreign <$> IsoFormat.fromisoformat .date s)
  | .TIME => some (.time, fun s => .foreign <$> IsoFormat.fromisoformat .time s)
  | .DATETIME => some (.datetime, fun s =>
      .foreign <$> IsoFormat.fromisoformat .datetime (String.ofList (s.toList.map fun c => if c = ' ' then 'T' else c)))
  | .DECIMAL => some (.decimal, fun s => .foreign <$> ofDecimalText s)
  | .BLOB => some (.blob, fun s => .bytes <$> fromHex 0 s.toList)
  | .JSON => some (.json, jsonLoads)
  | _ => none

/-- The exceptions that `_parse_typed_literal` turns into its own. -/
def caughtByTypedLiteral (e : Exc) : Bool := e.cls ∈ [.valueError, .typeError, .unicodeError]

/-- `_parse_typed_literal`, after its keyword. -/
def parseTypedLiteral (keyword : Keyword) (tag : TypeTag) (valueParser : String → Except Exc (Value X)) :
    SqlParser X (Expr X) := do
  let tok ← peek
  match tok.lexeme with
  | .stringLit s =>
    let _ ← advance
    match valueParser s with
    | .ok value => return .typedLiteral tag value
    | .error e =>
      if caughtByTypedLiteral e then
        failAt tok ("invalid " ++ keyword.text ++ " literal " ++ repr (.str s : Value X) ++ ": " ++ e.msg)
      else throw e
  | _ => failAt tok ("expected string literal after " ++ keyword.text ++ ", got " ++ tok.shown)

variable (inner : SqlParser X (Expr X))

/-- An identifier, after it was taken: a column, or the table of the column behind a dot. -/
def parseColumn (name : String) : SqlParser X (Expr X) := do
  if ← matchKind .DOT then
    let tok ← peek
    match tok.lexeme with
    | .ident column =>
      let _ ← advance
      return .columnRef column (some name)
    | _ => failAt tok ("expected column name after '.', got " ++ tok.shown)
  else return .columnRef name none

/-- `_parse_primary`. -/
def parsePrimary : SqlParser X (Expr X) := do
  let tok ← peek
  match tok.lexeme with
  | .keyword keyword =>
    match typedLiteralParsers keyword with
    | some (tag, valueParser) =>
      let _ ← advance
      parseTypedLiteral keyword tag valueParser
    | none => failAt tok ("expected expression, got " ++ tok.shown)
  | .intLit _ | .floatLit _ | .stringLit _ | .boolLit _ | .nullLit =>
    let _ ← advance
    return .literal tok.lexeme.value
  | .lparen =>
    let _ ← advance
    let e ← inner
    let _ ← expectKind .RPAREN
    return e
  | .ident name =>
    let _ ← advance
    parseColumn name
  | _ => failAt tok ("expected expression, got " ++ tok.shown)

/-- `_parse_unary`, with a bound on the signs. -/
def parseUnaryFrom : ℕ → SqlParser X (Expr X)
  | 0 => throw stuck
  | turns + 1 => do
    match (← peek).lexeme with
    | .op .sub =>
      let _ ← advance
      return .unaryOp .neg (← parseUnaryFrom turns)
    | _ => parsePrimary inner

def parseUnary : SqlParser X (Expr X) := Parser.bounded (parseUnaryFrom inner)

/-- Operands of the next level with operators between them, grouped to the left. -/
def leftGrouped (operator : SqlParser X (Option BinOp)) (operand : SqlParser X (Expr X)) : SqlParser X (Expr X) := do
  let first ← operand
  Parser.loop stuck (fun left => do
    match ← operator with
    | some op => return some (.binaryOp op left (← operand))
    | none => return none) first

/-- `_MULTIPLICATIVE_OPS`. -/
def multiplicativeOps : Op → Option BinOp
  | .mul => some (.arith .mul)
  | .div => some (.arith .div)
  | _ => none

def parseMultiplicative : SqlParser X (Expr X) := leftGrouped (matchOpIn multiplicativeOps) (parseUnary inner)

/-- `_ADDITIVE_OPS`. -/
def additiveOps : Op → Option BinOp
  | .add => some (.arith .add)
  | .sub => some (.arith .sub)
  | _ => none

def parseAdditive : SqlParser X (Expr X) := leftGrouped (matchOpIn additiveOps) (parseMultiplicative inner)

/-- `_COMPARISON_OPS`. -/
def comparisonOps : Op → Option BinOp
  | .eq => some .eq
  | .ne => some .ne
  | .lt => some (.order .lt)
  | .le => some (.order .le)
  | .gt => some (.order .gt)
  | .ge => some (.order .ge)
  | _ => none

/-- `_parse_comparison`. -/
def parseComparison : SqlParser X (Expr X) := do
  let left ← parseAdditive inner
  if ← matchKeyword .IS then
    let negated ← matchKeyword .NOT
    if ← matchNull then return .unaryOp (if negated then .isNotNull else .isNull) left
    else
      let tok ← peek
      failAt tok ("expected NULL after IS, got " ++ tok.shown)
  else
    match ← matchOpIn comparisonOps with
    | some op => return .binaryOp op left (← parseAdditive inner)
    | none => return left

/-- `_parse_not`, with a bound on the NOTs. -/
def parseNotFrom : ℕ → SqlParser X (Expr X)
  | 0 => throw stuck
  | turns + 1 => do
    if ← matchKeyword .NOT then return .unaryOp .not (← parseNotFrom turns)
    else parseComparison inner

def parseNot : SqlParser X (Expr X) := Parser.bounded (parseNotFrom inner)

def matchConnective (keyword : Keyword) (op : BinOp) : SqlParser X (Option BinOp) := do
  if ← matchKeyword keyword then return some op else return none

def parseAnd : SqlParser X (Expr X) := leftGrouped (matchConnective .AND .and) (parseNot inner)

def parseOr : SqlParser X (Expr X) := leftGrouped (matchConnective .OR .or) (parseAnd inner)

omit inner

def parseExprFrom : ℕ → SqlParser X (Expr X)
  | 0 => throw stuck
  | depth + 1 => parseOr (parseExprFrom depth)

/-- `parse_expr`. -/
def parseExpr : SqlParser X (Expr X) := Parser.bounded parseExprFrom

/-- `_TYPE_ALIASES`, for the keywords of the tokenizer. -/
def typeAliases : Keyword → Option TypeTag
  | .INT | .INTEGER => some .int
  | .FLOAT | .DOUBLE | .REAL => some .float
  | .TEXT | .VARCHAR => some .text
  | .BOOL | .BOOLEAN => some .bool
  | .DATE => some .date
  | .TIME => some .time
  | .DATETIME | .TIMESTAMP => some .datetime
  | .DECIMAL | .NUMERIC => some .decimal
  | .BLOB | .BYTEA => some .blob
  | .JSON => some .json
  | _ => none

def skipSuffix : ℕ → List (Token X) → List (Token X)
  | 0, tokens => tokens
  | _ + 1, [] => []
  | depth + 1, tok :: rest =>
    match tok.lexeme with
    | .eof => tok :: rest
    | .lparen => skipSuffix (depth + 2) rest
    | .rparen => skipSuffix depth rest
    | _ => skipSuffix (depth + 1) rest

def parseConstraint (column : Column) : SqlParser X (Option Column) := do
  match (← peek).lexeme with
  | .keyword .NOT =>
    let _ ← advance
    if ← matchNull then return some { column with notNull := true }
    else
      let tok ← peek
      failAt tok ("expected NULL after NOT, got " ++ tok.shown)
  | .keyword .PRIMARY =>
    let _ ← advance
    expectKeyword .KEY
    return some { column with primaryKey := true }
  | .keyword .UNIQUE =>
    let _ ← advance
    return some { column with unique := true }
  | _ => return none

/-- `_parse_column_def`. -/
def parseColumnDef : SqlParser X Column := do
  let name ← expectIdent
  let tok ← advance
  match tok.lexeme with
  | .keyword keyword =>
    match typeAliases keyword with
    | some tag =>
      if ← matchKind .LPAREN then modify (skipSuffix 1)
      Parser.loop stuck parseConstraint ⟨name, tag, false, false, false⟩
    | none => failAt tok ("unknown SQL type: " ++ quoted keyword.text)
  | _ => failAt tok ("expected type name, got " ++ tok.shown)

/-- `_parse_create_table`. -/
def parseCreateTable : SqlParser X (Parsed X) := do
  expectKeyword .TABLE
  let name ← expectIdent
  let _ ← expectKind .LPAREN
  let columns ← commaList parseColumnDef
  let _ ← expectKind .RPAREN
  let _ ← matchKind .SEMI
  return .createTable name columns

/-- `_parse_create_index`. -/
def parseCreateIndex : SqlParser X (Parsed X) := do
  let unique ← matchKeyword .UNIQUE
  expectKeyword .INDEX
  let name ← expectIdent
  expectKeyword .ON
  let table ← expectIdent
  let _ ← expectKind .LPAREN
  let column ← expectIdent
  let _ ← expectKind .RPAREN
  let _ ← matchKind .SEMI
  return .createIndex name table [column] unique

/-- `_parse_create_or_index`. -/
def parseCreateOrIndex : SqlParser X (Parsed X) := do
  expectKeyword .CREATE
  let tok ← peek
  match tok.lexeme with
  | .keyword .TABLE => parseCreateTable
  | .keyword .INDEX | .keyword .UNIQUE => parseCreateIndex
  | _ => failAt tok ("expected TABLE or INDEX, got " ++ tok.shown)

/-- `_parse_drop_table`. -/
def parseDropTable : SqlParser X (Parsed X) := do
  expectKeyword .DROP
  expectKeyword .TABLE
  let ifExists ← matchKeyword .IF
  if ifExists then expectKeyword .EXISTS
  let name ← expectIdent
  let _ ← matchKind .SEMI
  return .dropTable name ifExists

def parseDdl : SqlParser X (Parsed X) := do
  let tok ← peek
  match tok.lexeme with
  | .keyword .CREATE => parseCreateOrIndex
  | .keyword .DROP => parseDropTable
  | _ => failAt tok ("expected CREATE or DROP, got " ++ tok.shown)

def Expr.className : Expr X → String
  | literal _ => "Literal"
  | typedLiteral _ _ => "TypedLiteral"
  | columnRef _ _ => "ColumnRef"
  | binaryOp _ _ _ => "BinaryOp"
  | unaryOp _ _ => "UnaryOp"
  | aggregate _ _ => "Aggregate"

/-- `_parse_value`. The error for an expression has the name of its class for a line. -/
def parseValue : SqlParser X (Value X) := do
  match ← parsePrimary parseExpr with
  | .typedLiteral tag value => return .typed tag value
  | .literal value => return value
  | node =>
    throw ⟨.parseError, "line " ++ node.className ++ ", col 0: INSERT VALUES expects a literal, got expression node"⟩

/-- `_parse_value_tuple`. -/
def parseValueTuple : SqlParser X (Row X) := do
  let _ ← expectKind .LPAREN
  let values ← commaList parseValue
  let _ ← expectKind .RPAREN
  return values

def parseInsertColumns : SqlParser X (Option (List String)) := do
  if ← matchKind .LPAREN then
    let names ← parseIdentList
    let _ ← expectKind .RPAREN
    return some names
  else return none

/-- `_parse_insert`. -/
def parseInsert : SqlParser X (Parsed X) := do
  expectKeyword .INSERT
  expectKeyword .INTO
  let table ← expectIdent
  let columns ← parseInsertColumns
  expectKeyword .VALUES
  let values ← commaList parseValueTuple
  let _ ← matchKind .SEMI
  return .insert table columns values

/-- `_AGGREGATE_FUNCS`, in their sorted order. -/
def aggregateFuncs : List Keyword := [.AVG, .COUNT, .MAX, .MIN, .SUM]

/-- `_parse_aggregate`. -/
def parseAggregate : SqlParser X (Expr X) := do
  let tok ← peek
  match tok.lexeme with
  | .keyword func =>
    if func ∈ aggregateFuncs then
      let _ ← advance
      let _ ← expectKind .LPAREN
      let arg ← peek
      let column ← (match arg.lexeme with
        | .op .mul => do
          let _ ← advance
          return "*"
        | .ident name => do
          let _ ← advance
          return name
        | _ => failAt arg ("expected column name or '*' inside aggregate, got " ++ arg.shown) : SqlParser X String)
      let _ ← expectKind .RPAREN
      return .aggregate func.text column
    else failAt tok ("expected one of ['AVG', 'COUNT', 'MAX', 'MIN', 'SUM'], got " ++ tok.shown)
  | _ => failAt tok ("expected one of ['AVG', 'COUNT', 'MAX', 'MIN', 'SUM'], got " ++ tok.shown)

/-- `_parse_select_item`. -/
def parseSelectItem : SqlParser X (SelectItem X) := do
  match (← peek).lexeme with
  | .keyword keyword => if keyword ∈ aggregateFuncs then return .expr (← parseAggregate) else return .expr (← parseExpr)
  | _ => return .expr (← parseExpr)

/-- `_parse_select_columns`. -/
def parseSelectColumns : SqlParser X (List (SelectItem X)) := do
  match (← peek).lexeme with
  | .op .mul =>
    let _ ← advance
    return [.star]
  | _ => commaList parseSelectItem

def afterAlias : List Keyword :=
  [.AS, .ON, .USING, .WHERE, .GROUP, .ORDER, .LIMIT, .LEFT, .INNER, .JOIN, .RIGHT, .FULL, .CROSS, .OUTER]

/-- `_is_alias_position`, with the alias as the first of the tokens. -/
def isAliasPosition : List (Token X) → Bool
  | _ :: next :: _ =>
    match next.lexeme with
    | .keyword keyword => keyword ∈ afterAlias
    | .semi | .eof => true
    | _ => false
  | _ => true

/-- `_parse_table_ref`. -/
def parseTableRef : SqlParser X (TableRef X) := do
  let name ← expectIdent
  let _ ← matchKeyword .AS
  let tok ← peek
  match tok.lexeme with
  | .ident aliasName =>
    if isAliasPosition (← get) then
      let _ ← advance
      return .table name (some aliasName)
    else return .table name none
  | _ => return .table name none

/-- `_parse_join_condition`. -/
def parseJoinCondition : SqlParser X (Option (Expr X) × List String) := do
  if ← matchKeyword .ON then return (some (← parseExpr), [])
  else if ← matchKeyword .USING then
    let _ ← expectKind .LPAREN
    let columns ← parseIdentList
    let _ ← expectKind .RPAREN
    return (none, columns)
  else
    let tok ← peek
    failAt tok "JOIN requires ON or USING clause"

def parseJoinKind : SqlParser X JoinKind := do
  if ← matchKeyword .INNER then return .inner
  else if ← matchKeyword .LEFT then
    let _ ← matchKeyword .OUTER
    return .left
  else if ← matchKeyword .RIGHT then
    failAt (← peek) "RIGHT JOIN is not supported in v0.2"
  else if ← matchKeyword .FULL then
    failAt (← peek) "FULL JOIN is not supported in v0.2"
  else if ← matchKeyword .CROSS then
    failAt (← peek) "CROSS JOIN is not supported in v0.2"
  else return .inner

/-- `_parse_one_join`. -/
def parseOneJoin (left : TableRef X) : SqlParser X (TableRef X) := do
  let kind ← parseJoinKind
  expectKeyword .JOIN
  let right ← parseTableRef
  let (on, columns) ← parseJoinCondition
  return .join left right kind on columns (kind = .left)

/-- `_peek_is_join_start`. -/
def isJoinStart : Lexeme X → Bool
  | .keyword keyword => keyword ∈ [.INNER, .JOIN, .LEFT, .CROSS]
  | _ => false

/-- `_JOIN_MAX_DEPTH`. -/
def JOIN_MAX_DEPTH : ℕ := 5

/-- `_parse_from_clause`: the tables so far and the number of joins in them. -/
def parseFromClause : SqlParser X (TableRef X) := do
  let first ← parseTableRef
  let (source, _) ← Parser.loop stuck (fun (left, depth) => do
    let tok ← peek
    if isJoinStart tok.lexeme then
      if depth + 1 > JOIN_MAX_DEPTH then failAt tok "JOIN nesting depth exceeds 5"
      else return some (← parseOneJoin left, depth + 1)
    else return none) (first, 0)
  return source

/-- `_parse_order_by_item`: the table of a qualified name is dropped. -/
def parseOrderByItem : SqlParser X OrderBy := do
  let name ← expectIdent
  let column ← (do if ← matchKind .DOT then expectIdent else return name)
  if ← matchKeyword .DESC then return ⟨column, true⟩
  else
    let _ ← matchKeyword .ASC
    return ⟨column, false⟩

def parseWhere : SqlParser X (Option (Expr X)) := do
  if ← matchKeyword .WHERE then return some (← parseExpr) else return none

def parseBy {α : Type} (keyword : Keyword) (items : SqlParser X (List α)) : SqlParser X (List α) := do
  if ← matchKeyword keyword then
    expectKeyword .BY
    items
  else return []

def parseLimit : SqlParser X (Option ℤ × Option ℤ) := do
  if ← matchKeyword .LIMIT then
    let limit ← expectInt
    if ← matchKeyword .OFFSET then return (some limit, some (← expectInt)) else return (some limit, none)
  else return (none, none)

/-- `_parse_select`. -/
def parseSelect : SqlParser X (Parsed X) := do
  expectKeyword .SELECT
  let columns ← parseSelectColumns
  expectKeyword .FROM
  let source ← parseFromClause
  let filter ← parseWhere
  let groupBy ← parseBy .GROUP parseIdentList
  let orderBy ← parseBy .ORDER (commaList parseOrderByItem)
  let (limit, offset) ← parseLimit
  let _ ← matchKind .SEMI
  return .select { columns, source, filter, orderBy, limit, offset, groupBy }

/-- `_parse_assignment`: any operator is taken for `=`. -/
def parseAssignment : SqlParser X (Assignment X) := do
  let column ← expectIdent
  let _ ← expectKind .OP
  return ⟨column, ← parseExpr⟩

/-- `_parse_update`. -/
def parseUpdate : SqlParser X (Parsed X) := do
  expectKeyword .UPDATE
  let table ← expectIdent
  expectKeyword .SET
  let clauses ← commaList parseAssignment
  let filter ← parseWhere
  let _ ← matchKind .SEMI
  return .update table clauses filter

/-- `_parse_delete`. -/
def parseDelete : SqlParser X (Parsed X) := do
  expectKeyword .DELETE
  expectKeyword .FROM
  let table ← expectIdent
  let filter ← parseWhere
  let _ ← matchKind .SEMI
  return .delete table filter

def parseDml : SqlParser X (Parsed X) := do
  let tok ← peek
  match tok.lexeme with
  | .keyword .INSERT => parseInsert
  | .keyword .SELECT => parseSelect
  | .keyword .UPDATE => parseUpdate
  | .keyword .DELETE => parseDelete
  | _ => failAt tok ("expected DML keyword (INSERT/SELECT/UPDATE/DELETE), got " ++ tok.shown)

def parseStatement : SqlParser X (Parsed X) := do
  match (← peek).lexeme with
  | .keyword .CREATE | .keyword .DROP => parseDdl
  | _ => parseDml

def parseTokens (tokens : List (Token X)) : Except Exc (Parsed X) := do
  match ← parseStatement tokens with
  | (_, tok :: _ :: _) => throw (parseError tok.position ("unexpected trailing token " ++ tok.shown))
  | (stmt, _) => return stmt

def parse [Lexicon X] (sql : String) : Except Exc (Parsed X) := do parseTokens (← tokenize sql)

end Tinydb.Sql
