import Tinydb.Types.Value

/-! The tokenizer (`sql/tokens.py`).

`scan` is one turn of its loop: what stands at the front of the text and how far it
reaches. Line and column are counted branch by branch, as there. What Python's
`str` knows about characters beyond ASCII is a parameter.
-/

namespace Tinydb.Sql

open Tinydb.Types

inductive Keyword where
  -- DDL
  | CREATE | TABLE | DROP | ALTER | IF | EXISTS
  -- DML
  | INSERT | INTO | VALUES | UPDATE | SET | DELETE | SELECT | FROM | WHERE | ORDER | BY | GROUP | HAVING
  | LIMIT | OFFSET | ASC | DESC | AS | ON
  -- expressions
  | AND | OR | NOT | IS | NULL | LIKE | IN | BETWEEN | TRUE | FALSE
  -- joins
  | JOIN | LEFT | RIGHT | INNER | OUTER | FULL | CROSS | USING
  -- type names
  | INT | INTEGER | FLOAT | DOUBLE | REAL | TEXT | VARCHAR | BOOL | BOOLEAN | DATE | TIME | DATETIME | TIMESTAMP
  | DECIMAL | NUMERIC | BLOB | BYTEA | JSON
  -- constraints
  | PRIMARY | KEY | UNIQUE | DEFAULT | CHECK | INDEX
  -- aggregates
  | COUNT | SUM | AVG | MIN | MAX
  deriving DecidableEq

namespace Keyword

/-- `KEYWORDS`, with the upper-case text of each. -/
def table : List (String × Keyword) :=
  [("CREATE", CREATE), ("TABLE", TABLE), ("DROP", DROP), ("ALTER", ALTER), ("IF", IF), ("EXISTS", EXISTS),
   ("INSERT", INSERT), ("INTO", INTO), ("VALUES", VALUES), ("UPDATE", UPDATE), ("SET", SET), ("DELETE", DELETE),
   ("SELECT", SELECT), ("FROM", FROM), ("WHERE", WHERE), ("ORDER", ORDER), ("BY", BY), ("GROUP", GROUP),
   ("HAVING", HAVING), ("LIMIT", LIMIT), ("OFFSET", OFFSET), ("ASC", ASC), ("DESC", DESC), ("AS", AS), ("ON", ON),
   ("AND", AND), ("OR", OR), ("NOT", NOT), ("IS", IS), ("NULL", NULL), ("LIKE", LIKE), ("IN", IN),
   ("BETWEEN", BETWEEN), ("TRUE", TRUE), ("FALSE", FALSE), ("JOIN", JOIN), ("LEFT", LEFT), ("RIGHT", RIGHT),
   ("INNER", INNER), ("OUTER", OUTER), ("FULL", FULL), ("CROSS", CROSS), ("USING", USING), ("INT", INT),
   ("INTEGER", INTEGER), ("FLOAT", FLOAT), ("DOUBLE", DOUBLE), ("REAL", REAL), ("TEXT", TEXT),
   ("VARCHAR", VARCHAR), ("BOOL", BOOL), ("BOOLEAN", BOOLEAN), ("DATE", DATE), ("TIME", TIME),
   ("DATETIME", DATETIME), ("TIMESTAMP", TIMESTAMP), ("DECIMAL", DECIMAL), ("NUMERIC", NUMERIC), ("BLOB", BLOB),
   ("BYTEA", BYTEA), ("JSON", JSON), ("PRIMARY", PRIMARY), ("KEY", KEY), ("UNIQUE", UNIQUE), ("DEFAULT", DEFAULT),
   ("CHECK", CHECK), ("INDEX", INDEX), ("COUNT", COUNT), ("SUM", SUM), ("AVG", AVG), ("MIN", MIN), ("MAX", MAX)]

def ofText (text : String) : Option Keyword := (table.find? (·.1 = text)).map Prod.snd

end Keyword

/-- The values of OP tokens. -/
inductive Op where
  | ge | le | ne | add | sub | mul | div | lt | gt | eq
  deriving DecidableEq

/-- The kind of a token with its value. -/
inductive Lexeme (X : Type) where
  | keyword (keyword : Keyword)
  | ident (name : String)
  | intLit (value : ℤ)
  | floatLit (value : X)
  | stringLit (value : String)
  | boolLit (value : Bool)
  | nullLit
  | op (op : Op)
  | lparen | rparen | comma | semi | dot | eof
  deriving DecidableEq

/-- A place in the source, from line 1 and column 1. -/
structure Position where
  line : ℕ
  col : ℕ
  deriving DecidableEq

structure Token (X : Type) where
  lexeme : Lexeme X
  position : Position

def parseError (position : Position) (msg : String) : Exc :=
  ⟨.parseError, "line " ++ toString position.line ++ ", col " ++ toString position.col ++ ": " ++ msg⟩

/-- Characters beyond ASCII and `int` of digits among them, `float`, and `str` of an object that is not
modelled itself. -/
class Lexicon (X : Type) where
  isalpha : Char → Bool
  isdigit : Char → Bool
  isalnum : Char → Bool
  upper : Char → List Char
  int : List Char → Except Exc ℤ
  float : List Char → Except Exc X
  str : Value X → String

/-- A lexicon for texts in ASCII: nothing beyond is a letter or a digit. -/
abbrev Lexicon.ascii (X : Type) [Inhabited X] : Lexicon X where
  isalpha := fun _ => false
  isdigit := fun _ => false
  isalnum := fun _ => false
  upper := fun c => [c]
  int := fun _ => .error ⟨.valueError, "invalid literal for int() with base 10"⟩
  float := fun _ => .ok default
  str := fun _ => ""

instance : Lexicon Unit := .ascii Unit

section Characters

variable (X : Type) [Lexicon X]

def isAscii (c : Char) : Bool := c.toNat < 128

def isAlpha (c : Char) : Bool := if isAscii c then c.isAlpha else Lexicon.isalpha X c

def isDigit (c : Char) : Bool := if isAscii c then c.isDigit else Lexicon.isdigit X c

def isAlnum (c : Char) : Bool := if isAscii c then c.isAlphanum else Lexicon.isalnum X c

def upper (text : List Char) : List Char := text.flatMap fun c => if isAscii c then [c.toUpper] else Lexicon.upper X c

/-- The most digits `int` converts from a text. -/
def MAX_STR_DIGITS : ℕ := 4300

def decimal (digits : List Char) : ℤ := digits.foldl (fun n c => 10 * n + (c.toNat - '0'.toNat : ℕ)) 0

/-- `int(_)` of a text of digits. -/
def toInt (text : List Char) : Except Exc ℤ :=
  if text.all isAscii then
    if text.length ≤ MAX_STR_DIGITS then .ok (decimal text)
    else .error ⟨.valueError, "Exceeds the limit (" ++ toString MAX_STR_DIGITS ++
      " digits) for integer string conversion: value has " ++ toString text.length ++
      " digits; use sys.set_int_max_str_digits() to increase the limit"⟩
  else Lexicon.int X text

end Characters

/-- What stands at the front of a text. -/
inductive Found (X : Type) where
  | blank
  | lineComment
  | blockComment
  | lexeme (lexeme : Lexeme X)

/-- What was found, the text it takes and the text after it. -/
structure Scan (X : Type) where
  found : Found X
  text : List Char
  rest : List Char

inductive Flaw where
  | unterminatedComment
  | unterminatedString
  | unexpected (c : Char)
  | raised (e : Exc)

section Scanners

def closeComment : List Char → Option (List Char × List Char)
  | [] => none
  | '*' :: '/' :: rest => some (['*', '/'], rest)
  | '/' :: '*' :: rest => (closeComment rest).map fun (text, rest) => ('/' :: '*' :: text, rest)
  | c :: rest => (closeComment rest).map fun (text, rest) => (c :: text, rest)

/-- A string literal after its first quote: its value, its text and what follows; a doubled quote stands for
one. -/
def closeString : List Char → Option (List Char × List Char × List Char)
  | [] => none
  | '\'' :: '\'' :: rest => (closeString rest).map fun (value, text, rest) =>
    ('\'' :: value, '\'' :: '\'' :: text, rest)
  | '\'' :: rest => some ([], ['\''], rest)
  | c :: rest => (closeString rest).map fun (value, text, rest) => (c :: value, c :: text, rest)

variable {X : Type} [Lexicon X]

def word (text : List Char) : Lexeme X :=
  match Keyword.ofText (String.ofList (upper X text)) with
  | some .TRUE => .boolLit true
  | some .FALSE => .boolLit false
  | some .NULL => .nullLit
  | some keyword => .keyword keyword
  | none => .ident (String.ofList text)

/-- The rest of a number after its first digit: its text, what follows, and whether there was a point. -/
def closeNumber (X : Type) [Lexicon X] (text : List Char) : List Char × List Char × Bool :=
  let whole := text.takeWhile (isDigit X)
  match text.dropWhile (isDigit X) with
  | '.' :: rest => (whole ++ '.' :: rest.takeWhile (isDigit X), rest.dropWhile (isDigit X), true)
  | rest => (whole, rest, false)

/-- `_MULTI_CHAR_OPS`, by the character before their `=`. -/
def multiCharOp : Char → Option Op
  | '>' => some .ge
  | '<' => some .le
  | '!' => some .ne
  | _ => none

def singleChar : Char → Option (Lexeme X)
  | '+' => some (.op .add)
  | '-' => some (.op .sub)
  | '*' => some (.op .mul)
  | '/' => some (.op .div)
  | '<' => some (.op .lt)
  | '>' => some (.op .gt)
  | '=' => some (.op .eq)
  | '(' => some .lparen
  | ')' => some .rparen
  | ',' => some .comma
  | ';' => some .semi
  | '.' => some .dot
  | _ => none

def symbol (c : Char) (rest : List Char) : Option (Lexeme X × List Char × List Char) :=
  match if rest.head? = some '=' then multiCharOp c else none with
  | some op => some (.op op, [c, '='], rest.tail)
  | none => (singleChar c).map fun lexeme => (lexeme, [c], rest)

def scan (c : Char) (rest : List Char) : Except Flaw (Scan X) :=
  if c ∈ [' ', '\t', '\r', '\n'] then .ok ⟨.blank, [c], rest⟩
  else if c = '-' ∧ rest.head? = some '-' then
    .ok ⟨.lineComment, (c :: rest).takeWhile (· ≠ '\n'), (c :: rest).dropWhile (· ≠ '\n')⟩
  else if c = '/' ∧ rest.head? = some '*' then
    match closeComment rest.tail with
    | some (text, rest) => .ok ⟨.blockComment, '/' :: '*' :: text, rest⟩
    | none => .error .unterminatedComment
  else if c = '\'' then
    match closeString rest with
    | some (value, text, rest) => .ok ⟨.lexeme (.stringLit (String.ofList value)), c :: text, rest⟩
    | none => .error .unterminatedString
  else if isAlpha X c || c = '_' then
    let text := c :: rest.takeWhile fun c => isAlnum X c || c = '_'
    .ok ⟨.lexeme (word text), text, rest.dropWhile fun c => isAlnum X c || c = '_'⟩
  else if isDigit X c then
    let (text, rest, isFloat) := closeNumber X rest
    let value := if isFloat then (Lexicon.float (c :: text)).map Lexeme.floatLit else (toInt X (c :: text)).map .intLit
    match value with
    | .ok lexeme => .ok ⟨.lexeme lexeme, c :: text, rest⟩
    | .error e => .error (.raised e)
  else
    match symbol c rest with
    | some (lexeme, text, rest) => .ok ⟨.lexeme lexeme, text, rest⟩
    | none => .error (.unexpected c)

end Scanners

namespace Position

def right (position : Position) (n : ℕ) : Position := ⟨position.line, position.col + n⟩

def newline (position : Position) : Position := ⟨position.line + 1, 1⟩

/-- The counting of the loop over a block comment, from behind its `/*`. -/
def inComment (position : Position) : List Char → Position
  | [] => position
  | '*' :: '/' :: _ => position.right 2
  | '/' :: '*' :: rest => (position.right 2).inComment rest
  | '\n' :: rest => position.newline.inComment rest
  | _ :: rest => (position.right 1).inComment rest

/-- The counting of the loop over a string literal, from behind its first quote, and of its last quote. -/
def inString (position : Position) : List Char → Position
  | [] => position
  | '\'' :: '\'' :: rest => (position.right 2).inString rest
  | '\'' :: _ => position.right 1
  | '\n' :: rest => position.newline.inString rest
  | _ :: rest => (position.right 1).inString rest

end Position

section Loop

variable {X : Type} [Runtime X] [Lexicon X]

/-- Line and column after a turn on `text`. A line comment moves neither, and outside comments and string literals only
a blank looks for a newline. -/
def Scan.after (scan : Scan X) (position : Position) (text : List Char) : Position :=
  match scan.found with
  | .blank => if text.head? = some '\n' then position.newline else position.right 1
  | .lineComment => position
  | .blockComment => (position.right 2).inComment (text.drop 2)
  | .lexeme (.stringLit _) => (position.right 1).inString (text.drop 1)
  | .lexeme _ => position.right scan.text.length

def Scan.token (scan : Scan X) (position : Position) : List (Token X) :=
  match scan.found with
  | .lexeme lexeme => [⟨lexeme, position⟩]
  | _ => []

/-- An unterminated comment is reported at the end of the text, anything else where it starts. -/
def Flaw.report (X : Type) [Runtime X] (position : Position) (text : List Char) : Flaw → Exc
  | unterminatedComment => parseError ((position.right 2).inComment (text.drop 2)) "unterminated block comment"
  | unterminatedString => parseError position "unterminated string literal"
  | unexpected c => parseError position ("unexpected character " ++ Runtime.repr (.str (String.singleton c) : Value X))
  | raised e => e

/-- Every turn takes a character or more, so the length of the text bounds the turns. -/
def tokensFrom : ℕ → Position → List Char → Except Exc (List (Token X))
  | _, position, [] => .ok [⟨.eof, position⟩]
  | 0, position, _ :: _ => .ok [⟨.eof, position⟩]
  | turns + 1, position, c :: rest =>
    match scan c rest with
    | .error flaw => .error (flaw.report X position (c :: rest))
    | .ok scan => do
      return scan.token position ++ (← tokensFrom turns (scan.after position (c :: rest)) scan.rest)

def tokenize (sql : String) : Except Exc (List (Token X)) := tokensFrom sql.toList.length ⟨1, 1⟩ sql.toList

end Loop

end Tinydb.Sql
