import Mathlib.Data.Int.Notation
import Tinydb.Errors
import Tinydb.Lib.Bytes

/-! Type tags, columns and the values rows are made of (`types/system.py`).

A value is what Python passes around. Integers, texts and byte strings are
modelled themselves; numbers with a fractional part, dates, times and JSON
documents are values of another type, and what the Python runtime does with them
is a parameter.
-/

namespace Tinydb.Types

open Lib

inductive TypeTag where
  | null | int | float | text | bool | date | time | datetime | decimal | blob | json
  deriving DecidableEq, Repr

namespace TypeTag

def byte : TypeTag → UInt8
  | null => 0x00
  | int => 0x01
  | float => 0x02
  | text => 0x03
  | bool => 0x04
  | date => 0x05
  | time => 0x06
  | datetime => 0x07
  | decimal => 0x08
  | blob => 0x09
  | json => 0x0A

def all : List TypeTag := [null, int, float, text, bool, date, time, datetime, decimal, blob, json]

def ofByte (b : UInt8) : Option TypeTag := all.find? fun tag => tag.byte = b

def name : TypeTag → String
  | null => "Null"
  | int => "Int"
  | float => "Float"
  | text => "Text"
  | bool => "Bool"
  | date => "Date"
  | time => "Time"
  | datetime => "Datetime"
  | decimal => "Decimal"
  | blob => "Blob"
  | json => "Json"

theorem ofByte_byte (tag : TypeTag) : ofByte tag.byte = some tag := by cases tag <;> rfl

end TypeTag

structure Column where
  name : String
  tag : TypeTag
  notNull : Bool
  primaryKey : Bool
  unique : Bool
  deriving DecidableEq, Repr

/-- The classes whose objects are left to the runtime; `container` is list, dict and tuple. -/
inductive ForeignKind where
  | float | date | time | datetime | decimal | container
  deriving DecidableEq, Repr

/-- A Python object; `typed` is a type-prefixed literal the parser left in a VALUES list. -/
inductive Value (X : Type) where
  | none
  | bool (b : Bool)
  | int (i : ℤ)
  | str (s : String)
  | bytes (bs : Bytes)
  | foreign (x : X)
  | typed (tag : TypeTag) (value : Value X)
  deriving DecidableEq

abbrev Row (X : Type) := List (Value X)

inductive Order where
  | lt | le | gt | ge
  deriving DecidableEq, Repr

namespace Order

def symbol : Order → String
  | lt => "<"
  | le => "<="
  | gt => ">"
  | ge => ">="

/-- The answer in a total order, from whether the left side is smaller and whether it is equal. -/
def decideBy (op : Order) (less same : Bool) : Bool :=
  match op with
  | lt => less
  | le => less || same
  | gt => !(less || same)
  | ge => !less

end Order

inductive Arith where
  | add | sub | mul | div
  deriving DecidableEq, Repr

def Arith.symbol : Arith → String
  | add => "+"
  | sub => "-"
  | mul => "*"
  | div => "/"

/-- What the runtime does with the objects it owns: operators with such an operand, division,
and the conversions the codec calls. -/
class Runtime (X : Type) where
  kind : X → ForeignKind
  typeName : X → String
  repr : Value X → String
  truthy : X → Bool
  eq : Value X → Value X → Bool
  order : Order → Value X → Value X → Except Exc Bool
  arith : Arith → Value X → Value X → Except Exc (Value X)
  /-- `struct.pack("<d", _)` and back. -/
  packDouble : Value X → Except Exc Bytes
  unpackDouble : Bytes → X
  /-- `float(_)` of an integer, and the integer a float is, if it is one. -/
  ofInt : ℤ → Except Exc X
  integral : X → Option ℤ
  /-- Days since the epoch, microseconds since midnight and since the epoch, and back. -/
  days : X → ℤ
  ofDays : ℤ → Except Exc X
  micros : X → ℕ
  ofMicros : ℕ → Except Exc X
  epochMicros : X → ℤ
  ofEpochMicros : ℤ → Except Exc X
  /-- `Decimal(_)` of an integer, `format(_, "f")` and back. -/
  decimalOfInt : ℤ → X
  decimalText : X → String
  ofDecimalText : String → Except Exc X
  jsonDumps : Value X → Except Exc String
  jsonLoads : String → Except Exc (Value X)
  /-- `json.dumps` of a tuple. -/
  tupleDumps : List (Value X) → Except Exc String

/-- A runtime for programs that only touch the modelled classes: every operation that would need another
object fails. -/
abbrev Runtime.bare (X : Type) [Inhabited X] : Runtime X :=
  let unsupported : Exc := ⟨.notImplementedError, "value of another class"⟩
  { kind := fun _ => .float
    typeName := fun _ => "float"
    repr := fun _ => ""
    truthy := fun _ => true
    eq := fun _ _ => false
    order := fun _ _ _ => .error unsupported
    arith := fun _ _ _ => .error unsupported
    packDouble := fun _ => .error unsupported
    unpackDouble := fun _ => default
    ofInt := fun _ => .error unsupported
    integral := fun _ => none
    days := fun _ => 0
    ofDays := fun _ => .error unsupported
    micros := fun _ => 0
    ofMicros := fun _ => .error unsupported
    epochMicros := fun _ => 0
    ofEpochMicros := fun _ => .error unsupported
    decimalOfInt := fun _ => default
    decimalText := fun _ => ""
    ofDecimalText := fun _ => .error unsupported
    jsonDumps := fun _ => .error unsupported
    jsonLoads := fun _ => .error unsupported
    tupleDumps := fun _ => .error unsupported }

/-- Numbers, texts, bytes and truth values only. -/
instance : Runtime Unit := .bare Unit

namespace Value

variable {X : Type}

def isNone : Value X → Bool
  | none => true
  | _ => false

@[simp] theorem isNone_iff {v : Value X} : v.isNone = true ↔ v = none := by cases v <;> simp [isNone]

/-- `bool` is a subclass of `int`. -/
def number? : Value X → Option ℤ
  | bool b => some (if b then 1 else 0)
  | int i => some i
  | _ => Option.none

def isForeign : Value X → Bool
  | foreign _ => true
  | _ => false

variable [Runtime X]

def typeName : Value X → String
  | none => "NoneType"
  | bool _ => "bool"
  | int _ => "int"
  | str _ => "str"
  | bytes _ => "bytes"
  | foreign x => Runtime.typeName x
  | typed _ _ => "TypedLiteral"

def jsonOk : Value X → Bool
  | none | bool _ | int _ | str _ => true
  | foreign x => Runtime.kind x = .float || Runtime.kind x = .container
  | bytes _ | typed _ _ => false

def truthy : Value X → Bool
  | none => false
  | bool b => b
  | int i => i ≠ 0
  | str s => s ≠ ""
  | bytes bs => bs ≠ []
  | foreign x => Runtime.truthy x
  | typed _ _ => true

/-- The operator `==`. -/
def eq : Value X → Value X → Bool
  | none, none => true
  | str s, str t => s = t
  | bytes bs, bytes cs => bs = cs
  | typed tag v, typed tag' w => tag = tag' && eq v w
  | a, b =>
    if a.isForeign || b.isForeign then Runtime.eq a b
    else
      match a.number?, b.number? with
      | some i, some j => i = j
      | _, _ => false

/-- The operators `<`, `<=`, `>` and `>=`. -/
def order (op : Order) : Value X → Value X → Except Exc Bool
  | str s, str t => .ok (op.decideBy (s < t) (s = t))
  | bytes bs, bytes cs => .ok (op.decideBy (bs < cs) (bs = cs))
  | a, b =>
    if a.isForeign || b.isForeign then Runtime.order op a b
    else
      match a.number?, b.number? with
      | some i, some j => .ok (op.decideBy (i < j) (i = j))
      | _, _ => .error ⟨.typeError, quoted op.symbol ++ " not supported between instances of " ++
          quoted a.typeName ++ " and " ++ quoted b.typeName⟩

/-- `times` copies of a sequence; none for a negative number. -/
def repeated {α : Type} (times : ℤ) (items : List α) : List α := (List.replicate times.toNat items).flatten

/-- The operators `+`, `-`, `*` and `/`. -/
def arith (op : Arith) (a b : Value X) : Except Exc (Value X) :=
  if a.isForeign || b.isForeign then Runtime.arith op a b
  else
    match op, a, b, a.number?, b.number? with
    | .div, _, _, some _, some _ => Runtime.arith op a b
    | .add, _, _, some i, some j => .ok (int (i + j))
    | .sub, _, _, some i, some j => .ok (int (i - j))
    | .mul, _, _, some i, some j => .ok (int (i * j))
    | .add, str s, str t, _, _ => .ok (str (s ++ t))
    | .add, bytes bs, bytes cs, _, _ => .ok (bytes (bs ++ cs))
    | .mul, str s, _, _, some times | .mul, _, str s, some times, _ =>
      .ok (str (String.ofList (repeated times s.toList)))
    | .mul, bytes bs, _, _, some times | .mul, _, bytes bs, some times, _ => .ok (bytes (repeated times bs))
    | _, _, _, _, _ => .error ⟨.typeError, "unsupported operand type(s) for " ++ op.symbol ++ ": " ++
        quoted a.typeName ++ " and " ++ quoted b.typeName⟩

end Value

end Tinydb.Types
