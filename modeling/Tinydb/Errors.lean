import Mathlib.Init

/-! Exceptions of the engine.

An exception is its class and its text. The texts of exceptions the Python
runtime raises itself (`struct.error`, codecs, operators on values of the wrong
type) are the runtime's and are kept only as far as they name the operation.
-/

namespace Tinydb

inductive ExcClass where
  -- raised by the runtime or used directly by the engine
  | valueError | indexError | keyError | typeError | runtimeError | notImplementedError
  | overflowError | zeroDivisionError | attributeError | unicodeError | structError | lookupError
  | invalidOperation | osError
  -- tinydb.errors and the classes the other modules derive from it
  | tinydbError | constraintViolation | notNullViolation | typeMismatchError
  | unknownTableError | unknownColumnError | nestedTransactionError | deadlockError
  | pageRecordDecodeError | btreeOverflowError | walCorruptionError | parseError
  | ambiguousColumnError | unknownAliasError | bareColumnNotAliasedError
  -- the wire protocol and its client
  | frameTruncatedError | protocolError | incompleteFrameError | clientConnectionError |
      clientTimeoutError | clientProtocolError
  | integrityError
  -- not an exception: the loop of the source would not end
  | nontermination
  deriving DecidableEq, Repr

structure Exc where
  cls : ExcClass
  msg : String
  deriving DecidableEq, Repr

/-- `struct.pack` of a number outside the range of its format character. -/
def Exc.packRange : Exc := ⟨.structError, "argument out of range"⟩

/-- `struct.unpack` of a buffer of the wrong size. -/
def Exc.unpackSize : Exc := ⟨.structError, "unpack requires a buffer of another size"⟩

/-- `0x` and at least `width` hexadecimal digits. -/
def hexText (width value : Nat) : String :=
  let digits := Nat.toDigits 16 value
  "0x" ++ String.ofList (List.replicate (width - digits.length) '0' ++ digits)

/-- `repr` of a name, for names without quotes and escapes. -/
def quoted (name : String) : String := "'" ++ name ++ "'"

end Tinydb
