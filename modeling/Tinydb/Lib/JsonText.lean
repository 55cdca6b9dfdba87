import Mathlib.Data.Int.Notation
import Mathlib.Tactic.NormNum
import Tinydb.Lib.Dict

/-! JSON texts, written without blanks and in ASCII only.

The writer escapes every character outside the printable ASCII range; one beyond the
basic plane becomes a surrogate pair. The reader takes blanks between tokens and either
case of the hexadecimal digits. Numbers with a fraction or an exponent, and strings
with a surrogate of its own, are not read. What the writer writes is read back.
-/

namespace Tinydb.Lib

open List Option

inductive JsonValue where
  | null
  | bool (b : Bool)
  | int (i : ℤ)
  | str (s : String)
  | arr (items : List JsonValue)
  | obj (members : List (String × JsonValue))

namespace JsonValue

/-- `\u` and four hexadecimal digits. -/
def unit (n : ℕ) : List Char :=
  ['\\', 'u', (n / 4096 % 16).digitChar, (n / 256 % 16).digitChar, (n / 16 % 16).digitChar, (n % 16).digitChar]

def escapeChar (c : Char) : List Char :=
  if c = '"' then ['\\', '"']
  else if c = '\\' then ['\\', '\\']
  else if c = '\n' then ['\\', 'n']
  else if c = '\r' then ['\\', 'r']
  else if c = '\t' then ['\\', 't']
  else if c = '\x0c' then ['\\', 'f']
  else if c = '\x08' then ['\\', 'b']
  else if ' ' ≤ c ∧ c ≤ '~' then [c]
  else if c.toNat < 0x10000 then unit c.toNat
  else unit (0xd800 + (c.toNat - 0x10000) / 1024) ++ unit (0xdc00 + (c.toNat - 0x10000) % 1024)

def dumpsStr (s : String) : List Char := '"' :: (s.toList.flatMap escapeChar ++ ['"'])

def dumpsInt : ℤ → List Char
  | .ofNat n => Nat.toDigits 10 n
  | .negSucc n => '-' :: Nat.toDigits 10 (n + 1)

mutual

def dumps : JsonValue → List Char
  | null => ['n', 'u', 'l', 'l']
  | bool true => ['t', 'r', 'u', 'e']
  | bool false => ['f', 'a', 'l', 's', 'e']
  | int i => dumpsInt i
  | str s => dumpsStr s
  | arr items => '[' :: (dumpsItems items ++ [']'])
  | obj members => '{' :: (dumpsMembers members ++ ['}'])

def dumpsItems : List JsonValue → List Char
  | [] => []
  | [item] => dumps item
  | item :: items => dumps item ++ ',' :: dumpsItems items

def dumpsMembers : List (String × JsonValue) → List Char
  | [] => []
  | [(key, value)] => dumpsStr key ++ ':' :: dumps value
  | (key, value) :: members => dumpsStr key ++ ':' :: (dumps value ++ ',' :: dumpsMembers members)

end

def isBlank (c : Char) : Bool := c = ' ' || c = '\t' || c = '\n' || c = '\r'

def skipBlanks (text : List Char) : List Char := text.dropWhile isBlank

def hexValue (c : Char) : Option ℕ :=
  if '0' ≤ c ∧ c ≤ '9' then some (c.toNat - '0'.toNat)
  else if 'a' ≤ c ∧ c ≤ 'f' then some (c.toNat - 'a'.toNat + 10)
  else if 'A' ≤ c ∧ c ≤ 'F' then some (c.toNat - 'A'.toNat + 10)
  else none

def readUnit : List Char → Option (ℕ × List Char)
  | a :: b :: c :: d :: rest => do
    return ((((← hexValue a) * 16 + (← hexValue b)) * 16 + (← hexValue c)) * 16 + (← hexValue d), rest)
  | _ => none

def unescape : Char → Option Char
  | '"' => some '"'
  | '\\' => some '\\'
  | '/' => some '/'
  | 'b' => some '\x08'
  | 'f' => some '\x0c'
  | 'n' => some '\n'
  | 'r' => some '\r'
  | 't' => some '\t'
  | _ => none

/-- The character of `\u`, a pair of surrogates taken together. -/
def readEscaped (rest : List Char) : Option (Char × List Char) := do
  let (high, rest) ← readUnit rest
  if 0xd800 ≤ high ∧ high < 0xdc00 then
    match rest with
    | '\\' :: 'u' :: rest =>
      let (low, rest) ← readUnit rest
      if 0xdc00 ≤ low ∧ low < 0xe000 then
        return (Char.ofNat (0x10000 + (high - 0xd800) * 1024 + (low - 0xdc00)), rest)
      else none
    | _ => none
  else if high.isValidChar then return (Char.ofNat high, rest)
  else none

/-- The characters up to the closing quote. Control characters must be escaped. -/
def readChars : ℕ → List Char → Option (List Char × List Char)
  | 0, _ => none
  | _ + 1, [] => none
  | _ + 1, '"' :: rest => some ([], rest)
  | fuel + 1, '\\' :: 'u' :: rest => do
    let (c, rest) ← readEscaped rest
    let (cs, rest) ← readChars fuel rest
    return (c :: cs, rest)
  | fuel + 1, '\\' :: e :: rest => do
    let c ← unescape e
    let (cs, rest) ← readChars fuel rest
    return (c :: cs, rest)
  | fuel + 1, c :: rest => do
    if c = '\\' ∨ c < ' ' then none
    else
      let (cs, rest) ← readChars fuel rest
      return (c :: cs, rest)

def readStr (text : List Char) : Option (String × List Char) := do
  let (cs, rest) ← readChars (text.length + 1) text
  return (String.ofList cs, rest)

def readNat (text : List Char) : Option (ℕ × List Char) :=
  match text with
  | '0' :: rest => some (0, rest)
  | text =>
    match text.takeWhile Char.isDigit with
    | [] => none
    | digits => some (Nat.ofDigitChars 10 digits 0, text.dropWhile Char.isDigit)

def readSigned (text : List Char) : Option (ℤ × List Char) :=
  match text with
  | '-' :: text => (readNat text).map fun found => (-(found.1 : ℤ), found.2)
  | text => (readNat text).map fun found => ((found.1 : ℤ), found.2)

def readInt (text : List Char) : Option (ℤ × List Char) := do
  let (i, rest) ← readSigned text
  match rest with
  | '.' :: _ | 'e' :: _ | 'E' :: _ => none
  | rest => return (i, rest)

mutual

def readValue : ℕ → List Char → Option (JsonValue × List Char)
  | 0, _ => none
  | _ + 1, '"' :: rest => do
    let (s, rest) ← readStr rest
    return (str s, rest)
  | fuel + 1, '{' :: rest =>
    match skipBlanks rest with
    | '}' :: rest => some (obj [], rest)
    | rest => do
      let (members, rest) ← readMembers fuel rest
      return (obj members, rest)
  | fuel + 1, '[' :: rest =>
    match skipBlanks rest with
    | ']' :: rest => some (arr [], rest)
    | rest => do
      let (items, rest) ← readItems fuel rest
      return (arr items, rest)
  | _ + 1, 'n' :: 'u' :: 'l' :: 'l' :: rest => some (null, rest)
  | _ + 1, 't' :: 'r' :: 'u' :: 'e' :: rest => some (bool true, rest)
  | _ + 1, 'f' :: 'a' :: 'l' :: 's' :: 'e' :: rest => some (bool false, rest)
  | _ + 1, text => do
    let (i, rest) ← readInt text
    return (int i, rest)

def readItems : ℕ → List Char → Option (List JsonValue × List Char)
  | 0, _ => none
  | fuel + 1, text => do
    let (item, rest) ← readValue fuel text
    match skipBlanks rest with
    | ']' :: rest => return ([item], rest)
    | ',' :: rest =>
      let (items, rest) ← readItems fuel (skipBlanks rest)
      return (item :: items, rest)
    | _ => none

def readMembers : ℕ → List Char → Option (List (String × JsonValue) × List Char)
  | 0, _ => none
  | fuel + 1, '"' :: rest => do
    let (key, rest) ← readStr rest
    match skipBlanks rest with
    | ':' :: rest =>
      let (value, rest) ← readValue fuel (skipBlanks rest)
      match skipBlanks rest with
      | '}' :: rest => return ([(key, value)], rest)
      | ',' :: rest =>
        let (members, rest) ← readMembers fuel (skipBlanks rest)
        return ((key, value) :: members, rest)
      | _ => none
    | _ => none
  | _ + 1, _ => none

end

def loads (text : List Char) : Option JsonValue := do
  let text := skipBlanks text
  let (value, rest) ← readValue (text.length + 1) text
  if skipBlanks rest = [] then return value else none

def get? (value : JsonValue) (key : String) : Option JsonValue :=
  match value with
  | obj members => (Dict.ofWrites members).get? key
  | _ => none

theorem hexValue_digitChar : ∀ d < 16, hexValue d.digitChar = some d := by decide

theorem readUnit_unit {n : ℕ} (small : n < 0x10000) (rest : List Char) :
    readUnit ((n / 4096 % 16).digitChar :: (n / 256 % 16).digitChar :: (n / 16 % 16).digitChar ::
      (n % 16).digitChar :: rest) = some (n, rest) := by
  have digit (d : ℕ) : hexValue (d % 16).digitChar = some (d % 16) := hexValue_digitChar _ (Nat.mod_lt _ (by decide))
  have same : ((n / 4096 % 16 * 16 + n / 256 % 16) * 16 + n / 16 % 16) * 16 + n % 16 = n := by omega
  simp only [readUnit, digit, Option.bind_eq_bind, Option.bind_some, same]
  rfl

variable {c : Char} {fuel : ℕ} {text rest : List Char}

theorem readEscaped_unit (small : c.toNat < 0x10000) (rest : List Char) :
    readEscaped ((unit c.toNat).drop 2 ++ rest) = some (c, rest) := by
  have valid : c.toNat.isValidChar := c.valid
  have plane : ¬ (0xd800 ≤ c.toNat ∧ c.toNat < 0xdc00) := by
    rcases valid with low | high
    · omega
    · omega
  show readEscaped (_ :: _ :: _ :: _ :: rest) = _
  rw [readEscaped, readUnit_unit small]
  simp only [Option.bind_eq_bind, Option.bind_some, if_neg plane, if_pos valid, Char.ofNat_toNat]
  rfl

theorem readEscaped_surrogates {high low : ℕ} (isHigh : 0xd800 ≤ high ∧ high < 0xdc00)
    (isLow : 0xdc00 ≤ low ∧ low < 0xe000)
    (rest : List Char) : readEscaped ((unit high).drop 2 ++ (unit low ++ rest)) =
      some (Char.ofNat (0x10000 + (high - 0xd800) * 1024 + (low - 0xdc00)), rest) := by
  show readEscaped (_ :: _ :: _ :: _ :: _) = _
  rw [readEscaped, readUnit_unit (by omega)]
  simp only [Option.bind_eq_bind, Option.bind_some, if_pos isHigh]
  show (readUnit (_ :: _ :: _ :: _ :: rest) >>= _) = _
  rw [readUnit_unit (by omega)]
  simp only [Option.bind_eq_bind, Option.bind_some, if_pos isLow]
  rfl

theorem readEscaped_pair (large : ¬ c.toNat < 0x10000) (rest : List Char) :
    readEscaped ((unit (0xd800 + (c.toNat - 0x10000) / 1024)).drop 2 ++
      (unit (0xdc00 + (c.toNat - 0x10000) % 1024) ++ rest)) = some (c, rest) := by
  have bound : c.toNat < 0x110000 := by
    rcases (show c.toNat.isValidChar from c.valid) with low | high
    · omega
    · omega
  obtain ⟨n, beyond⟩ : ∃ n, c.toNat = 0x10000 + n := ⟨c.toNat - 0x10000, by omega⟩
  have back : 0x10000 + (0xd800 + n / 1024 - 0xd800) * 1024 + (0xdc00 + n % 1024 - 0xdc00) = c.toNat := by
    rw [Nat.add_sub_cancel_left, Nat.add_sub_cancel_left, Nat.add_assoc, Nat.div_add_mod', beyond]
  have less : n / 1024 < 1024 := Nat.div_lt_of_lt_mul (by omega)
  have less' : n % 1024 < 1024 := Nat.mod_lt _ (by decide)
  rw [show c.toNat - 0x10000 = n by omega, readEscaped_surrogates (by omega) (by omega), back, Char.ofNat_toNat]

def consFst (c : Char) (read : Option (List Char × List Char)) : Option (List Char × List Char) :=
  read.bind fun found => some (c :: found.1, found.2)

theorem readChars_unicode (read : readEscaped text = some (c, rest)) :
    readChars (fuel + 1) ('\\' :: 'u' :: text) = consFst c (readChars fuel rest) := by
  rw [readChars, read]
  rfl

theorem readChars_letter {e : Char} (other : e ≠ 'u') (known : unescape e = some c) :
    readChars (fuel + 1) ('\\' :: e :: rest) = consFst c (readChars fuel rest) := by
  rw [readChars.eq_5 _ _ _ other, known]
  rfl

theorem readChars_plain (quote : c ≠ '"') (backslash : c ≠ '\\') (printable : ' ' ≤ c) :
    readChars (fuel + 1) (c :: rest) = consFst c (readChars fuel rest) := by
  rw [readChars.eq_def]
  split
  all_goals simp_all [consFst]

theorem readChars_escapeChar (fuel : ℕ) (c : Char) (rest : List Char) :
    readChars (fuel + 1) (escapeChar c ++ rest) = consFst c (readChars fuel rest) := by
  by_cases letter : c ∈ ['"', '\\', '\n', '\r', '\t', '\x0c', '\x08']
  · simp only [List.mem_cons, List.not_mem_nil, or_false] at letter
    rcases letter with rfl | rfl | rfl | rfl | rfl | rfl | rfl
    all_goals exact readChars_letter (by decide) rfl
  · simp only [List.mem_cons, List.not_mem_nil, or_false, not_or] at letter
    obtain ⟨quote, backslash, newline, carriage, tab, feed, back⟩ := letter
    simp only [escapeChar, quote, backslash, newline, carriage, tab, feed, back, if_false]
    split
    case isTrue printable => exact readChars_plain quote backslash printable.1
    case isFalse =>
      split
      case isTrue small => exact readChars_unicode (readEscaped_unit small rest)
      case isFalse large =>
        rw [List.append_assoc]
        exact readChars_unicode (readEscaped_pair large rest)

theorem escapeChar_nonempty (c : Char) : 1 ≤ (escapeChar c).length := by
  unfold escapeChar
  split_ifs
  all_goals simp [unit]

theorem length_le_escaped (cs : List Char) : cs.length ≤ (cs.flatMap escapeChar).length := by
  induction cs with
  | nil => exact le_refl _
  | cons c cs ih =>
    have := escapeChar_nonempty c
    rw [List.flatMap_cons, List.length_append, List.length_cons]
    omega

theorem readChars_flatMap (cs : List Char) (enough : cs.length < fuel) (rest : List Char) :
    readChars fuel (cs.flatMap escapeChar ++ '"' :: rest) = some (cs, rest) := by
  induction cs generalizing fuel with
  | nil =>
    obtain ⟨fuel, rfl⟩ := Nat.exists_eq_succ_of_ne_zero (Nat.ne_of_gt enough)
    rfl
  | cons c cs ih =>
    rw [length_cons] at enough
    obtain ⟨fuel, rfl⟩ := Nat.exists_eq_succ_of_ne_zero (Nat.ne_of_gt (Nat.zero_lt_of_lt enough))
    rw [flatMap_cons, append_assoc, readChars_escapeChar, ih (by omega)]
    rfl

theorem readStr_dumpsStr (s : String) (rest : List Char) :
    readStr (s.toList.flatMap escapeChar ++ '"' :: rest) = some (s, rest) := by
  have enough : s.toList.length < (s.toList.flatMap escapeChar ++ '"' :: rest).length + 1 := by
    have each := length_le_escaped s.toList
    rw [length_append]
    omega
  rw [readStr, readChars_flatMap _ enough]
  simp

def Ends : List Char → Prop
  | [] => True
  | c :: _ => c ∈ [',', ']', '}']

theorem Ends.not_digit (ends : Ends rest) : rest.takeWhile Char.isDigit = [] ∧ rest.dropWhile Char.isDigit = rest := by
  cases rest with
  | nil => exact ⟨rfl, rfl⟩
  | cons c rest =>
    have other : c.isDigit = false := by
      simp only [Ends, mem_cons, not_mem_nil, or_false] at ends
      rcases ends with rfl | rfl | rfl <;> rfl
    rw [takeWhile_cons, dropWhile_cons, other]
    exact ⟨rfl, rfl⟩

theorem digitChar_ne_zero : ∀ n < 10, 0 < n → n.digitChar ≠ '0' := by decide

theorem toDigits_head (n : ℕ) (positive : 0 < n) : ∃ d ds, Nat.toDigits 10 n = d :: ds ∧ d ≠ '0' := by
  induction n using Nat.strong_induction_on with
  | _ n ih =>
    by_cases small : n < 10
    · exact ⟨n.digitChar, [], Nat.toDigits_of_lt_base small, digitChar_ne_zero n small positive⟩
    · obtain ⟨d, ds, digits, nonzero⟩ := ih (n / 10) (by omega) (by omega)
      refine ⟨d, ds ++ [(n % 10).digitChar], ?_, nonzero⟩
      rw [Nat.toDigits_of_base_le (by decide) (by omega), digits, cons_append]

theorem readNat_toDigits (n : ℕ) (ends : Ends rest) : readNat (Nat.toDigits 10 n ++ rest) = some (n, rest) := by
  rcases Nat.eq_zero_or_pos n with rfl | positive
  · rw [Nat.toDigits_zero]
    rfl
  · obtain ⟨d, ds, digits, nonzero⟩ := toDigits_head n positive
    have isDigit (c : Char) (among : c ∈ Nat.toDigits 10 n) : c.isDigit = true :=
      Nat.isDigit_of_mem_toDigits (by decide) (by decide) among
    obtain ⟨noMore, kept⟩ := ends.not_digit
    have front : (Nat.toDigits 10 n ++ rest).takeWhile Char.isDigit = d :: ds := by
      rw [takeWhile_append_of_pos isDigit, noMore, append_nil, digits]
    have behind : (Nat.toDigits 10 n ++ rest).dropWhile Char.isDigit = rest := by
      rw [dropWhile_append_of_pos isDigit, kept]
    have other (text : List Char) : Nat.toDigits 10 n ++ rest ≠ '0' :: text := by
      rw [digits]
      exact fun same => nonzero (List.cons.inj same).1
    rw [readNat.eq_2 _ other, front]
    simp only [behind]
    rw [← digits, Nat.ofDigitChars_ten_toDigits]

theorem dumpsInt_head (i : ℤ) : ∃ c cs, dumpsInt i = c :: cs ∧ (c = '-' ∨ c.isDigit = true) := by
  cases i with
  | ofNat n =>
    obtain ⟨c, cs, digits⟩ := exists_cons_of_ne_nil (Nat.toDigits_ne_nil : Nat.toDigits 10 n ≠ [])
    refine ⟨c, cs, digits, .inr ?_⟩
    exact Nat.isDigit_of_mem_toDigits (by decide) (by decide) (digits ▸ mem_cons_self : c ∈ Nat.toDigits 10 n)
  | negSucc n => exact ⟨'-', _, rfl, .inl rfl⟩

theorem readSigned_dumpsInt (i : ℤ) (ends : Ends rest) : readSigned (dumpsInt i ++ rest) = some (i, rest) := by
  cases i with
  | ofNat n =>
    obtain ⟨c, cs, digits⟩ := exists_cons_of_ne_nil (Nat.toDigits_ne_nil : Nat.toDigits 10 n ≠ [])
    have isDigit : c.isDigit = true :=
      Nat.isDigit_of_mem_toDigits (by decide) (by decide) (digits ▸ mem_cons_self : c ∈ Nat.toDigits 10 n)
    have unsigned (text : List Char) : dumpsInt (.ofNat n) ++ rest ≠ '-' :: text := by
      rw [dumpsInt, digits]
      intro same
      obtain rfl := (List.cons.inj same).1
      cases isDigit
    rw [readSigned.eq_2 _ unsigned, dumpsInt, readNat_toDigits n ends]
    rfl
  | negSucc n =>
    rw [dumpsInt, cons_append, readSigned, readNat_toDigits _ ends]
    rfl

theorem readInt_dumpsInt (i : ℤ) (ends : Ends rest) : readInt (dumpsInt i ++ rest) = some (i, rest) := by
  rw [readInt, readSigned_dumpsInt i ends]
  cases rest with
  | nil => rfl
  | cons c rest =>
    simp only [Ends, mem_cons, not_mem_nil, or_false] at ends
    rcases ends with rfl | rfl | rfl <;> rfl

theorem skipBlanks_cons (solid : isBlank c = false) (rest : List Char) : skipBlanks (c :: rest) = c :: rest := by
  rw [skipBlanks, dropWhile_cons, solid]
  rfl

theorem dumps_head (value : JsonValue) : ∃ c cs, dumps value = c :: cs ∧ isBlank c = false ∧ c ≠ ']' := by
  cases value with
  | null => exact ⟨_, _, rfl, rfl, by decide⟩
  | bool b => cases b <;> exact ⟨_, _, rfl, rfl, by decide⟩
  | int i =>
    obtain ⟨c, cs, head, sign | digit⟩ := dumpsInt_head i
    · exact ⟨c, cs, head, by rw [sign]; rfl, by rw [sign]; decide⟩
    · refine ⟨c, cs, head, ?_, ?_⟩
      · rw [isBlank]
        by_contra blank
        simp only [Bool.not_eq_false, Bool.or_eq_true, decide_eq_true_eq] at blank
        rcases blank with ((rfl | rfl) | rfl) | rfl <;> cases digit
      · rintro rfl
        cases digit
  | str s => exact ⟨_, _, rfl, rfl, by decide⟩
  | arr items | obj members => exact ⟨_, _, by rw [dumps], rfl, by decide⟩

theorem readValue_int (i : ℤ) (ends : Ends rest) : readValue (fuel + 1) (dumpsInt i ++ rest) = some (int i, rest) := by
  obtain ⟨c, cs, head, first⟩ := dumpsInt_head i
  have other (letter : Char) (isLetter : letter ≠ '-' ∧ letter.isDigit = false) (text : List Char) :
      dumpsInt i ++ rest ≠ letter :: text := by
    rw [head]
    intro same
    obtain rfl := (List.cons.inj same).1
    rcases first with sign | digit
    · exact isLetter.1 sign
    · exact Bool.false_ne_true (isLetter.2.symm.trans digit)
  rw [readValue.eq_8 _ _ (other '"' (by decide)) (other '{' (by decide)) (other '[' (by decide))
    (fun _ => other 'n' (by decide) _) (fun _ => other 't' (by decide) _) (fun _ => other 'f' (by decide) _),
    readInt_dumpsInt i ends]
  rfl

theorem readValue_str (s : String) (rest : List Char) :
    readValue (fuel + 1) (dumpsStr s ++ rest) = some (str s, rest) := by
  rw [dumpsStr, List.cons_append, List.append_assoc, List.singleton_append, readValue, readStr_dumpsStr]
  rfl

theorem readValue_items {items : List JsonValue} (solid : isBlank c = false)
    (inside : c ≠ ']') (read : readItems fuel (c :: text) = some (items, rest)) :
    readValue (fuel + 1) ('[' :: c :: text) = some (arr items, rest) := by
  rw [readValue, skipBlanks_cons solid]
  split
  case h_1 same => exact absurd (List.cons.inj same).1 inside
  case h_2 =>
    rw [read]
    rfl

theorem readValue_members {members : List (String × JsonValue)}
    (read : readMembers fuel ('"' :: text) = some (members, rest)) :
    readValue (fuel + 1) ('{' :: '"' :: text) = some (obj members, rest) := by
  rw [readValue, skipBlanks_cons rfl]
  show readMembers fuel ('"' :: text) >>= _ = _
  rw [read]
  rfl

theorem dumpsItems_cons (item next : JsonValue) (items : List JsonValue) :
    dumpsItems (item :: next :: items) = dumps item ++ ',' :: dumpsItems (next :: items) := dumpsItems.eq_3 _ _ nofun

theorem dumpsMembers_cons (key : String) (value : JsonValue) (next : String × JsonValue)
    (members : List (String × JsonValue)) :
    dumpsMembers ((key, value) :: next :: members) =
      dumpsStr key ++ ':' :: (dumps value ++ ',' :: dumpsMembers (next :: members)) := dumpsMembers.eq_3 _ _ _ nofun

theorem dumpsItems_head (item : JsonValue) (items : List JsonValue) :
    ∃ c cs, dumpsItems (item :: items) = c :: cs ∧ isBlank c = false ∧ c ≠ ']' := by
  obtain ⟨c, cs, head, solid, inside⟩ := dumps_head item
  cases items with
  | nil => exact ⟨c, cs, by rw [dumpsItems, head], solid, inside⟩
  | cons next items => exact ⟨c, _, by rw [dumpsItems_cons, head, cons_append], solid, inside⟩

theorem dumpsMembers_head (member : String × JsonValue) (members : List (String × JsonValue)) :
    ∃ cs, dumpsMembers (member :: members) = '"' :: cs := by
  cases members with
  | nil => exact ⟨_, by rw [dumpsMembers, dumpsStr, cons_append]⟩
  | cons next members => exact ⟨_, by rw [dumpsMembers_cons, dumpsStr, cons_append]⟩

theorem readMembers_key {value : JsonValue} (key : String) (solid : isBlank c = false)
    (read : readValue fuel (c :: text) = some (value, rest)) :
    readMembers (fuel + 1) (dumpsStr key ++ ':' :: c :: text) =
      match skipBlanks rest with
      | '}' :: rest => some ([(key, value)], rest)
      | ',' :: rest => do
        let (members, rest) ← readMembers fuel (skipBlanks rest)
        return ((key, value) :: members, rest)
      | _ => none := by
  rw [dumpsStr, cons_append, append_assoc, singleton_append, readMembers, readStr_dumpsStr]
  simp only [bind_eq_bind, bind_some, skipBlanks_cons (show isBlank ':' = false from rfl), skipBlanks_cons solid, read]
  rfl

mutual

theorem readValue_dumps : ∀ (value : JsonValue) {fuel : ℕ} {rest : List Char}, (dumps value).length ≤ fuel → Ends rest →
    readValue fuel (dumps value ++ rest) = some (value, rest)
  | null, fuel + 1, rest, _, _ => by rw [dumps]; rfl
  | bool true, fuel + 1, rest, _, _ => by rw [dumps]; rfl
  | bool false, fuel + 1, rest, _, _ => by rw [dumps]; rfl
  | int i, fuel + 1, rest, _, ends => by rw [dumps, readValue_int i ends]
  | str s, fuel + 1, rest, _, _ => by rw [dumps, readValue_str]
  | arr [], fuel + 1, rest, _, _ => by rw [dumps, dumpsItems]; rfl
  | arr (item :: items), fuel + 1, rest, enough, _ => by
    rw [dumps, length_cons, length_append, length_singleton] at enough
    obtain ⟨c, cs, head, solid, inside⟩ := dumpsItems_head item items
    have read := readItems_dumps item items rest (show (dumpsItems (item :: items)).length < fuel by omega)
    rw [head, cons_append] at read
    rw [dumps, cons_append, append_assoc, singleton_append, head, cons_append]
    exact readValue_items solid inside read
  | obj [], fuel + 1, rest, _, _ => by rw [dumps, dumpsMembers]; rfl
  | obj (member :: members), fuel + 1, rest, enough, _ => by
    rw [dumps, length_cons, length_append, length_singleton] at enough
    obtain ⟨cs, head⟩ := dumpsMembers_head member members
    have read := readMembers_dumps member members rest (show (dumpsMembers (member :: members)).length < fuel by omega)
    rw [head, cons_append] at read
    rw [dumps, cons_append, append_assoc, singleton_append, head, cons_append]
    exact readValue_members read
  | value, 0, rest, enough, _ => by
    obtain ⟨c, cs, head, -, -⟩ := dumps_head value
    rw [head] at enough
    cases enough

theorem readItems_dumps : ∀ (item : JsonValue) (items : List JsonValue) {fuel : ℕ} (rest : List Char),
    (dumpsItems (item :: items)).length < fuel →
      readItems fuel (dumpsItems (item :: items) ++ ']' :: rest) = some (item :: items, rest)
  | item, [], fuel + 1, rest, enough => by
    rw [dumpsItems] at enough ⊢
    rw [readItems, readValue_dumps item (by omega) (by simp [Ends])]
    rfl
  | item, next :: items, fuel + 1, rest, enough => by
    rw [dumpsItems_cons, length_append, length_cons] at enough
    obtain ⟨c, cs, head, solid, -⟩ := dumpsItems_head next items
    have read := readItems_dumps next items rest (show (dumpsItems (next :: items)).length < fuel by omega)
    rw [dumpsItems_cons, append_assoc, cons_append, readItems, readValue_dumps item (by omega) (by simp [Ends])]
    simp only [bind_eq_bind, bind_some, skipBlanks_cons (show isBlank ',' = false from rfl)]
    rw [head, cons_append] at read ⊢
    rw [skipBlanks_cons solid, read]
    rfl

theorem readMembers_dumps :
    ∀ (member : String × JsonValue) (members : List (String × JsonValue)) {fuel : ℕ} (rest : List Char),
    (dumpsMembers (member :: members)).length < fuel →
      readMembers fuel (dumpsMembers (member :: members) ++ '}' :: rest) = some (member :: members, rest)
  | (key, value), [], fuel + 1, rest, enough => by
    rw [dumpsMembers, length_append, length_cons] at enough
    obtain ⟨c, cs, head, solid, -⟩ := dumps_head value
    have read := readValue_dumps value (show (dumps value).length ≤ fuel by omega) (show Ends ('}' :: rest)
      by simp [Ends])
    rw [head, cons_append] at read
    rw [dumpsMembers, append_assoc, cons_append, head, cons_append, readMembers_key key solid read,
      skipBlanks_cons rfl]
    rfl
  | (key, value), next :: members, fuel + 1, rest, enough => by
    rw [dumpsMembers_cons, length_append, length_cons, length_append, length_cons] at enough
    obtain ⟨c, cs, head, solid, -⟩ := dumps_head value
    obtain ⟨cs', head'⟩ := dumpsMembers_head next members
    have read := readValue_dumps value (show (dumps value).length ≤ fuel by omega)
      (show Ends (',' :: (dumpsMembers (next :: members) ++ '}' :: rest)) by simp [Ends])
    have others := readMembers_dumps next members rest (show (dumpsMembers (next :: members)).length < fuel by omega)
    rw [head, cons_append] at read
    rw [dumpsMembers_cons, append_assoc, cons_append, append_assoc, cons_append, head, cons_append,
      readMembers_key key solid read, skipBlanks_cons rfl]
    simp only
    rw [head', cons_append] at others ⊢
    rw [skipBlanks_cons rfl, others]
    rfl

end

theorem loads_dumps (value : JsonValue) : loads (dumps value) = some value := by
  obtain ⟨c, cs, head, solid, -⟩ := dumps_head value
  have read := readValue_dumps value (Nat.le_succ _) (show Ends [] from trivial)
  rw [append_nil] at read
  have text : skipBlanks (dumps value) = dumps value := by rw [head, skipBlanks_cons solid]
  rw [loads]
  simp only [text, read]
  rfl

end JsonValue

end Tinydb.Lib
