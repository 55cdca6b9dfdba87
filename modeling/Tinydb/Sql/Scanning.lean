import Mathlib.Data.List.TakeWhile
import Mathlib.Data.Nat.Digits.Defs
import Tinydb.Sql.Tokens

/-! What one turn of the tokenizer depends on.

A turn splits the text in two, and what it finds in the first part depends on the
second only through its first character: `scan_other_rest`.
-/

namespace Tinydb.Sql

open Tinydb.Types List

/-- A string literal behind its first quote: the text, its value, what it takes of the text and what follows. -/
inductive Literal : List Char → List Char → List Char → List Char → Prop where
  | last {rest : List Char} (ends : rest.head? ≠ some '\'') : Literal ('\'' :: rest) [] ['\''] rest
  | doubled {text value used rest : List Char} (later : Literal text value used rest) :
      Literal ('\'' :: '\'' :: text) ('\'' :: value) ('\'' :: '\'' :: used) rest
  | char {c : Char} {text value used rest : List Char} (inside : c ≠ '\'') (later : Literal text value used rest) :
      Literal (c :: text) (c :: value) (c :: used) rest

section Literal

variable {text value used rest other : List Char} (literal : Literal text value used rest)

theorem literal_of_closeString (closed : closeString text = some (value, used, rest)) :
    Literal text value used rest := by
  fun_induction closeString text generalizing value used rest with
  | case1 => cases closed
  | case2 tail ih =>
    obtain ⟨⟨value', used', rest'⟩, inner, ⟨⟩⟩ := Option.map_eq_some_iff.mp closed
    exact .doubled (ih inner)
  | case3 tail alone =>
    cases closed
    refine .last fun another => ?_
    obtain ⟨tail', rfl⟩ := head?_eq_some_iff.mp another
    exact alone tail' rfl
  | case4 c tail _ inside ih =>
    obtain ⟨⟨value', used', rest'⟩, inner, ⟨⟩⟩ := Option.map_eq_some_iff.mp closed
    exact .char inside (ih inner)

include literal

theorem Literal.closeString_eq : closeString text = some (value, used, rest) := by
  induction literal with
  | last ends =>
    rw [closeString]
    rintro tail rfl
    exact ends rfl
  | doubled later ih =>
    rw [closeString, ih]
    rfl
  | char inside later ih =>
    rw [closeString, ih]
    · rfl
    · rintro _ rfl
      exact absurd rfl inside
    · exact inside

theorem Literal.splits : text = used ++ rest := by
  induction literal with
  | last ends => rfl
  | doubled later ih | char inside later ih => rw [ih]; rfl

theorem Literal.ends : used.getLast? = some '\'' ∧ rest.head? ≠ some '\'' := by
  induction literal with
  | last ends => exact ⟨rfl, ends⟩
  | doubled later ih | char inside later ih => exact ⟨by simp [getLast?_cons, ih.1], ih.2⟩

theorem Literal.other_rest (ends : other.head? ≠ some '\'') :
    Literal (used ++ other) value used other := by
  induction literal with
  | last => exact .last ends
  | doubled later ih => exact .doubled ih
  | char inside later ih => exact .char inside ih

end Literal

/-- A text that stands in for another one behind a token: it starts with the same character, or with a quote
where the other has a question mark. -/
def StandsIn (rest other : List Char) : Prop :=
    other.head? = rest.head? ∨ rest.head? = some '?' ∧ other.head? = some '\''

/-- A text that does not run on from what stands before another one: it starts as that does, or with a blank or
a quote. -/
def Behind (rest other : List Char) : Prop := ∀ c ∈ other.head?, c ∈ rest.head? ∨ c = ' ' ∨ c = '\''

variable {p : Char → Bool} {more : List Char} {isFloat : Bool} {rest other : List Char} {c : Char}

theorem StandsIn.behind (stands : StandsIn rest other) : Behind rest other := by
  intro c first
  rcases stands with same | ⟨-, quoted⟩
  · exact .inl (same ▸ first)
  · rw [quoted] at first
    cases first
    exact .inr (.inr rfl)

theorem Behind.append (behind : Behind rest other) (text : List Char) : Behind (text ++ rest) (text ++ other) := by
  cases text with
  | nil => exact behind
  | cons c text => exact fun _ => .inl

theorem Behind.head (behind : Behind rest other) (blank : c ≠ ' ') (quote : c ≠ '\'') (first : other.head? = some c) :
    rest.head? = some c := by
  rcases behind c first with same | same | same
  · exact same
  · exact absurd same blank
  · exact absurd same quote

theorem Behind.stops (behind : Behind rest other) (blank : p ' ' = false) (quote : p '\'' = false)
    (stops : ∀ c ∈ rest.head?, p c = false) : ∀ c ∈ other.head?, p c = false := by
  intro c first
  rcases behind c first with same | rfl | rfl
  · exact stops c same
  · exact blank
  · exact quote

theorem dropWhile_stops (p : Char → Bool) (text : List Char) : ∀ c ∈ (text.dropWhile p).head?, p c = false := by
  intro c found
  have := head?_dropWhile_not p text
  rw [found] at this
  exact this

theorem run_before (text : List Char) (stops : ∀ c ∈ other.head?, p c = false) :
    (text.takeWhile p ++ other).takeWhile p = text.takeWhile p ∧ (text.takeWhile p ++ other).dropWhile p = other := by
  have all : ∀ c ∈ text.takeWhile p, p c = true := fun c member => mem_takeWhile_imp member
  rw [takeWhile_append_of_pos all, dropWhile_append_of_pos all]
  cases other with
  | nil => simp
  | cons c other => simp [stops c rfl]

theorem symbol_eq_some {X : Type} {text used : List Char} {lexeme : Lexeme X}
    (spelled : symbol c text = some (lexeme, used, rest)) :
    (∃ op, lexeme = .op op ∧ multiCharOp c = some op ∧ used = [c, '='] ∧ text = '=' :: rest) ∨
      (if text.head? = some '=' then multiCharOp c else none) = none ∧ singleChar c = some lexeme ∧
      used = [c] ∧ text = rest := by
  rw [symbol] at spelled
  split at spelled
  · rename_i op pair
    split_ifs at pair with equals
    obtain ⟨tail, rfl⟩ := head?_eq_some_iff.mp equals
    cases spelled
    exact .inl ⟨op, rfl, pair, rfl, rfl⟩
  · rename_i alone
    obtain ⟨lexeme', single, ⟨⟩⟩ := Option.map_eq_some_iff.mp spelled
    exact .inr ⟨alone, single, rfl, rfl⟩

theorem symbol_splits {X : Type} {text used : List Char} {lexeme : Lexeme X}
    (found : symbol c text = some (lexeme, used, rest)) : ∃ more, used = c :: more ∧ text = more ++ rest := by
  rcases symbol_eq_some found with ⟨op, -, -, rfl, rfl⟩ | ⟨-, -, rfl, rfl⟩
  · exact ⟨['='], rfl, rfl⟩
  · exact ⟨[], rfl, rfl⟩

theorem Behind.alone (behind : Behind rest other)
    (alone : (if rest.head? = some '=' then multiCharOp c else none) = none) :
    (if other.head? = some '=' then multiCharOp c else none) = none := by
  split_ifs with equals
  · rwa [if_pos (behind.head (by decide) (by decide) equals)] at alone
  · rfl

theorem symbol_other_rest {X : Type} {text : List Char} {lexeme : Lexeme X}
    (found : symbol c text = some (lexeme, c :: more, rest)) (behind : Behind rest other) :
    symbol c (more ++ other) = some (lexeme, c :: more, other) := by
  rcases symbol_eq_some found with ⟨op, rfl, pair, same, -⟩ | ⟨alone, single, same, rfl⟩
  · obtain rfl := (List.cons.inj same).2
    simp [symbol, pair]
  · obtain rfl := (List.cons.inj same).2
    rw [symbol, nil_append, behind.alone alone, single]
    rfl

variable {X : Type} [Lexicon X]

theorem isDigit_quote : isDigit X '\'' = false := rfl

theorem closeNumber_splits {text used : List Char} (closed : closeNumber X text = (used, rest, isFloat)) :
    text = used ++ rest := by
  rw [closeNumber] at closed
  have split := takeWhile_append_dropWhile (p := isDigit X) (l := text)
  split at closed
  · rename_i tail after
    cases closed
    rw [append_assoc, cons_append, takeWhile_append_dropWhile, ← after, split]
  · cases closed
    exact split.symm

theorem closeNumber_other_rest {text used : List Char} (closed : closeNumber X text = (used, rest, isFloat))
    (behind : Behind rest other) : closeNumber X (used ++ other) = (used, other, isFloat) := by
  rw [closeNumber] at closed
  split at closed
  · rename_i tail after
    cases closed
    -- the point stops the whole digits, and the text behind stops those after it
    have point : ∀ c ∈ ('.' :: (tail.takeWhile (isDigit X) ++ other)).head?, isDigit X c = false := by
      rintro c ⟨⟩
      rfl
    have whole := run_before text point
    have fraction := run_before tail (behind.stops rfl isDigit_quote (dropWhile_stops (isDigit X) tail))
    rw [append_assoc, cons_append, closeNumber, whole.1, whole.2]
    simp only [fraction]
  · rename_i tail noPoint
    cases closed
    have whole := run_before text (behind.stops rfl isDigit_quote (dropWhile_stops (isDigit X) text))
    rw [closeNumber, whole.1, whole.2]
    split
    · rename_i tail'
      obtain ⟨tail'', after⟩ := head?_eq_some_iff.mp (behind.head (c := '.') (by decide) (by decide) rfl)
      exact absurd after (noPoint tail'')
    · rfl

section Turn

variable {text used : List Char} {out : Except Flaw (Scan X)}

def startsWord (X : Type) [Lexicon X] (c : Char) : Bool := isAlpha X c || c = '_'

def inWord (X : Type) [Lexicon X] (c : Char) : Bool := isAlnum X c || c = '_'

def opening : List Char := [' ', '\t', '\r', '\n', '-', '/', '\'']

theorem not_opening (here : p c = true) (others : ∀ d ∈ opening, p d = false) :
    c ∉ [' ', '\t', '\r', '\n'] ∧ c ≠ '-' ∧ c ≠ '/' ∧ c ≠ '\'' := by
  have outside : c ∉ opening := fun member => absurd here (by rw [others c member]; decide)
  simp only [opening, mem_cons, not_mem_nil, or_false, not_or] at outside ⊢
  tauto

def numberAt (c : Char) (text : List Char) : Except Exc (Lexeme X) :=
  let (more, _, isFloat) := closeNumber X text
  if isFloat then (Lexicon.float (c :: more)).map .floatLit else (toInt X (c :: more)).map .intLit

theorem numberAt_eq (closed : closeNumber X text = (used, rest, isFloat)) :
    numberAt c text = if isFloat then (Lexicon.float (X := X) (c :: used)).map .floatLit else
    (toInt X (c :: used)).map .intLit := by
  rw [numberAt, closed]

/-- How a turn ends, and what decides it. -/
inductive Turn (c : Char) (text : List Char) : Except Flaw (Scan X) → Prop where
  | blank (blank : c ∈ [' ', '\t', '\r', '\n']) : Turn c text (.ok ⟨.blank, [c], text⟩)
  | line {tail : List Char} (dash : c = '-') (opens : text = '-' :: tail) :
      Turn c text (.ok ⟨.lineComment, (c :: text).takeWhile (· ≠ '\n'), (c :: text).dropWhile (· ≠ '\n')⟩)
  | block {inner more rest : List Char} (slash : c = '/') (opens : text = '*' :: inner)
      (closed : closeComment inner = some (more, rest)) : Turn c text (.ok ⟨.blockComment, '/' :: '*' :: more, rest⟩)
  | openComment {inner : List Char} (slash : c = '/') (opens : text = '*' :: inner)
      (opened : closeComment inner = none) :
      Turn c text (.error .unterminatedComment)
  | string {value more rest : List Char} (quote : c = '\'') (literal : Literal text value more rest) :
      Turn c text (.ok ⟨.lexeme (.stringLit (String.ofList value)), c :: more, rest⟩)
  | openString (quote : c = '\'') (opened : closeString text = none) : Turn c text (.error .unterminatedString)
  | word (letter : startsWord X c = true) :
      Turn c text (.ok ⟨.lexeme (word (c :: text.takeWhile (inWord X))), c :: text.takeWhile (inWord X),
        text.dropWhile (inWord X)⟩)
  | number {more rest : List Char} {isFloat : Bool} {lexeme : Lexeme X} (noWord : startsWord X c = false)
      (digit : isDigit X c = true)
      (closed : closeNumber X text = (more, rest, isFloat)) (value : numberAt c text = .ok lexeme) :
      Turn c text (.ok ⟨.lexeme lexeme, c :: more, rest⟩)
  | badNumber {e : Exc} (noWord : startsWord X c = false) (digit : isDigit X c = true)
      (failed : numberAt c text = (.error e : Except Exc (Lexeme X))) : Turn c text (.error (.raised e))
  | symbol {lexeme : Lexeme X} {used rest : List Char} (dash : ¬ (c = '-' ∧ text.head? = some '-'))
      (slash : ¬ (c = '/' ∧ text.head? = some '*')) (spelled : symbol c text = some (lexeme, used, rest)) :
      Turn c text (.ok ⟨.lexeme lexeme, used, rest⟩)
  | unexpected (blank : c ∉ [' ', '\t', '\r', '\n']) (dash : ¬ (c = '-' ∧ text.head? = some '-'))
      (slash : ¬ (c = '/' ∧ text.head? = some '*')) (quote : c ≠ '\'') (letter : startsWord X c = false)
      (digit : isDigit X c = false)
      (unknown : (Sql.symbol c text : Option (Lexeme X × List Char × List Char)) = none) :
      Turn c text (.error (.unexpected c))

theorem turn_of_scan (c : Char) (text : List Char) : Turn c text (scan c text : Except Flaw (Scan X)) := by
  rw [scan]
  split_ifs with blank dash slash quote letter digit
  · exact .blank blank
  · obtain ⟨tail, same⟩ := head?_eq_some_iff.mp dash.2
    exact .line dash.1 same
  · obtain ⟨inner, rfl⟩ := head?_eq_some_iff.mp slash.2
    rw [tail_cons]
    split
    case h_1 closed => exact .block slash.1 rfl closed
    case h_2 opened => exact .openComment slash.1 rfl opened
  · split
    case h_1 closed => exact .string quote (literal_of_closeString closed)
    case h_2 opened => exact .openString quote opened
  · exact .word letter
  · have noWord : startsWord X c = false := Bool.not_eq_true _ ▸ letter
    rcases closed : closeNumber X text with ⟨more, rest, isFloat⟩
    dsimp only
    rw [← numberAt_eq closed]
    split
    case h_1 value => exact .number noWord digit closed value
    case h_2 failed => exact .badNumber noWord digit failed
  · split
    case h_1 spelled => exact .symbol dash slash spelled
    case h_2 unknown =>
      exact .unexpected blank dash slash quote (Bool.not_eq_true _ ▸ letter) (Bool.not_eq_true _ ▸ digit) unknown

theorem symbol_kind {lexeme : Lexeme X} (spelled : symbol c text = some (lexeme, used, rest)) :
    c ∉ [' ', '\t', '\r', '\n'] ∧ c ≠ '\'' ∧ startsWord X c = false ∧ isDigit X c = false := by
  rcases symbol_eq_some spelled with ⟨op, -, pair, -⟩ | ⟨-, single, -⟩
  · rw [multiCharOp.eq_def] at pair
    split at pair <;> first | exact ⟨by decide, by decide, rfl, rfl⟩ | cases pair
  · rw [singleChar.eq_def] at single
    split at single <;> first | exact ⟨by decide, by decide, rfl, rfl⟩ | cases single

theorem Turn.scan_eq (turn : Turn c text out) : scan c text = out := by
  have word : ∀ d ∈ opening, startsWord X d = false := by simp [opening, startsWord, isAlpha, isAscii]
  have number : ∀ d ∈ opening, isDigit X d = false := by simp [opening, isDigit, isAscii]
  cases turn with
  | blank blank => rw [scan, if_pos blank]
  | line dash opens =>
    subst dash opens
    rw [scan, if_neg (by decide), if_pos ⟨rfl, rfl⟩]
  | block slash opens closed | openComment slash opens closed =>
    subst slash opens
    rw [scan, if_neg (by decide), if_neg (by simp), if_pos ⟨rfl, rfl⟩, tail_cons, closed]
  | string quote literal =>
    subst quote
    rw [scan, if_neg (by decide), if_neg (by simp), if_neg (by simp), if_pos rfl, literal.closeString_eq]
  | openString quote opened =>
    subst quote
    rw [scan, if_neg (by decide), if_neg (by simp), if_neg (by simp), if_pos rfl, opened]
  | word letter =>
    obtain ⟨blank, dash, slash, quote⟩ := not_opening letter word
    rw [scan, if_neg blank, if_neg fun both => dash both.1, if_neg fun both => slash both.1, if_neg quote]
    exact if_pos letter
  | number noWord digit closed value =>
    obtain ⟨blank, dash, slash, quote⟩ := not_opening digit number
    rw [startsWord] at noWord
    rw [scan, if_neg blank, if_neg fun both => dash both.1, if_neg fun both => slash both.1,
      if_neg quote, noWord, if_pos digit, closed]
    dsimp only
    rw [← numberAt_eq closed, value]
    rfl
  | badNumber noWord digit failed =>
    obtain ⟨blank, dash, slash, quote⟩ := not_opening digit number
    rcases closed : closeNumber X text with ⟨more, rest, isFloat⟩
    rw [startsWord] at noWord
    rw [scan, if_neg blank, if_neg fun both => dash both.1, if_neg fun both => slash both.1,
      if_neg quote, noWord, if_pos digit, closed]
    dsimp only
    rw [← numberAt_eq closed, failed]
    rfl
  | symbol dash slash spelled =>
    obtain ⟨blank, quote, letter, digit⟩ := symbol_kind spelled
    rw [startsWord] at letter
    rw [scan, if_neg blank, if_neg dash, if_neg slash, if_neg quote, letter, digit, spelled]
    rfl
  | unexpected blank dash slash quote letter digit unknown =>
    rw [startsWord] at letter
    rw [scan, if_neg blank, if_neg dash, if_neg slash, if_neg quote, letter, digit, unknown]
    rfl

theorem scan_eq_iff : scan c text = out ↔ Turn c text out :=
  ⟨fun scanned => scanned ▸ turn_of_scan c text, Turn.scan_eq⟩

def Found.IsComment : Found X → Prop
  | .lineComment | .blockComment => True
  | .blank | .lexeme _ => False

variable {found : Found X} (scanned : scan c text = .ok ⟨found, used, rest⟩) (code : ¬ found.IsComment)

/-- What a turn finds does not change with the text behind it, if that does not run on from it; behind a
string literal it may not start with a quote. -/
theorem scan_behind (scanned : scan c text = .ok ⟨found, used, rest⟩) (code : ¬ found.IsComment)
    (behind : Behind rest other) (literal : used.getLast? = some '\'' → other.head? ≠ some '\'') :
    ∃ more, used = c :: more ∧ text = more ++ rest ∧ scan c (more ++ other) = .ok ⟨found, used, other⟩ := by
  cases scan_eq_iff.mp scanned with
  | blank blank => exact ⟨[], rfl, rfl, Turn.scan_eq (.blank blank)⟩
  | line | block => exact absurd trivial code
  | string quote closed =>
    refine ⟨_, rfl, closed.splits, Turn.scan_eq (.string quote (closed.other_rest (literal ?_)))⟩
    simp [getLast?_cons, closed.ends.1]
  | word letter =>
    refine ⟨_, rfl, takeWhile_append_dropWhile.symm, ?_⟩
    obtain ⟨run, after⟩ := run_before text (behind.stops (p := inWord X) rfl rfl (dropWhile_stops _ text))
    have again : scan c (text.takeWhile (inWord X) ++ other) = _ := Turn.scan_eq (X := X) (.word letter)
    rwa [run, after] at again
  | number noWord digit closed value =>
    have still := closeNumber_other_rest closed behind
    refine ⟨_, rfl, closeNumber_splits closed, Turn.scan_eq (.number noWord digit still ?_)⟩
    rw [numberAt_eq still, ← value, numberAt_eq closed]
  | symbol dash slash spelled =>
    obtain ⟨more, rfl, splits⟩ := symbol_splits spelled
    -- a comment is opened by the next character, which is neither a blank nor a quote
    refine ⟨more, rfl, splits, Turn.scan_eq
      (.symbol (fun opens => dash ⟨opens.1, ?_⟩) (fun opens => slash ⟨opens.1, ?_⟩)
        (symbol_other_rest spelled behind))⟩
    · exact splits ▸ (behind.append more).head (by decide) (by decide) opens.2
    · exact splits ▸ (behind.append more).head (by decide) (by decide) opens.2

theorem scan_other_rest (scanned : scan c text = .ok ⟨found, used, rest⟩) (code : ¬ found.IsComment)
    (stands : StandsIn rest other) (literal : used.getLast? = some '\'' → other.head? ≠ some '\'') :
    ∃ more, used = c :: more ∧ text = more ++ rest ∧ scan c (more ++ other) = .ok ⟨found, used, other⟩ :=
  scan_behind scanned code stands.behind literal

def Plain (text : List Char) : Prop := ∀ c ∈ text, c ≠ '\'' ∧ c ≠ '?'

theorem plain_of_all (all : text.all (fun c => c != '\'' && c != '?') = true) : Plain text := by
  simpa [Plain] using all

/-- No character of a text opens a literal or a comment, ends a line, or is a question mark. -/
def Inert (text : List Char) : Prop := ∀ c ∈ text, c ≠ '-' ∧ c ≠ '/' ∧ c ≠ '\n' ∧ c ≠ '\'' ∧ c ≠ '?'

theorem Inert.plain (inert : Inert text) : Plain text := fun c member => (inert c member).2.2.2

theorem Inert.no_newline (inert : Inert text) : '\n' ∉ text := fun member => (inert _ member).2.2.1 rfl

theorem inert_of_forall (all : ∀ c ∈ text, p c = true) (dash : p '-' = false) (slash : p '/' = false)
    (newline : p '\n' = false) (quote : p '\'' = false) (mark : p '?' = false) : Inert text := by
  intro c member
  have here := all c member
  refine ⟨?_, ?_, ?_, ?_, ?_⟩ <;> rintro rfl <;> simp_all

theorem inert_append (first : Inert text) (second : Inert more) : Inert (text ++ more) :=
  forall_mem_append.mpr ⟨first, second⟩

theorem inert_word (wordy : ∀ c ∈ text, inWord X c = true) : Inert text := inert_of_forall wordy rfl rfl rfl rfl rfl

theorem inert_letter (letter : startsWord X c = true) : Inert [c] :=
  inert_of_forall (forall_mem_singleton.mpr letter) rfl rfl rfl rfl rfl

theorem inert_digits (digits : ∀ c ∈ text, isDigit X c = true) : Inert text :=
  inert_of_forall digits rfl rfl rfl rfl rfl

theorem inert_number (digit : isDigit X c = true) (closed : closeNumber X text = (used, rest, isFloat)) :
    Inert (c :: used) := by
  have first : Inert [c] := inert_digits (forall_mem_singleton.mpr digit)
  have digits (text : List Char) : Inert (text.takeWhile (isDigit X)) := inert_digits fun _ => mem_takeWhile_imp
  rw [closeNumber] at closed
  split at closed
  · cases closed
    have point : Inert ['.'] := forall_mem_singleton.mpr (by decide)
    exact inert_append first (inert_append (digits text) (inert_append point (digits _)))
  · cases closed
    exact inert_append first (digits text)

/-- How a turn that finds no comment reads its text: as a literal, as one character that opens nothing, or as
several of which none could. -/
inductive PlainTurn (c : Char) (text : List Char) : List Char → List Char → Prop where
  | literal {value more rest : List Char} (quote : c = '\'') (literal : Literal text value more rest) :
      PlainTurn c text (c :: more) rest
  | char (plain : Plain [c]) (dash : ¬ (c = '-' ∧ text.head? = some '-'))
      (slash : ¬ (c = '/' ∧ text.head? = some '*')) :
      PlainTurn c text [c] text
  | run {more rest : List Char} (inert : Inert (c :: more)) (splits : text = more ++ rest) :
      PlainTurn c text (c :: more) rest

include scanned code

theorem plainTurn_of_scan : PlainTurn c text used rest := by
  cases scan_eq_iff.mp scanned with
  | blank blank =>
    refine .char (forall_mem_singleton.mpr ⟨?_, ?_⟩) ?_ ?_ <;> rintro ⟨rfl⟩ <;> simp at blank
  | line | block => exact absurd trivial code
  | string quote closed => exact .literal quote closed
  | word letter =>
    exact .run (inert_append (inert_letter letter) (inert_word (X := X) fun _ => mem_takeWhile_imp))
      takeWhile_append_dropWhile.symm
  | number noWord digit closed value => exact .run (inert_number digit closed) (closeNumber_splits closed)
  | symbol dash slash spelled =>
    rcases symbol_eq_some spelled with ⟨op, -, pair, rfl, splits⟩ | ⟨-, single, rfl, rfl⟩
    · have inert : Inert [c, '='] := by
        show Inert ([c] ++ ['='])
        refine inert_append (inert_of_forall (p := fun c => (multiCharOp c).isSome) ?_ rfl rfl rfl rfl rfl)
          (forall_mem_singleton.mpr (by decide))
        rw [forall_mem_singleton, pair]
        rfl
      exact .run inert splits
    · refine .char (forall_mem_singleton.mpr ⟨?_, ?_⟩) dash slash <;> rintro rfl <;> cases single

theorem scan_plain :
    Plain used ∨ ∃ value more, c = '\'' ∧ used = '\'' :: more ∧ Literal text value more rest := by
  cases plainTurn_of_scan scanned code with
  | literal quote closed => exact .inr ⟨_, _, quote, by rw [quote], closed⟩
  | char plain => exact .inl plain
  | run inert => exact .inl inert.plain

theorem scan_literal (closing : used.getLast? = some '\'') : rest.head? ≠ some '\'' := by
  rcases scan_plain scanned code with plain | ⟨value, more, -, -, closed⟩
  · exact absurd rfl (plain _ (mem_of_getLast? closing)).1
  · exact closed.ends.2

end Turn

variable {text : List Char} {n : ℕ}

theorem scan_single {lexeme : Lexeme X} (single : singleChar c = some lexeme) (alone : multiCharOp c = none)
    (line : ¬ (c = '-' ∧ rest.head? = some '-')) (block : ¬ (c = '/' ∧ rest.head? = some '*')) :
    scan c rest = .ok ⟨.lexeme lexeme, [c], rest⟩ := by
  refine Turn.scan_eq (.symbol line block ?_)
  rw [symbol, alone, ite_self, single]
  rfl

theorem run_all (all : ∀ c ∈ text, p c = true) (stops : ∀ c ∈ rest.head?, p c = false) :
    (text ++ rest).takeWhile p = text ∧ (text ++ rest).dropWhile p = rest := by
  have run := run_before text stops
  rwa [takeWhile_eq_self_iff.mpr all] at run

theorem wordy_of_ascii (ascii : text.all fun c => isAscii c && (c.isAlphanum || c = '_')) :
    ∀ c ∈ text, inWord X c = true := by
  intro c member
  obtain ⟨small, wordy⟩ := Bool.and_eq_true_iff.mp (all_eq_true.mp ascii c member)
  rw [inWord, isAlnum, if_pos small, wordy]

theorem isAscii_of_isDigit (digit : c.isDigit = true) : isAscii c = true := by
  simp only [Char.isDigit, Bool.and_eq_true, decide_eq_true_eq] at digit
  simp only [isAscii, decide_eq_true_eq]
  exact Nat.lt_of_le_of_lt (UInt32.le_iff_toNat_le.mp digit.2) (by decide)

theorem isDigit_of_isDigit (digit : c.isDigit = true) : isDigit X c = true := by
  rw [isDigit, if_pos (isAscii_of_isDigit digit), digit]

theorem not_startsWord_of_isDigit (digit : c.isDigit = true) : startsWord X c = false := by
  rw [startsWord, isAlpha, if_pos (isAscii_of_isDigit digit)]
  have letters : c.isAlpha =
      (decide (c.val ≥ 'A'.val ∧ c.val ≤ 'Z'.val) || decide (c.val ≥ 'a'.val) && decide (c.val ≤ 'z'.val)) := rfl
  simp only [Char.isDigit, letters, Bool.and_eq_true, decide_eq_true_eq, ge_iff_le,
    UInt32.le_iff_toNat_le, Bool.or_eq_false_iff, Bool.and_eq_false_iff, decide_eq_false_iff_not, not_le] at digit ⊢
  refine ⟨⟨fun upper => ?_, .inl ?_⟩, ?_⟩
  · exact absurd (upper.1.trans digit.2) (by decide)
  · exact Nat.lt_of_le_of_lt digit.2 (by decide)
  · rintro rfl
    exact absurd digit.2 (by decide)

theorem decimal_eq (text : List Char) : decimal text = (Nat.ofDigitChars 10 text 0 : ℕ) := by
  have run (text : List Char) (n : ℕ) : text.foldl (fun (n : ℤ) c => 10 * n + (c.toNat - '0'.toNat : ℕ)) n =
      (text.foldl (fun n c => 10 * n + (c.toNat - '0'.toNat)) n : ℕ) := by
    induction text generalizing n with
    | nil => rfl
    | cons c text ih =>
      rw [foldl_cons, foldl_cons, ← ih]
      norm_cast
  exact run text 0

theorem toInt_toDigits (short : n < 10 ^ MAX_STR_DIGITS) : toInt X (Nat.toDigits 10 n) = .ok (n : ℤ) := by
  have ascii : (Nat.toDigits 10 n).all isAscii = true := by
    rw [all_eq_true]
    exact fun c member => isAscii_of_isDigit (Nat.isDigit_of_mem_toDigits (by decide) (by decide) member)
  rw [toInt, if_pos ascii, if_pos (Nat.toDigits_length 10 n _ (by decide) short), decimal_eq,
    Nat.ofDigitChars_toDigits (by decide) (by decide)]

def Found.lexemes {X : Type} : Found X → List (Lexeme X)
  | .lexeme token => [token]
  | .blank | .lineComment | .blockComment => []

variable [Runtime X] {used : List Char} {lexemes : List (Lexeme X)}

/-- What the tokenizer makes of a text, whatever the position and the bound on its turns. -/
def Lexes (text : List Char) (lexemes : List (Lexeme X)) : Prop :=
  ∀ turns position, text.length ≤ turns →
    ∃ tokens : List (Token X), tokensFrom turns position text = .ok tokens ∧ tokens.map Token.lexeme = lexemes

theorem lexes_nil : Lexes [] [(.eof : Lexeme X)] := by
  intro turns position _
  exact ⟨[⟨.eof, position⟩], by rw [tokensFrom], rfl⟩

theorem Lexes.cons {found : Found X} (later : Lexes rest lexemes)
    (scanned : scan c (more ++ rest) = .ok ⟨found, used, rest⟩) :
    Lexes (c :: more ++ rest) (found.lexemes ++ lexemes) := by
  intro turns position enough
  obtain _ | turns := turns
  · simp at enough
  obtain ⟨tokens, lexed, same⟩ := later turns (Scan.after ⟨found, used, rest⟩ position (c :: (more ++ rest)))
    (by simp at enough; omega)
  refine ⟨Scan.token ⟨found, used, rest⟩ position ++ tokens, ?_, ?_⟩
  · rw [cons_append, tokensFrom, scanned]
    simp only [lexed]
    rfl
  · rw [map_append, same]
    cases found <;> rfl

theorem Lexes.char {found : Found X} (later : Lexes rest lexemes) (scanned : scan c rest = .ok ⟨found, used, rest⟩) :
    Lexes (c :: rest) (found.lexemes ++ lexemes) := by
  have turn : scan c ([] ++ rest) = .ok ⟨found, used, rest⟩ := scanned
  exact later.cons turn

theorem Lexes.tokenize {sql : String} (lexes : Lexes sql.toList lexemes) :
    ∃ tokens : List (Token X), tokenize sql = .ok tokens ∧ tokens.map Token.lexeme = lexemes := lexes _ _ (le_refl _)

def IsWord (X : Type) [Lexicon X] (text : List Char) : Prop :=
  ∃ c more, text = c :: more ∧ startsWord X c = true ∧ ∀ d ∈ more, inWord X d = true

theorem Lexes.word (later : Lexes rest lexemes) (isWord : IsWord X text)
    (stops : ∀ d ∈ rest.head?, inWord X d = false) : Lexes (text ++ rest) (Sql.word text :: lexemes) := by
  obtain ⟨c, more, rfl, starts, wordy⟩ := isWord
  obtain ⟨run, after⟩ := run_all wordy stops
  have turn : scan c (more ++ rest) = _ := Turn.scan_eq (X := X) (.word starts)
  rw [run, after] at turn
  exact later.cons turn

theorem Lexes.number (later : Lexes rest lexemes) (short : n < 10 ^ MAX_STR_DIGITS)
    (stops : ∀ d ∈ rest.head?, isDigit X d = false) (noPoint : rest.head? ≠ some '.') :
    Lexes (Nat.toDigits 10 n ++ rest) (.intLit n :: lexemes) := by
  have digit (c : Char) (member : c ∈ Nat.toDigits 10 n) : c.isDigit = true :=
    Nat.isDigit_of_mem_toDigits (by decide) (by decide) member
  have value := toInt_toDigits (X := X) short
  obtain ⟨c, more, same⟩ : ∃ c more, Nat.toDigits 10 n = c :: more := exists_cons_of_ne_nil (Nat.toDigits_ne_nil)
  rw [same] at digit value ⊢
  obtain ⟨run, after⟩ := run_all (fun d member => isDigit_of_isDigit (X := X) (digit d (mem_cons_of_mem _ member)))
    stops
  have number : closeNumber X (more ++ rest) = (more, rest, false) := by
    rw [closeNumber, run, after]
    split
    · rename_i tail
      exact absurd rfl noPoint
    · rfl
  have read : numberAt c (more ++ rest) = .ok (.intLit n : Lexeme X) := by
    rw [numberAt_eq number, if_neg Bool.false_ne_true, value]
    rfl
  have first := digit c mem_cons_self
  exact later.cons (Turn.scan_eq (.number (not_startsWord_of_isDigit first) (isDigit_of_isDigit first) number read))

end Tinydb.Sql
