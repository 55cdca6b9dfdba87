import Tinydb.Sql.Parser
import Tinydb.Sql.Comments

/-! What kind of answer a statement gets (`server/handler.py`).

The server looks at the first word of the text, up to white space, and the parser at the
first token. A comment in front, or no space behind the first keyword, makes them differ.
-/

namespace Tinydb.Server

open Lib Tinydb.Types Sql List
open Lib.Parser (only_bind only_pure only_throw)

/-- The characters that `str.strip` and `str.split` take for white space. -/
def isSpace (c : Char) : Bool :=
  c.toNat ∈ [0x09, 0x0A, 0x0B, 0x0C, 0x0D, 0x1C, 0x1D, 0x1E, 0x1F, 0x20, 0x85, 0xA0, 0x1680,
    0x2028, 0x2029, 0x202F, 0x205F,
    0x3000] || (0x2000 ≤ c.toNat && c.toNat ≤ 0x200A)

/-- `sql.strip().split(None, 1)[0:1]`, or nothing. -/
def firstWord (sql : List Char) : List Char := (sql.dropWhile isSpace).takeWhile fun c => !isSpace c

inductive StatementKind where
  | select | ddl | dml | txn
  deriving DecidableEq

def kindOf (head : String) : StatementKind :=
  if head ∈ ["CREATE", "DROP", "ALTER"] then .ddl
  else if head = "SELECT" then .select
  else if head ∈ ["INSERT", "UPDATE", "DELETE"] then .dml
  else if head ∈ ["BEGIN", "COMMIT", "ROLLBACK"] then .txn
  else .dml

/-- `_classify`. -/
def classify (X : Type) [Lexicon X] (sql : String) : StatementKind :=
  match firstWord sql.toList with
  | [] => .dml
  | head => kindOf (String.ofList (upper X head))

def parsedKind {X : Type} : Parsed X → StatementKind
  | .createTable _ _ | .dropTable _ _ | .createIndex _ _ _ _ => .ddl
  | .select _ => .select
  | .insert _ _ _ | .update _ _ _ | .delete _ _ => .dml

variable {X : Type} {keyword : Keyword} {tok : Token X} {stmt : Parsed X}

def leading : List Keyword := [.CREATE, .DROP, .INSERT, .SELECT, .UPDATE, .DELETE]

def Gives (keyword : Keyword) (p : SqlParser X (Parsed X)) : Prop :=
  Parser.Only (fun stmt => parsedKind stmt = kindOf keyword.text) p

/-- From a token on, a parser returns what is of the kind of that token. -/
def StartsWith (tok : Token X) (p : SqlParser X (Parsed X)) : Prop :=
  ∀ tokens stmt rest, p (tok :: tokens) = .ok (stmt, rest) →
    ∃ keyword ∈ leading, tok.lexeme = .keyword keyword ∧ parsedKind stmt = kindOf keyword.text

theorem Gives.startsWith {p : SqlParser X (Parsed X)} (gives : Gives keyword p) (member : keyword ∈ leading)
    (here : tok.lexeme = .keyword keyword) : StartsWith tok p :=
  fun _ _ _ run => ⟨keyword, member, here, gives _ _ _ run⟩

theorem startsWith_peek {f : Token X → SqlParser X (Parsed X)} (at' : StartsWith tok (f tok)) :
    StartsWith tok (peek >>= f) := at'

variable [Runtime X]

theorem gives_create : Gives .CREATE (parseCreateOrIndex : SqlParser X (Parsed X)) := by
  have table : Gives .CREATE (parseCreateTable : SqlParser X (Parsed X)) := by
    repeat refine only_bind _ fun _ => ?_
    exact only_pure rfl
  have index : Gives .CREATE (parseCreateIndex : SqlParser X (Parsed X)) := by
    repeat refine only_bind _ fun _ => ?_
    exact only_pure rfl
  refine only_bind _ fun _ => only_bind _ fun tok => ?_
  split
  · exact table
  · exact index
  · exact index
  · exact only_throw _

theorem gives_drop : Gives .DROP (parseDropTable : SqlParser X (Parsed X)) := by
  have named (ifExists : Bool) : Gives .DROP (do
      let name ← expectIdent
      let _ ← matchKind .SEMI
      return .dropTable name ifExists : SqlParser X (Parsed X)) :=
    only_bind _ fun _ => only_bind _ fun _ => only_pure rfl
  refine only_bind _ fun _ => only_bind _ fun _ => only_bind _ fun ifExists => ?_
  dsimp only
  split
  · exact only_bind _ fun _ => named _
  · exact named _

variable [IsoFormat X]

theorem gives_insert : Gives .INSERT (parseInsert : SqlParser X (Parsed X)) := by
  repeat refine only_bind _ fun _ => ?_
  exact only_pure rfl

theorem gives_select : Gives .SELECT (parseSelect : SqlParser X (Parsed X)) := by
  repeat refine only_bind _ fun _ => ?_
  exact only_pure rfl

theorem gives_update : Gives .UPDATE (parseUpdate : SqlParser X (Parsed X)) := by
  repeat refine only_bind _ fun _ => ?_
  exact only_pure rfl

theorem gives_delete : Gives .DELETE (parseDelete : SqlParser X (Parsed X)) := by
  repeat refine only_bind _ fun _ => ?_
  exact only_pure rfl

theorem startsWith_parseStatement (tok : Token X) : StartsWith tok parseStatement := by
  refine startsWith_peek ?_
  split
  · rename_i isCreate
    refine startsWith_peek ?_
    rw [isCreate]
    exact gives_create.startsWith (by decide) isCreate
  · rename_i isDrop
    refine startsWith_peek ?_
    rw [isDrop]
    exact gives_drop.startsWith (by decide) isDrop
  · refine startsWith_peek ?_
    split
    · exact gives_insert.startsWith (by decide) (by assumption)
    · exact gives_select.startsWith (by decide) (by assumption)
    · exact gives_update.startsWith (by decide) (by assumption)
    · exact gives_delete.startsWith (by decide) (by assumption)
    · intro _ _ _ run
      cases run

theorem leading_of_parseTokens {tokens : List (Token X)} (parsed : parseTokens (tok :: tokens) = .ok stmt) :
    ∃ keyword ∈ leading, tok.lexeme = .keyword keyword ∧ parsedKind stmt = kindOf keyword.text := by
  obtain ⟨⟨found, rest⟩, run, returned⟩ := bind_ok_iff.mp parsed
  have same : stmt = found := by
    rcases rest with _ | ⟨tok, _ | ⟨next, rest⟩⟩ <;> cases returned <;> rfl
  subst same
  exact startsWith_parseStatement tok tokens stmt rest run

variable [Lexicon X]

/-- The tokenizer comes to a keyword over blanks and comments. -/
inductive Lead (X : Type) [Lexicon X] (keyword : Keyword) : List Char → Prop where
  | here {c : Char} {text used rest : List Char}
      (scanned : scan c text = .ok (⟨.lexeme (.keyword keyword), used, rest⟩ : Scan X)) : Lead X keyword (c :: text)
  | skip {c : Char} {text : List Char} {s : Scan X} (scanned : scan c text = .ok s) (none : s.found.lexemes = [])
      (later : Lead X keyword s.rest) : Lead X keyword (c :: text)

omit [Runtime X] [IsoFormat X] in
theorem Lead.of_placed {before text : List Char} {turns : List (Scan X)} {first eof : Token X}
    {rest : List (Token X)} (cut : Cut X text turns) (same : placed before turns ++ [eof] = first :: rest)
    (isKeyword : first.lexeme = .keyword keyword) (ends : eof.lexeme = .eof) : Lead X keyword text := by
  induction cut generalizing before with
  | nil =>
    cases same
    rw [ends] at isKeyword
    cases isKeyword
  | @turn c text s turns scanned later ih =>
    rw [placed, append_assoc] at same
    rcases s with ⟨found, used, after⟩
    cases found with
    | blank | lineComment | blockComment => exact .skip scanned rfl (ih same)
    | lexeme lexeme =>
      cases same
      cases isKeyword
      exact .here scanned

theorem leads_of_parse {sql : String} (parsed : parse sql = .ok stmt) :
    ∃ keyword ∈ leading, Lead X keyword sql.toList ∧ parsedKind stmt = kindOf keyword.text := by
  obtain ⟨tokens, lexed, parsed⟩ := bind_ok_iff.mp parsed
  obtain ⟨turns, last, cut, -, rfl⟩ := tokensFrom_placed (tracks_lineCol [] sql.toList) (le_refl _) lexed
  obtain ⟨first, more, same⟩ : ∃ first more, placed [] turns ++ [(⟨.eof, last⟩ : Token X)] = first :: more :=
    exists_cons_of_ne_nil (by simp)
  rw [same] at parsed
  obtain ⟨keyword, member, isKeyword, kind⟩ := leading_of_parseTokens parsed
  exact ⟨keyword, member, .of_placed cut same isKeyword rfl, kind⟩

variable {X : Type} [Lexicon X] {text : List Char} {c : Char}

/-- What Python knows of the characters beyond ASCII: white space is not part of a word, and no character
vanishes in upper case. -/
structure Characters (X : Type) [Lexicon X] : Prop where
  space : ∀ c, isSpace c = true → Lexicon.isalpha X c = false ∧ Lexicon.isalnum X c = false
  upper : ∀ c, Lexicon.upper X c ≠ []

theorem ascii_space (ascii : isAscii c = true) (space : isSpace c = true) :
    c.isAlpha = false ∧ c.isAlphanum = false ∧ c ≠ '_' := by
  have all : ∀ n < 128, isSpace (Char.ofNat n) = true →
      (Char.ofNat n).isAlpha = false ∧ (Char.ofNat n).isAlphanum = false ∧ Char.ofNat n ≠ '_' := by decide +kernel
  have here := all c.toNat (of_decide_eq_true ascii)
  rw [Char.ofNat_toNat] at here
  exact here space

theorem not_wordy_of_isSpace (characters : Characters X) (space : isSpace c = true) :
    startsWord X c = false ∧ inWord X c = false := by
  by_cases ascii : isAscii c = true
  · obtain ⟨letter, wordy, underscore⟩ := ascii_space ascii space
    simp [startsWord, inWord, isAlpha, isAlnum, ascii, letter, wordy, underscore]
  · obtain ⟨letter, wordy⟩ := characters.space c space
    have underscore : c ≠ '_' := by
      rintro rfl
      exact ascii rfl
    simp [startsWord, inWord, isAlpha, isAlnum, ascii, letter, wordy, underscore]

theorem not_isSpace_of_inWord (characters : Characters X) (wordy : inWord X c = true) : isSpace c = false := by
  by_contra space
  rw [(not_wordy_of_isSpace characters (Bool.not_eq_false _ |>.mp space)).2] at wordy
  cases wordy

theorem not_isSpace_of_startsWord (characters : Characters X) (starts : startsWord X c = true) : isSpace c = false := by
  by_contra space
  rw [(not_wordy_of_isSpace characters (Bool.not_eq_false _ |>.mp space)).1] at starts
  cases starts

theorem upper_ne_nil (characters : Characters X) (nonempty : text ≠ []) : upper X text ≠ [] := by
  obtain ⟨c, text, rfl⟩ := exists_cons_of_ne_nil nonempty
  rw [upper, flatMap_cons]
  split_ifs
  · exact cons_ne_nil _ _
  · exact append_ne_nil_of_left_ne_nil (characters.upper c) _

theorem upper_append (text more : List Char) : upper X (text ++ more) = upper X text ++ upper X more := flatMap_append

theorem firstWord_space (space : isSpace c = true) : firstWord (c :: text) = firstWord text := by
  rw [firstWord, dropWhile_cons_of_pos space]
  rfl

theorem firstWord_cons (visible : isSpace c = false) :
    firstWord (c :: text) = c :: text.takeWhile fun c => !isSpace c := by
  rw [firstWord, dropWhile_cons_of_neg (by rw [visible]; exact Bool.false_ne_true),
    takeWhile_cons_of_pos (by rw [visible]; rfl)]

def verbs : List String :=
  ["CREATE", "DROP", "ALTER", "SELECT", "INSERT", "UPDATE", "DELETE", "BEGIN", "COMMIT", "ROLLBACK"]

theorem kindOf_other {head : String} (other : head ∉ verbs) : kindOf head = .dml := by
  simp only [verbs, mem_cons, not_mem_nil, or_false, not_or] at other
  simp [kindOf, other]

theorem verbs_apart (member : keyword ∈ leading) {verb : String} (isVerb : verb ∈ verbs)
    {more : List Char} (longer : verb.toList = keyword.text.toList ++ more) : more = [] := by
  have all : ∀ keyword ∈ leading, ∀ verb ∈ verbs, keyword.text.toList <+: verb.toList →
      verb.toList = keyword.text.toList := by decide +kernel
  have same := all keyword member verb isVerb ⟨more, longer.symm⟩
  rw [longer] at same
  simpa using same

theorem comment_not_verb (opens : c = '-' ∨ c = '/') (text : List Char) :
    String.ofList (upper X (c :: text)) ∉ verbs := by
  have all : ∀ verb ∈ verbs, verb.toList.head? ≠ some '-' ∧ verb.toList.head? ≠ some '/' := by decide +kernel
  intro member
  have here := all _ member
  rw [String.toList_ofList] at here
  rcases opens with rfl | rfl
  · exact here.1 rfl
  · exact here.2 rfl

theorem text_of_ofText {text : String} (found : Keyword.ofText text = some keyword) : text = keyword.text := by
  have all : ∀ entry ∈ Keyword.table, entry.1 = entry.2.text := by decide +kernel
  obtain ⟨entry, located, rfl⟩ := Option.map_eq_some_iff.mp found
  have same := find?_some located
  rw [decide_eq_true_iff] at same
  rw [← same]
  exact all entry (mem_of_find?_eq_some located)

theorem scan_keyword {used rest : List Char}
    (scanned : scan c text = .ok (⟨.lexeme (.keyword keyword), used, rest⟩ : Scan X)) :
    startsWord X c = true ∧ used = c :: text.takeWhile (inWord X) ∧ rest = text.dropWhile (inWord X) ∧
      String.ofList (upper X used) = keyword.text := by
  generalize isKeyword : (.keyword keyword : Lexeme X) = lexeme at scanned
  cases scan_eq_iff.mp scanned with
  | word letter =>
    refine ⟨letter, rfl, rfl, ?_⟩
    rw [word] at isKeyword
    split at isKeyword <;> cases isKeyword
    rename_i found
    exact text_of_ofText found
  | string => cases isKeyword
  | number noWord digit closed value => rcases numberAt_isNumber value with ⟨n, rfl⟩ | ⟨x, rfl⟩ <;> cases isKeyword
  | symbol dash slash spelled =>
    subst isKeyword
    simpa using symbol_isMark spelled

theorem isSpace_of_blank (blank : c ∈ [' ', '\t', '\r', '\n']) : isSpace c = true := by
  have all : ∀ c ∈ [' ', '\t', '\r', '\n'], isSpace c = true := all_eq_true.mp rfl
  exact all c blank

theorem Lead.firstWord (characters : Characters X) (member : keyword ∈ leading) (lead : Lead X keyword text) :
    IsWord X (firstWord text) ∧ String.ofList (upper X (firstWord text)) = keyword.text ∨
      ¬ IsWord X (Server.firstWord text) ∧ String.ofList (upper X (Server.firstWord text)) ∉ verbs := by
  induction lead with
  | @skip c text s scanned none later ih =>
    have comment (opens : c = '-' ∨ c = '/') : ¬ IsWord X (Server.firstWord (c :: text)) ∧
        String.ofList (upper X (Server.firstWord (c :: text))) ∉ verbs := by
      have visible : isSpace c = false := by rcases opens with rfl | rfl <;> rfl
      rw [firstWord_cons visible]
      refine ⟨?_, comment_not_verb opens _⟩
      rintro ⟨d, more, same, starts, -⟩
      cases same
      rcases opens with rfl | rfl <;> cases starts
    cases scan_eq_iff.mp scanned with
    | blank blank =>
      rw [firstWord_space (isSpace_of_blank blank)]
      exact ih
    | line dash opens => exact .inr (comment (.inl dash))
    | block slash opens closed => exact .inr (comment (.inr slash))
    | string | word | number | symbol => cases none
  | @here c text used rest scanned =>
    obtain ⟨starts, rfl, rfl, spelled⟩ := scan_keyword scanned
    have wordy : ∀ d ∈ text.takeWhile (inWord X), inWord X d = true := fun d => mem_takeWhile_imp
    have visible : ∀ d ∈ text.takeWhile (inWord X), (!isSpace d) = true := fun d member => by
      rw [not_isSpace_of_inWord characters (wordy d member)]
      rfl
    have whole : Server.firstWord (c :: text) = c :: text.takeWhile (inWord X) ++
        (text.dropWhile (inWord X)).takeWhile fun d => !isSpace d := by
      rw [firstWord_cons (not_isSpace_of_startsWord characters starts), cons_append,
        ← takeWhile_append_of_pos visible, takeWhile_append_dropWhile]
    rw [whole]
    cases behind : (text.dropWhile (inWord X)).takeWhile fun d => !isSpace d with
    | nil =>
      rw [append_nil]
      exact .inl ⟨⟨c, _, rfl, starts, wordy⟩, spelled⟩
    | cons d more =>
      refine .inr ⟨?_, fun isVerb => ?_⟩
      · -- the character behind the keyword is not part of a word, but of the first word
        have first : d ∈ (text.dropWhile (inWord X)).head? := by
          cases rest : text.dropWhile (inWord X) with
          | nil => simp [rest] at behind
          | cons e after =>
            rw [rest, takeWhile_cons] at behind
            split_ifs at behind
            cases behind
            rfl
        have notWordy := dropWhile_stops (inWord X) text d first
        rintro ⟨e, all, same, -, inside⟩
        cases same
        have wordy := inside d (mem_append_right _ mem_cons_self)
        rw [notWordy] at wordy
        cases wordy
      · rw [upper_append] at isVerb
        have longer := verbs_apart member isVerb (by rw [String.toList_ofList, ← spelled, String.toList_ofList])
        exact upper_ne_nil characters (cons_ne_nil d more) longer

variable {X : Type} [Runtime X] [IsoFormat X] [Lexicon X]

/-- The server takes an accepted statement for what the parser found if and only if it changes rows or its first
keyword stands in front, with white space behind it. -/
theorem classify_eq_iff (characters : Characters X) {sql : String} {stmt : Parsed X} (parsed : parse sql = .ok stmt) :
    classify X sql = parsedKind stmt ↔ parsedKind stmt = .dml ∨ IsWord X (firstWord sql.toList) := by
  obtain ⟨keyword, member, lead, kind⟩ := leads_of_parse parsed
  have classified : classify X sql = kindOf (String.ofList (upper X (firstWord sql.toList))) := by
    rw [classify]
    cases word : firstWord sql.toList with
    | nil | cons c more => rfl
  rw [classified]
  rcases lead.firstWord characters member with ⟨isWord, spelled⟩ | ⟨noWord, other⟩
  · rw [spelled, kind]
    exact iff_of_true rfl (.inr isWord)
  · rw [kindOf_other other, or_iff_left noWord, eq_comm]

theorem characters_ascii : Characters Unit := ⟨fun _ _ => ⟨rfl, rfl⟩, fun _ => cons_ne_nil _ _⟩

/-- `SELECT x FROM t`. -/
def selectX : Select Unit :=
  { columns := [.expr (.columnRef "x" none)], source := .table "t" none, filter := none, orderBy := [], limit := none,
    offset := none, groupBy := [] }

theorem classify_eq_select : classify Unit "SELECT x FROM t" = .select ↔
    parsedKind (.select selectX) = .dml ∨ IsWord Unit (firstWord "SELECT x FROM t".toList) := by
  have parsed : parse "SELECT x FROM t" = (.ok (.select selectX) : Except Exc (Parsed Unit)) := by decide +kernel
  exact classify_eq_iff characters_ascii parsed

/-- A comment in front makes a query a statement that changes rows. -/
theorem classify_behind_comment :
    ¬ ∀ (sql : String) (stmt : Parsed Unit), parse sql = .ok stmt → classify Unit sql = parsedKind stmt := by
  intro same
  have parsed : parse "/**/SELECT x FROM t" = (.ok (.select selectX) : Except Exc (Parsed Unit)) := by decide +kernel
  exact absurd (same _ _ parsed) (by decide +kernel)

end Tinydb.Server
