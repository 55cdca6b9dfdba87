import Tinydb.Lib.Program
import Tinydb.Sql.Scanning

/-! Where the tokens of a text stand.

The tokenizer counts lines and columns over the text it has read. It does not count through a
line comment, but behind one there is a newline or the end of the text.
-/

namespace Tinydb.Sql

open Lib Tinydb.Types List

def lineCol (before : List Char) : Position := ⟨before.count '\n' + 1, (before.reverse.takeWhile (· ≠ '\n')).length + 1⟩

def Located (text : List Char) (position : Position) : Prop := ∃ before, before <+: text ∧ position = lineCol before

theorem Located.append {before : List Char} {position : Position} (located : Located before position)
    (text : List Char) :
    Located (before ++ text) position := by
  obtain ⟨start, isPrefix, same⟩ := located
  exact ⟨start, isPrefix.trans (List.prefix_append _ _), same⟩

/-- Line and column behind a text that starts at a position. -/
def Position.past (position : Position) (text : List Char) : Position :=
  text.foldl (fun at' c => if c = '\n' then at'.newline else at'.right 1) position

theorem lineCol_snoc (before : List Char) (c : Char) : lineCol (before ++ [c]) = (lineCol before).past [c] := by
  by_cases newline : c = '\n'
  · simp [lineCol, Position.past, Position.newline, newline, count_append]
  · simp [lineCol, Position.past, Position.right, newline, count_append]

theorem past_lineCol (before text : List Char) : (lineCol before).past text = lineCol (before ++ text) := by
  induction text generalizing before with
  | nil => rw [append_nil, Position.past, foldl_nil]
  | cons c text ih =>
    have once : (lineCol before).past (c :: text) = ((lineCol before).past [c]).past text := rfl
    rw [once, ← lineCol_snoc, ih, append_assoc, singleton_append]

/-- What the tokenizer's position says behind some text: where it is, or where the line comment before a
newline or the end began. -/
structure Tracks (before text : List Char) (position : Position) : Prop where
  located : Located before position
  line : position.line = before.count '\n' + 1
  exact : position = lineCol before ∨ text = [] ∨ text.head? = some '\n'

theorem tracks_lineCol (before text : List Char) : Tracks before text (lineCol before) :=
  ⟨⟨before, List.prefix_rfl, rfl⟩, rfl, .inl rfl⟩

variable {X : Type} {e : Exc} {c : Char} {before text used rest : List Char} {position : Position}
  {turns : ℕ} {lexeme : Lexeme X}

theorem symbol_isMark (spelled : symbol c text = some (lexeme, used, rest)) :
    (∃ op, lexeme = .op op) ∨ lexeme ∈ [.lparen, .rparen, .comma, .semi, .dot] := by
  rcases symbol_eq_some spelled with ⟨op, rfl, -⟩ | ⟨-, single, -⟩
  · exact .inl ⟨op, rfl⟩
  · rw [singleChar.eq_def] at single
    split at single <;> cases single <;> simp

theorem symbol_no_newline (spelled : symbol c text = some (lexeme, used, rest)) : '\n' ∉ used := by
  intro newline
  rcases symbol_eq_some spelled with ⟨op, -, pair, rfl, -⟩ | ⟨-, single, rfl, -⟩
  · obtain rfl : '\n' = c := by simpa using newline
    cases pair
  · obtain rfl := mem_singleton.mp newline
    cases single

theorem past_of_no_newline (none : '\n' ∉ text) : position.past text = position.right text.length := by
  induction text generalizing position with
  | nil => rfl
  | cons c text ih =>
    obtain ⟨first, later⟩ := not_or.mp (mem_cons.not.mp none)
    rw [Position.past, foldl_cons, if_neg (Ne.symm first)]
    exact (ih later).trans (congrArg (Position.mk _) (by simp [Position.right]; omega))

theorem after_lexeme (noString : ∀ value, lexeme ≠ .stringLit value) (position : Position)
    (none : '\n' ∉ used) : Scan.after ⟨.lexeme lexeme, used, rest⟩ position text = position.past used := by
  rw [past_of_no_newline none]
  cases lexeme with
  | stringLit value => exact absurd rfl (noString value)
  | _ => rfl

variable [Lexicon X] {s : Scan X}

theorem closeComment_splits (closed : closeComment text = some (used, rest)) : text = used ++ rest := by
  fun_induction closeComment text generalizing used rest with
  | case1 => cases closed
  | case2 =>
    cases closed
    rfl
  | case3 after ih | case4 c after _ _ ih =>
    obtain ⟨⟨more, last⟩, inner, ⟨⟩⟩ := Option.map_eq_some_iff.mp closed
    rw [ih inner]
    rfl

theorem numberAt_isNumber (value : numberAt c text = .ok lexeme) :
    (∃ n, lexeme = .intLit n) ∨ ∃ x, lexeme = .floatLit x := by
  rw [numberAt] at value
  dsimp only at value
  split_ifs at value
  · obtain ⟨x, -, rfl⟩ := map_ok_iff.mp value
    exact .inr ⟨x, rfl⟩
  · obtain ⟨n, -, rfl⟩ := map_ok_iff.mp value
    exact .inl ⟨n, rfl⟩

theorem scan_ne_eof (scanned : scan c text = .ok s) : s.found ≠ .lexeme .eof := by
  cases scan_eq_iff.mp scanned with
  | blank | line | block | string => simp
  | word letter =>
    dsimp only
    rw [word]
    split <;> simp
  | number noWord digit closed value => rcases numberAt_isNumber value with ⟨n, rfl⟩ | ⟨x, rfl⟩ <;> simp
  | symbol dash slash spelled =>
    rintro ⟨⟩
    simpa using symbol_isMark spelled

/-- What a turn takes from a text. -/
structure Turned (c : Char) (text : List Char) (s : Scan X) : Prop where
  splits : ∃ more, s.text = c :: more ∧ text = more ++ s.rest
  comment : s.found = .lineComment → '\n' ∉ s.text ∧ (s.rest = [] ∨ s.rest.head? = some '\n')

theorem turned_of_scan (scanned : scan c text = .ok s) : Turned c text s := by
  cases scan_eq_iff.mp scanned with
  | blank => exact ⟨⟨[], rfl, rfl⟩, by simp⟩
  | @line tail dash opens =>
    have inside : ¬ c = '\n' := by simp [dash]
    refine ⟨⟨text.takeWhile (· ≠ '\n'), by simp [inside], by simp [inside]⟩, fun _ => ⟨?_, ?_⟩⟩
    · intro newline
      simpa using mem_takeWhile_imp newline
    · cases more : (c :: text).dropWhile (· ≠ '\n') with
      | nil => exact .inl rfl
      | cons d rest =>
        have stops := dropWhile_stops (· ≠ '\n') (c :: text) d (by rw [more]; rfl)
        exact .inr (by simpa using stops)
  | @block inner more rest slash opens closed =>
    exact ⟨⟨'*' :: more, by rw [slash], by rw [opens, closeComment_splits closed]; rfl⟩, by simp⟩
  | string quote literal => exact ⟨⟨_, rfl, literal.splits⟩, by simp⟩
  | word => exact ⟨⟨_, rfl, takeWhile_append_dropWhile.symm⟩, by simp⟩
  | number noWord digit closed value => exact ⟨⟨_, rfl, closeNumber_splits closed⟩, by simp⟩
  | symbol dash slash spelled => exact ⟨symbol_splits spelled, by simp⟩

theorem append_turn (scanned : scan c text = .ok s) (before : List Char) :
    before ++ s.text ++ s.rest = before ++ c :: text := by
  obtain ⟨used, taken, splits⟩ := (turned_of_scan scanned).splits
  rw [taken, splits, append_assoc]
  rfl

theorem scan_raised (scanned : scan c text = (.error (.raised e) : Except Flaw (Scan X))) :
    isDigit X c = true ∧ startsWord X c = false ∧ numberAt c text = (.error e : Except Exc (Lexeme X)) := by
  cases scan_eq_iff.mp scanned with
  | badNumber noWord digit failed => exact ⟨digit, noWord, failed⟩

/-- To the end of the comment, or of the text if it does not end. -/
theorem inComment_eq (position : Position) (text : List Char) :
    position.inComment text = position.past (((closeComment text).map Prod.fst).getD text) := by
  fun_induction closeComment text generalizing position with
  | case1 => rfl
  | case2 => rfl
  | case3 rest ih =>
    rw [Position.inComment, ih]
    cases closeComment rest <;> rfl
  | case4 c rest noEnd noStart ih =>
    by_cases newline : c = '\n'
    · rw [newline, Position.inComment, ih]
      cases closeComment rest <;> rfl
    · rw [Position.inComment, ih]
      · cases closeComment rest <;> simp [Position.past, newline]
      all_goals assumption

theorem Literal.inString_eq {value : List Char} (literal : Literal text value used rest) (position : Position) :
    position.inString text = position.past used := by
  induction literal generalizing position with
  | last ends =>
    rw [Position.inString]
    · rfl
    · rintro _ rfl
      exact ends rfl
  | doubled later ih =>
    rw [Position.inString, ih]
    rfl
  | @char c text value used rest inside later ih =>
    by_cases newline : c = '\n'
    · rw [newline, Position.inString, ih]
      rfl
    · rw [Position.inString, ih]
      · simp [Position.past, newline]
      · rintro _ rfl
        exact absurd rfl inside
      · exact inside
      · exact newline

/-- Every branch but the one for line comments counts what it has read. -/
theorem after_eq (scanned : scan c text = .ok s) (counted : s.found ≠ .lineComment) (position : Position) :
    s.after position (c :: text) = position.past s.text := by
  cases scan_eq_iff.mp scanned with
  | blank => by_cases newline : c = '\n' <;> simp [Scan.after, Position.past, newline]
  | line => exact absurd rfl counted
  | @block inner more rest slash opens closed =>
    subst slash opens
    refine (inComment_eq _ inner).trans ?_
    rw [closed]
    rfl
  | string quote literal =>
    subst quote
    exact literal.inString_eq _
  | word letter =>
    refine after_lexeme (fun value => ?_) position ?_
    · rw [word]
      split <;> simp
    · exact (inert_append (inert_letter letter) (inert_word (X := X) fun _ => mem_takeWhile_imp)).no_newline
  | number noWord digit closed value =>
    refine after_lexeme (fun text isString => ?_) position (inert_number digit closed).no_newline
    rcases numberAt_isNumber value with ⟨n, rfl⟩ | ⟨x, rfl⟩ <;> cases isString
  | symbol dash slash spelled =>
    refine after_lexeme (fun text isString => ?_) position (symbol_no_newline spelled)
    simpa [isString] using symbol_isMark spelled

theorem Tracks.turn (tracks : Tracks before (c :: text) position) (scanned : scan c text = .ok s) :
    Tracks (before ++ s.text) s.rest (s.after position (c :: text)) := by
  have turned := turned_of_scan scanned
  by_cases isComment : s.found = .lineComment
  · obtain ⟨noNewline, ends⟩ := turned.comment isComment
    have after : s.after position (c :: text) = position := by rw [Scan.after, isComment]
    rw [after]
    refine ⟨tracks.located.append _, ?_, .inr ends⟩
    rw [tracks.line, count_append, count_eq_zero.mpr noNewline, Nat.add_zero]
  · rw [after_eq scanned isComment]
    rcases tracks.exact with rfl | none | newline
    · rw [past_lineCol]
      exact tracks_lineCol _ _
    · cases none
    · cases newline
      have blank : s = ⟨.blank, ['\n'], text⟩ := (Except.ok.inj scanned).symm
      subst blank
      have reset : position.past ['\n'] = lineCol (before ++ ['\n']) := by
        rw [lineCol_snoc]
        exact congrArg (fun line => Position.mk (line + 1) 1) tracks.line
      rw [reset]
      exact tracks_lineCol _ _

/-- The tokenizer comes from a text to a part of it. -/
inductive Reaches (X : Type) [Lexicon X] : List Char → List Char → Prop where
  | here (text : List Char) : Reaches X text text
  | turn {c : Char} {text target : List Char} {s : Scan X} (scanned : scan c text = .ok s)
      (later : Reaches X s.rest target) :
      Reaches X (c :: text) target

def BadNumber (X : Type) [Lexicon X] (text : List Char) (e : Exc) : Prop :=
  ∃ c rest, Reaches X text (c :: rest) ∧ isDigit X c = true ∧ startsWord X c = false ∧
    numberAt c rest = (.error e : Except Exc (Lexeme X))

def EndsOnce (tokens : List (Token X)) : Prop :=
  ∃ init last, tokens = init ++ [last] ∧ last.lexeme = .eof ∧ ∀ tok ∈ init, tok.lexeme ≠ .eof

/-- The turns in which the tokenizer reads a text to its end. -/
inductive Cut (X : Type) [Lexicon X] : List Char → List (Scan X) → Prop where
  | nil : Cut X [] []
  | turn {c : Char} {text : List Char} {s : Scan X} {turns : List (Scan X)} (scanned : scan c text = .ok s)
      (later : Cut X s.rest turns) : Cut X (c :: text) (s :: turns)

/-- The tokens of some turns behind a text, each with line and column of its first character. -/
def placed {X : Type} [Lexicon X] (before : List Char) : List (Scan X) → List (Token X)
  | [] => []
  | s :: turns => s.token (lineCol before) ++ placed (before ++ s.text) turns

theorem Cut.flatMap_text {turns : List (Scan X)} (cut : Cut X text turns) : turns.flatMap Scan.text = text := by
  induction cut with
  | nil => rfl
  | turn scanned later ih =>
    obtain ⟨more, taken, splits⟩ := (turned_of_scan scanned).splits
    rw [flatMap_cons, ih, taken, splits]
    rfl

theorem Tracks.token_eq (tracks : Tracks before (c :: text) position) (scanned : scan c text = .ok s) :
    s.token position = s.token (lineCol before) := by
  rcases tracks.exact with rfl | none | newline
  · rfl
  · cases none
  · cases newline
    have blank : s = ⟨.blank, ['\n'], text⟩ := (Except.ok.inj scanned).symm
    rw [blank]
    rfl

theorem Cut.mem_placed {turns : List (Scan X)} (cut : Cut X text turns) {tok : Token X}
    (member : tok ∈ placed before turns) :
    Located (before ++ text) tok.position ∧ tok.lexeme ≠ .eof := by
  induction cut generalizing before with
  | nil => cases member
  | @turn c text s turns scanned later ih =>
    rw [← append_turn scanned]
    rcases mem_append.mp member with own | behind
    · rw [Scan.token] at own
      split at own
      · rename_i lexeme found
        obtain rfl := mem_singleton.mp own
        rw [append_assoc]
        exact ⟨.append ⟨before, List.prefix_rfl, rfl⟩ _,
          fun ends => scan_ne_eof scanned (found.trans (congrArg Found.lexeme ends))⟩
      · cases own
    · exact ih behind

variable [Runtime X] {tokens : List (Token X)}

theorem tokensFrom_error (tracks : Tracks before text position)
    (failed : tokensFrom turns position text = (.error e : Except Exc (List (Token X)))) :
    (∃ position msg, Located (before ++ text) position ∧ e = parseError position msg) ∨ BadNumber X text e := by
  induction turns generalizing before text position with
  | zero => cases text <;> rw [tokensFrom] at failed <;> cases failed
  | succ turns ih =>
    cases text with
    | nil =>
      rw [tokensFrom] at failed
      cases failed
    | cons c text =>
      rw [tokensFrom] at failed
      cases scanned : (scan c text : Except Flaw (Scan X)) with
      | ok s =>
        rw [scanned] at failed
        have later : tokensFrom turns (s.after position (c :: text)) s.rest =
          (.error e : Except Exc (List (Token X))) := by
          rcases bind_error_iff.mp failed with later | ⟨tokens, -, returned⟩
          · exact later
          · cases returned
        rw [← append_turn scanned]
        rcases ih (tracks.turn scanned) later with located | ⟨d, rest, reaches, bad⟩
        · exact .inl located
        · exact .inr ⟨d, rest, .turn scanned reaches, bad⟩
      | error flaw =>
        rw [scanned] at failed
        cases flaw with
        | unterminatedComment =>
          have exact : position = lineCol before := by
            rcases tracks.exact with same | none | newline
            · exact same
            · cases none
            · cases newline
              cases scanned
          cases failed
          refine .inl ⟨_, _, ⟨before ++ c :: text, List.prefix_rfl, ?_⟩, rfl⟩
          rw [exact, ← past_lineCol]
          cases scan_eq_iff.mp scanned with
          | @openComment inner slash opens opened =>
            subst slash opens
            refine (inComment_eq _ inner).trans ?_
            rw [opened]
            rfl
        | unterminatedString | unexpected d =>
          cases failed
          exact .inl ⟨_, _, tracks.located.append _, rfl⟩
        | raised e' =>
          cases failed
          obtain ⟨digit, noWord, number⟩ := scan_raised scanned
          exact .inr ⟨c, text, .here _, digit, noWord, number⟩

theorem tokensFrom_badNumber (enough : text.length ≤ turns) (bad : BadNumber X text e) :
    tokensFrom turns position text = (.error e : Except Exc (List (Token X))) := by
  obtain ⟨c, rest, reaches, digit, noWord, failed⟩ := bad
  generalize target : c :: rest = stop at reaches
  induction reaches generalizing turns position with
  | here text =>
    subst target
    obtain _ | turns := turns
    · simp at enough
    rw [tokensFrom, Turn.scan_eq (.badNumber noWord digit failed)]
    rfl
  | @turn d text stop s scanned later ih =>
    obtain ⟨used, taken, rfl⟩ := (turned_of_scan scanned).splits
    obtain _ | turns := turns
    · simp at enough
    rw [tokensFrom, scanned]
    refine bind_error_iff.mpr (.inl (ih ?_ target))
    simp at enough
    omega

theorem tokensFrom_placed (tracks : Tracks before text position)
    (enough : text.length ≤ turns) (lexed : tokensFrom turns position text = .ok tokens) :
    ∃ cuts last, Cut X text cuts ∧ Located (before ++ text) last ∧ tokens = placed before cuts ++ [⟨.eof, last⟩] := by
  induction turns generalizing before text position tokens with
  | zero =>
    obtain rfl := length_eq_zero_iff.mp (Nat.le_zero.mp enough)
    cases lexed
    exact ⟨[], position, .nil, tracks.located.append _, rfl⟩
  | succ turns ih =>
    cases text with
    | nil =>
      cases lexed
      exact ⟨[], position, .nil, tracks.located.append _, rfl⟩
    | cons c text =>
      rw [tokensFrom] at lexed
      cases scanned : (scan c text : Except Flaw (Scan X)) with
      | error flaw =>
        rw [scanned] at lexed
        cases lexed
      | ok s =>
        rw [scanned] at lexed
        obtain ⟨more, later, ⟨⟩⟩ := bind_ok_iff.mp lexed
        obtain ⟨used, taken, splits⟩ := (turned_of_scan scanned).splits
        have shorter : s.rest.length ≤ turns := by
          rw [splits] at enough
          simp at enough
          omega
        obtain ⟨cuts, last, cut, located, rfl⟩ := ih (tracks.turn scanned) shorter later
        refine ⟨s :: cuts, last, .turn scanned cut, append_turn scanned before ▸ located, ?_⟩
        rw [placed, ← tracks.token_eq scanned, append_assoc]

theorem tokensFrom_ok (tracks : Tracks before text position)
    (enough : text.length ≤ turns) (lexed : tokensFrom turns position text = .ok tokens) :
    (∀ tok ∈ tokens, Located (before ++ text) tok.position) ∧ EndsOnce tokens := by
  obtain ⟨cuts, last, cut, located, rfl⟩ := tokensFrom_placed tracks enough lexed
  refine ⟨?_, _, _, rfl, rfl, fun tok member => (cut.mem_placed member).2⟩
  exact forall_mem_append.mpr ⟨fun tok member => (cut.mem_placed member).1, by simpa using located⟩

/-- Every token but EOF stands at line and column of its first character. -/
theorem token_positions_exact {sql : String} (lexed : tokenize sql = .ok tokens) :
    ∃ turns last, Cut X sql.toList turns ∧ turns.flatMap Scan.text = sql.toList ∧
      tokens = placed [] turns ++ [⟨.eof, last⟩] := by
  obtain ⟨turns, last, cut, -, same⟩ := tokensFrom_placed (tracks_lineCol [] sql.toList) (le_refl _) lexed
  exact ⟨turns, last, cut, cut.flatMap_text, same⟩

/-- A doubled quote and a newline in a literal, a line comment and a block comment of two lines. -/
def scattered : String := "'a''\nb' -- c\n/* d\n */ e"

theorem token_positions_exact_scattered :
    ∃ turns last, Cut Unit scattered.toList turns ∧ turns.flatMap Scan.text = scattered.toList ∧
      [⟨.stringLit "a'\nb", ⟨1, 1⟩⟩, ⟨.ident "e", ⟨4, 5⟩⟩, ⟨.eof, ⟨4, 6⟩⟩] = placed [] turns ++ [⟨.eof, last⟩] := by
  have lexed : tokenize scattered =
      .ok [⟨.stringLit "a'\nb", ⟨1, 1⟩⟩, ⟨.ident "e", ⟨4, 5⟩⟩, (⟨.eof, ⟨4, 6⟩⟩ : Token Unit)] := rfl
  exact token_positions_exact lexed

end Tinydb.Sql
