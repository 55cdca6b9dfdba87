import Tinydb.Sql.Expressions
import Tinydb.Sql.Positions

/-! What the parser raises.

The cursor never passes EOF, every loop and every recursion takes a token before it goes on, and an error
names a token of the list. Three places of the source are apart: the conversion of a number, a typed
literal whose text raises something else than ValueError or TypeError, and a value of an INSERT whose
primary is no literal. Which of them a run comes to decides whether its error has a place.
-/

namespace Tinydb.Sql

open Lib Parser Tinydb.Types List
open Executor (JoinKind)

variable {X : Type} {msg sql : String} {lexeme : Lexeme X} {keyword : Keyword} {tag : TypeTag}
  {valueParser : String → Except Exc (Value X)} {α : Type} {e : Exc} {all tokens rest site : List (Token X)}
  {tok : Token X}
  {n : ℕ} {used : α → ℕ} {f : Token X → SqlParser X α} {kind : TokenKind} {inner : SqlParser X (Expr X)}

/-- The rest of a list at the cursor. -/
structure At (all tokens : List (Token X)) : Prop where
  isSuffix : tokens <:+ all
  ends : EndsOnce tokens

theorem At.exists_cons (place : At all tokens) : ∃ tok rest, tokens = tok :: rest := by
  obtain ⟨init, last, rfl, -, -⟩ := place.ends
  cases init with
  | nil => exact ⟨last, [], rfl⟩
  | cons tok init => exact ⟨tok, init ++ [last], rfl⟩

theorem At.tail (place : At all (tok :: rest)) (goes : tok.lexeme ≠ .eof) : At all rest := by
  refine ⟨(suffix_cons tok rest).trans place.isSuffix, ?_⟩
  obtain ⟨init, last, whole, isEof, others⟩ := place.ends
  cases init with
  | nil =>
    cases whole
    exact (goes isEof).elim
  | cons first init =>
    cases whole
    exact ⟨init, last, rfl, isEof, fun tok member => others tok (mem_cons_of_mem _ member)⟩

theorem At.mem (place : At all (tok :: rest)) : tok ∈ all := place.isSuffix.subset mem_cons_self

theorem At.skipSuffix {tokens : List (Token X)} (place : At all tokens) (depth : ℕ) :
    At all (skipSuffix depth tokens) := by
  fun_induction Sql.skipSuffix depth tokens with
  | case1 => exact place
  | case2 => exact place
  | case3 => exact place
  | case4 depth tok rest here ih | case5 depth tok rest here ih => exact ih (place.tail (by rw [here]; nofun))
  | case6 depth tok rest goes _ _ ih => exact ih (place.tail goes)

theorem length_skipSuffix (depth : ℕ) (tokens : List (Token X)) : (skipSuffix depth tokens).length ≤ tokens.length := by
  fun_induction Sql.skipSuffix depth tokens with
  | case1 | case2 | case3 => exact le_refl _
  | case4 _ _ _ _ ih | case5 _ _ _ _ ih | case6 _ _ _ _ _ _ ih => exact ih.trans (Nat.le_succ _)

theorem fromHex_error (size : ℕ) {at' : ℕ} {text : List Char} (short : text.length ≤ size)
    (failed : fromHex at' text = .error e) : e.cls = .valueError := by
  induction size generalizing at' text with
  | zero =>
    rw [length_eq_zero_iff.mp (Nat.le_zero.mp short), fromHex] at failed
    cases failed
  | succ size ih =>
    rw [fromHex.eq_def] at failed
    split at failed
    · cases failed
    · rw [length_cons] at short
      split_ifs at failed
      · exact ih (by omega) failed
      · split at failed
        · split at failed
          · rcases bind_error_iff.mp failed with later | ⟨bytes, -, returned⟩
            · exact ih (by simp at short; omega) later
            · cases returned
          · cases failed
            rfl
        all_goals
          cases failed
          rfl

theorem digit_of_parseError {position : Position} {text : String}
    (same : parseError position msg = ⟨.parseError, "line " ++ text⟩) :
    text.toList.head?.all Char.isDigit = true := by
  obtain ⟨first, more, digits⟩ := exists_cons_of_ne_nil (@Nat.toDigits_ne_nil position.line 10)
  have isDigit : first.isDigit = true :=
    Nat.isDigit_of_mem_toDigits (by decide) (by decide) (digits ▸ mem_cons_self)
  have chars := congrArg (fun e => e.msg.toList) same
  simp only [parseError, String.toList_append, append_assoc] at chars
  have text := append_cancel_left chars
  have shown : (toString position.line).toList = first :: more := by
    rw [← digits]
    simp [toString, Nat.repr]
  rw [shown, cons_append] at text
  rw [← text]
  simpa using isDigit

variable [Runtime X] [IsoFormat X]

section Places

/-- The cursor is at a token. -/
structure AtToken (all : List (Token X)) (tok : Token X) (tokens : List (Token X)) : Prop where
  place : At all tokens
  head : tokens.head? = some tok

def Expr.IsLiteral : Expr X → Prop
  | .literal _ | .typedLiteral _ _ => True
  | _ => False

/-- The parsers that raise an error without a place, and where: a typed literal whose text its value parser refuses
with an exception that is not caught, and a value whose primary is no literal. -/
inductive Stray : (γ : Type) → SqlParser X γ → List (Token X) → Exc → Prop where
  | typedLiteral {keyword : Keyword} {tag : TypeTag} {valueParser : String → Except Exc (Value X)} {text : Token X}
      {rest : List (Token X)} {s : String} {e : Exc} (known : typedLiteralParsers keyword = some (tag, valueParser))
      (isText : text.lexeme = .stringLit s) (raised : valueParser s = .error e)
      (uncaught : caughtByTypedLiteral e = false) :
      Stray (Expr X) (parseTypedLiteral keyword tag valueParser) (text :: rest) e
  | value {site rest : List (Token X)} {node : Expr X} (primary : parsePrimary parseExpr site = .ok (node, rest))
      (expression : ¬ node.IsLiteral) : Stray (Value X) parseValue site ⟨.parseError,
        "line " ++ node.className ++ ", col 0: INSERT VALUES expects a literal, got expression node"⟩

theorem Stray.raises {γ : Type} {q : SqlParser X γ} (stray : Stray γ q site e) : q site = .error e := by
  cases stray with
  | @typedLiteral keyword tag valueParser text rest s e known isText raised uncaught =>
    rw [parseTypedLiteral, bind_of_ok (rfl : peek (text :: rest) = .ok (text, text :: rest)), isText]
    dsimp only
    rw [bind_of_ok (rfl : advance (text :: rest) = .ok (text, rest)), raised]
    dsimp only
    rw [uncaught]
    rfl
  | @value site rest node primary expression =>
    rw [parseValue, bind_of_ok primary]
    cases node with
    | literal | typedLiteral => exact (expression trivial).elim
    | columnRef | binaryOp | unaryOp | aggregate => rfl

/-- A run over the tokens comes to an error without a place. -/
def ComesToStray (tokens : List (Token X)) : Prop :=
  ∃ (γ : Type) (q : SqlParser X γ) (site : List (Token X)) (e : Exc), Comes q parseStatement tokens site ∧
  Stray γ q site e

def Names (all : List (Token X)) (e : Exc) : Prop := ∃ tok ∈ all, ∃ msg, e = parseError tok.position msg

def NamesOrStray (all : List (Token X)) (γ : Type) (q : SqlParser X γ) (site : List (Token X)) (e : Exc) : Prop :=
  Names all e ∨ Stray γ q site e

abbrev Safe {α : Type} (all : List (Token X)) (n : ℕ) (used : α → ℕ) (p : SqlParser X α) : Prop :=
  Sound (At all) (At all) (NamesOrStray all) n used p

abbrev Ends {α : Type} (all : List (Token X)) (n : ℕ) (p : SqlParser X α) : Prop := Safe all n (fun _ => 0) p

abbrev Moves {α : Type} (all : List (Token X)) (n : ℕ) (p : SqlParser X α) : Prop := Safe all n (fun _ => 1) p

abbrev SafeAt {α : Type} (all : List (Token X)) (tok : Token X) (n : ℕ) (used : α → ℕ) (p : SqlParser X α) : Prop :=
  Sound (AtToken all tok) (At all) (NamesOrStray all) n used p

theorem safeAt_of_safe {p : SqlParser X α} (safe : Safe all n used p) : SafeAt all tok n used p :=
  safe.start fun _ start => start.place

theorem safe_peek (each : ∀ tok ∈ all, SafeAt all tok n used (f tok)) : Safe all n used (peek >>= f) := by
  intro tokens start short
  obtain ⟨tok, rest, rfl⟩ := start.exists_cons
  have ran : peek (tok :: rest) = .ok (tok, tok :: rest) := rfl
  exact Fine.after (k := 0) ran (le_refl _) (each tok start.mem (tok :: rest) ⟨start, rfl⟩ short)

theorem safe_failAt {pre : List (Token X) → Prop} (member : tok ∈ all) :
    Sound pre (At all) (NamesOrStray all) n used (failAt tok msg) := sound_throw fun _ => .inl ⟨tok, member, msg, rfl⟩

theorem safe_failHere {msg : Token X → String} : Safe all n used (peek >>= fun tok => failAt tok (msg tok)) :=
  safe_peek fun _ member => safe_failAt member

theorem safe_advance (goes : tok.lexeme ≠ .eof) : SafeAt all tok n (fun _ => 1) advance := by
  rintro tokens ⟨place, head⟩ -
  obtain ⟨rest, rfl⟩ := head?_eq_some_iff.mp head
  exact ⟨place.tail goes, le_refl _⟩

theorem safe_take (here : tok.lexeme = lexeme) (goes : lexeme ≠ .eof) : SafeAt all tok n (fun _ => 1) advance :=
  safe_advance (here ▸ goes)

theorem safeAt_pure {a : α} (none : used a = 0) : SafeAt all tok n used (pure a) := safeAt_of_safe (sound_pure none)

theorem safe_matchKind (goes : kind ≠ .EOF) : Safe all n Bool.toNat (matchKind kind) := by
  refine safe_peek fun tok member => ?_
  split
  case isTrue here =>
    have noEnd : tok.lexeme ≠ .eof := fun ends => goes (here.symm.trans (congrArg Lexeme.kind ends))
    exact (safe_advance noEnd).bind fun _ _ => sound_pure rfl
  case isFalse => exact safeAt_pure rfl

theorem safe_matchKeyword : Safe all n Bool.toNat (matchKeyword keyword) := by
  refine safe_peek fun tok member => ?_
  split
  case isTrue here =>
    exact (safe_take (isKeyword_iff.mp here) nofun).bind fun _ _ => sound_pure rfl
  case isFalse => exact safeAt_pure rfl

theorem safe_matchNull : Safe all n Bool.toNat (matchNull : SqlParser X Bool) := by
  refine safe_peek fun tok member => ?_
  split
  case isTrue here =>
    have noEnd : tok.lexeme ≠ .eof := by
      intro ends
      rw [ends] at here
      rcases here with kind | word
      · cases kind
      · cases word
    exact (safe_advance noEnd).bind fun _ _ => sound_pure rfl
  case isFalse => exact safeAt_pure rfl

theorem safe_matchOpIn (ops : Op → Option BinOp) :
    Safe all n turnTakes (matchOpIn ops : SqlParser X (Option BinOp)) := by
  refine safe_peek fun tok member => ?_
  split
  case h_1 op here =>
    split
    case h_1 binary known =>
      exact (safe_take here nofun).bind fun _ _ => sound_pure rfl
    case h_2 => exact safeAt_pure rfl
  case h_2 => exact safeAt_pure rfl

theorem safe_matchConnective (keyword : Keyword) (op : BinOp) :
    Safe all n turnTakes (matchConnective keyword op : SqlParser X (Option BinOp)) := by
  refine safe_matchKeyword.bind fun found _ => ?_
  cases found with
  | true | false => exact sound_pure rfl

theorem safe_expectKind (goes : kind ≠ .EOF) : Moves all n (expectKind kind : SqlParser X _) := by
  refine safe_peek fun tok member => ?_
  split
  case isTrue here => exact safe_advance fun ends => goes (here.symm.trans (congrArg Lexeme.kind ends))
  case isFalse => exact safe_failAt member

theorem safe_expectKeyword : Moves all n (expectKeyword keyword : SqlParser X Unit) := by
  refine safe_peek fun tok member => ?_
  split
  case isTrue here =>
    exact (safe_take (isKeyword_iff.mp here) nofun).first fun _ => sound_pure rfl
  case isFalse => exact safe_failAt member

theorem safe_expectIdent : Moves all n (expectIdent : SqlParser X String) := by
  refine safe_peek fun tok member => ?_
  split
  case h_1 name here => exact (safe_take here nofun).first fun _ => sound_pure rfl
  case h_2 => exact safe_failAt member

theorem safe_expectInt : Moves all n (expectInt : SqlParser X ℤ) := by
  refine safe_peek fun tok member => ?_
  split
  case h_1 value here => exact (safe_take here nofun).first fun _ => sound_pure rfl
  case h_2 => exact safe_failAt member

theorem safe_commaList {item : SqlParser X α} (each : Moves all n item) : Moves all n (commaList item) := by
  refine each.first fun a => sound_loop (fun out => ?_) [a]
  refine (safe_matchKind (by decide)).bind fun comma _ => ?_
  cases comma with
  | true => exact ((each.mono (Nat.sub_le n 1)).later fun b => sound_pure rfl)
  | false => exact sound_pure rfl

theorem safe_parseIdentList : Moves all n (parseIdentList : SqlParser X (List String)) :=
    safe_commaList safe_expectIdent

end Places

section Expressions

theorem safe_parseTypedLiteral (known : typedLiteralParsers keyword = some (tag, valueParser)) :
    Ends all n (parseTypedLiteral keyword tag valueParser) := by
  intro tokens place short
  obtain ⟨text, rest, rfl⟩ := place.exists_cons
  have ran : peek (text :: rest) = .ok (text, text :: rest) := rfl
  -- what is raised for a string literal, with the parser itself left out of the statement
  have ended : Fine (At all) (fun e => Names all e ∨ ∃ s, text.lexeme = .stringLit s ∧ valueParser s = .error e ∧
      caughtByTypedLiteral e = false) (text :: rest) (fun _ => 0)
      (parseTypedLiteral keyword tag valueParser (text :: rest)) := by
    rw [parseTypedLiteral, bind_of_ok ran]
    cases here : text.lexeme with
    | stringLit s =>
      have behind := place.tail (by rw [here]; nofun)
      dsimp only
      rw [bind_of_ok (rfl : advance (text :: rest) = .ok (text, rest))]
      cases converted : valueParser s with
      | ok value => exact ⟨behind, Nat.le_succ _⟩
      | error e =>
        dsimp only
        split_ifs with isCaught
        · exact .inl ⟨text, place.mem, _, rfl⟩
        · exact .inr ⟨s, rfl, converted, by simpa using isCaught⟩
    | _ => exact .inl ⟨text, place.mem, _, rfl⟩
  refine ended.imp (fun e raised => blamed_here ?_) fun _ => le_refl _
  rcases raised with names | ⟨s, isText, raised, uncaught⟩
  · exact .inl names
  · exact .inr (.typedLiteral known isText raised uncaught)

theorem safe_parseColumn (name : String) : Ends all n (parseColumn name) := by
  refine (safe_matchKind (by decide)).cond (safe_peek fun tok member => ?_) (sound_pure rfl)
  split
  case h_1 column here => exact (safe_take here nofun).later fun _ => sound_pure rfl
  case h_2 => exact safe_failAt member

section

variable (within : Ends all n inner)
include within

theorem safe_parsePrimary : Moves all (n + 1) (parsePrimary inner) := by
  refine safe_peek fun tok member => ?_
  split
  case h_1 keyword here =>
    split
    case h_1 tag valueParser known =>
      exact (safe_take here nofun).first fun _ => safe_parseTypedLiteral known
    case h_2 => exact safe_failAt member
  case h_7 here =>
    refine (safe_take here nofun).bind fun _ _ => ?_
    exact within.later fun e => (safe_expectKind (by decide)).later fun _ => sound_pure rfl
  case h_8 name here => exact (safe_take here nofun).first fun _ => safe_parseColumn name
  case h_9 => exact safe_failAt member
  all_goals
    rename_i here
    exact (safe_take here nofun).first fun _ => sound_pure rfl

theorem safe_parseUnaryFrom (turns m : ℕ) (enough : m < turns) (le : m ≤ n + 1) :
    Moves all m (parseUnaryFrom inner turns) := by
  induction turns generalizing m with
  | zero => exact absurd enough (Nat.not_lt_zero _)
  | succ turns ih =>
    refine safe_peek fun tok member => ?_
    split
    case h_1 here =>
      refine (safe_take here nofun).bind fun _ taken => ?_
      exact (ih (m - 1) (by omega) (by omega)).later fun _ => sound_pure rfl
    case h_2 => exact safeAt_of_safe ((safe_parsePrimary within).mono le)

theorem safe_parseUnary : Moves all (n + 1) (parseUnary inner) :=
  sound_bounded fun m le => safe_parseUnaryFrom within (m + 1) m (Nat.lt_succ_self m) le

omit within in
theorem safe_leftGrouped {operator : SqlParser X (Option BinOp)} {operand : SqlParser X (Expr X)}
    (operators : Safe all n turnTakes operator) (operands : Moves all n operand) :
    Moves all n (leftGrouped operator operand) := by
  refine operands.first fun first => sound_loop (fun left => ?_) first
  refine operators.bind fun op _ => ?_
  cases op with
  | some op => exact (operands.mono (Nat.sub_le n 1)).later fun right => sound_pure rfl
  | none => exact sound_pure rfl

theorem safe_parseAdditive : Moves all (n + 1) (parseAdditive inner) :=
  safe_leftGrouped (safe_matchOpIn _) (safe_leftGrouped (safe_matchOpIn _) (safe_parseUnary within))

theorem safe_parseComparison : Moves all (n + 1) (parseComparison inner) := by
  refine (safe_parseAdditive within).first fun left => safe_matchKeyword.cond ?_ ?_
  · exact safe_matchKeyword.later fun negated => safe_matchNull.cond (sound_pure rfl) safe_failHere
  · refine (safe_matchOpIn _).later fun op => ?_
    cases op with
    | some op => exact (safe_parseAdditive within).later fun right => sound_pure rfl
    | none => exact sound_pure rfl

theorem safe_parseNotFrom (turns m : ℕ) (enough : m < turns) (le : m ≤ n + 1) :
    Moves all m (parseNotFrom inner turns) := by
  induction turns generalizing m with
  | zero => exact absurd enough (Nat.not_lt_zero _)
  | succ turns ih =>
    refine safe_matchKeyword.bind fun found taken => ?_
    cases found with
    | true => exact (ih (m - 1) (by simp at taken; omega) (by omega)).later fun _ => sound_pure rfl
    | false => exact (safe_parseComparison within).mono le

theorem safe_parseNot : Moves all (n + 1) (parseNot inner) :=
  sound_bounded fun m le => safe_parseNotFrom within (m + 1) m (Nat.lt_succ_self m) le

theorem safe_parseOr : Moves all (n + 1) (parseOr inner) :=
  safe_leftGrouped (safe_matchConnective _ _) (safe_leftGrouped (safe_matchConnective _ _) (safe_parseNot within))

end

theorem safe_parseExprFrom (depth : ℕ) : Moves all depth (parseExprFrom depth : SqlParser X (Expr X)) := by
  induction depth with
  | zero =>
    intro tokens place short
    obtain ⟨tok, rest, rfl⟩ := place.exists_cons
    exact absurd short (Nat.not_succ_le_zero _)
  | succ depth ih => exact safe_parseOr ih.forget

theorem safe_parseExpr : Moves all n (parseExpr : SqlParser X (Expr X)) :=
  sound_bounded fun m _ => (safe_parseExprFrom (m + 1)).mono (Nat.le_succ m)

end Expressions

section Ddl

theorem safe_skipSuffix (depth : ℕ) : Ends all n (modify (skipSuffix depth) : SqlParser X PUnit) :=
  fun tokens place _ => ⟨place.skipSuffix depth, length_skipSuffix depth tokens⟩

theorem safe_parseConstraint (column : Column) :
    Safe all n turnTakes (parseConstraint column : SqlParser X (Option Column)) := by
  refine safe_peek fun tok member => ?_
  split
  case h_1 here =>
    exact (safe_take here nofun).bind fun _ _ => safe_matchNull.cond (sound_pure rfl) safe_failHere
  case h_2 here =>
    exact (safe_take here nofun).bind fun _ _ => safe_expectKeyword.later fun _ => sound_pure rfl
  case h_3 here => exact (safe_take here nofun).bind fun _ _ => sound_pure rfl
  case h_4 => exact safeAt_pure rfl

theorem safe_parseColumnDef : Moves all n (parseColumnDef : SqlParser X Column) := by
  refine safe_expectIdent.first fun name => ?_
  intro tokens place short
  obtain ⟨tok, rest, rfl⟩ := place.exists_cons
  have ran : advance (tok :: rest) = .ok (tok, rest) := rfl
  refine Fine.after (k := 0) ran (Nat.le_succ _) ?_
  cases here : tok.lexeme with
  | keyword keyword =>
    dsimp only
    cases typeAliases keyword with
    | none => exact blamed_here (.inl ⟨tok, place.mem, _, rfl⟩)
    | some tag =>
      have constraints : Ends all n (Parser.loop stuck parseConstraint ⟨name, tag, false, false, false⟩) :=
        sound_loop safe_parseConstraint _
      have suffix : Ends all n (do
          if ← matchKind .LPAREN then modify (skipSuffix 1)
          Parser.loop stuck parseConstraint ⟨name, tag, false, false, false⟩ : SqlParser X Column) :=
        (safe_matchKind (by decide)).cond ((safe_skipSuffix 1).later fun _ => constraints) constraints
      exact suffix rest (place.tail (by rw [here]; nofun)) (Nat.le_of_succ_le short)
  | _ => exact blamed_here (.inl ⟨tok, place.mem, _, rfl⟩)

theorem safe_parseCreateTable : Ends all n (parseCreateTable : SqlParser X (Parsed X)) :=
  safe_expectKeyword.later fun _ => safe_expectIdent.later fun _ => (safe_expectKind (by decide)).later fun _ =>
    (safe_commaList safe_parseColumnDef).later fun _ => (safe_expectKind (by decide)).later fun _ =>
    (safe_matchKind (by decide)).later fun _ => sound_pure rfl

theorem safe_parseCreateIndex : Ends all n (parseCreateIndex : SqlParser X (Parsed X)) :=
  safe_matchKeyword.later fun _ => safe_expectKeyword.later fun _ => safe_expectIdent.later fun _ =>
    safe_expectKeyword.later fun _ => safe_expectIdent.later fun _ => (safe_expectKind (by decide)).later fun _ =>
    safe_expectIdent.later fun _ => (safe_expectKind (by decide)).later fun _ =>
    (safe_matchKind (by decide)).later fun _ =>
    sound_pure rfl

theorem safe_parseCreateOrIndex : Ends all n (parseCreateOrIndex : SqlParser X (Parsed X)) := by
  refine safe_expectKeyword.later fun _ => safe_peek fun tok member => ?_
  split
  case h_1 => exact safeAt_of_safe safe_parseCreateTable
  case h_2 | h_3 => exact safeAt_of_safe safe_parseCreateIndex
  case h_4 => exact safe_failAt member

theorem safe_parseDropTable : Ends all n (parseDropTable : SqlParser X (Parsed X)) := by
  have named (ifExists : Bool) : Ends all n
      (expectIdent >>= fun name => matchKind .SEMI >>= fun _ =>
        pure (Parsed.dropTable name ifExists) : SqlParser X (Parsed X)) :=
    safe_expectIdent.later fun _ => (safe_matchKind (by decide)).later fun _ => sound_pure rfl
  refine safe_expectKeyword.later fun _ => safe_expectKeyword.later fun _ => safe_matchKeyword.later fun ifExists => ?_
  cases ifExists with
  | true => exact safe_expectKeyword.later fun _ => named true
  | false => exact named false

theorem safe_parseDdl : Ends all n (parseDdl : SqlParser X (Parsed X)) := by
  refine safe_peek fun tok member => ?_
  split
  case h_1 => exact safeAt_of_safe safe_parseCreateOrIndex
  case h_2 => exact safeAt_of_safe safe_parseDropTable
  case h_3 => exact safe_failAt member

end Ddl

section Dml

theorem safe_parseAggregate : Moves all n (parseAggregate : SqlParser X (Expr X)) := by
  refine safe_peek fun tok member => ?_
  split
  case h_1 func here =>
    split
    case isTrue =>
      refine (safe_take here nofun).first fun _ => (safe_expectKind (by decide)).later fun _ =>
        safe_peek fun arg argMember => ?_
      refine Sound.later (?_ : SafeAt all arg n (fun _ => 1) _) fun column =>
        (safe_expectKind (by decide)).later fun _ => sound_pure rfl
      split
      case h_1 here => exact (safe_take here nofun).first fun _ => sound_pure rfl
      case h_2 name here => exact (safe_take here nofun).first fun _ => sound_pure rfl
      case h_3 => exact safe_failAt argMember
    case isFalse => exact safe_failAt member
  case h_2 => exact safe_failAt member

theorem safe_parseTableRef : Moves all n (parseTableRef : SqlParser X (TableRef X)) := by
  refine safe_expectIdent.first fun name => safe_matchKeyword.later fun _ => safe_peek fun tok member => ?_
  split
  case h_1 aliasName here =>
    refine sound_get fun state => ?_
    split
    case isTrue => exact (safe_take here nofun).later fun _ => sound_pure rfl
    case isFalse => exact safeAt_pure rfl
  case h_2 => exact safeAt_pure rfl

theorem safe_parseJoinKind : Ends all n (parseJoinKind : SqlParser X JoinKind) :=
  safe_matchKeyword.cond (sound_pure rfl) <|
    safe_matchKeyword.cond (safe_matchKeyword.later fun _ => sound_pure rfl) <|
    safe_matchKeyword.cond safe_failHere <| safe_matchKeyword.cond safe_failHere <|
    safe_matchKeyword.cond safe_failHere (sound_pure rfl)

theorem safe_parseOrderByItem : Moves all n (parseOrderByItem : SqlParser X OrderBy) := by
  refine safe_expectIdent.first fun name => ?_
  have direction (column : String) : Ends all n (do
      if ← matchKeyword .DESC then return ⟨column, true⟩
      else
        let _ ← matchKeyword .ASC
        return ⟨column, false⟩ : SqlParser X OrderBy) :=
    safe_matchKeyword.cond (sound_pure rfl) (safe_matchKeyword.later fun _ => sound_pure rfl)
  refine Sound.later (?_ : Ends all n _) direction
  exact (safe_matchKind (by decide)).cond safe_expectIdent.forget (sound_pure rfl)

theorem safe_parseBy {items : SqlParser X (List α)} (each : Moves all n items) : Ends all n (parseBy keyword items) :=
  safe_matchKeyword.cond (safe_expectKeyword.later fun _ => each.forget) (sound_pure rfl)

theorem safe_parseLimit : Ends all n (parseLimit : SqlParser X (Option ℤ × Option ℤ)) := by
  refine safe_matchKeyword.cond (safe_expectInt.later fun limit => ?_) (sound_pure rfl)
  exact safe_matchKeyword.cond (safe_expectInt.later fun _ => sound_pure rfl) (sound_pure rfl)

theorem safe_parseSelectItem : Moves all n (parseSelectItem : SqlParser X (SelectItem X)) := by
  have plain : Moves all n (parseExpr >>= fun e => pure (SelectItem.expr e) : SqlParser X (SelectItem X)) :=
    safe_parseExpr.first fun _ => sound_pure rfl
  refine safe_peek fun tok member => ?_
  split
  case h_1 keyword here =>
    split
    case isTrue => exact safeAt_of_safe (safe_parseAggregate.first fun _ => sound_pure rfl)
    case isFalse => exact safeAt_of_safe plain
  case h_2 => exact safeAt_of_safe plain

theorem safe_parseSelectColumns : Ends all n (parseSelectColumns : SqlParser X (List (SelectItem X))) := by
  refine safe_peek fun tok member => ?_
  split
  case h_1 here => exact (safe_take here nofun).later fun _ => sound_pure rfl
  case h_2 => exact safeAt_of_safe (safe_commaList safe_parseSelectItem).forget

theorem safe_parseJoinCondition : Ends all n (parseJoinCondition : SqlParser X (Option (Expr X) × List String)) := by
  refine safe_matchKeyword.cond (safe_parseExpr.later fun _ => sound_pure rfl)
    (safe_matchKeyword.cond ?_ safe_failHere)
  exact (safe_expectKind (by decide)).later fun _ => safe_parseIdentList.later fun _ =>
    (safe_expectKind (by decide)).later fun _ => sound_pure rfl

theorem safe_parseOneJoin (left : TableRef X) : Moves all n (parseOneJoin left) :=
  safe_parseJoinKind.later fun _ => safe_expectKeyword.first fun _ => safe_parseTableRef.later fun _ =>
    safe_parseJoinCondition.later fun _ => sound_pure rfl

theorem safe_parseFromClause : Ends all n (parseFromClause : SqlParser X (TableRef X)) := by
  refine safe_parseTableRef.later fun first =>
    (sound_loop (fun (left, depth) => ?_) (first, 0)).later fun _ => sound_pure rfl
  refine safe_peek fun tok member => ?_
  split
  case isTrue =>
    split
    case isTrue => exact safe_failAt member
    case isFalse =>
      have joined : Moves all n (parseOneJoin left >>= fun source => pure (some (source, depth + 1))) :=
        (safe_parseOneJoin left).first fun _ => sound_pure rfl
      exact safeAt_of_safe (joined.weaken fun more => by cases more <;> simp [turnTakes])
  case isFalse => exact safeAt_pure rfl

theorem safe_parseWhere : Ends all n (parseWhere : SqlParser X (Option (Expr X))) :=
  safe_matchKeyword.cond (safe_parseExpr.later fun _ => sound_pure rfl) (sound_pure rfl)

theorem safe_parseSelect : Ends all n (parseSelect : SqlParser X (Parsed X)) :=
  safe_expectKeyword.later fun _ => safe_parseSelectColumns.later fun _ => safe_expectKeyword.later fun _ =>
    safe_parseFromClause.later fun _ => safe_parseWhere.later fun _ =>
    (safe_parseBy safe_parseIdentList).later fun _ =>
    (safe_parseBy (safe_commaList safe_parseOrderByItem)).later fun _ =>
    safe_parseLimit.later fun _ => (safe_matchKind (by decide)).later fun _ => sound_pure rfl

theorem safe_parseAssignment : Moves all n (parseAssignment : SqlParser X (Assignment X)) :=
  safe_expectIdent.first fun _ => (safe_expectKind (by decide)).later fun _ => safe_parseExpr.later fun _ =>
    sound_pure rfl

theorem safe_parseUpdate : Ends all n (parseUpdate : SqlParser X (Parsed X)) :=
  safe_expectKeyword.later fun _ => safe_expectIdent.later fun _ => safe_expectKeyword.later fun _ =>
    (safe_commaList safe_parseAssignment).later fun _ => safe_parseWhere.later fun _ =>
    (safe_matchKind (by decide)).later fun _ => sound_pure rfl

theorem safe_parseDelete : Ends all n (parseDelete : SqlParser X (Parsed X)) :=
  safe_expectKeyword.later fun _ => safe_expectKeyword.later fun _ => safe_expectIdent.later fun _ =>
    safe_parseWhere.later fun _ => (safe_matchKind (by decide)).later fun _ => sound_pure rfl

theorem safe_parseValue : Moves all n (parseValue : SqlParser X (Value X)) := by
  intro tokens place short
  have primary := (safe_parsePrimary (n := n) safe_parseExpr.forget) tokens place (Nat.le_succ_of_le short)
  rcases parsed : parsePrimary parseExpr tokens with e | ⟨node, rest⟩
  · rw [parsed] at primary
    rw [parseValue, bind_of_error parsed]
    exact Blamed.first primary
  · rw [parsed] at primary
    by_cases literal : node.IsLiteral
    · have returned : ∃ value, parseValue tokens = .ok (value, rest) := by
        rw [parseValue, bind_of_ok parsed]
        cases node with
        | literal value => exact ⟨value, rfl⟩
        | typedLiteral tag value => exact ⟨.typed tag value, rfl⟩
        | columnRef | binaryOp | unaryOp | aggregate => exact literal.elim
      obtain ⟨value, returned⟩ := returned
      rw [returned]
      exact primary
    · have stray : Stray _ parseValue tokens _ := .value parsed literal
      rw [stray.raises]
      exact blamed_here (.inr stray)

theorem safe_parseValueTuple : Moves all n (parseValueTuple : SqlParser X (Row X)) :=
  (safe_expectKind (by decide)).first fun _ => (safe_commaList safe_parseValue).later fun _ =>
    (safe_expectKind (by decide)).later fun _ => sound_pure rfl

theorem safe_parseInsertColumns : Ends all n (parseInsertColumns : SqlParser X (Option (List String))) :=
  (safe_matchKind (by decide)).cond
    (safe_parseIdentList.later fun _ => (safe_expectKind (by decide)).later fun _ => sound_pure rfl)
    (sound_pure rfl)

theorem safe_parseInsert : Ends all n (parseInsert : SqlParser X (Parsed X)) :=
  safe_expectKeyword.later fun _ => safe_expectKeyword.later fun _ => safe_expectIdent.later fun _ =>
    safe_parseInsertColumns.later fun _ => safe_expectKeyword.later fun _ =>
    (safe_commaList safe_parseValueTuple).later fun _ => (safe_matchKind (by decide)).later fun _ => sound_pure rfl

theorem safe_parseDml : Ends all n (parseDml : SqlParser X (Parsed X)) := by
  refine safe_peek fun tok member => ?_
  split
  case h_1 => exact safeAt_of_safe safe_parseInsert
  case h_2 => exact safeAt_of_safe safe_parseSelect
  case h_3 => exact safeAt_of_safe safe_parseUpdate
  case h_4 => exact safeAt_of_safe safe_parseDelete
  case h_5 => exact safe_failAt member

theorem safe_parseStatement : Ends all n (parseStatement : SqlParser X (Parsed X)) := by
  refine safe_peek fun tok member => ?_
  split
  case h_1 | h_2 => exact safeAt_of_safe safe_parseDdl
  case h_3 => exact safeAt_of_safe safe_parseDml

end Dml

theorem parseTokens_outcome (ends : EndsOnce tokens) (regular : ¬ ComesToStray tokens) :
    (∃ stmt, parseTokens tokens = .ok stmt) ∨ ∃ e, parseTokens tokens = .error e ∧ Names tokens e := by
  have fine := safe_parseStatement tokens ⟨suffix_rfl, ends⟩ (le_refl tokens.length)
  rw [parseTokens]
  generalize parseStatement tokens = ended at fine
  rcases ended with e | ⟨stmt, rest⟩
  · obtain ⟨γ, q, site, comes, names | stray⟩ := fine
    · exact .inr ⟨e, rfl, names⟩
    · exact (regular ⟨γ, q, site, e, comes, stray⟩).elim
  · obtain ⟨after, -⟩ := fine
    rcases rest with _ | ⟨tok, _ | ⟨next, rest⟩⟩
    · exact .inl ⟨stmt, rfl⟩
    · exact .inl ⟨stmt, rfl⟩
    · exact .inr ⟨_, rfl, tok, after.mem, _, rfl⟩

theorem ComesToStray.raises (strays : ComesToStray tokens) :
    ∃ (γ : Type) (q : SqlParser X γ) (site : List (Token X)) (e : Exc), Stray γ q site e ∧
    parseTokens tokens = .error e := by
  obtain ⟨γ, q, site, e, comes, stray⟩ := strays
  refine ⟨γ, q, site, e, stray, ?_⟩
  rw [parseTokens, comes.raises stray.raises]
  rfl

variable [Lexicon X]

def OkOrLocated {α : Type} (sql : String) (r : Except Exc α) : Prop :=
  (∃ a, r = .ok a) ∨ ∃ position msg, Located sql.toList position ∧ r = .error (parseError position msg)

/-- The conversions of the runtime raise no ParseError of the module. -/
structure NoParseError (X : Type) [Runtime X] [IsoFormat X] [Lexicon X] : Prop where
  int : ∀ text e, (Lexicon.int X text : Except Exc ℤ) = .error e → e.cls ≠ .parseError
  float : ∀ text e, (Lexicon.float text : Except Exc X) = .error e → e.cls ≠ .parseError
  fromisoformat : ∀ tag text e, (IsoFormat.fromisoformat tag text : Except Exc X) = .error e → e.cls ≠ .parseError
  ofDecimalText : ∀ text e, (Runtime.ofDecimalText text : Except Exc X) = .error e → e.cls ≠ .parseError
  jsonLoads : ∀ text e, (Runtime.jsonLoads text : Except Exc (Value X)) = .error e → e.cls ≠ .parseError

section Apart

variable (outside : NoParseError X)
include outside

theorem NoParseError.numberAt {c : Char} {text : List Char}
    (failed : numberAt c text = (.error e : Except Exc (Lexeme X))) :
    e.cls ≠ .parseError := by
  rw [Sql.numberAt] at failed
  dsimp only at failed
  split_ifs at failed
  · exact outside.float _ e (map_error_iff.mp failed)
  · have converted := map_error_iff.mp failed
    rw [toInt] at converted
    split_ifs at converted
    · cases converted
      exact (by decide : ExcClass.valueError ≠ .parseError)
    · exact outside.int _ e converted

theorem NoParseError.typedLiteral {s : String} (known : typedLiteralParsers keyword = some (tag, valueParser))
    (failed : valueParser s = .error e) : e.cls ≠ .parseError := by
  rw [typedLiteralParsers.eq_def] at known
  split at known <;> cases known
  · exact outside.fromisoformat _ _ e (map_error_iff.mp failed)
  · exact outside.fromisoformat _ _ e (map_error_iff.mp failed)
  · exact outside.fromisoformat _ _ e (map_error_iff.mp failed)
  · exact outside.ofDecimalText _ e (map_error_iff.mp failed)
  · rw [fromHex_error _ (le_refl _) (map_error_iff.mp failed)]
    decide
  · exact outside.jsonLoads _ e failed

/-- The error of a parser that strays has no place: it is no ParseError, or its line is the name of a class. -/
theorem Stray.ne_parseError {γ : Type} {q : SqlParser X γ} (stray : Stray γ q site e)
    (position : Position) (msg : String) : e ≠ parseError position msg := by
  cases stray with
  | typedLiteral known isText raised uncaught =>
    rintro rfl
    exact outside.typedLiteral known raised rfl
  | @value site rest node primary expression =>
    intro same
    rw [String.append_assoc] at same
    have letters : ∀ name ∈ ["Literal", "TypedLiteral", "ColumnRef", "BinaryOp", "UnaryOp", "Aggregate"],
        (name ++ ", col 0: INSERT VALUES expects a literal, got expression node").toList.head?.all Char.isDigit =
        false := by
      decide +kernel
    have letter := letters node.className (by cases node <;> simp [Expr.className])
    rw [digit_of_parseError same.symm] at letter
    cases letter

end Apart

omit [IsoFormat X] in
theorem tokenize_okOrLocated (numbers : ∀ e, ¬ BadNumber X sql.toList e) :
    OkOrLocated sql (tokenize sql : Except Exc (List (Token X))) := by
  have tracks : Tracks [] sql.toList ⟨1, 1⟩ := tracks_lineCol [] sql.toList
  cases lexed : (tokenize sql : Except Exc (List (Token X))) with
  | ok tokens => exact .inl ⟨tokens, rfl⟩
  | error e =>
    rcases tokensFrom_error tracks lexed with ⟨position, msg, located, rfl⟩ | bad
    · exact .inr ⟨position, msg, located, rfl⟩
    · exact (numbers e bad).elim

theorem not_okOrLocated (apart : ∀ position msg, e ≠ parseError position msg) :
    ¬ OkOrLocated sql (.error e : Except Exc α) := by
  rintro (⟨a, returned⟩ | ⟨position, msg, -, same⟩)
  · cases returned
  · exact apart position msg (Except.error.inj same)

theorem parse_okOrLocated (numbers : ∀ e, ¬ BadNumber X sql.toList e)
    (regular : ∀ tokens : List (Token X), tokenize sql = .ok tokens → ¬ ComesToStray tokens) :
    OkOrLocated sql (parse sql : Except Exc (Parsed X)) := by
  rcases tokenize_okOrLocated numbers with ⟨tokens, lexed⟩ | ⟨position, msg, located, failed⟩
  · have tracks : Tracks [] sql.toList ⟨1, 1⟩ := tracks_lineCol [] sql.toList
    obtain ⟨located, ends⟩ := tokensFrom_ok tracks (le_refl _) lexed
    rw [parse, lexed]
    rcases parseTokens_outcome ends (regular tokens lexed) with returned | ⟨e, failed, tok, member, msg, rfl⟩
    · exact .inl returned
    · exact .inr ⟨tok.position, msg, located tok member, failed⟩
  · rw [parse, failed]
    exact .inr ⟨position, msg, located, rfl⟩

theorem noParseError_bare : NoParseError Unit := by
  constructor <;> intros <;> rename_i failed <;> cases failed <;> decide

end Tinydb.Sql
