import Tinydb.Sql.Parser
import Mathlib.Tactic.Common

/-! Expressions are parsed back to themselves.

An expression is written with parentheses where the level of an operand is lower than its place
asks for. Each level of the parser takes what was written at it and stops in front of a
token that only a lower level goes on with.
-/

namespace Tinydb.Sql

open Lib Parser Tinydb.Types List

variable {X : Type} {low high k : ℕ} {op : BinOp} {tok : Token X} {tokens : List (Token X)} {keyword : Keyword}
  {kind : TokenKind} {ops : Op → Option BinOp} {lexemes : List (Lexeme X)} {rest : List (Token X)} {left right : Expr X}

/-- OR, AND, NOT, comparisons and IS, additive, multiplicative, unary minus, primary: from 0 to 7. -/
def BinOp.level : BinOp → ℕ
  | or => 0
  | and => 1
  | eq | ne | order _ => 3
  | arith .add | arith .sub => 4
  | arith .mul | arith .div => 5

/-- Comparisons do not associate, the other operators associate to the left. -/
def BinOp.leftLevel (op : BinOp) : ℕ := if op.level = 3 then 4 else op.level

def BinOp.lexeme : BinOp → Lexeme X
  | or => .keyword .OR
  | and => .keyword .AND
  | eq => .op .eq
  | ne => .op .ne
  | order .lt => .op .lt
  | order .le => .op .le
  | order .gt => .op .gt
  | order .ge => .op .ge
  | arith .add => .op .add
  | arith .sub => .op .sub
  | arith .mul => .op .mul
  | arith .div => .op .div

def Expr.level : Expr X → ℕ
  | .binaryOp op _ _ => op.level
  | .unaryOp .not _ => 2
  | .unaryOp .isNull _ | .unaryOp .isNotNull _ => 3
  | .unaryOp .neg _ => 6
  | _ => 7

def literalLexeme : Value X → Lexeme X
  | .bool b => .boolLit b
  | .int n => .intLit n
  | .str s => .stringLit s
  | _ => .nullLit

def enclosed (level : ℕ) (e : Expr X) (lexemes : List (Lexeme X)) : List (Lexeme X) :=
  if e.level < level then .lparen :: (lexemes ++ [.rparen]) else lexemes

def Expr.body : Expr X → List (Lexeme X)
  | .literal value => [literalLexeme value]
  | .columnRef name none => [.ident name]
  | .columnRef name (some table) => [.ident table, .dot, .ident name]
  | .binaryOp op left right =>
    enclosed op.leftLevel left left.body ++ op.lexeme :: enclosed (op.level + 1) right right.body
  | .unaryOp .not operand => .keyword .NOT :: enclosed 2 operand operand.body
  | .unaryOp .neg operand => .op .sub :: enclosed 6 operand operand.body
  | .unaryOp .isNull operand => enclosed 4 operand operand.body ++ [.keyword .IS, .nullLit]
  | .unaryOp .isNotNull operand => enclosed 4 operand operand.body ++ [.keyword .IS, .keyword .NOT, .nullLit]
  | _ => []

def Expr.spell (level : ℕ) (e : Expr X) : List (Lexeme X) := enclosed level e e.body

def Expr.Writable : Expr X → Prop
  | .literal .none | .literal (.bool _) | .literal (.str _) | .columnRef _ _ => True
  | .literal (.int n) => 0 ≤ n
  | .binaryOp _ left right => left.Writable ∧ right.Writable
  | .unaryOp _ operand => operand.Writable
  | _ => False

def Expr.size : Expr X → ℕ
  | .binaryOp _ left right => left.size + right.size + 1
  | .unaryOp _ operand => operand.size + 1
  | _ => 1

def goesOn : Lexeme X → Option ℕ
  | .dot => some 7
  | .op .mul | .op .div => some 5
  | .op .add | .op .sub => some 4
  | .op _ | .keyword .IS => some 3
  | .keyword .AND => some 1
  | .keyword .OR => some 0
  | _ => none

/-- Tokens that no level from `level` up goes on with. -/
def Stops (level : ℕ) : List (Token X) → Prop
  | [] => False
  | tok :: _ => ∀ k, goesOn tok.lexeme = some k → k < level

def beginsAt : Lexeme X → ℕ
  | .keyword .NOT => 2
  | .op .sub => 6
  | _ => 7

def Begins (level : ℕ) : List (Lexeme X) → Prop
  | [] => False
  | first :: _ => level ≤ beginsAt first

theorem isKeyword_iff {lexeme : Lexeme X} : lexeme.isKeyword keyword = true ↔ lexeme = .keyword keyword := by
  cases lexeme <;> simp [Lexeme.isKeyword]

theorem matchKeyword_here (here : tok.lexeme = .keyword keyword) :
    matchKeyword keyword (tok :: tokens) = .ok (true, tokens) := by
  show (if tok.lexeme.isKeyword keyword then _ else _ : SqlParser X Bool) _ = _
  rw [if_pos (isKeyword_iff.mpr here)]
  rfl

theorem matchKeyword_other (other : tok.lexeme ≠ .keyword keyword) :
    matchKeyword keyword (tok :: tokens) = .ok (false, tok :: tokens) := by
  show (if tok.lexeme.isKeyword keyword then _ else _ : SqlParser X Bool) _ = _
  rw [if_neg (mt isKeyword_iff.mp other)]
  rfl

theorem matchKind_here (here : tok.lexeme.kind = kind) : matchKind kind (tok :: tokens) = .ok (true, tokens) := by
  show (if tok.lexeme.kind = kind then _ else _ : SqlParser X Bool) _ = _
  rw [if_pos here]
  rfl

theorem matchKind_other (other : tok.lexeme.kind ≠ kind) :
    matchKind kind (tok :: tokens) = .ok (false, tok :: tokens) := by
  show (if tok.lexeme.kind = kind then _ else _ : SqlParser X Bool) _ = _
  rw [if_neg other]
  rfl

theorem matchNull_here (here : tok.lexeme = .nullLit) : matchNull (tok :: tokens) = .ok (true, tokens) := by
  show (if tok.lexeme.kind = .NULL_LIT ∨ tok.lexeme.isKeyword .NULL = true then _ else _ : SqlParser X Bool) _ = _
  rw [if_pos (.inl (by rw [here]; rfl))]
  rfl

theorem matchOpIn_here {op : Op} {binary : BinOp} (here : tok.lexeme = .op op)
    (known : ops op = some binary) : matchOpIn ops (tok :: tokens) = .ok (some binary, tokens) := by
  have first : (peek : SqlParser X (Token X)) (tok :: tokens) = .ok (tok, tok :: tokens) := rfl
  rw [matchOpIn, bind_of_ok first, here]
  dsimp only
  rw [known]
  rfl

theorem matchOpIn_other (other : ∀ op, tok.lexeme = .op op → ops op = none) :
    matchOpIn ops (tok :: tokens) = .ok (none, tok :: tokens) := by
  have first : (peek : SqlParser X (Token X)) (tok :: tokens) = .ok (tok, tok :: tokens) := rfl
  rw [matchOpIn, bind_of_ok first]
  cases here : tok.lexeme with
  | op op =>
    dsimp only
    rw [other op here]
    rfl
  | _ => rfl

theorem Stops.mono (stops : Stops low tokens) (le : low ≤ high) : Stops high tokens := by
  cases tokens with
  | nil => exact stops
  | cons tok tokens => exact fun k goes => (stops k goes).trans_le le

theorem Begins.mono (begins : Begins high lexemes) (le : low ≤ high) : Begins low lexemes := by
  cases lexemes with
  | nil => exact begins
  | cons first rest => exact le.trans begins

theorem Begins.append {level : ℕ} (begins : Begins level lexemes)
    (more : List (Lexeme X)) : Begins level (lexemes ++ more) := by
  cases lexemes with
  | nil => exact begins.elim
  | cons first rest => exact begins

theorem begins_enclosed {e : Expr X} (begins : Begins e.level lexemes) {level : ℕ}
    (top : level ≤ 7) : Begins level (enclosed level e lexemes) := by
  rw [enclosed]
  split
  case isTrue => exact top
  case isFalse high => exact begins.mono (Nat.not_lt.mp high)

theorem level_le (op : BinOp) : op.level ≤ 5 := by
  cases op with
  | arith op => cases op <;> decide
  | and | or | eq | ne | order => simp [BinOp.level]

theorem level_le_leftLevel (op : BinOp) : op.level ≤ op.leftLevel ∧ op.leftLevel ≤ 7 := by
  have := level_le op
  rw [BinOp.leftLevel]
  split <;> omega

theorem goesOn_lexeme (op : BinOp) : goesOn (op.lexeme : Lexeme X) = some op.level := by
  cases op with
  | arith op | order op => cases op <;> rfl
  | and | or | eq | ne => rfl

theorem stops_operator (here : tok.lexeme = op.lexeme) :
    Stops (op.level + 1) (tok :: rest) := by
  intro k goes
  rw [here, goesOn_lexeme] at goes
  exact Nat.lt_succ_of_le (Option.some.inj goes).ge

theorem stops_is (here : tok.lexeme = .keyword .IS) : Stops 4 (tok :: rest) := by
  intro k goes
  rw [here] at goes
  exact Nat.lt_succ_of_le (Option.some.inj goes).ge

theorem exists_single {lexeme : Lexeme X} (spelled : tokens.map Token.lexeme = [lexeme]) :
    ∃ tok, tokens = [tok] ∧ tok.lexeme = lexeme := by
  obtain ⟨tok, none, rfl, here, noMore⟩ := map_eq_cons_iff.mp spelled
  exact ⟨tok, by rw [map_eq_nil_iff.mp noMore], here⟩

theorem size_pos (e : Expr X) : 0 < e.size := by cases e <;> simp [Expr.size]

theorem length_le_enclosed (level : ℕ) (e : Expr X) (lexemes : List (Lexeme X)) :
    lexemes.length ≤ (enclosed level e lexemes).length := by
  rw [enclosed]
  split <;> simp
  omega

theorem size_le_length (e : Expr X) (writable : e.Writable) : e.size ≤ e.body.length := by
  induction e with
  | literal => exact le_refl 1
  | columnRef name table => cases table <;> simp [Expr.size, Expr.body]
  | binaryOp op left right ihl ihr =>
    have lefts := (ihl writable.1).trans (length_le_enclosed op.leftLevel left _)
    have rights := (ihr writable.2).trans (length_le_enclosed (op.level + 1) right _)
    simp only [Expr.size, Expr.body, length_append, length_cons]
    omega
  | unaryOp op operand ih =>
    have longer := fun level => (ih writable).trans (length_le_enclosed level operand _)
    cases op <;> simp only [Expr.size, Expr.body, length_append, length_cons] <;> have := longer 2 <;>
      have := longer 4 <;> have := longer 6 <;> omega
  | typedLiteral | aggregate => exact writable.elim

theorem begins_body {e : Expr X} (writable : e.Writable) : Begins e.level e.body := by
  induction e with
  | literal value => cases value <;> first | exact writable.elim | exact le_refl 7
  | columnRef name table => cases table <;> exact le_refl 7
  | binaryOp op left right ihl ihr =>
    have first := begins_enclosed (ihl writable.1) (level_le_leftLevel op).2
    exact (first.mono (level_le_leftLevel op).1).append _
  | unaryOp op operand ih =>
    cases op with
    | not => exact le_refl 2
    | neg => exact le_refl 6
    | isNull | isNotNull =>
      have first : Begins 4 _ := begins_enclosed (ih writable) (by decide)
      exact (first.mono (by decide : 3 ≤ 4)).append _
  | typedLiteral | aggregate => exact writable.elim

def Grouping (k : ℕ) : Prop := k = 0 ∨ k = 1 ∨ k = 4 ∨ k = 5

def operatorAt : ℕ → SqlParser X (Option BinOp)
  | 0 => matchConnective .OR .or
  | 1 => matchConnective .AND .and
  | 4 => matchOpIn additiveOps
  | _ => matchOpIn multiplicativeOps

theorem operatorAt_here (grouping : Grouping op.level)
    (here : tok.lexeme = op.lexeme) : operatorAt op.level (tok :: rest) = .ok (some op, rest) := by
  cases op with
  | and | or => exact bind_of_ok (matchKeyword_here here)
  | arith op => cases op <;> exact matchOpIn_here here rfl
  | eq | ne | order => simp [Grouping, BinOp.level] at grouping

theorem operatorAt_other (grouping : Grouping k)
    (other : goesOn tok.lexeme ≠ some k) : operatorAt k (tok :: rest) = .ok (none, tok :: rest) := by
  rcases grouping with rfl | rfl | rfl | rfl
  · exact bind_of_ok (matchKeyword_other fun here => other (by rw [here]; rfl))
  · exact bind_of_ok (matchKeyword_other fun here => other (by rw [here]; rfl))
  all_goals
    refine matchOpIn_other fun op here => ?_
    rw [here] at other
    cases op <;> first | rfl | exact (other rfl).elim

/-- A parser takes the lexemes of an expression and leaves a rest that a level stops at. -/
def Takes (p : SqlParser X (Expr X)) (level : ℕ) (e : Expr X) (lexemes : List (Lexeme X)) : Prop :=
  ∀ tokens rest, tokens.map Token.lexeme = lexemes → Stops level rest → p (tokens ++ rest) = .ok (e, rest)

theorem not_of_begins {lexeme : Lexeme X} (high : 3 ≤ beginsAt lexeme) : lexeme ≠ .keyword .NOT := by
  rintro rfl
  exact absurd high (Nat.not_succ_le_self 2)

theorem sub_of_begins {lexeme : Lexeme X} (high : 7 ≤ beginsAt lexeme) : lexeme ≠ .op .sub := by
  rintro rfl
  exact absurd high (Nat.not_succ_le_self 6)

theorem expr_level_le (e : Expr X) : e.level ≤ 7 := by
  cases e with
  | binaryOp op left right => exact (level_le op).trans (by decide)
  | unaryOp op operand => cases op <;> simp [Expr.level]
  | _ => exact le_refl 7

theorem comparisonOps_lexeme (level : op.level = 3) :
    ∃ symbol, (op.lexeme : Lexeme X) = .op symbol ∧ comparisonOps symbol = some op := by
  cases op with
  | eq => exact ⟨.eq, rfl, rfl⟩
  | ne => exact ⟨.ne, rfl, rfl⟩
  | order op =>
    cases op with
    | lt => exact ⟨.lt, rfl, rfl⟩
    | le => exact ⟨.le, rfl, rfl⟩
    | gt => exact ⟨.gt, rfl, rfl⟩
    | ge => exact ⟨.ge, rfl, rfl⟩
  | and | or => cases level
  | arith op => cases op <;> cases level

variable [Runtime X] [IsoFormat X] {inner : SqlParser X (Expr X)} {e : Expr X} {turns : ℕ}

def ladder (inner : SqlParser X (Expr X)) : ℕ → SqlParser X (Expr X)
  | 0 => parseOr inner
  | 1 => parseAnd inner
  | 2 => parseNot inner
  | 3 => parseComparison inner
  | 4 => parseAdditive inner
  | 5 => parseMultiplicative inner
  | 6 => parseUnary inner
  | _ => parsePrimary inner

def Reads (inner : SqlParser X (Expr X)) (level : ℕ) (e : Expr X) (lexemes : List (Lexeme X)) : Prop :=
  Takes (ladder inner level) level e lexemes

def turnAt (inner : SqlParser X (Expr X)) (k : ℕ) (left : Expr X) : SqlParser X (Option (Expr X)) := do
  match ← operatorAt k with
  | some op => return some (.binaryOp op left (← ladder inner (k + 1)))
  | none => return none

theorem ladder_grouping (grouping : Grouping k) :
    ladder inner k = ladder inner (k + 1) >>= Parser.loop stuck (turnAt inner k) := by
  rcases grouping with rfl | rfl | rfl | rfl <;> rfl

theorem turnAt_stop (grouping : Grouping k) (stops : Stops k rest) :
    turnAt inner k left rest = .ok (none, rest) := by
  cases rest with
  | nil => exact stops.elim
  | cons tok rest =>
    exact bind_of_ok (operatorAt_other grouping fun goes => lt_irrefl k (stops k goes))

/-- A level that groups has come to an expression; it has turns left for all of the rest. -/
def Groups (inner : SqlParser X (Expr X)) (k : ℕ) (e : Expr X) (lexemes : List (Lexeme X)) : Prop :=
  ∀ tokens rest, tokens.map Token.lexeme = lexemes → Stops (k + 1) rest →
    ∃ turns, ladder inner k (tokens ++ rest) =
      iterate stuck (turnAt inner k) (rest.length + turns + 1) e rest

theorem Reads.groups (grouping : Grouping k)
    (reads : Reads inner (k + 1) e lexemes) : Groups inner k e lexemes := by
  intro tokens rest spelled stops
  refine ⟨0, ?_⟩
  rw [ladder_grouping grouping, bind_of_ok (reads tokens rest spelled stops)]
  rfl

theorem Groups.binaryOp {lefts rights : List (Lexeme X)}
    (grouping : Grouping op.level) (groups : Groups inner op.level left lefts)
    (reads : Reads inner (op.level + 1) right rights) :
    Groups inner op.level (.binaryOp op left right) (lefts ++ op.lexeme :: rights) := by
  intro tokens rest spelled stops
  obtain ⟨before, after, rfl, beforeSpelled, afterSpelled⟩ := map_eq_append_iff.mp spelled
  obtain ⟨tok, after, rfl, here, afterSpelled⟩ := map_eq_cons_iff.mp afterSpelled
  obtain ⟨turns, come⟩ := groups before (tok :: after ++ rest) beforeSpelled (stops_operator here)
  have turn : turnAt inner op.level left (tok :: after ++ rest) = .ok (some (.binaryOp op left right), rest) := by
    rw [turnAt, cons_append, bind_of_ok (operatorAt_here grouping here)]
    exact bind_of_ok (reads after rest afterSpelled stops)
  refine ⟨after.length + turns, ?_⟩
  rw [append_assoc, come, iterate_go turn]
  congr 1
  simp only [cons_append, length_cons, length_append]
  omega

theorem Groups.reads (grouping : Grouping k)
    (groups : Groups inner k e lexemes) : Reads inner k e lexemes := by
  intro tokens rest spelled stops
  obtain ⟨turns, come⟩ := groups tokens rest spelled (stops.mono (Nat.le_succ k))
  rw [come]
  exact iterate_stop (turnAt_stop grouping stops)

theorem parsePrimary_ident {name : String} (here : tok.lexeme = .ident name) :
    parsePrimary inner (tok :: tokens) = parseColumn name tokens := by
  refine (bind_of_ok (rfl : peek (tok :: tokens) = .ok (tok, _))).trans ?_
  rw [here]
  rfl

theorem parsePrimary_lparen (here : tok.lexeme = .lparen) :
    parsePrimary inner (tok :: tokens) = (inner >>= fun e => expectKind .RPAREN >>= fun _ => pure e) tokens := by
  refine (bind_of_ok (rfl : peek (tok :: tokens) = .ok (tok, _))).trans ?_
  rw [here]
  rfl

theorem parseUnaryFrom_sub (here : tok.lexeme = .op .sub) :
    parseUnaryFrom inner (turns + 1) (tok :: tokens) =
      (parseUnaryFrom inner turns >>= fun e => pure (.unaryOp .neg e)) tokens := by
  refine (bind_of_ok (rfl : peek (tok :: tokens) = .ok (tok, _))).trans ?_
  rw [here]
  rfl

theorem parseUnaryFrom_other (other : tok.lexeme ≠ .op .sub) :
    parseUnaryFrom inner (turns + 1) (tok :: tokens) = parsePrimary inner (tok :: tokens) := by
  refine (bind_of_ok (rfl : peek (tok :: tokens) = .ok (tok, _))).trans ?_
  cases here : tok.lexeme with
  | op op => cases op <;> first | rfl | exact (other here).elim
  | _ => rfl

theorem parseNotFrom_other (other : tok.lexeme ≠ .keyword .NOT) :
    parseNotFrom inner (turns + 1) (tok :: tokens) = parseComparison inner (tok :: tokens) :=
  bind_of_ok (matchKeyword_other other)

theorem ladder_lower
    (run : ladder inner (k + 1) tokens = .ok (e, rest)) (begins : Begins (k + 1) (tokens.map Token.lexeme))
    (stops : Stops k rest) (below : k < 7) : ladder inner k tokens = .ok (e, rest) := by
  obtain ⟨first, more, rfl⟩ : ∃ first more, tokens = first :: more := by
    cases tokens with
    | nil => exact begins.elim
    | cons first more => exact ⟨first, more, rfl⟩
  obtain ⟨stop, after, rfl⟩ : ∃ stop after, rest = stop :: after := by
    cases rest with
    | nil => exact stops.elim
    | cons stop after => exact ⟨stop, after, rfl⟩
  have high : k + 1 ≤ beginsAt first.lexeme := begins
  match k, below with
  | 0, _ | 1, _ | 4, _ | 5, _ =>
    rw [ladder_grouping (by simp [Grouping]), bind_of_ok run]
    exact iterate_stop (turnAt_stop (by simp [Grouping]) stops)
  | 2, _ => exact (parseNotFrom_other (not_of_begins high)).trans run
  | 3, _ =>
    have notIs : stop.lexeme ≠ .keyword .IS := fun here => lt_irrefl 3 (stops 3 (by rw [here]; rfl))
    have notOp : ∀ op, stop.lexeme = .op op → comparisonOps op = none := by
      intro op here
      cases op <;> first | rfl | exact (lt_irrefl 3 (stops 3 (by rw [here]; rfl))).elim
    refine (bind_of_ok run).trans ?_
    refine (bind_of_ok (matchKeyword_other notIs)).trans ?_
    exact bind_of_ok (matchOpIn_other notOp)
  | 6, _ => exact (parseUnaryFrom_other (sub_of_begins high)).trans run

theorem Reads.lower (reads : Reads inner (k + 1) e lexemes)
    (begins : Begins (k + 1) lexemes) (below : k < 7) : Reads inner k e lexemes := by
  intro tokens rest spelled stops
  have run := reads tokens rest spelled (stops.mono (Nat.le_succ k))
  refine ladder_lower run ?_ stops below
  rw [map_append, spelled]
  exact begins.append _

theorem Reads.down (reads : Reads inner high e lexemes)
    (begins : Begins high lexemes) (top : high ≤ 7) (le : low ≤ high) : Reads inner low e lexemes := by
  induction le using Nat.decreasingInduction with
  | of_succ k le ih => exact ih.lower (begins.mono le) (by omega)
  | self => exact reads

theorem reads_parens (within : Takes inner 0 e lexemes) :
    Reads inner 7 e (.lparen :: (lexemes ++ [.rparen])) := by
  intro tokens rest spelled stops
  obtain ⟨opening, enclosedTokens, rfl, isOpening, enclosedSpelled⟩ := map_eq_cons_iff.mp spelled
  obtain ⟨tokens, last, rfl, bodySpelled, closed⟩ := map_eq_append_iff.mp enclosedSpelled
  obtain ⟨closing, rfl, isClosing⟩ := exists_single closed
  have stop : Stops 0 (closing :: rest) := by
    intro k goes
    rw [isClosing] at goes
    cases goes
  have expected : expectKind .RPAREN (closing :: rest) = .ok (closing, rest) := by
    show (if closing.lexeme.kind = .RPAREN then advance else _ : SqlParser X (Token X)) _ = _
    rw [isClosing]
    rfl
  have inside := within tokens (closing :: rest) bodySpelled stop
  rw [cons_append, append_assoc, singleton_append]
  exact (parsePrimary_lparen isOpening).trans ((bind_of_ok inside).trans (bind_of_ok expected))

/-- An expression is read where it was written without parentheses. -/
structure Own (inner : SqlParser X (Expr X)) (e : Expr X) : Prop where
  reads : Reads inner e.level e e.body
  groups : Grouping e.level → Groups inner e.level e e.body

/-- An expression is read at every place, with parentheses where the place asks for them. -/
structure Placed (inner : SqlParser X (Expr X)) (e : Expr X) : Prop where
  reads : ∀ level ≤ 7, Reads inner level e (e.spell level)
  groups : ∀ k, Grouping k → Groups inner k e (e.spell k)

theorem Own.placed (own : Own inner e) (writable : e.Writable)
    (within : Takes inner 0 e e.body) : Placed inner e := by
  have bare : ∀ level ≤ e.level, Reads inner level e e.body :=
    fun level le => own.reads.down (begins_body writable) (expr_level_le e) le
  have parens : ∀ level ≤ 7, Reads inner level e (.lparen :: (e.body ++ [.rparen])) :=
    fun level le => (reads_parens within).down (le_refl 7) (le_refl 7) le
  refine ⟨fun level top => ?_, fun k grouping => ?_⟩
  · rw [Expr.spell, enclosed]
    split
    case isTrue => exact parens level top
    case isFalse high => exact bare level (Nat.not_lt.mp high)
  · rw [Expr.spell, enclosed]
    split
    case isTrue =>
      have top : k + 1 ≤ 7 := by rcases grouping with rfl | rfl | rfl | rfl <;> decide
      exact (parens (k + 1) top).groups grouping
    case isFalse high =>
      rcases (Nat.not_lt.mp high).eq_or_lt with rfl | above
      · exact own.groups grouping
      · exact (bare (k + 1) above).groups grouping

theorem own_literal {value : Value X} (writable : (Expr.literal value).Writable) : Own inner (.literal value) := by
  refine ⟨fun tokens rest spelled _ => ?_, fun grouping => by simp [Grouping, Expr.level] at grouping⟩
  obtain ⟨tok, rfl, here⟩ := exists_single spelled
  refine (bind_of_ok (rfl : peek (tok :: ([] ++ rest)) = .ok (tok, _))).trans ?_
  rw [here]
  cases value <;> first | exact writable.elim | rfl

theorem own_columnRef (name : String) (table : Option String) : Own inner (.columnRef name table) := by
  refine ⟨fun tokens rest spelled stops => ?_, fun grouping => by simp [Grouping, Expr.level] at grouping⟩
  cases table with
  | none =>
    obtain ⟨tok, rfl, here⟩ := exists_single spelled
    cases rest with
    | nil => exact stops.elim
    | cons stop rest =>
      have other : stop.lexeme.kind ≠ .DOT := by
        intro isDot
        cases dot : stop.lexeme <;> rw [dot] at isDot <;> cases isDot
        exact lt_irrefl 7 (stops 7 (by rw [dot]; rfl))
      exact (parsePrimary_ident here).trans (bind_of_ok (matchKind_other other))
  | some table =>
    obtain ⟨qualifier, tokens, rfl, isTable, spelled⟩ := map_eq_cons_iff.mp spelled
    obtain ⟨dot, tokens, rfl, isDot, spelled⟩ := map_eq_cons_iff.mp spelled
    obtain ⟨column, rfl, isColumn⟩ := exists_single spelled
    have dotted : dot.lexeme.kind = .DOT := by
      rw [isDot]
      rfl
    refine (parsePrimary_ident isTable).trans ?_
    refine (bind_of_ok (matchKind_here dotted)).trans ?_
    refine (bind_of_ok (rfl : peek (column :: ([] ++ rest)) = .ok (column, _))).trans ?_
    rw [isColumn]
    rfl

theorem own_comparison (level : op.level = 3) (leftPlaced : Placed inner left)
    (rightPlaced : Placed inner right) : Own inner (.binaryOp op left right) := by
  have leftLevel : op.leftLevel = 4 := if_pos level
  refine ⟨fun tokens rest spelled stops => ?_, fun grouping => by simp [Grouping, Expr.level, level] at grouping⟩
  rw [Expr.body, leftLevel, level] at spelled
  simp only [Expr.level, level] at stops ⊢
  obtain ⟨before, after, rfl, beforeSpelled, afterSpelled⟩ := map_eq_append_iff.mp spelled
  obtain ⟨tok, after, rfl, here, afterSpelled⟩ := map_eq_cons_iff.mp afterSpelled
  obtain ⟨symbol, isSymbol, known⟩ := comparisonOps_lexeme (X := X) level
  have stop : Stops 4 (tok :: (after ++ rest)) := (stops_operator here).mono (by rw [level])
  have notIs : tok.lexeme ≠ .keyword .IS := by
    rw [here, isSymbol]
    exact fun same => nomatch same
  rw [append_assoc]
  refine (bind_of_ok (leftPlaced.reads 4 (by decide) before _ beforeSpelled stop)).trans ?_
  refine (bind_of_ok (matchKeyword_other notIs)).trans ?_
  refine (bind_of_ok (matchOpIn_here (here.trans isSymbol) known)).trans ?_
  exact bind_of_ok (rightPlaced.reads 4 (by decide) after rest afterSpelled (stops.mono (by decide)))

theorem own_grouped (level : op.level ≠ 3) (leftPlaced : Placed inner left)
    (rightPlaced : Placed inner right) : Own inner (.binaryOp op left right) := by
  have grouping : Grouping op.level := by
    cases op with
    | arith op => cases op <;> simp [Grouping, BinOp.level]
    | and | or => simp [Grouping, BinOp.level]
    | eq | ne | order => exact (level rfl).elim
  have leftLevel : op.leftLevel = op.level := if_neg level
  have groups : Groups inner op.level (.binaryOp op left right) (Expr.binaryOp op left right).body := by
    rw [Expr.body, leftLevel]
    exact (leftPlaced.groups _ grouping).binaryOp grouping (rightPlaced.reads _ ((level_le op).trans_lt (by decide)))
  exact ⟨groups.reads grouping, fun _ => groups⟩

theorem own_unaryOp {op : UnOp} {operand : Expr X} (placed : Placed inner operand) :
    Own inner (.unaryOp op operand) := by
  refine ⟨fun tokens rest spelled stops => ?_,
    fun grouping => by cases op <;> simp [Grouping, Expr.level] at grouping⟩
  cases op with
  | not =>
    obtain ⟨tok, tokens, rfl, here, spelled⟩ := map_eq_cons_iff.mp spelled
    refine (bind_of_ok (matchKeyword_here here)).trans ?_
    exact bind_of_ok (placed.reads 2 (by decide) tokens rest spelled stops)
  | neg =>
    obtain ⟨tok, tokens, rfl, here, spelled⟩ := map_eq_cons_iff.mp spelled
    refine (parseUnaryFrom_sub here).trans ?_
    exact bind_of_ok (placed.reads 6 (by decide) tokens rest spelled stops)
  | isNull =>
    obtain ⟨before, after, rfl, beforeSpelled, afterSpelled⟩ := map_eq_append_iff.mp spelled
    obtain ⟨is, after, rfl, isIs, afterSpelled⟩ := map_eq_cons_iff.mp afterSpelled
    obtain ⟨null, rfl, isNull⟩ := exists_single afterSpelled
    rw [append_assoc]
    refine (bind_of_ok (placed.reads 4 (by decide) before _ beforeSpelled (stops_is isIs))).trans ?_
    refine (bind_of_ok (matchKeyword_here isIs)).trans ?_
    refine (bind_of_ok (matchKeyword_other (by rw [isNull]; exact fun same => nomatch same))).trans ?_
    exact bind_of_ok (matchNull_here isNull)
  | isNotNull =>
    obtain ⟨before, after, rfl, beforeSpelled, afterSpelled⟩ := map_eq_append_iff.mp spelled
    obtain ⟨is, after, rfl, isIs, afterSpelled⟩ := map_eq_cons_iff.mp afterSpelled
    obtain ⟨not, after, rfl, isNot, afterSpelled⟩ := map_eq_cons_iff.mp afterSpelled
    obtain ⟨null, rfl, isNull⟩ := exists_single afterSpelled
    rw [append_assoc]
    refine (bind_of_ok (placed.reads 4 (by decide) before _ beforeSpelled (stops_is isIs))).trans ?_
    refine (bind_of_ok (matchKeyword_here isIs)).trans ?_
    refine (bind_of_ok (matchKeyword_here isNot)).trans ?_
    exact bind_of_ok (matchNull_here isNull)

theorem own_of_within {n : ℕ} (within : ∀ e : Expr X, e.Writable → e.size < n → Takes inner 0 e e.body)
    (e : Expr X) (writable : e.Writable) (small : e.size ≤ n) : Own inner e := by
  induction e with
  | literal value => exact own_literal writable
  | columnRef name table => exact own_columnRef name table
  | binaryOp op left right ihl ihr =>
    obtain ⟨leftWritable, rightWritable⟩ := writable
    simp only [Expr.size] at small
    have leftPlaced := (ihl leftWritable (by omega)).placed leftWritable (within left leftWritable (by omega))
    have rightPlaced := (ihr rightWritable (by omega)).placed rightWritable (within right rightWritable (by omega))
    by_cases level : op.level = 3
    · exact own_comparison level leftPlaced rightPlaced
    · exact own_grouped level leftPlaced rightPlaced
  | unaryOp op operand ih =>
    simp only [Expr.size] at small
    exact own_unaryOp ((ih writable (by omega)).placed writable (within operand writable (by omega)))
  | typedLiteral | aggregate => exact writable.elim

theorem parseExprFrom_takes (depth : ℕ) (e : Expr X) (writable : e.Writable) (small : e.size ≤ depth) :
    Takes (parseExprFrom depth) 0 e e.body := by
  induction depth generalizing e with
  | zero => exact absurd small (Nat.not_le.mpr (size_pos e))
  | succ depth ih =>
    have own : Own (parseExprFrom depth) e :=
      own_of_within (fun e writable smaller => ih e writable (Nat.le_of_lt_succ smaller)) e writable small
    exact own.reads.down (begins_body writable) (expr_level_le e) (Nat.zero_le _)

/-- `parse_expr` of a list of tokens: all of them but EOF belong to the expression. -/
def parseExprTokens (tokens : List (Token X)) : Except Exc (Expr X) := do
  let (e, rest) ← parseExpr tokens
  let (tok, _) ← peek rest
  if tok.lexeme.kind = .EOF then return e
  else throw (parseError tok.position ("unexpected trailing token " ++ tok.shown))

/-- An expression is parsed back from its tokens, and all of them are taken. -/
theorem parse_expr_spell (e : Expr X) (writable : e.Writable) (tokens : List (Token X))
    (spelled : tokens.map Token.lexeme = e.spell 0) (last : Token X) (ends : last.lexeme = .eof) :
    parseExpr (tokens ++ [last]) = .ok (e, [last]) ∧ parseExprTokens (tokens ++ [last]) = .ok e := by
  have body : tokens.map Token.lexeme = e.body := spelled
  have stops : Stops 0 [last] := by
    intro k goes
    rw [ends] at goes
    cases goes
  have depth : e.size ≤ (tokens ++ [last]).length + 1 := by
    have := size_le_length e writable
    rw [← body, length_map] at this
    rw [length_append]
    omega
  have read : parseExpr (tokens ++ [last]) = .ok (e, [last]) :=
    parseExprFrom_takes _ e writable depth tokens [last] body stops
  refine ⟨read, ?_⟩
  rw [parseExprTokens, read]
  show (if last.lexeme.kind = .EOF then pure e else _ : Except Exc (Expr X)) = _
  rw [ends]
  rfl

/-- `NOT t.x - (y - 1) = 'a' OR -(2 + z) * 3 IS NOT NULL`. -/
def mixedExpr : Expr Unit :=
  .binaryOp .or (.unaryOp .not (.binaryOp .eq
      (.binaryOp (.arith .sub) (.columnRef "x" (some "t"))
        (.binaryOp (.arith .sub) (.columnRef "y" none) (.literal (.int 1))))
      (.literal (.str "a"))))
    (.unaryOp .isNotNull (.binaryOp (.arith .mul)
      (.unaryOp .neg (.binaryOp (.arith .add) (.literal (.int 2)) (.columnRef "z" none))) (.literal (.int 3))))

def mixedLexemes : List (Lexeme Unit) :=
  [.keyword .NOT, .ident "t", .dot, .ident "x", .op .sub, .lparen, .ident "y", .op .sub, .intLit 1, .rparen, .op .eq,
    .stringLit "a", .keyword .OR, .op .sub, .lparen, .intLit 2, .op .add, .ident "z", .rparen, .op .mul, .intLit 3,
    .keyword .IS, .keyword .NOT, .nullLit]

def mixedTokens : List (Token Unit) := mixedLexemes.map (⟨·, ⟨1, 1⟩⟩)

theorem parse_expr_spell_mixed : mixedExpr.spell 0 = mixedLexemes ∧
    parseExpr (mixedTokens ++ [⟨.eof, ⟨1, 1⟩⟩]) = .ok (mixedExpr, [⟨.eof, ⟨1, 1⟩⟩]) := by
  have writable : mixedExpr.Writable := by simp [mixedExpr, Expr.Writable]
  exact ⟨rfl, (parse_expr_spell mixedExpr writable mixedTokens rfl ⟨.eof, ⟨1, 1⟩⟩ rfl).1⟩

end Tinydb.Sql
