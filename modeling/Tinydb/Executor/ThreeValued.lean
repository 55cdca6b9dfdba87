import Tinydb.Executor.EvalExpr
import Tinydb.Lib.Kleene

/-! WHERE against SQL's three-valued logic.

`sqlExpr` is the standard's meaning of an expression, with NULL for UNKNOWN. The
evaluator has no UNKNOWN of its own: it reads an equality with NULL as true or as
false, the NOT of an UNKNOWN as true, and the operators above read that on.
-/

namespace Tinydb.Executor

open Lib Tinydb.Types Sql

variable {X : Type} [Runtime X] {value a b : Value X} {index : NameIdx} {row : Row X}
  {l r e : Expr X}

def truth (value : Value X) : Option Bool := if value.isNone then none else some value.truthy

def ofTruth : Option Bool → Value X
  | none => .none
  | some b => .bool b

/-- What SQL makes of two operands; a comparison with NULL is UNKNOWN. -/
def binaryMeaning : BinOp → Value X → Value X → Except Exc (Value X)
  | .and, a, b => .ok (ofTruth (Kleene.and (truth a) (truth b)))
  | .or, a, b => .ok (ofTruth (Kleene.or (truth a) (truth b)))
  | .eq, a, b => strictly a b (.ok (.bool (a.eq b)))
  | .ne, a, b => strictly a b (.ok (.bool !a.eq b))
  | .order op, a, b => strictly a b (do return .bool (← a.order op b))
  | .arith op, a, b => strictly a b (a.arith op b)

def unaryMeaning : UnOp → Value X → Except Exc (Value X)
  | .isNull, a => .ok (.bool a.isNone)
  | .isNotNull, a => .ok (.bool !a.isNone)
  | .not, a => .ok (ofTruth (Kleene.not (truth a)))
  | .neg, _ => .error ⟨.notImplementedError, "unsupported unary op: '-'"⟩

/-- The value of an expression in SQL. -/
def sqlExpr (index : NameIdx) (row : Row X) : Expr X → Except Exc (Value X)
  | .literal value => .ok value
  | .typedLiteral _ value => .ok value
  | .columnRef name table => evalColumn index row name table
  | .binaryOp op left right => do binaryMeaning op (← sqlExpr index row left) (← sqlExpr index row right)
  | .unaryOp op operand => do unaryMeaning op (← sqlExpr index row operand)
  | .aggregate func _ => .error ⟨.notImplementedError, "aggregate " ++ func ++ " is not a row value"⟩

def sqlTruth (index : NameIdx) (row : Row X) (e : Expr X) : Option Bool :=
  match sqlExpr index row e with
  | .ok value => truth value
  | .error _ => none

/-- Another way to read two operands: NULL equals NULL and nothing else, AND and OR hand an operand on. -/
def reading : BinOp → Value X → Value X → Except Exc (Value X)
  | .and, a, b => .ok (if a.truthy then b else a)
  | .or, a, b => .ok (if a.truthy then a else b)
  | .eq, a, b => .ok (.bool (sqlEq a b))
  | .ne, a, b => .ok (.bool !sqlEq a b)
  | .order op, a, b => binaryMeaning (.order op) a b
  | .arith op, a, b => binaryMeaning (.arith op) a b

/-- NOT of NULL is read as true. -/
def unaryReading : UnOp → Value X → Except Exc (Value X)
  | .not, a => .ok (.bool !a.truthy)
  | op, a => unaryMeaning op a

/-- Misread as the value, or else never misread and meant so. -/
def TakenFor (misread : Value X → Prop) (meant : Except Exc (Value X)) (value : Value X) : Prop :=
  misread value ∨ meant = .ok value ∧ ∀ other, ¬ misread other

/-- Not `value` in SQL, but what the operator reads in the values its operands are taken for. A column or a literal is
never misread: a misreading starts at an `=`, a `!=`, an AND, an OR or a NOT. -/
def Misread (index : NameIdx) (row : Row X) : Expr X → Value X → Prop
  | .binaryOp op left right, value => sqlExpr index row (.binaryOp op left right) ≠ .ok value ∧
    ∃ a b, TakenFor (Misread index row left) (sqlExpr index row left) a ∧
      TakenFor (Misread index row right) (sqlExpr index row right) b ∧ reading op a b = .ok value
  | .unaryOp op operand, value => sqlExpr index row (.unaryOp op operand) ≠ .ok value ∧
    ∃ a, TakenFor (Misread index row operand) (sqlExpr index row operand) a ∧ unaryReading op a = .ok value
  | _, _ => False

/-- The values other than NULL an expression may have: a column's or literal's own, and both truth values of
a predicate. -/
def candidates (index : NameIdx) (row : Row X) : Expr X → List (Value X)
  | .literal value | .typedLiteral _ value => [value]
  | .columnRef name table => (evalColumn index row name table).toOption.toList
  | .binaryOp .and left right | .binaryOp .or left right =>
    [.bool true, .bool false] ++ candidates index row left ++ candidates index row right
  | _ => [.bool true, .bool false]

/-- The columns exist and no comparison is between values that Python cannot compare. -/
def WellTyped (index : NameIdx) (row : Row X) : Expr X → Prop
  | .literal _ | .typedLiteral _ _ => True
  | .columnRef name table => ∃ value, evalColumn index row name table = .ok value
  | .binaryOp .and left right | .binaryOp .or left right | .binaryOp .eq left right | .binaryOp .ne left right =>
    WellTyped index row left ∧ WellTyped index row right
  | .binaryOp (.order op) left right => WellTyped index row left ∧ WellTyped index row right ∧
    ∀ a ∈ candidates index row left, ∀ b ∈ candidates index row right, a ≠ .none → b ≠ .none → ∃ c, a.order op b = .ok c
  | .unaryOp .not operand | .unaryOp .isNull operand | .unaryOp .isNotNull operand => WellTyped index row operand
  | .binaryOp (.arith _) _ _ | .unaryOp .neg _ | .aggregate _ _ => False

def Expected (index : NameIdx) (row : Row X) (e : Expr X) (value : Value X) : Prop :=
  value = .none ∨ value ∈ candidates index row e

theorem binaryMeaning_order {op : Order} (left : Expected index row l a) (right : Expected index row r b)
    (typed : ∀ a ∈ candidates index row l, ∀ b ∈ candidates index row r, a ≠ .none → b ≠ .none →
      ∃ c, a.order op b = .ok c) :
    ∃ t, binaryMeaning (.order op) a b = .ok (ofTruth t) := by
  rw [binaryMeaning, strictly]
  split_ifs with null
  · exact ⟨none, rfl⟩
  · simp only [Bool.or_eq_true, Value.isNone_iff, not_or] at null
    obtain ⟨c, compared⟩ := typed a (left.resolve_left null.1) b (right.resolve_left null.2) null.1 null.2
    exact ⟨some c, by rw [compared]; rfl⟩

omit [Runtime X] in
theorem strictly_bool (c : Bool) : ∃ t, strictly a b (.ok (.bool c)) = .ok (ofTruth t) := by
  rw [strictly]
  split_ifs
  · exact ⟨none, rfl⟩
  · exact ⟨some c, rfl⟩

omit [Runtime X] in
theorem expected_truth (both : ∀ b : Bool, .bool b ∈ candidates index row e) (t : Option Bool) :
    Expected index row e (ofTruth t) := by
  cases t with
  | none => exact .inl rfl
  | some b => exact .inr (both b)

omit [Runtime X] in
theorem expected_left (left : Expected index row l value) : Expected index row (.binaryOp .and l r) value :=
  left.imp_right fun among => by simp [candidates, among]

omit [Runtime X] in
theorem expected_right (right : Expected index row r value) : Expected index row (.binaryOp .and l r) value :=
  right.imp_right fun among => by simp [candidates, among]

theorem WellTyped.operands {op : BinOp} (typed : WellTyped index row (.binaryOp op l r)) :
    WellTyped index row l ∧ WellTyped index row r := by
  cases op with
  | arith op => exact typed.elim
  | order op => exact ⟨typed.1, typed.2.1⟩
  | and | or | eq | ne => exact typed

theorem WellTyped.operand {op : UnOp} (typed : WellTyped index row (.unaryOp op e)) : WellTyped index row e := by
  cases op with
  | neg => exact typed.elim
  | not | isNull | isNotNull => exact typed

section

variable {op : BinOp} (typed : WellTyped index row (.binaryOp op l r)) (left : Expected index row l a)
  (right : Expected index row r b)
include typed left right

theorem WellTyped.binaryMeaning : ∃ t, binaryMeaning op a b = .ok (ofTruth t) := by
  cases op with
  | arith op => exact typed.elim
  | order op => exact binaryMeaning_order left right typed.2.2
  | eq | ne => exact strictly_bool _
  | and | or => exact ⟨_, rfl⟩

theorem WellTyped.reading : ∃ value, reading op a b = .ok value ∧ Expected index row (.binaryOp op l r) value := by
  cases op with
  | arith op => exact typed.elim
  | order op =>
    obtain ⟨t, compared⟩ := binaryMeaning_order left right typed.2.2
    exact ⟨_, compared, expected_truth (by simp [candidates]) t⟩
  | eq | ne => exact ⟨_, rfl, expected_truth (by simp [candidates]) (some _)⟩
  | and | or =>
    refine ⟨_, rfl, ?_⟩
    split_ifs
    all_goals first | exact expected_left left | exact expected_right right

end

theorem evalExpr_binary (op : BinOp) (left : evalExpr index row l = .ok a) (right : evalExpr index row r = .ok b) :
    evalExpr index row (.binaryOp op l r) = reading op a b := by
  cases op with
  | and | or =>
    rw [evalExpr, left, reading, apply_ite Except.ok, ← right]
    rfl
  | eq | ne | order op | arith op =>
    rw [evalExpr, left, right]
    rfl

theorem evalExpr_unary (op : UnOp) (operand : evalExpr index row e = .ok a) :
    evalExpr index row (.unaryOp op e) = unaryReading op a := by
  cases op <;> simp only [evalExpr, operand] <;> rfl

theorem sqlExpr_binary (op : BinOp) (left : sqlExpr index row l = .ok a) (right : sqlExpr index row r = .ok b) :
    sqlExpr index row (.binaryOp op l r) = binaryMeaning op a b := by
  rw [sqlExpr, left, right]
  rfl

theorem WellTyped.sql (typed : WellTyped index row e) :
    ∃ value, sqlExpr index row e = .ok value ∧ Expected index row e value := by
  induction e with
  | literal value | typedLiteral tag value => exact ⟨value, rfl, .inr (by simp [candidates])⟩
  | columnRef name table =>
    obtain ⟨value, found⟩ := typed
    exact ⟨value, found, .inr (by simp [candidates, found, Except.toOption])⟩
  | aggregate func column => exact typed.elim
  | unaryOp op operand ih =>
    obtain ⟨a, evaluated, -⟩ := ih typed.operand
    rw [sqlExpr, evaluated]
    cases op with
    | neg => exact typed.elim
    | not => exact ⟨_, rfl, expected_truth (by simp [candidates]) _⟩
    | isNull | isNotNull => exact ⟨_, rfl, expected_truth (by simp [candidates]) (some _)⟩
  | binaryOp op left right ihLeft ihRight =>
    obtain ⟨a, evalLeft, expectedLeft⟩ := ihLeft typed.operands.1
    obtain ⟨b, evalRight, expectedRight⟩ := ihRight typed.operands.2
    obtain ⟨t, meant⟩ := typed.binaryMeaning expectedLeft expectedRight
    refine ⟨_, (sqlExpr_binary op evalLeft evalRight).trans meant, expected_truth (fun c => ?_) t⟩
    cases op <;> cases c <;> simp [candidates]

theorem WellTyped.eval (typed : WellTyped index row e) :
    ∃ value, evalExpr index row e = .ok value ∧ Expected index row e value := by
  induction e with
  | literal value | typedLiteral tag value | columnRef name table => exact typed.sql
  | aggregate func column => exact typed.elim
  | unaryOp op operand ih =>
    obtain ⟨a, evaluated, -⟩ := ih typed.operand
    rw [evalExpr_unary op evaluated]
    cases op with
    | neg => exact typed.elim
    | not | isNull | isNotNull => exact ⟨_, rfl, expected_truth (by simp [candidates]) (some _)⟩
  | binaryOp op left right ihLeft ihRight =>
    obtain ⟨a, evalLeft, expectedLeft⟩ := ihLeft typed.operands.1
    obtain ⟨b, evalRight, expectedRight⟩ := ihRight typed.operands.2
    rw [evalExpr_binary op evalLeft evalRight]
    exact typed.reading expectedLeft expectedRight

theorem takenFor_iff (typed : WellTyped index row e)
    (misread : ∀ v, Misread index row e v ↔ sqlExpr index row e ≠ .ok v ∧ evalExpr index row e = .ok v) :
    TakenFor (Misread index row e) (sqlExpr index row e) value ↔ evalExpr index row e = .ok value := by
  obtain ⟨v, evaluated, -⟩ := typed.eval
  simp only [TakenFor, misread, evaluated, Except.ok.injEq]
  by_cases meant : sqlExpr index row e = .ok v
  · have known (other : Value X) : ¬ (sqlExpr index row e ≠ .ok other ∧ v = other) := by
      rintro ⟨differs, rfl⟩
      exact differs meant
    simp only [known, not_false_iff, implies_true, and_true, false_or]
    rw [meant, Except.ok.injEq]
  · have misreads : ¬ ∀ other, ¬ (sqlExpr index row e ≠ .ok other ∧ v = other) := fun never => never v ⟨meant, rfl⟩
    simp only [misreads, and_false, or_false]
    exact ⟨And.right, fun same => ⟨same ▸ meant, same⟩⟩

/-- A misreading is a value of the evaluator that is not SQL's. -/
theorem WellTyped.misread_iff (typed : WellTyped index row e) (v : Value X) :
    Misread index row e v ↔ sqlExpr index row e ≠ .ok v ∧ evalExpr index row e = .ok v := by
  induction e generalizing v with
  | literal | typedLiteral | columnRef => exact ⟨False.elim, fun both => both.1 both.2⟩
  | aggregate => exact typed.elim
  | unaryOp op operand ih =>
    obtain ⟨a, evaluated, -⟩ := typed.operand.eval
    simp only [Misread, takenFor_iff typed.operand (ih typed.operand), evaluated, evalExpr_unary op evaluated,
      Except.ok.injEq, exists_eq_left']
  | binaryOp op left right ihLeft ihRight =>
    obtain ⟨a, evalLeft, -⟩ := typed.operands.1.eval
    obtain ⟨b, evalRight, -⟩ := typed.operands.2.eval
    simp only [Misread, takenFor_iff typed.operands.1 (ihLeft typed.operands.1),
      takenFor_iff typed.operands.2 (ihRight typed.operands.2), evalLeft, evalRight,
      evalExpr_binary op evalLeft evalRight, Except.ok.injEq, exists_and_left, exists_eq_left']

/-- The test of `Filter`; for a table, `keeps` uses it with the table's columns. -/
def passes (index : NameIdx) (row : Row X) (predicate : Expr X) : Except Exc Bool := do
  return (← evalExpr index row predicate).truthy

theorem truth_eq_true : truth value = some true ↔ value.truthy = true := by
  cases value <;> simp [truth, Value.isNone, Value.truthy]

/-- The positions in a table of one column `x`. -/
def onlyX (name : String) : Option ℕ := if name = "x" then some 0 else none

def belowThree : Expr Unit := .binaryOp (.order .lt) (.columnRef "x" none) (.literal (.int 3))

def belowThreeOrNull : Expr Unit := .binaryOp .or belowThree (.unaryOp .isNull (.columnRef "x" none))

theorem belowThree_typed : WellTyped onlyX [.none] belowThree :=
  ⟨⟨.none, rfl⟩, trivial, by simp [candidates, onlyX, evalColumn, rowAt, Except.toOption]⟩

end Tinydb.Executor
