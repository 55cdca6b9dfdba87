import Tinydb.Server.Placeholders

/-! Parameters of a prepared statement (`org/tinydb/jdbc/TinyPreparedStatement.java`).

The driver counts the placeholders of a statement on its own, over the UTF-16 units of a
Java string. It finds those that the server puts parameters in for.
-/

namespace Tinydb.Jdbc

open Tinydb.Types Sql Server List

def units (c : Char) : List (BitVec 16) :=
  if c.toNat < 0x10000 then [BitVec.ofNat 16 c.toNat]
  else [BitVec.ofNat 16 (0xD800 + (c.toNat - 0x10000) / 0x400), BitVec.ofNat 16 (0xDC00 + (c.toNat - 0x10000) % 0x400)]

def utf16 (text : List Char) : List (BitVec 16) := text.flatMap units

/-- The `char` of a character that has one unit. -/
def unit (c : Char) : BitVec 16 := BitVec.ofNat 16 c.toNat

def countFrom : Bool → List (BitVec 16) → ℕ
  | _, [] => 0
  | true, c :: next :: rest =>
    if c = unit '\'' then
      if next = unit '\'' then countFrom true rest else countFrom false (next :: rest)
    else countFrom true (next :: rest)
  | true, [c] => if c = unit '\'' then countFrom false [] else countFrom true []
  | false, c :: rest =>
    if c = unit '\'' then countFrom true rest
    else if c = unit '?' then countFrom false rest + 1
    else countFrom false rest

def paramCount (sql : String) : ℕ := countFrom false (utf16 sql.toList)

theorem countFrom_quote (inLiteral : Bool) (rest : List (BitVec 16)) :
    countFrom inLiteral (unit '\'' :: rest) = countFrom (!inLiteral) rest := by
  cases inLiteral with
  | false => rw [countFrom, if_pos rfl]; rfl
  | true =>
    cases rest with
    | nil => simp [countFrom]
    | cons next rest =>
      rw [countFrom, if_pos rfl]
      split_ifs with another
      · rw [another, Bool.not_true, countFrom, if_pos rfl]
      · rfl

theorem countFrom_mark (inLiteral : Bool) (rest : List (BitVec 16)) :
    countFrom inLiteral (unit '?' :: rest) = countFrom inLiteral rest + if inLiteral then 0 else 1 := by
  cases inLiteral with
  | false => rw [countFrom, if_neg (by decide), if_pos rfl]; rfl
  | true =>
    cases rest with
    | nil => simp [countFrom]
    | cons next rest => rw [countFrom, if_neg (by decide)]; rfl

theorem countFrom_other {c : BitVec 16} (quote : c ≠ unit '\'') (mark : c ≠ unit '?') (inLiteral : Bool)
    (rest : List (BitVec 16)) : countFrom inLiteral (c :: rest) = countFrom inLiteral rest := by
  cases inLiteral with
  | false => rw [countFrom, if_neg quote, if_neg mark]
  | true =>
    cases rest with
    | nil => simp [countFrom]
    | cons next rest => rw [countFrom, if_neg quote]

theorem ne_of_mem_units {c d : Char} {u : BitVec 16} (small : d.toNat < 128) (other : c ≠ d) (member : u ∈ units c) :
    u ≠ unit d := by
  intro same
  have number : u.toNat = d.toNat := by
    rw [same, unit, BitVec.toNat_ofNat]
    omega
  have bound : c.toNat < 0x110000 := by
    have valid : c.toNat < 0xd800 ∨ 0xdfff < c.toNat ∧ c.toNat < 0x110000 := c.valid
    omega
  rw [units] at member
  split_ifs at member with low
  · rw [mem_singleton.mp member, BitVec.toNat_ofNat] at number
    exact other (Char.toNat_inj.mp (by omega))
  · rcases mem_pair.mp member with rfl | rfl
    · rw [BitVec.toNat_ofNat] at number
      omega
    · rw [BitVec.toNat_ofNat] at number
      omega

theorem countFrom_units {c : Char} (quote : c ≠ '\'') (mark : c ≠ '?') (inLiteral : Bool) (rest : List (BitVec 16)) :
    countFrom inLiteral (units c ++ rest) = countFrom inLiteral rest := by
  have others : ∀ u ∈ units c, u ≠ unit '\'' ∧ u ≠ unit '?' := fun u member =>
    ⟨ne_of_mem_units (by decide) quote member, ne_of_mem_units (by decide) mark member⟩
  revert others
  generalize units c = us
  intro others
  induction us with
  | nil => rfl
  | cons u more ih =>
    obtain ⟨⟨notQuote, notMark⟩, later⟩ := forall_mem_cons.mp others
    rw [cons_append, countFrom_other notQuote notMark, ih later]

variable {X : Type} [Runtime X] [Lexicon X]

def filled (first : List Char) (pieces : List (List Char)) (params : List (Value X)) : List Char :=
  first ++ (zipWith (fun value piece => formatValue value ++ piece) params pieces).flatten

theorem substituteFrom_pieces (inString : Bool) (text : List Char) :
    ∃ first pieces, pieces.length = countFrom inString (utf16 text) ∧ text = first ++ pieces.flatMap ('?' :: ·) ∧
      ∀ params : List (Value X), pieces.length ≤ params.length →
        substituteFrom params inString text = filled first pieces params := by
  induction text generalizing inString with
  | nil =>
    refine ⟨[], [], ?_, rfl, fun params _ => ?_⟩
    · cases inString <;> rfl
    · rw [substituteFrom.eq_def, filled, zipWith_nil_right]
      rfl
  | cons c text ih =>
    by_cases quote : c = '\''
    · obtain ⟨first, pieces, count, splits, replaces⟩ := ih (!inString)
      refine ⟨c :: first, pieces, ?_, by rw [splits]; rfl, fun params enough => ?_⟩
      · rw [count, quote]
        exact (countFrom_quote inString (utf16 text)).symm
      · rw [quote, substituteFrom_quote, replaces params enough]
        rfl
    obtain ⟨first, pieces, count, splits, replaces⟩ := ih inString
    by_cases mark : c = '?'
    · subst mark
      have counts := countFrom_mark inString (utf16 text)
      cases inString with
      | true =>
        refine ⟨'?' :: first, pieces, count.trans counts.symm, by rw [splits]; rfl, fun params enough => ?_⟩
        rw [substituteFrom_inside, replaces params enough]
        rfl
      | false =>
        refine ⟨[], first :: pieces, ?_, by rw [splits]; rfl, fun params enough => ?_⟩
        · rw [length_cons, count]
          exact counts.symm
        · obtain ⟨value, params, rfl⟩ := exists_cons_of_length_pos (Nat.lt_of_lt_of_le (Nat.succ_pos _) enough)
          have fewer : pieces.length ≤ params.length := Nat.le_of_succ_le_succ enough
          rw [substituteFrom, replaces params fewer, filled, filled, zipWith_cons_cons, flatten_cons, append_assoc]
          rfl
    · refine ⟨c :: first, pieces, ?_, by rw [splits]; rfl, fun params enough => ?_⟩
      · rw [count]
        exact (countFrom_units quote mark inString (utf16 text)).symm
      · rw [substituteFrom_char quote mark, replaces params enough]
        rfl

/-- The driver counts the question marks that the server replaces, and its k-th parameter is put in for the
k-th of them. -/
theorem jdbc_counts_placeholders (sql : String) :
    ∃ first pieces, pieces.length = paramCount sql ∧ sql.toList = first ++ pieces.flatMap ('?' :: ·) ∧
      ∀ params : List (Value X), paramCount sql ≤ params.length →
        substituteParams sql params = String.ofList (filled first pieces params) := by
  obtain ⟨first, pieces, count, splits, replaces⟩ := substituteFrom_pieces (X := X) false sql.toList
  refine ⟨first, pieces, count, splits, fun params enough => ?_⟩
  rw [substituteParams, replaces params (count.le.trans enough)]

end Tinydb.Jdbc
