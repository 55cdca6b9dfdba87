import Mathlib.Data.List.Chain
import Tinydb.Sql.Scanning

/-! Parameters in the text of a statement (`server/handler.py`).

The substituter reads string literals on its own, apart from the tokenizer. On a
template that the tokenizer accepts the two stay in step: they see the same literals,
before and after the parameters are put in.
-/

namespace Tinydb.Server

open Tinydb.Types Sql List

variable {X : Type} [Runtime X] [Lexicon X]

def escape (text : List Char) : List Char := text.flatMap fun c => if c = '\'' then ['\'', '\''] else [c]

def quoteText (text : List Char) : List Char := '\'' :: (escape text ++ ['\''])

/-- `_format_value`. -/
def formatValue : Value X → List Char
  | .none => "NULL".toList
  | .bool true => "TRUE".toList
  | .bool false => "FALSE".toList
  | .int i => (toString i).toList
  | .str s => quoteText s.toList
  | .foreign x =>
    let text := (Lexicon.str (.foreign x : Value X)).toList
    if Runtime.kind x = .float then text else quoteText text
  | value => quoteText (Lexicon.str value).toList

theorem formatValue_ofNat (n : ℕ) : formatValue (.int (.ofNat n) : Value X) = Nat.toDigits 10 n := by
  simp [formatValue, toString, Int.repr, Nat.repr]

theorem formatValue_negSucc (n : ℕ) : formatValue (.int (.negSucc n) : Value X) = '-' :: Nat.toDigits 10 (n + 1) := by
  simp [formatValue, toString, Int.repr, Nat.repr]

/-- The loop of `_substitute_params`, in or outside a string literal. -/
def substituteFrom : List (Value X) → Bool → List Char → List Char
  | _, _, [] => []
  | params, true, '\'' :: '\'' :: rest => '\'' :: '\'' :: substituteFrom params true rest
  | params, true, '\'' :: rest => '\'' :: substituteFrom params false rest
  | params, true, c :: rest => c :: substituteFrom params true rest
  | params, false, '\'' :: rest => '\'' :: substituteFrom params true rest
  | param :: params, false, '?' :: rest => formatValue param ++ substituteFrom params false rest
  | params, false, c :: rest => c :: substituteFrom params false rest

def substituteParams (sql : String) (params : List (Value X)) : String :=
  String.ofList (substituteFrom params false sql.toList)

/-- A piece of a template: a placeholder, or what a turn of the tokenizer reads. -/
inductive Piece (X : Type) where
  | placeholder
  | code (found : Found X) (text : List Char)

namespace Piece

variable {X : Type}

def text : Piece X → List Char
  | placeholder => ['?']
  | code _ text => text

def isPlaceholder : Piece X → Bool
  | placeholder => true
  | code _ _ => false

/-- Neither piece is a placeholder that touches a quote or another placeholder of the other. -/
def Apart (first second : Piece X) : Prop :=
  (first.isPlaceholder → second.text.head? ≠ some '\'' ∧ second.text.head? ≠ some '?') ∧
    (second.isPlaceholder → first.text.getLast? ≠ some '\'' ∧ first.text.getLast? ≠ some '?')

end Piece

/-- The pieces of a text without comments that the tokenizer accepts, were every `?` outside the string
literals a token. -/
inductive Template {X : Type} [Lexicon X] : List Char → List (Piece X) → Prop
  | nil : Template [] []
  | placeholder {text : List Char} {pieces : List (Piece X)} (later : Template text pieces) :
      Template ('?' :: text) (.placeholder :: pieces)
  | code {c : Char} {text used rest : List Char} {found : Found X} {pieces : List (Piece X)}
      (scanned : scan c text = .ok ⟨found, used, rest⟩) (code : ¬ found.IsComment) (later : Template rest pieces) :
      Template (c :: text) (.code found used :: pieces)

/-- The tokens of a template with a string in the place of each placeholder. -/
def fill {X : Type} : List (Piece X) → List String → List (Lexeme X)
  | [], _ => []
  | .placeholder :: pieces, param :: params => .stringLit param :: fill pieces params
  | .placeholder :: pieces, [] => fill pieces []
  | .code found _ :: pieces, params => found.lexemes ++ fill pieces params

/-- The text of a template with a literal in the place of each placeholder. -/
def spell {X : Type} : List (Piece X) → List String → List Char
  | [], _ => []
  | .placeholder :: pieces, param :: params => quoteText param.toList ++ spell pieces params
  | .placeholder :: pieces, [] => '?' :: spell pieces []
  | .code _ text :: pieces, params => text ++ spell pieces params

variable {params : List (Value X)} {text used rest value : List Char}

theorem substituteFrom_plain (plain : Plain text) (rest : List Char) :
    substituteFrom params false (text ++ rest) = text ++ substituteFrom params false rest := by
  induction text with
  | nil => rfl
  | cons c text ih =>
    have ⟨quote, mark⟩ := plain c mem_cons_self
    rw [cons_append, substituteFrom, ih fun d member => plain d (mem_cons_of_mem _ member)]
    · rfl
    · exact quote
    · exact fun _ _ _ => mark

theorem substituteFrom_string (literal : Literal text value used rest) :
    substituteFrom params true text = used ++ substituteFrom params false rest := by
  induction literal with
  | last ends =>
    rw [substituteFrom]
    · rfl
    · rintro tail rfl
      exact ends rfl
  | doubled later ih =>
    rw [substituteFrom, ih]
    rfl
  | char inside later ih =>
    rw [substituteFrom, ih]
    · rfl
    · exact fun _ same => (inside same).elim
    · exact inside

variable {pieces : List (Piece X)} {params : List String}

theorem Template.substituted (template : Template text pieces)
    (count : params.length = pieces.countP Piece.isPlaceholder) :
    substituteFrom (params.map (.str : String → Value X)) false text = spell pieces params := by
  induction template generalizing params with
  | nil => rfl
  | placeholder later ih =>
    rw [countP_cons_of_pos rfl] at count
    obtain ⟨param, params, rfl⟩ := exists_cons_of_length_eq_add_one count
    rw [map_cons, substituteFrom, ih (by simpa using count)]
    rfl
  | @code c text used rest found pieces scanned code later ih =>
    rw [countP_cons_of_neg Bool.false_ne_true] at count
    obtain ⟨more, rfl, splits, -⟩ := scan_other_rest scanned code (.inl rfl) fun closing =>
      scan_literal scanned code closing
    rcases scan_plain scanned code with plain | ⟨value, more', rfl, same, closed⟩
    · rw [splits, ← cons_append, substituteFrom_plain plain, ih count]
      rfl
    · obtain rfl := tail_eq_of_cons_eq same
      rw [substituteFrom, substituteFrom_string closed, ih count]
      rfl

theorem literal_escape (param : List Char) (ends : rest.head? ≠ some '\'') :
    Literal (escape param ++ ['\''] ++ rest) param (escape param ++ ['\'']) rest := by
  induction param with
  | nil => exact .last ends
  | cons c param ih =>
    rw [escape, flatMap_cons]
    split_ifs with quote
    · subst quote
      exact .doubled ih
    · exact .char quote ih

omit [Runtime X] in
theorem scan_quoted (param : String) (ends : rest.head? ≠ some '\'') :
    scan '\'' (escape param.toList ++ ['\''] ++ rest) =
      .ok ⟨.lexeme (.stringLit param : Lexeme X), quoteText param.toList, rest⟩ := by
  have turn := Turn.scan_eq (X := X) (.string rfl (literal_escape param.toList ends))
  rwa [String.ofList_toList] at turn

omit [Runtime X] in
theorem Template.starts (template : Template text pieces) (count : params.length = pieces.countP Piece.isPlaceholder) :
    (spell pieces params).head? = text.head? ∧
    (spell pieces params).head? = (pieces.head?.map Piece.text).bind List.head? ∨
      text.head? = some '?' ∧ (spell pieces params).head? = some '\'' ∧ pieces.head? = some .placeholder := by
  cases template with
  | nil => exact .inl ⟨rfl, rfl⟩
  | placeholder later =>
    rw [countP_cons_of_pos rfl] at count
    obtain ⟨param, params, rfl⟩ := exists_cons_of_length_eq_add_one count
    exact .inr ⟨rfl, rfl, rfl⟩
  | code scanned code later =>
    obtain ⟨more, rfl, -, -⟩ := scan_other_rest scanned code (.inl rfl) (scan_literal scanned code)
    exact .inl ⟨rfl, rfl⟩

theorem Template.lexes (template : Template text pieces) (apart : pieces.IsChain Piece.Apart)
    (count : params.length = pieces.countP Piece.isPlaceholder) :
    Lexes (spell pieces params) (fill pieces params ++ [.eof]) := by
  induction template generalizing params with
  | nil => exact lexes_nil
  | @placeholder text pieces later ih =>
    rw [countP_cons_of_pos rfl] at count
    obtain ⟨param, params, rfl⟩ := exists_cons_of_length_eq_add_one count
    have count' : params.length = pieces.countP Piece.isPlaceholder := by simpa using count
    have ends : (spell pieces params).head? ≠ some '\'' := by
      rcases later.starts count' with ⟨-, same⟩ | ⟨-, -, next⟩
      · rw [same]
        cases pieces with
        | nil => nofun
        | cons next pieces => exact ((isChain_cons_cons.mp apart).1.1 rfl).1
      · obtain ⟨pieces, rfl⟩ := head?_eq_some_iff.mp next
        exact absurd rfl ((isChain_cons_cons.mp apart).1.1 rfl).2
    exact (ih apart.tail count').cons (scan_quoted param ends)
  | @code c text used rest found pieces scanned code later ih =>
    rw [countP_cons_of_neg Bool.false_ne_true] at count
    have starts := later.starts count
    have stands : StandsIn rest (spell pieces params) := starts.imp And.left fun quoted => ⟨quoted.1, quoted.2.1⟩
    have literal (closing : used.getLast? = some '\'') : (spell pieces params).head? ≠ some '\'' := by
      rcases starts with ⟨same, -⟩ | ⟨-, -, next⟩
      · rw [same]
        exact scan_literal scanned code closing
      · obtain ⟨pieces, rfl⟩ := head?_eq_some_iff.mp next
        exact absurd closing ((isChain_cons_cons.mp apart).1.2 rfl).1
    obtain ⟨more, rfl, -, again⟩ := scan_other_rest scanned code stands literal
    rw [fill, append_assoc]
    exact (ih apart.tail count).cons again

/-- String parameters cannot change the tokens around them. -/
theorem string_params_stay_literals {sql : String} (template : Template sql.toList pieces)
    (apart : pieces.IsChain Piece.Apart) {params : List String}
    (count : params.length = pieces.countP Piece.isPlaceholder) :
    ∃ tokens : List (Token X), tokenize (substituteParams sql (params.map (.str : String → Value X))) = .ok tokens ∧
      tokens.map Token.lexeme = fill pieces params ++ [.eof] := by
  refine Lexes.tokenize ?_
  rw [substituteParams, template.substituted count, String.toList_ofList]
  exact template.lexes apart count

/-- The pieces of `x=?`. -/
def lookup : List (Piece Unit) := [.code (.lexeme (.ident "x")) ['x'], .code (.lexeme (.op .eq)) ['='], .placeholder]

theorem string_params_stay_literals_lookup :
    ∃ tokens : List (Token Unit), tokenize (substituteParams "x=?" [(.str "' OR 1=1 --" : Value Unit)]) = .ok tokens ∧
      tokens.map Token.lexeme = [.ident "x", .op .eq, .stringLit "' OR 1=1 --", .eof] := by
  have template : Template "x=?".toList lookup := .code rfl id (.code rfl id (.placeholder .nil))
  have apart : lookup.IsChain Piece.Apart := by simp [lookup, Piece.Apart, Piece.isPlaceholder, Piece.text]
  exact @string_params_stay_literals Unit _ _ _ _ template apart ["' OR 1=1 --"] rfl

end Tinydb.Server
