import Mathlib.Algebra.Group.Nat.Even
import Tinydb.Server.Substitute
import Tinydb.Sql.Comments

/-! Where the substituter finds its placeholders.

`regions` divides a text as the tokenizer reads it. The substituter knows literals but no
comments: it takes every quote for the start or the end of a literal, so a quote in a
comment turns all that follows inside out.
-/

namespace Tinydb.Server

open Lib Tinydb.Types Sql List

def isComment : Region → Bool
  | .lineComment | .blockComment => true
  | .code | .literal => false

/-- Every character with the region it lies in; what opens or ends a literal or a comment belongs to it. -/
def regions : Region → List Char → List (Char × Region)
  | _, [] => []
  | .code, '-' :: '-' :: rest => ('-', .lineComment) :: ('-', .lineComment) :: regions .lineComment rest
  | .code, '/' :: '*' :: rest => ('/', .blockComment) :: ('*', .blockComment) :: regions .blockComment rest
  | .code, '\'' :: rest => ('\'', .literal) :: regions .literal rest
  | .code, c :: rest => (c, .code) :: regions .code rest
  -- of a doubled quote the second opens the literal again
  | .literal, '\'' :: rest => ('\'', .literal) :: regions .code rest
  | .literal, c :: rest => (c, .literal) :: regions .literal rest
  | .lineComment, '\n' :: rest => ('\n', .code) :: regions .code rest
  | .lineComment, c :: rest => (c, .lineComment) :: regions .lineComment rest
  | .blockComment, '*' :: '/' :: rest => ('*', .blockComment) :: ('/', .blockComment) :: regions .code rest
  -- the tokenizer takes a `/*` inside a comment as a pair
  | .blockComment, '/' :: '*' :: rest => ('/', .blockComment) :: ('*', .blockComment) :: regions .blockComment rest
  | .blockComment, c :: rest => (c, .blockComment) :: regions .blockComment rest

section Turns

variable {c : Char} {text used rest value : List Char}

theorem regions_literal (literal : Literal text value used rest) :
    regions .literal text = used.map (·, .literal) ++ regions .code rest := by
  induction literal with
  | last => rw [regions]; rfl
  | doubled _ ih => rw [regions, regions, ih]; rfl
  | char inside _ ih => rw [regions, ih]; exacts [rfl, inside]

theorem regions_char (plain : Plain [c]) (dash : ¬ (c = '-' ∧ text.head? = some '-'))
    (slash : ¬ (c = '/' ∧ text.head? = some '*')) : regions .code (c :: text) = (c, .code) :: regions .code text := by
  rw [regions]
  · rintro rest rfl rfl
    exact dash ⟨rfl, rfl⟩
  · rintro rest rfl rfl
    exact slash ⟨rfl, rfl⟩
  · exact (plain c mem_cons_self).1

theorem regions_inert (inert : Inert used) :
    regions .code (used ++ rest) = used.map (·, .code) ++ regions .code rest := by
  induction used with
  | nil => rfl
  | cons c used ih =>
    obtain ⟨⟨dash, slash, -, plain⟩, others⟩ := forall_mem_cons.mp inert
    rw [cons_append, regions_char (forall_mem_singleton.mpr plain) (fun both => dash both.1) fun both => slash both.1,
      ih others]
    rfl

theorem regions_line (text : List Char) : regions .lineComment text =
    (text.takeWhile (· ≠ '\n')).map (·, .lineComment) ++ regions .code (text.dropWhile (· ≠ '\n')) := by
  induction text with
  | nil => rfl
  | cons c text ih =>
    by_cases newline : c = '\n'
    · subst newline
      rfl
    · rw [regions, ih, takeWhile_cons_of_pos (by simpa), dropWhile_cons_of_pos (by simpa)]
      exacts [rfl, newline]

theorem regions_block (closed : closeComment text = some (used, rest)) :
    regions .blockComment text = used.map (·, .blockComment) ++ regions .code rest := by
  fun_induction closeComment text generalizing used rest with
  | case1 => cases closed
  | case2 =>
    cases closed
    rw [regions]
    rfl
  | case3 after ih =>
    obtain ⟨⟨more, last⟩, inner, ⟨⟩⟩ := Option.map_eq_some_iff.mp closed
    rw [regions, ih inner]
    rfl
  | case4 c after notEnd notPair ih =>
    obtain ⟨⟨more, last⟩, inner, ⟨⟩⟩ := Option.map_eq_some_iff.mp closed
    rw [regions, ih inner]
    exacts [rfl, notEnd, notPair]

/-- A turn of the tokenizer has one region. -/
theorem regions_of_scan {X : Type} [Lexicon X] {s : Scan X} (scanned : scan c text = .ok s) : ∃ region,
    regions .code (c :: text) = s.text.map (·, region) ++ regions .code s.rest ∧
      (isComment region ↔ s.found.IsComment) ∧ (region = .literal ↔ c = '\'') := by
  rcases s with ⟨found, used, rest⟩
  by_cases comment : found.IsComment
  · cases scan_eq_iff.mp scanned with
    | line dash opens =>
      subst dash opens
      refine ⟨.lineComment, ?_, by simp [isComment, comment], by simp⟩
      rw [regions, regions_line]
      rfl
    | block slash opens closed =>
      subst slash opens
      refine ⟨.blockComment, ?_, by simp [isComment, comment], by simp⟩
      rw [regions, regions_block closed]
      rfl
    | _ => exact comment.elim
  · cases plainTurn_of_scan scanned comment with
    | literal quote literal =>
      subst quote
      refine ⟨.literal, ?_, by simp [isComment, comment], by simp⟩
      rw [regions, regions_literal literal]
      rfl
    | char plain dash slash =>
      refine ⟨.code, regions_char plain dash slash, by simp [isComment, comment], ?_⟩
      simpa using (plain c mem_cons_self).1
    | run inert splits =>
      refine ⟨.code, ?_, by simp [isComment, comment], ?_⟩
      · rw [splits, ← cons_append, regions_inert inert]
      · simpa using (inert.plain c mem_cons_self).1

end Turns

variable {X : Type} [Runtime X] [Lexicon X] {c : Char} {region : Region} {inLiteral : Bool} {text : List Char}
  {marks : List (Char × Region)}

/-- The placeholders of a text: the question marks that lie neither in a literal nor in a comment. -/
def placeholders (marks : List (Char × Region)) : ℕ := marks.count ('?', .code)

def commentQuotes (marks : List (Char × Region)) : ℕ := marks.countP fun mark => mark.1 = '\'' && isComment mark.2

def replaced : List (Value X) → List (Char × Region) → List Char
  | _, [] => []
  | value :: params, ('?', .code) :: rest => formatValue value ++ replaced params rest
  | params, (c, _) :: rest => c :: replaced params rest

/-- As long as there are parameters left, a question mark lies in a comment if and only if there is an odd number
of quotes in comments before it. -/
def Aligned (params : ℕ) (marks : List (Char × Region)) : Prop :=
  ∀ before region after, marks = before ++ ('?', region) :: after → placeholders before < params →
    (isComment region ↔ Odd (commentQuotes before))

def FloatsSpelled (X : Type) [Runtime X] [Lexicon X] : Prop :=
  ∀ x : X, Runtime.kind x = .float → ∃ c more, (Lexicon.str (.foreign x : Value X)).toList = c :: more ∧ c ≠ '?'

theorem formatValue_cons (spelled : FloatsSpelled X) (value : Value X) :
    ∃ c more, formatValue value = c :: more ∧ c ≠ '?' := by
  have quotedText (text : List Char) : ∃ c more, quoteText text = c :: more ∧ c ≠ '?' := ⟨_, _, rfl, by decide⟩
  cases value with
  | none => exact ⟨_, _, rfl, by decide⟩
  | bool b => cases b <;> exact ⟨_, _, rfl, by decide⟩
  | int i =>
    cases i with
    | ofNat n =>
      obtain ⟨c, more, same⟩ : ∃ c more, Nat.toDigits 10 n = c :: more := exists_cons_of_ne_nil Nat.toDigits_ne_nil
      have digit : c.isDigit = true := Nat.isDigit_of_mem_toDigits (by decide) (by decide) (same ▸ mem_cons_self)
      refine ⟨c, more, (formatValue_ofNat n).trans same, ?_⟩
      rintro rfl
      cases digit
    | negSucc n => exact ⟨_, _, formatValue_negSucc n, by decide⟩
  | str s => exact quotedText _
  | foreign x =>
    rw [formatValue]
    split_ifs with float
    · exact spelled x float
    · exact quotedText _
  | _ => exact quotedText _

/-! A quote takes the substituter into a literal or out of it; a doubled one takes it out and in again. -/

theorem substituteFrom_quote (params : List (Value X)) (inString : Bool) (rest : List Char) :
    substituteFrom params inString ('\'' :: rest) = '\'' :: substituteFrom params (!inString) rest := by
  cases inString with
  | false => rw [substituteFrom]; rfl
  | true =>
    by_cases another : rest.head? = some '\''
    · obtain ⟨rest, rfl⟩ := head?_eq_some_iff.mp another
      rw [substituteFrom, Bool.not_true, substituteFrom]
    · rw [substituteFrom]
      · rfl
      · rintro tail rfl
        exact another rfl

theorem substituteFrom_char (quote : c ≠ '\'') (mark : c ≠ '?') (params : List (Value X)) (inString : Bool)
    (rest : List Char) : substituteFrom params inString (c :: rest) = c :: substituteFrom params inString rest := by
  cases inString with
  | false =>
    rw [substituteFrom]
    · exact quote
    · exact fun _ _ _ => mark
  | true =>
    rw [substituteFrom]
    · exact fun _ same => (quote same).elim
    · exact quote

theorem substituteFrom_inside (params : List (Value X)) (rest : List Char) :
    substituteFrom params true ('?' :: rest) = '?' :: substituteFrom params true rest := by
  rw [substituteFrom]
  · exact fun _ same => absurd same (by decide)
  · decide

def AlignedFrom (odd : Bool) (params : ℕ) (marks : List (Char × Region)) : Prop :=
  ∀ before region after, marks = before ++ ('?', region) :: after → placeholders before < params →
    isComment region = (odd ^^ decide (Odd (commentQuotes before)))

theorem alignedFrom_false (params : ℕ) (marks : List (Char × Region)) :
    AlignedFrom false params marks ↔ Aligned params marks := by
  refine forall₃_congr fun before region after => forall₂_congr fun _ _ => ?_
  rw [Bool.false_xor, Bool.eq_iff_iff, decide_eq_true_iff]

theorem alignedFrom_nil (odd : Bool) (params : ℕ) : AlignedFrom odd params [] := by
  intro before region after same
  simp at same

theorem alignedFrom_cons (odd : Bool) (params : ℕ) (c : Char) (region : Region) (marks : List (Char × Region)) :
    AlignedFrom odd params ((c, region) :: marks) ↔ (c = '?' → 0 < params → isComment region = odd) ∧
        AlignedFrom (odd ^^ (c = '\'' && isComment region)) (params - placeholders [(c, region)]) marks := by
  have count (before : List (Char × Region)) :
      placeholders ((c, region) :: before) = placeholders [(c, region)] + placeholders before := by
    rw [placeholders, placeholders, placeholders, ← count_append]
    rfl
  have parity (before : List (Char × Region)) : (odd ^^ decide (Odd (commentQuotes ((c, region) :: before)))) =
      ((odd ^^ (c = '\'' && isComment region)) ^^ decide (Odd (commentQuotes before))) := by
    rw [commentQuotes, commentQuotes, countP_cons]
    dsimp only
    cases decide (c = '\'') && isComment region with
    | false => simp
    | true => cases odd <;> simp [Nat.odd_add_one, -Nat.not_odd_iff_even]
  constructor
  · intro aligned
    refine ⟨?_, fun before later after split few => ?_⟩
    · rintro rfl some
      simpa [commentQuotes] using aligned [] region marks rfl some
    · rw [← parity]
      exact aligned ((c, region) :: before) later after (by rw [split]; rfl) (by rw [count]; omega)
  · rintro ⟨here, aligned⟩ before later after split few
    cases before with
    | nil =>
      cases split
      simpa [commentQuotes] using here rfl few
    | cons mark before =>
      obtain ⟨rfl, rest⟩ := List.cons.inj split
      rw [parity]
      rw [count] at few
      exact aligned before later after rest (by omega)

/-- The substituter and the regions agree on a text if and only if it is aligned. -/
def Agrees (X : Type) [Runtime X] [Lexicon X] (inLiteral : Bool) (text : List Char)
    (marks : List (Char × Region)) : Prop :=
  ∀ (params : List (Value X)) (odd : Bool), placeholders marks ≤ params.length →
    (substituteFrom params (inLiteral ^^ odd) text = replaced params marks ↔ AlignedFrom odd params.length marks)

theorem agrees_nil (inLiteral : Bool) : Agrees X inLiteral [] [] := by
  intro params odd _
  refine iff_of_true ?_ (alignedFrom_nil odd _)
  rw [substituteFrom.eq_def, replaced]

theorem replaced_char (mark : c ≠ '?' ∨ region ≠ .code) (params : List (Value X))
    (marks : List (Char × Region)) : replaced params ((c, region) :: marks) = c :: replaced params marks := by
  rw [replaced]
  intro value rest _ isMark isCode
  exact mark.elim (absurd isMark) (absurd isCode)

/-- The region of a character says whether it lies in a literal, but for the quotes of the literal. -/
structure Lies (inLiteral : Bool) (c : Char) (region : Region) : Prop where
  code : region = .code → inLiteral = false
  literal : region = .literal → c = '?' → inLiteral = true
  comment : isComment region → inLiteral = false

theorem substituteFrom_noParams (inString : Bool) (rest : List Char) :
    substituteFrom ([] : List (Value X)) inString ('?' :: rest) = '?' ::
    substituteFrom ([] : List (Value X)) inString rest := by
  cases inString with
  | false =>
    rw [substituteFrom]
    · decide
    · exact fun _ _ none => absurd none (cons_ne_nil _ _).symm
  | true => exact substituteFrom_inside [] rest

/-- A question mark. Where the substituter takes it for a placeholder and the regions do not, or the other way
round, the texts part. -/
theorem Agrees.mark (spelled : FloatsSpelled X) (later : Agrees X inLiteral text marks)
    (lies : Lies inLiteral '?' region) :
    Agrees X inLiteral ('?' :: text) (('?', region) :: marks) := by
  intro params odd enough
  have parts (value : Value X) (text marks : List Char) : formatValue value ++ text ≠ '?' :: marks := by
    obtain ⟨c, more, same, other⟩ := formatValue_cons spelled value
    rw [same]
    exact fun equal => other (List.cons.inj equal).1
  have fewer : placeholders marks ≤ placeholders (('?', region) :: marks) := count_le_count_cons
  rw [alignedFrom_cons, show (odd ^^ ('?' = '\'' && isComment region)) = odd from Bool.xor_false odd]
  cases params with
  | nil =>
    have none : replaced ([] : List (Value X)) (('?', region) :: marks) = '?' ::
      replaced ([] : List (Value X)) marks := by
      rw [replaced]
      exact fun _ _ none => absurd none (cons_ne_nil _ _).symm
    rw [substituteFrom_noParams, none, cons_inj_right, later [] odd (fewer.trans enough), length_nil, Nat.zero_sub]
    exact (and_iff_right fun _ few => absurd few (lt_irrefl 0)).symm
  | cons value params =>
    by_cases code : region = .code
    · subst code
      rw [lies.code rfl, Bool.false_xor]
      have one : placeholders [('?', .code)] = 1 := rfl
      cases odd with
      | false =>
        have enough' : placeholders marks ≤ params.length := by
          simp [placeholders] at enough ⊢
          omega
        have rest := later params false enough'
        rw [lies.code rfl, Bool.false_xor] at rest
        rw [substituteFrom, replaced, append_cancel_left_eq, rest, one]
        exact (and_iff_right fun _ _ => rfl).symm
      | true =>
        rw [substituteFrom_inside, replaced]
        refine iff_of_false (parts _ _ _).symm fun aligned => ?_
        exact absurd (aligned.1 rfl (by simp)) (by decide)
    · have zero : placeholders [('?', region)] = 0 := by simp [placeholders, code]
      rw [replaced_char (.inr code), zero, Nat.sub_zero]
      by_cases here : isComment region = odd
      · have inside : (inLiteral ^^ odd) = true := by
          cases region with
          | code => exact absurd rfl code
          | literal => rw [lies.literal rfl rfl, ← here]; rfl
          | lineComment | blockComment => rw [lies.comment rfl, ← here]; rfl
        rw [inside, substituteFrom_inside, cons_inj_right, ← inside, later (value :: params) odd (fewer.trans enough)]
        exact (and_iff_right fun _ _ => here).symm
      · have outside : (inLiteral ^^ odd) = false := by
          cases region with
          | code => exact absurd rfl code
          | literal =>
            rw [lies.literal rfl rfl]
            cases odd
            · exact absurd rfl here
            · rfl
          | lineComment | blockComment =>
            rw [lies.comment rfl]
            cases odd
            · rfl
            · exact absurd rfl here
        rw [outside, substituteFrom]
        exact iff_of_false (parts _ _ _) fun aligned => here (aligned.1 rfl (by simp))

theorem Agrees.cons (spelled : FloatsSpelled X) {inLiteral' : Bool} (later : Agrees X inLiteral' text marks)
    (turns : inLiteral' = (inLiteral ^^ (c = '\'' && !isComment region))) (lies : Lies inLiteral c region) :
    Agrees X inLiteral (c :: text) ((c, region) :: marks) := by
  intro params odd enough
  have fewer : placeholders marks ≤ placeholders ((c, region) :: marks) := count_le_count_cons
  rw [alignedFrom_cons]
  by_cases quote : c = '\''
  · -- both go on with the next character, inside or outside
    have other : placeholders [(c, region)] = 0 := by simp [placeholders, quote]
    have state : (!(inLiteral ^^ odd)) = (inLiteral' ^^ (odd ^^ (c = '\'' && isComment region))) := by
      rw [turns, quote]
      cases inLiteral <;> cases odd <;> cases isComment region <;> rfl
    rw [other, Nat.sub_zero, ← later params _ (fewer.trans enough), ← state, quote, substituteFrom_quote,
      replaced_char (.inl (by decide)), cons_inj_right]
    exact (and_iff_right fun same => absurd same (by decide)).symm
  by_cases mark : c = '?'
  · rw [← alignedFrom_cons]
    subst mark
    rw [decide_eq_false quote, Bool.false_and, Bool.xor_false] at turns
    exact (turns ▸ later).mark spelled lies params odd enough
  · have other : placeholders [(c, region)] = 0 := by simp [placeholders, mark]
    have state : (inLiteral ^^ odd) = (inLiteral' ^^ (odd ^^ (c = '\'' && isComment region))) := by
      rw [turns]
      simp [quote]
    rw [other, Nat.sub_zero, ← later params _ (fewer.trans enough), ← state, substituteFrom_char quote mark,
      replaced_char (.inl mark), cons_inj_right]
    exact (and_iff_right fun same => absurd same mark).symm

theorem agrees_regions (spelled : FloatsSpelled X) (state : Region) (text : List Char) :
    Agrees X (state = .literal) text (regions state text) := by
  have comment {c : Char} {region : Region} {text : List Char} {marks : List (Char × Region)}
    (inside : isComment region = true)
      (later : Agrees X false text marks) : Agrees X false (c :: text) ((c, region) :: marks) := by
    refine later.cons spelled (by simp [inside]) ⟨fun _ => rfl, ?_, fun _ => rfl⟩
    rintro rfl
    cases inside
  fun_induction regions state text with
  | case1 state => exact agrees_nil _
  | case2 rest ih | case3 rest ih => exact comment rfl (comment rfl ih)
  | case4 rest ih => exact ih.cons spelled rfl ⟨fun _ => rfl, by simp, fun _ => rfl⟩
  | case5 c rest _ _ quote ih =>
    exact ih.cons spelled (by rw [decide_eq_false quote]; rfl) ⟨fun _ => rfl, by simp, fun _ => rfl⟩
  | case6 rest ih => exact ih.cons spelled rfl ⟨by simp, by simp, by simp [isComment]⟩
  | case7 c rest quote ih =>
    exact ih.cons spelled (by rw [decide_eq_false quote]; rfl) ⟨by simp, fun _ _ => rfl, by simp [isComment]⟩
  | case8 rest ih => exact ih.cons spelled rfl ⟨fun _ => rfl, by simp, fun _ => rfl⟩
  | case9 c rest _ ih => exact comment rfl ih
  | case10 rest ih | case11 rest ih => exact comment rfl (comment rfl ih)
  | case12 c rest _ _ ih => exact comment rfl ih

/-- `_substitute_params` replaces the placeholders and nothing else if and only if its literals are those of
the tokenizer at every question mark. -/
theorem substitute_placeholders_iff (spelled : FloatsSpelled X) (sql : String) (params : List (Value X))
    (enough : placeholders (regions .code sql.toList) ≤ params.length) :
    substituteParams sql params = String.ofList (replaced params (regions .code sql.toList)) ↔
      Aligned params.length (regions .code sql.toList) := by
  have agrees := agrees_regions spelled .code sql.toList params false enough
  rw [alignedFrom_false] at agrees
  rw [← agrees, substituteParams, String.ofList_inj]
  rfl

local instance marksLexicon : Lexicon Unit := { Lexicon.ascii Unit with str := fun _ => "1.0" }

theorem floatsSpelled_marks : FloatsSpelled Unit := by
  intro x _
  have text : ("1.0" : String).toList = ['1', '.', '0'] := by decide
  exact ⟨'1', ['.', '0'], text, by decide⟩

/-- Two quotes before a question mark in a literal. -/
theorem substitute_placeholders_quoted :
    substituteParams "'?', ?" [(.int 1 : Value Unit)] = "'?', 1" ∧ placeholders (regions .code "'?', ?".toList) = 1 ∧
      Aligned 1 (regions .code "'?', ?".toList) := by
  have enough : placeholders (regions .code "'?', ?".toList) ≤ [(.int 1 : Value Unit)].length := by decide
  have same : substituteParams "'?', ?" [(.int 1 : Value Unit)] =
      String.ofList (replaced [(.int 1 : Value Unit)] (regions .code "'?', ?".toList)) := by decide +kernel
  exact ⟨by decide +kernel, by decide, (substitute_placeholders_iff floatsSpelled_marks _ _ enough).mp same⟩

/-- The question mark of a comment takes the parameter. -/
theorem comment_takes_parameter :
    ¬ ∀ (sql : String) (params : List (Value Unit)), placeholders (regions .code sql.toList) ≤ params.length →
      substituteParams sql params = String.ofList (replaced params (regions .code sql.toList)) := by
  intro same
  have given := same "-- ?\n?" [.int 1] (by decide)
  exact absurd given (by decide +kernel)

end Tinydb.Server
