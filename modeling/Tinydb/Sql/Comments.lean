import Tinydb.Sql.Positions

/-! Comments as white space.

The tokenizer drops comments. `withoutComments` puts one space for each of them, by the
definition of a comment alone. The two differ on a block comment whose end shares its
star with a `/*` inside it: the tokenizer takes that `/*` as a pair and runs past the end.
-/

namespace Tinydb.Sql

open Lib Tinydb.Types List Option

def reading (X : Type) [Runtime X] [Lexicon X] (sql : String) : Except ExcClass (List (Lexeme X)) :=
  ((tokenize sql).map (·.map Token.lexeme)).mapError Exc.cls

def Flaw.cls : Flaw → ExcClass
  | unterminatedComment | unterminatedString | unexpected _ => .parseError
  | raised e => e.cls

/-- What the tokenizer makes of a text, by its turns. -/
inductive Outcome (X : Type) [Lexicon X] : List Char → Except ExcClass (List (Lexeme X)) → Prop where
  | nil : Outcome X [] (.ok [.eof])
  | turn {c : Char} {text : List Char} {s : Scan X} {out : Except ExcClass (List (Lexeme X))}
      (scanned : scan c text = .ok s) (later : Outcome X s.rest out) :
      Outcome X (c :: text) (out.map (s.found.lexemes ++ ·))
  | flaw {c : Char} {text : List Char} {flaw : Flaw} (scanned : scan c text = (.error flaw : Except Flaw (Scan X))) :
      Outcome X (c :: text) (.error flaw.cls)

variable {X : Type} {out : Except ExcClass (List (Lexeme X))} {c : Char}
  {text body rest used other target value : List Char}
  {s : Scan X} {found : Found X}

theorem Scan.token_lexeme (s : Scan X) (position : Position) :
    (s.token position).map Token.lexeme = s.found.lexemes := by
  rcases s with ⟨found, text, rest⟩
  cases found <;> rfl

theorem symbol_none (unknown : (symbol c text : Option (Lexeme X × List Char × List Char)) = none)
    (behind : Behind text other) : (symbol c other : Option (Lexeme X × List Char × List Char)) = none := by
  rw [symbol] at unknown ⊢
  split at unknown
  · cases unknown
  · rename_i alone
    rw [behind.alone alone]
    exact map_eq_none_iff.mpr (map_eq_none_iff.mp unknown)

theorem Flaw.report_cls [Runtime X] (flaw : Flaw) (position : Position) (text : List Char) :
    (flaw.report X position text).cls = flaw.cls := by
  cases flaw <;> rfl

variable [Lexicon X]

theorem exists_outcome (text : List Char) : ∃ out, Outcome X text out := by
  induction size : text.length using Nat.strongRecOn generalizing text with
  | _ size ih =>
    cases text with
    | nil => exact ⟨_, .nil⟩
    | cons c text =>
      cases scanned : (scan c text : Except Flaw (Scan X)) with
      | error flaw => exact ⟨_, .flaw scanned⟩
      | ok s =>
        obtain ⟨more, -, splits⟩ := (turned_of_scan scanned).splits
        obtain ⟨out, later⟩ := ih s.rest.length
          (by simp only [← size, splits, length_cons, length_append]; omega) s.rest rfl
        exact ⟨_, .turn scanned later⟩

/-- What a place of a text belongs to. -/
inductive Region where
  | code | literal | lineComment | blockComment
  deriving DecidableEq

/-- The body of a block comment, up to the first `*/`, and what follows that. -/
def firstClose : List Char → Option (List Char × List Char)
  | [] => none
  | '*' :: '/' :: rest => some ([], rest)
  | c :: rest => (firstClose rest).map fun (body, rest) => (c :: body, rest)

/-- A text with one space for each comment; a block comment that does not end stays. -/
def blanked : Region → List Char → List Char
  | _, [] => []
  | .code, '-' :: '-' :: rest => ' ' :: blanked .lineComment rest
  | .code, '/' :: '*' :: rest =>
    if (firstClose rest).isSome then ' ' :: blanked .blockComment rest else '/' :: '*' :: rest
  | .code, '\'' :: rest => '\'' :: blanked .literal rest
  | .code, c :: rest => c :: blanked .code rest
  -- of a doubled quote the second opens the literal again
  | .literal, '\'' :: rest => '\'' :: blanked .code rest
  | .literal, c :: rest => c :: blanked .literal rest
  | .lineComment, '\n' :: rest => '\n' :: blanked .code rest
  | .lineComment, _ :: rest => blanked .lineComment rest
  | .blockComment, '*' :: '/' :: rest => blanked .code rest
  | .blockComment, _ :: rest => blanked .blockComment rest

def withoutComments (sql : String) : String := String.ofList (blanked .code sql.toList)

/-- A block comment whose body ends with a slash, so that its end reads `/*/`. -/
def Overlap (text : List Char) : Prop :=
  ∃ inner body rest, text = '/' :: '*' :: inner ∧ firstClose inner = some (body, rest) ∧ body.getLast? = some '/'

theorem firstClose_star (rest : List Char) : firstClose ('*' :: '/' :: rest) = some ([], rest) := by
  rw [firstClose]

theorem firstClose_char {c : Char} (inside : ¬ (c = '*' ∧ text.head? = some '/')) :
    firstClose (c :: text) = (firstClose text).map fun (body, rest) => (c :: body, rest) := by
  rw [firstClose]
  rintro tail rfl rfl
  exact inside ⟨rfl, rfl⟩

theorem firstClose_splits (found : firstClose text = some (body, rest)) : text = body ++ '*' :: '/' :: rest := by
  fun_induction firstClose text generalizing body rest with
  | case1 => cases found
  | case2 tail =>
    cases found
    rfl
  | case3 c tail _ ih =>
    obtain ⟨⟨body', rest'⟩, inner, ⟨⟩⟩ := map_eq_some_iff.mp found
    rw [ih inner]
    rfl

theorem firstClose_other_rest (found : firstClose text = some (body, rest)) (other : List Char) :
    firstClose (body ++ '*' :: '/' :: other) = some (body, other) := by
  fun_induction firstClose text generalizing body rest with
  | case1 => cases found
  | case2 tail =>
    cases found
    exact firstClose_star other
  | case3 c tail notEnd ih =>
    obtain ⟨⟨body', rest'⟩, inner, ⟨⟩⟩ := map_eq_some_iff.mp found
    have splits := firstClose_splits inner
    have inside : ¬ (c = '*' ∧ (body' ++ '*' :: '/' :: other).head? = some '/') := by
      rintro ⟨rfl, slash⟩
      cases body' with
      | nil => simp at slash
      | cons d body' =>
        obtain rfl : d = '/' := Option.some.inj slash
        exact notEnd (body' ++ '*' :: '/' :: rest) rfl splits
    rw [cons_append, firstClose_char inside, ih inner]
    rfl

theorem firstClose_cons_eq_some {c : Char} (found : firstClose (c :: text) = some (body, rest))
    (inside : ¬ (c = '*' ∧ text.head? = some '/')) :
    ∃ inner, body = c :: inner ∧ firstClose text = some (inner, rest) := by
  rw [firstClose_char inside] at found
  obtain ⟨⟨inner, rest'⟩, ends, ⟨⟩⟩ := map_eq_some_iff.mp found
  exact ⟨inner, rfl, ends⟩

/-- The tokenizer ends a comment at its first end, if there is no slash before that; otherwise it takes the slash
and the star for a pair and goes on behind them. -/
theorem closeComment_of_firstClose (found : firstClose text = some (body, rest)) :
    closeComment text = if body.getLast? = some '/' then
      (closeComment ('/' :: rest)).map fun (more, rest) => (body ++ '*' :: more, rest)
      else some (body ++ ['*', '/'], rest) := by
  fun_induction closeComment text generalizing body rest with
  | case1 => cases found
  | case2 after =>
    rw [firstClose_star] at found
    cases found
    rfl
  | case3 after ih =>
    obtain ⟨inner, rfl, star⟩ := firstClose_cons_eq_some found (by simp)
    by_cases slash : after.head? = some '/'
    · obtain ⟨after, rfl⟩ := head?_eq_some_iff.mp slash
      rw [firstClose_star] at star
      cases star
      rfl
    · obtain ⟨inner, rfl, later⟩ := firstClose_cons_eq_some star fun both => slash both.2
      rw [ih later]
      cases inner with
      | nil => simp
      | cons d inner => split_ifs <;> simp_all [getLast?_cons, Function.comp_def]
  | case4 c after notEnd notPair ih =>
    have inside : ¬ (c = '*' ∧ after.head? = some '/') := by
      rintro ⟨rfl, slash⟩
      obtain ⟨after', rfl⟩ := head?_eq_some_iff.mp slash
      exact notEnd after' rfl rfl
    obtain ⟨inner, rfl, later⟩ := firstClose_cons_eq_some found inside
    rw [ih later]
    cases inner with
    | nil =>
      have slash : c ≠ '/' := fun slash => notPair _ slash (firstClose_splits later)
      simp [slash]
    | cons d inner => split_ifs <;> simp_all [getLast?_cons, Function.comp_def]

theorem closeComment_none (missing : firstClose text = none) : closeComment text = none := by
  fun_induction closeComment text with
  | case1 => rfl
  | case2 after =>
    rw [firstClose_star] at missing
    cases missing
  | case3 after ih =>
    rw [firstClose_char (by simp)] at missing
    have inside : ¬ ('*' = '*' ∧ after.head? = some '/') := by
      rintro ⟨-, slash⟩
      obtain ⟨after, rfl⟩ := head?_eq_some_iff.mp slash
      rw [firstClose_star] at missing
      cases missing
    rw [map_eq_none_iff, firstClose_char inside, map_eq_none_iff] at missing
    rw [ih missing]
    rfl
  | case4 c after notEnd _ ih =>
    rw [firstClose_char, map_eq_none_iff] at missing
    · rw [ih missing]
      rfl
    · rintro ⟨rfl, slash⟩
      obtain ⟨after', rfl⟩ := head?_eq_some_iff.mp slash
      exact notEnd after' rfl rfl

theorem closeComment_ne_nil (closed : closeComment text = some (used, rest)) : used ≠ [] := by
  rw [closeComment.eq_def] at closed
  split at closed
  · cases closed
  · cases closed
    exact cons_ne_nil _ _
  all_goals
    obtain ⟨⟨more, last⟩, inner, ⟨⟩⟩ := map_eq_some_iff.mp closed
    exact cons_ne_nil _ _

theorem closeComment_other_rest (closed : closeComment text = some (used, rest)) (other : List Char) :
    closeComment (used ++ other) = some (used, other) := by
  fun_induction closeComment text generalizing used rest with
  | case1 => cases closed
  | case2 =>
    cases closed
    rfl
  | case3 after ih =>
    obtain ⟨⟨more, last⟩, inner, ⟨⟩⟩ := map_eq_some_iff.mp closed
    show closeComment ('/' :: '*' :: (more ++ other)) = _
    rw [closeComment, ih inner]
    rfl
  | case4 c after notEnd notPair ih =>
    obtain ⟨⟨more, last⟩, inner, ⟨⟩⟩ := map_eq_some_iff.mp closed
    obtain ⟨d, more, rfl⟩ := exists_cons_of_ne_nil (closeComment_ne_nil inner)
    have splits := closeComment_splits inner
    show closeComment (c :: (d :: more ++ other)) = _
    rw [closeComment, ih inner]
    · rfl
    · intro tail star same
      exact notEnd (more ++ rest) star (by rw [splits, cons_append, (List.cons.inj same).1])
    · intro tail slash same
      exact notPair (more ++ rest) slash (by rw [splits, cons_append, (List.cons.inj same).1])

theorem Overlap.of_prefix {longer : List Char} (overlap : Overlap text) (shorter : text <+: longer) :
    Overlap longer := by
  obtain ⟨inner, body, rest, rfl, found, last⟩ := overlap
  obtain ⟨more, rfl⟩ := shorter
  refine ⟨inner ++ more, body, rest ++ more, rfl, ?_, last⟩
  rw [firstClose_splits found, append_assoc]
  exact firstClose_other_rest found (rest ++ more)

theorem scan_same_head (scanned : scan c text = .ok s) (same : other.head? = s.rest.head?) :
    ∃ more, s.text = c :: more ∧ text = more ++ s.rest ∧ scan c (more ++ other) = .ok ⟨s.found, s.text, other⟩ := by
  cases scan_eq_iff.mp scanned with
  | blank | string | word | number | symbol =>
    refine scan_behind scanned id (fun d first => .inl (same ▸ first)) fun closing => ?_
    rw [same]
    exact scan_literal scanned id closing
  | @line text dash opens =>
    subst dash opens
    have stops : ∀ d ∈ other.head?, (fun c => decide (c ≠ '\n')) d = false := by
      rw [same]
      exact dropWhile_stops _ _
    have run := run_before ('-' :: '-' :: text) stops
    refine ⟨'-' :: text.takeWhile (· ≠ '\n'), rfl, List.cons.inj (takeWhile_append_dropWhile (p := (· ≠ '\n'))
      (l := '-' :: '-' :: text)).symm |>.2, ?_⟩
    have line : scan '-' ('-' :: (text.takeWhile (· ≠ '\n') ++ other)) = _ := Turn.scan_eq (X := X) (.line rfl rfl)
    rw [cons_append, line]
    exact congrArg Except.ok (congr (congrArg (Scan.mk .lineComment) run.1) run.2)
  | @block inner more rest slash opens closed =>
    subst slash opens
    refine ⟨'*' :: more, rfl, by rw [closeComment_splits closed]; rfl, ?_⟩
    exact Turn.scan_eq (.block rfl rfl (closeComment_other_rest closed other))

theorem blanked_char (quote : c ≠ '\'') (dash : ¬ (c = '-' ∧ text.head? = some '-'))
    (slash : ¬ (c = '/' ∧ text.head? = some '*')) : blanked .code (c :: text) = c :: blanked .code text := by
  rw [blanked]
  · rintro tail rfl rfl
    exact dash ⟨rfl, rfl⟩
  · rintro tail rfl rfl
    exact slash ⟨rfl, rfl⟩
  · exact quote

theorem blanked_inert (inert : Inert text) (rest : List Char) :
    blanked .code (text ++ rest) = text ++ blanked .code rest := by
  induction text with
  | nil => rfl
  | cons c text ih =>
    obtain ⟨⟨dash, slash, -, quote, -⟩, inert⟩ := forall_mem_cons.mp inert
    rw [cons_append, blanked_char quote (fun both => dash both.1) fun both => slash both.1, ih inert]
    rfl

theorem blanked_literal (inside : c ≠ '\'') (text : List Char) :
    blanked .literal (c :: text) = c :: blanked .literal text := by
  rw [blanked]
  exact inside

theorem blanked_string (literal : Literal text value used rest) :
    blanked .literal text = used ++ blanked .code rest := by
  induction literal with
  | last ends => rfl
  | @doubled text value used rest later ih =>
    show '\'' :: '\'' :: blanked .literal text = '\'' :: '\'' :: (used ++ blanked .code rest)
    rw [ih]
  | char inside later ih =>
    rw [blanked_literal inside, ih]
    rfl

theorem blanked_open (opened : closeString text = none) : blanked .literal text = text := by
  fun_induction closeString text with
  | case1 => rfl
  | case2 tail ih =>
    show '\'' :: '\'' :: blanked .literal tail = _
    rw [ih (map_eq_none_iff.mp opened)]
  | case3 tail alone => cases opened
  | case4 c tail _ inside ih =>
    rw [blanked_literal inside, ih (map_eq_none_iff.mp opened)]

theorem blanked_line (text : List Char) : blanked .lineComment text = blanked .code (text.dropWhile (· ≠ '\n')) := by
  induction text with
  | nil => rfl
  | cons c text ih =>
    by_cases newline : c = '\n'
    · subst newline
      rw [dropWhile_cons_of_neg (by simp), blanked_char (by decide) (by simp) (by simp)]
      rfl
    · rw [blanked, ih, dropWhile_cons_of_pos (by simpa using newline)]
      exact newline

theorem blanked_block (found : firstClose text = some (body, rest)) :
    blanked .blockComment text = blanked .code rest := by
  fun_induction firstClose text generalizing body rest with
  | case1 => cases found
  | case2 tail =>
    cases found
    rfl
  | case3 c tail notEnd ih =>
    obtain ⟨⟨body', rest'⟩, inner, ⟨⟩⟩ := map_eq_some_iff.mp found
    rw [blanked, ih inner]
    exact notEnd

theorem blanked_dashes (text : List Char) :
    blanked .code ('-' :: '-' :: text) = ' ' :: blanked .code (('-' :: '-' :: text).dropWhile (· ≠ '\n')) := by
  show ' ' :: blanked .lineComment text = _
  rw [blanked_line]
  rfl

theorem blanked_comment (found : firstClose text = some (body, rest)) :
    blanked .code ('/' :: '*' :: text) = ' ' :: blanked .code rest := by
  show (if (firstClose text).isSome then ' ' :: blanked .blockComment text else _) = _
  rw [found, blanked_block found]
  rfl

theorem blanked_unclosed (missing : firstClose text = none) :
    blanked .code ('/' :: '*' :: text) = '/' :: '*' :: text := by
  show (if (firstClose text).isSome then _ else '/' :: '*' :: text) = _
  rw [missing]
  rfl

theorem head_blanked (text : List Char) :
    (blanked .code text).head? = text.head? ∨ (blanked .code text).head? = some ' ' := by
  rw [blanked.eq_def]
  split <;> (try split_ifs) <;> simp_all

theorem behind_blanked (text : List Char) : Behind text (blanked .code text) := by
  intro c first
  rcases head_blanked text with same | space
  · exact .inl (same ▸ first)
  · exact .inr (.inl (Option.some.inj (first.symm.trans space)))

theorem Outcome.blank (later : Outcome X text out) : Outcome X (' ' :: text) out := by
  have turn := Outcome.turn (Turn.scan_eq (c := ' ') (.blank (by decide))) later
  have same : out.map (Found.lexemes (.blank : Found X) ++ ·) = out := by cases out <;> rfl
  rwa [same] at turn

theorem Outcome.blanked_code {found : Found X} (scanned : scan c text = .ok ⟨found, used, rest⟩)
    (code : ¬ found.IsComment) (later : Outcome X (blanked .code rest) out) :
    Outcome X (blanked .code (c :: text)) (out.map (found.lexemes ++ ·)) := by
  have literal (closing : used.getLast? = some '\'') : (blanked .code rest).head? ≠ some '\'' := by
    rcases head_blanked rest with same | space
    · rw [same]
      exact scan_literal scanned code closing
    · rw [space]
      decide
  obtain ⟨more, taken, -, again⟩ := scan_behind scanned code (behind_blanked rest) literal
  have kept : blanked .code (c :: text) = c :: (more ++ blanked .code rest) := by
    cases plainTurn_of_scan scanned code with
    | literal quote closed =>
      cases taken
      subst quote
      exact congrArg ('\'' :: ·) (blanked_string closed)
    | char plain dash slash =>
      cases taken
      rw [blanked_char (plain c mem_cons_self).1 dash slash]
      rfl
    | run inert splits =>
      cases taken
      rw [splits, ← cons_append, blanked_inert inert]
      rfl
  rw [kept]
  exact .turn (s := ⟨_, used, blanked .code rest⟩) again later

theorem Outcome.blanked_turn (scanned : scan c text = .ok s) (apart : ¬ Overlap (c :: text))
    (later : Outcome X (blanked .code s.rest) out) :
    Outcome X (blanked .code (c :: text)) (out.map (s.found.lexemes ++ ·)) := by
  have comment : out.map (([] : List (Lexeme X)) ++ ·) = out := by cases out <;> rfl
  cases scan_eq_iff.mp scanned with
  | @line text dash opens =>
    subst dash opens
    rw [Found.lexemes, comment, blanked_dashes]
    exact later.blank
  | @block inner more rest slash opens closed =>
    subst slash opens
    cases ends : firstClose inner with
    | none =>
      rw [closeComment_none ends] at closed
      cases closed
    | some found =>
      obtain ⟨body, after⟩ := found
      rw [closeComment_of_firstClose ends, if_neg fun last => apart ⟨inner, body, after, rfl, ends, last⟩] at closed
      cases closed
      rw [Found.lexemes, comment, blanked_comment ends]
      exact later.blank
  | blank | string | word | number | symbol => exact .blanked_code scanned id later

theorem Outcome.blanked (outcome : Outcome X text out) (apart : ∀ target, Reaches X text target → ¬ Overlap target) :
    Outcome X (blanked .code text) out := by
  induction outcome with
  | nil => exact .nil
  | turn scanned later ih =>
    exact .blanked_turn scanned (apart _ (.here _)) (ih fun target reaches => apart target (.turn scanned reaches))
  | @flaw c text flaw scanned =>
    cases scan_eq_iff.mp scanned with
    | @openComment inner slash opens opened =>
      subst slash opens
      cases ends : firstClose inner with
      | none =>
        rw [blanked_unclosed ends]
        exact .flaw scanned
      | some found =>
        obtain ⟨body, rest⟩ := found
        rw [closeComment_of_firstClose ends, if_neg fun last => apart _ (.here _) ⟨inner, body, rest, rfl, ends, last⟩]
          at opened
        cases opened
    | openString quote opened =>
      subst quote
      rw [Sql.blanked, blanked_open opened]
      exact .flaw scanned
    | unexpected blank dash slash quote letter digit unknown =>
      have behind := behind_blanked text
      rw [blanked_char quote dash slash]
      exact .flaw (Turn.scan_eq (.unexpected blank
        (fun both => dash ⟨both.1, behind.head (by decide) (by decide) both.2⟩)
        (fun both => slash ⟨both.1, behind.head (by decide) (by decide) both.2⟩) quote letter
        digit (symbol_none unknown behind)))
    | badNumber noWord digit failed =>
      rcases closed : closeNumber X text with ⟨more, rest, isFloat⟩
      have still := closeNumber_other_rest closed (behind_blanked rest)
      rw [closeNumber_splits closed, ← cons_append, blanked_inert (inert_number digit closed)]
      have again : numberAt c (more ++ Sql.blanked .code rest) = _ :=
        (numberAt_eq still).trans (numberAt_eq closed).symm
      exact .flaw (Turn.scan_eq (.badNumber noWord digit (again.trans failed)))

theorem Overlap.cut (overlap : Overlap text) :
    ∃ start, start <+: text ∧ start.head? = text.head? ∧ Outcome X start (.error .parseError) ∧
      ∃ lexemes, Outcome X (Sql.blanked .code start) (.ok lexemes) := by
  obtain ⟨inner, body, rest, rfl, found, last⟩ := overlap
  have cut := firstClose_other_rest found []
  refine ⟨'/' :: '*' :: (body ++ ['*', '/']), ⟨rest, ?_⟩, rfl, ?_, ?_⟩
  · rw [firstClose_splits found]
    simp
  · have unclosed : closeComment (body ++ ['*', '/']) = none := by
      rw [closeComment_of_firstClose cut, if_pos last]
      rfl
    exact .flaw (Turn.scan_eq (X := X) (.openComment rfl rfl unclosed))
  · rw [blanked_comment cut]
    exact ⟨_, Outcome.nil.blank⟩

theorem exists_cut_of_overlap (reaches : Reaches X text target) (overlap : Overlap target) :
    ∃ start, start <+: text ∧ start.head? = text.head? ∧ Outcome X start (.error .parseError) ∧
      ∃ lexemes, Outcome X (blanked .code start) (.ok lexemes) := by
  induction reaches with
  | here text => exact overlap.cut
  | @turn c text target s scanned later ih =>
    by_cases here : Overlap (c :: text)
    · exact here.cut
    · obtain ⟨start, ⟨more, cut⟩, head, fails, lexemes, reads⟩ := ih overlap
      obtain ⟨used, taken, splits, again⟩ := scan_same_head scanned head
      have shorter : c :: (used ++ start) <+: c :: text := ⟨more, by rw [splits, ← cut]; simp⟩
      refine ⟨c :: (used ++ start), shorter, rfl, .turn again fails, _,
        .blanked_turn again (fun overlap => here (overlap.of_prefix shorter)) reads⟩

theorem Reaches.append (reaches : Reaches X text target) (more : List Char) (goes : target ≠ []) :
    Reaches X (text ++ more) (target ++ more) := by
  induction reaches with
  | here text => exact .here _
  | @turn c text target s scanned later ih =>
    have extended := ih goes
    have head : (s.rest ++ more).head? = s.rest.head? := by
      cases rest : s.rest with
      | nil =>
        rw [rest] at later
        cases later
        exact absurd rfl goes
      | cons d rest => rfl
    obtain ⟨used, -, splits, again⟩ := scan_same_head scanned head
    rw [cons_append, splits, append_assoc]
    exact .turn again extended

variable [Runtime X]

theorem Outcome.tokensFrom (outcome : Outcome X text out) {turns : ℕ} (enough : text.length ≤ turns)
    (position : Position) :
    ((tokensFrom turns position text : Except Exc (List (Token X))).map (·.map Token.lexeme)).mapError Exc.cls =
    out := by
  induction outcome generalizing turns position with
  | nil => rw [Sql.tokensFrom]; rfl
  | flaw scanned =>
    obtain _ | turns := turns
    · simp at enough
    rw [Sql.tokensFrom, scanned]
    exact congrArg Except.error (Flaw.report_cls ..)
  | @turn c text s out scanned later ih =>
    obtain ⟨more, -, splits⟩ := (turned_of_scan scanned).splits
    obtain _ | turns := turns
    · simp at enough
    have shorter : s.rest.length ≤ turns := by
      rw [splits] at enough
      simp at enough
      omega
    rw [Sql.tokensFrom, scanned, ← ih shorter (s.after position (c :: text))]
    dsimp only
    cases (Sql.tokensFrom turns (s.after position (c :: text)) s.rest : Except Exc (List (Token X))) with
    | error e => rfl
    | ok tokens =>
      refine congrArg Except.ok ?_
      dsimp only
      rw [map_append, Scan.token_lexeme]

theorem Outcome.reading_eq {sql : String} (outcome : Outcome X sql.toList out) : reading X sql = out :=
  outcome.tokensFrom (le_refl _) _

/-- The prefixes of a text read the same with a space for each comment, unless the tokenizer comes to a block
comment that ends in `/*/`. -/
theorem comments_are_blanks_iff (sql : String) :
    (∀ start : String, start.toList <+: sql.toList → reading X start = reading X (withoutComments start)) ↔
      ∀ target, Reaches X sql.toList target → ¬ Overlap target := by
  constructor
  · intro same target reaches overlap
    obtain ⟨start, cut, -, fails, lexemes, reads⟩ := exists_cut_of_overlap reaches overlap
    obtain ⟨start, rfl⟩ : ∃ text : String, start = text.toList := ⟨String.ofList start, String.toList_ofList.symm⟩
    have given := same start cut
    have read : reading X (withoutComments start) = .ok lexemes :=
      Outcome.reading_eq (by rwa [withoutComments, String.toList_ofList])
    rw [fails.reading_eq, read] at given
    cases given
  · intro apart start cut
    obtain ⟨out, outcome⟩ := exists_outcome (X := X) start.toList
    have still : ∀ target, Reaches X start.toList target → ¬ Overlap target := by
      intro target reaches overlap
      obtain ⟨more, whole⟩ := cut
      have goes : target ≠ [] := by
        rintro rfl
        obtain ⟨_, _, _, same, -⟩ := overlap
        cases same
      exact apart _ (whole ▸ reaches.append more goes) (overlap.of_prefix ⟨more, rfl⟩)
    rw [outcome.reading_eq, withoutComments, Outcome.reading_eq]
    rw [String.toList_ofList]
    exact outcome.blanked still

theorem comments_not_blanks : ¬ ∀ sql : String, reading Unit sql = reading Unit (withoutComments sql) := by
  intro same
  have differs : reading Unit "/*/*/" ≠ reading Unit (withoutComments "/*/*/") := by
    have raises : reading Unit "/*/*/" = .error .parseError := rfl
    have reads : reading Unit (withoutComments "/*/*/") = .ok [.eof] := rfl
    rw [raises, reads]
    intro same
    cases same
  exact differs (same _)

end Tinydb.Sql
