import Mathlib.Init

/-! Recursive descent over a list of tokens.

A parser looks at the front of the list, takes tokens from it or raises. A loop or a
recursion that takes a token in every turn is bounded by the length of the list.
-/

namespace Tinydb.Lib

abbrev Parser (τ ε α : Type) := StateT (List τ) (Except ε) α

namespace Parser

variable {τ ε α : Type} {e : ε} {β : Type} {p : Parser τ ε α} {f : α → Parser τ ε β} {tokens rest : List τ} {a a' : α}
  {stuck : ε} {step : α → Parser τ ε (Option α)} {turns : Nat} {good : α → Prop} {pre place : List τ → Prop}
  {n m : Nat} {used : α → Nat} {more : β → Nat} {fewer : α → Nat} {r : Except ε (α × List τ)}

def peek (missing : ε) : Parser τ ε τ
  | [] => .error missing
  | token :: rest => .ok (token, token :: rest)

def advance (missing : ε) : Parser τ ε τ
  | [] => .error missing
  | token :: rest => .ok (token, rest)

def iterate (stuck : ε) (step : α → Parser τ ε (Option α)) : Nat → α → Parser τ ε α
  | 0, _ => throw stuck
  | turns + 1, a => do
    match ← step a with
    | none => return a
    | some a' => iterate stuck step turns a'

def bounded (p : Nat → Parser τ ε α) : Parser τ ε α := fun tokens => p (tokens.length + 1) tokens

def loop (stuck : ε) (step : α → Parser τ ε (Option α)) (a : α) : Parser τ ε α :=
    bounded fun turns => iterate stuck step turns a

theorem bind_apply (p : Parser τ ε α) (f : α → Parser τ ε β) (tokens : List τ) :
    (p >>= f) tokens = p tokens >>= fun (a, rest) => f a rest := rfl

theorem bind_of_ok (first : p tokens = .ok (a, rest)) : (p >>= f) tokens = f a rest := by
  rw [bind_apply, first]
  rfl

theorem bind_of_error (first : p tokens = .error e) : (p >>= f) tokens = .error e := by
  rw [bind_apply, first]
  rfl

theorem bind_eq_ok {b : β} : (p >>= f) tokens = .ok (b, rest) ↔
    ∃ a between, p tokens = .ok (a, between) ∧ f a between = .ok (b, rest) := by
  rw [bind_apply]
  cases p tokens with
  | error e => exact ⟨nofun, nofun⟩
  | ok first =>
    obtain ⟨a, between⟩ := first
    exact ⟨fun run => ⟨a, between, rfl, run⟩, fun ⟨_, _, same, run⟩ => by cases same; exact run⟩

theorem iterate_stop (stops : step a tokens = .ok (none, rest)) :
    iterate stuck step (turns + 1) a tokens = .ok (a, rest) := by
  rw [iterate, bind_of_ok stops]
  rfl

theorem iterate_go (goes : step a tokens = .ok (some a', rest)) :
    iterate stuck step (turns + 1) a tokens = iterate stuck step turns a' rest := by
  rw [iterate, bind_of_ok goes]

def Only (good : α → Prop) (p : Parser τ ε α) : Prop := ∀ tokens a rest, p tokens = .ok (a, rest) → good a

theorem only_pure (here : good a) : Only good (pure a : Parser τ ε α) := by
  intro tokens b rest run
  cases run
  exact here

theorem only_throw (e : ε) : Only good (throw e : Parser τ ε α) := by
  intro tokens a rest run
  cases run

theorem only_bind {good : β → Prop} (p : Parser τ ε α) (later : ∀ a, Only good (f a)) :
    Only good (p >>= f) := by
  intro tokens b rest run
  obtain ⟨a, between, -, run⟩ := bind_eq_ok.mp run
  exact later a between b rest run

/-! ## Where a parser may end

From a place in the list a parser comes to a place further on, or it raises. What it raises was raised by a
parser that it came to on the way. A loop that goes on only after it took a token does not run out of turns.
-/

/-- The run of a parser on a list comes to a run of `q`: of itself, of the first of two parsers, of the second
once the first has returned, or of a bounded parser with its bound. -/
inductive Comes {γ : Type} (q : Parser τ ε γ) : {α : Type} → Parser τ ε α → List τ → List τ → Prop where
  | here {site : List τ} : Comes q q site site
  | first {α β : Type} {p : Parser τ ε α} {f : α → Parser τ ε β} {tokens site : List τ}
      (within : Comes q p tokens site) :
      Comes q (p >>= f) tokens site
  | later {α β : Type} {p : Parser τ ε α} {f : α → Parser τ ε β} {tokens rest site : List τ} {a : α}
      (ran : p tokens = .ok (a, rest)) (within : Comes q (f a) rest site) : Comes q (p >>= f) tokens site
  | bounded {α : Type} {p : Nat → Parser τ ε α} {tokens site : List τ}
      (within : Comes q (p (tokens.length + 1)) tokens site) :
      Comes q (bounded p) tokens site

/-- An error ends the whole run. -/
theorem Comes.raises {γ : Type} {q : Parser τ ε γ} {site : List τ} (comes : Comes q p tokens site)
    (raised : q site = .error e) : p tokens = .error e := by
  induction comes with
  | here => exact raised
  | first _ ih => exact bind_of_error (ih raised)
  | later ran _ ih => exact (bind_of_ok ran).trans (ih raised)
  | bounded _ ih => exact ih raised

section Blame

variable {blames : (γ : Type) → Parser τ ε γ → List τ → ε → Prop}

/-- An error that `blames` allows to some parser on the way. -/
def Blamed (blames : (γ : Type) → Parser τ ε γ → List τ → ε → Prop) (p : Parser τ ε α)
    (tokens : List τ) (e : ε) : Prop :=
  ∃ (γ : Type) (q : Parser τ ε γ) (site : List τ), Comes q p tokens site ∧ blames γ q site e

theorem blamed_here (blamed : blames α p tokens e) : Blamed blames p tokens e := ⟨α, p, tokens, .here, blamed⟩

theorem Blamed.first (blamed : Blamed blames p tokens e) : Blamed blames (p >>= f) tokens e := by
  obtain ⟨γ, q, site, comes, blamed⟩ := blamed
  exact ⟨γ, q, site, .first comes, blamed⟩

theorem Blamed.later (blamed : Blamed blames (f a) rest e) (ran : p tokens = .ok (a, rest)) :
    Blamed blames (p >>= f) tokens e := by
  obtain ⟨γ, q, site, comes, blamed⟩ := blamed
  exact ⟨γ, q, site, .later ran comes, blamed⟩

def Fine (place : List τ → Prop) (errors : ε → Prop) (tokens : List τ) (used : α → Nat) : Except ε (α × List τ) → Prop
  | .ok (a, rest) => place rest ∧ rest.length + used a ≤ tokens.length
  | .error e => errors e

theorem Fine.imp {errors errors' : ε → Prop} (fine : Fine place errors tokens used r)
    (weaker : ∀ e, errors e → errors' e) (le : ∀ a, fewer a ≤ used a) : Fine place errors' tokens fewer r := by
  rcases r with e | ⟨a, rest⟩
  · exact weaker e fine
  · exact ⟨fine.1, Nat.le_trans (Nat.add_le_add_left (le a) _) fine.2⟩

theorem Fine.after {k : Nat} (ran : p tokens = .ok (a, rest)) (taken : rest.length + k ≤ tokens.length)
    (fine : Fine place (Blamed blames (f a) rest) rest more (f a rest)) :
    Fine place (Blamed blames (p >>= f) tokens) tokens (fun b => more b + k) ((p >>= f) tokens) := by
  rw [bind_of_ok ran]
  generalize f a rest = ended at fine
  rcases ended with e | ⟨b, after⟩
  · exact Blamed.later fine ran
  · obtain ⟨at', later⟩ := fine
    exact ⟨at', show after.length + (more b + k) ≤ tokens.length by omega⟩

/-- A parser ends well on every list that it may start with and that is not too long. -/
def Sound (pre place : List τ → Prop) (blames : (γ : Type) → Parser τ ε γ → List τ → ε → Prop)
    (n : Nat) (used : α → Nat) (p : Parser τ ε α) : Prop :=
  ∀ tokens, pre tokens → tokens.length ≤ n → Fine place (Blamed blames p tokens) tokens used (p tokens)

theorem Sound.weaken (sound : Sound pre place blames n used p) (le : ∀ a, fewer a ≤ used a) :
    Sound pre place blames n fewer p := fun tokens start short => (sound tokens start short).imp (fun _ => id) le

theorem Sound.forget (sound : Sound pre place blames n used p) : Sound pre place blames n (fun _ => 0) p :=
  sound.weaken fun _ => Nat.zero_le _

theorem Sound.mono (sound : Sound pre place blames n used p) (le : m ≤ n) : Sound pre place blames m used p :=
  fun tokens start short => sound tokens start (Nat.le_trans short le)

theorem Sound.start {pre' : List τ → Prop} (sound : Sound pre place blames n used p)
    (weaker : ∀ tokens, pre' tokens → pre tokens) :
    Sound pre' place blames n used p := fun tokens start short => sound tokens (weaker tokens start) short

theorem sound_pure (none : used a = 0) : Sound place place blames n used (pure a) :=
  fun tokens start _ => ⟨start, by rw [none]; exact Nat.le_refl _⟩

theorem sound_throw (blamed : ∀ tokens, blames α (throw e) tokens e) :
    Sound pre place blames n used (throw e : Parser τ ε α) :=
  fun tokens _ _ => blamed_here (blamed tokens)

theorem Sound.bind {total : β → Nat} (first : Sound pre place blames n used p)
    (rest : ∀ a, used a ≤ n → Sound place place blames (n - used a) (fun b => total b - used a) (f a)) :
    Sound pre place blames n total (p >>= f) := by
  intro tokens start short
  have ran := first tokens start short
  rcases run : p tokens with e | ⟨a, between⟩
  · rw [run] at ran
    rw [bind_of_error run]
    exact Blamed.first ran
  · rw [run] at ran
    obtain ⟨at', taken⟩ := ran
    have next := rest a (by omega) between at' (by omega)
    exact (Fine.after run taken next).imp (fun _ => id) fun b => by omega

theorem sound_get {f : List τ → Parser τ ε α} (each : ∀ tokens, Sound pre place blames n used (f tokens)) :
    Sound pre place blames n used (get >>= f) := by
  intro tokens start short
  have ran : (get : Parser τ ε (List τ)) tokens = .ok (tokens, tokens) := rfl
  exact Fine.after (k := 0) ran (Nat.le_refl _) (each tokens tokens start short)

theorem Sound.later (first : Sound pre place blames n used p) (rest : ∀ a, Sound place place blames n more (f a)) :
    Sound pre place blames n more (p >>= f) :=
  first.bind fun a _ => ((rest a).mono (Nat.sub_le _ _)).weaken fun _ => Nat.sub_le _ _

theorem Sound.first {k : Nat} (first : Sound pre place blames n (fun _ => k) p)
    (rest : ∀ a, Sound place place blames n (fun _ => 0) (f a)) : Sound pre place blames n (fun _ => k) (p >>= f) :=
  first.bind fun a _ => ((rest a).mono (Nat.sub_le _ _)).weaken fun _ => by simp

theorem Sound.cond {p : Parser τ ε Bool} {used : Bool → Nat} {yes no : Parser τ ε β}
    (asked : Sound pre place blames n used p)
    (here : Sound place place blames n more yes) (other : Sound place place blames n more no) :
    Sound pre place blames n more (p >>= fun found => if found then yes else no) := by
  refine asked.later fun found => ?_
  cases found with
  | true => exact here
  | false => exact other

theorem sound_bounded {p : Nat → Parser τ ε α} (each : ∀ m ≤ n, Sound pre place blames m used (p (m + 1))) :
    Sound pre place blames n used (bounded p) := by
  intro tokens start short
  refine (each tokens.length short tokens start (Nat.le_refl _)).imp (fun e blamed => ?_) fun _ => Nat.le_refl _
  obtain ⟨γ, q, site, comes, blamed⟩ := blamed
  exact ⟨γ, q, site, .bounded comes, blamed⟩

def turnTakes : Option α → Nat
  | some _ => 1
  | none => 0

theorem sound_iterate (turn : ∀ a, Sound place place blames n turnTakes (step a)) (turns m : Nat) (enough : m < turns)
    (le : m ≤ n) (a : α) : Sound place place blames m (fun _ => 0) (iterate stuck step turns a) := by
  induction turns generalizing m a with
  | zero => exact absurd enough (Nat.not_lt_zero _)
  | succ turns ih =>
    refine ((turn a).mono le).bind fun more taken => ?_
    cases more with
    | none => exact sound_pure rfl
    | some a' =>
      simp only [turnTakes] at taken ⊢
      exact ih (m - 1) (by omega) (by omega) a'

theorem sound_loop (turn : ∀ a, Sound place place blames n turnTakes (step a)) (a : α) :
    Sound place place blames n (fun _ => 0) (loop stuck step a) :=
  sound_bounded fun m le => sound_iterate turn (m + 1) m (Nat.lt_succ_self m) le a

end Blame

end Parser

end Tinydb.Lib
