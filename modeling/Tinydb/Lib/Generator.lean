import Tinydb.Lib.Program

/-! Generators that ask for something between the values they yield.

A generator is the whole run of a lazy producer: the values it yields, the requests
it makes on the way and how it ends, in the order in which a consumer that takes
every value sees them. Requests have no answer. `run` serves them with a program.
-/

namespace Tinydb.Lib

open Program

inductive Generator (ε ρ α : Type) where
  | done
  | fail (e : ε)
  | request (r : ρ) (rest : Generator ε ρ α)
  | yield (a : α) (rest : Generator ε ρ α)

namespace Generator

variable {ε ρ α β σ : Type} {serve : ρ → Program ε σ Unit} {s : σ}

def ofList : List α → Generator ε ρ α
  | [] => done
  | a :: rest => yield a (ofList rest)

def check (result : Except ε β) (next : β → Generator ε ρ α) : Generator ε ρ α :=
  match result with
  | .error e => fail e
  | .ok b => next b

def append : Generator ε ρ α → Generator ε ρ α → Generator ε ρ α
  | done, next => next
  | fail e, _ => fail e
  | request r rest, next => request r (rest.append next)
  | yield a rest, next => yield a (rest.append next)

/-- Every value is replaced by what `f` makes of it, before the next one is taken. -/
def flatMap (f : α → Generator ε ρ β) : Generator ε ρ α → Generator ε ρ β
  | done => done
  | fail e => fail e
  | request r rest => request r (rest.flatMap f)
  | yield a rest => (f a).append (rest.flatMap f)

def collect (next : List α → Generator ε ρ β) : Generator ε ρ α → Generator ε ρ β
  | done => next []
  | fail e => fail e
  | request r rest => request r (rest.collect next)
  | yield a rest => rest.collect fun others => next (a :: others)

def requests : Generator ε ρ α → List ρ
  | done => []
  | fail _ => []
  | request r rest => r :: rest.requests
  | yield _ rest => rest.requests

def run (serve : ρ → Program ε σ Unit) : Generator ε ρ α → Program ε σ (List α)
  | done => return []
  | fail e => raise e
  | request r rest => do
    serve r
    rest.run serve
  | yield a rest => do
    let others ← rest.run serve
    return a :: others

/-- A run without an error, by the values it yields. -/
inductive Yields : Generator ε ρ α → List α → Prop
  | done : Yields done []
  | request {r : ρ} {g : Generator ε ρ α} {xs : List α} (rest : Yields g xs) : Yields (request r g) xs
  | yield {a : α} {g : Generator ε ρ α} {xs : List α} (rest : Yields g xs) : Yields (yield a g) (a :: xs)

theorem yields_ofList (xs : List α) : (ofList xs : Generator ε ρ α).Yields xs := by
  induction xs with
  | nil => exact .done
  | cons a rest ih => exact .yield ih

namespace Yields

variable {g h : Generator ε ρ α} {xs ys : List α}

theorem append (first : g.Yields xs) (second : h.Yields ys) : (g.append h).Yields (xs ++ ys) := by
  induction first with
  | done => exact second
  | request _ ih => exact .request ih
  | yield _ ih => exact .yield ih

theorem flatMap {f : α → Generator ε ρ β} {out : α → List β} (taken : g.Yields xs)
    (each : ∀ a ∈ xs, (f a).Yields (out a)) : (g.flatMap f).Yields (xs.flatMap out) := by
  induction taken with
  | done => exact .done
  | request _ ih => exact .request (ih each)
  | yield _ ih =>
    obtain ⟨here, later⟩ := List.forall_mem_cons.mp each
    exact here.append (ih later)

theorem collect {next : List α → Generator ε ρ β} {out : List β} (taken : g.Yields xs) (after : (next xs).Yields out) :
    (g.collect next).Yields out := by
  induction taken generalizing next with
  | done => exact after
  | request _ ih => exact .request (ih after)
  | yield _ ih => exact ih after

end Yields

theorem wp_run_invariant {I : σ → Prop} (keeps : ∀ r t, I t → (serve r).wp (fun _ => I) (fun _ => I) t)
    (g : Generator ε ρ α) (enter : I s) : (g.run serve).wp (fun _ => I) (fun _ => I) s := by
  induction g generalizing s with
  | done | fail e => exact enter
  | request r rest ih =>
    rw [run, wp_bind]
    exact (keeps r s enter).mono (fun _ _ kept => ih kept) fun _ _ kept => kept
  | yield a rest ih =>
    rw [run, wp_bind]
    exact (ih enter).mono (fun _ _ kept => kept) fun _ _ kept => kept

theorem run_of_idle {g : Generator ε ρ α} (idle : ∀ r ∈ g.requests, (serve r).Returns s () s) :
    (g.run serve s).state = s := by
  induction g with
  | done | fail e => rfl
  | request r rest ih =>
    rw [run, bind_of_returns (idle r List.mem_cons_self)]
    exact ih fun r later => idle r (List.mem_cons_of_mem _ later)
  | yield a rest ih =>
    refine wp_state (P := (· = s)) ?_
    rw [run, wp_bind]
    have rested : (rest.run serve s).state = s := ih idle
    refine wp_iff.mpr ⟨fun _ _ returned => ?_, fun _ _ raised => raised.2.symm.trans rested⟩
    exact returned.2.symm.trans rested

theorem wp_run_of_request {idle : ρ → Prop} {J : σ → Prop} (stays : ∀ r, idle r → (serve r).Returns s () s)
    (leaves : ∀ r, ¬ idle r → (serve r).wp (fun _ => J) (fun _ => J) s)
    (keeps : ∀ r t, J t → (serve r).wp (fun _ => J) (fun _ => J) t) {g : Generator ε ρ α}
    (active : ∃ r ∈ g.requests, ¬ idle r) : (g.run serve).wp (fun _ => J) (fun _ => J) s := by
  induction g with
  | done | fail e => simp [requests] at active
  | request r rest ih =>
    rw [run, wp_bind]
    by_cases first : idle r
    · refine (wp_of_returns (stays r first)).mpr (ih ?_)
      obtain ⟨other, member, busy⟩ := active
      rcases List.mem_cons.mp member with rfl | later
      · exact (busy first).elim
      · exact ⟨other, later, busy⟩
    · exact (leaves r first).mono (fun _ _ reached => wp_run_invariant keeps rest reached) fun _ _ reached => reached
  | yield a rest ih =>
    rw [run, wp_bind]
    exact (ih active).mono (fun _ _ reached => reached) fun _ _ reached => reached

end Generator

end Tinydb.Lib
