import Tinydb.Lib.Runs

/-! Monitors with one condition variable.

All methods run under the same mutex, so a section between taking and giving up the mutex is one
step. A guarded method looks at its guard, and parks on the condition until it is notified or
its time is over; then it looks again. A parked thread that nobody notified relies on its
guard being closed still: `ParkedBlocked`.
-/

namespace Tinydb.Lib

/-- A method of the form `enter; while blocked: give up or wait; grant`. -/
structure Guarded (σ : Type) where
  enter : σ → σ
  blocked : σ → Bool
  grant : ℕ → σ → σ
  refuse : σ → σ

/-- The guarded methods of a class, and its methods that never wait: they raise, or change the state and say whether all
waiting threads are notified. -/
structure MonitorClass (σ κ α : Type) where
  method : κ → Guarded σ
  action : α → ℕ → σ → Option (σ × Bool)

/-- A thread that waits on the condition. -/
structure Parked (κ : Type) where
  thread : ℕ
  call : κ
  timed : Bool
  notified : Bool
  deriving DecidableEq

structure Monitor (σ κ : Type) where
  shared : σ
  parked : List (Parked κ)

inductive Verdict where
  | granted | refused | waits
  deriving DecidableEq

inductive MonitorEvent (κ α : Type) where
  | attempted (thread : ℕ) (call : κ) (verdict : Verdict)
  | acted (thread : ℕ) (action : α)
  | raised (thread : ℕ) (action : α)
  deriving DecidableEq

/-- What runs next. Whether a deadline has passed is only known to the clock. -/
inductive Choice (κ α : Type) where
  | call (thread : ℕ) (call : κ) (timed expired : Bool)
  | wake (waiter : Parked κ) (expired : Bool)
  | act (thread : ℕ) (action : α)

def Choice.expired {κ α : Type} : Choice κ α → Bool
  | .call _ _ _ expired | .wake _ expired => expired
  | .act _ _ => false

namespace Monitor

variable {σ κ α : Type} [DecidableEq κ] {s : σ} {others : List (Parked κ)} {monitor : MonitorClass σ κ α}
  {m m' : Monitor σ κ} {choice : Choice κ α} {event : MonitorEvent κ α} {thread : ℕ} {call : κ}

/-- The loop of a guarded method, up to the next time it gives up the mutex. -/
def attempt (guarded : Guarded σ) (thread : ℕ) (expired : Bool) (s : σ) : Verdict × σ :=
  if guarded.blocked s then if expired then (.refused, guarded.refuse s) else (.waits, s)
  else (.granted, guarded.grant thread s)

def parkIf (verdict : Verdict) (waiter : Parked κ) (parked : List (Parked κ)) : List (Parked κ) :=
  if verdict = .waits then waiter :: parked else parked

def notifyAll (parked : List (Parked κ)) : List (Parked κ) := parked.map fun waiter => { waiter with notified := true }

/-- A thread inside a method is parked or has the mutex, so it makes no other call. -/
def step (monitor : MonitorClass σ κ α) (m : Monitor σ κ) : Choice κ α → Option (MonitorEvent κ α × Monitor σ κ)
  | .call thread call timed expired =>
    if thread ∈ m.parked.map (·.thread) ∨ (expired ∧ ¬ timed) then none
    else
      let (verdict, s) := attempt (monitor.method call) thread expired ((monitor.method call).enter m.shared)
      some (.attempted thread call verdict, ⟨s, parkIf verdict ⟨thread, call, timed, false⟩ m.parked⟩)
  | .wake waiter expired =>
    if waiter ∉ m.parked ∨ ¬ (waiter.notified ∨ waiter.timed) ∨ (expired ∧ ¬ waiter.timed) then none
    else
      let (verdict, s) := attempt (monitor.method waiter.call) waiter.thread expired m.shared
      some (.attempted waiter.thread waiter.call verdict,
        ⟨s, parkIf verdict { waiter with notified := false } (m.parked.erase waiter)⟩)
  | .act thread action =>
    if thread ∈ m.parked.map (·.thread) then none
    else
      match monitor.action action thread m.shared with
      | none => some (.raised thread action, m)
      | some (s, notifies) => some (.acted thread action, ⟨s, if notifies then notifyAll m.parked else m.parked⟩)

def Steps (monitor : MonitorClass σ κ α) (m : Monitor σ κ) (label : Choice κ α × MonitorEvent κ α)
    (m' : Monitor σ κ) : Prop :=
  step monitor m label.1 = some (label.2, m')

def play (monitor : MonitorClass σ κ α) (m : Monitor σ κ) :
    List (Choice κ α) → Option (List (Choice κ α × MonitorEvent κ α) × Monitor σ κ)
  | [] => some ([], m)
  | choice :: rest =>
    match step monitor m choice with
    | none => none
    | some (event, next) => (play monitor next rest).map fun (labels, last) => ((choice, event) :: labels, last)

/-- How a thread comes to look at the guard of a method: with the shared state and the other waiting threads. -/
inductive Resumes (monitor : MonitorClass σ κ α) (m : Monitor σ κ) : Choice κ α → ℕ → κ → σ → List (Parked κ) → Prop
  | enters {thread : ℕ} (call : κ) (timed expired : Bool) (absent : thread ∉ m.parked.map (·.thread)) :
      Resumes monitor m (.call thread call timed expired) thread call ((monitor.method call).enter m.shared) m.parked
  | wakes {waiter : Parked κ} (expired : Bool) (parked : waiter ∈ m.parked) :
      Resumes monitor m (.wake waiter expired) waiter.thread waiter.call m.shared (m.parked.erase waiter)

/-- What one step can do. -/
inductive Effect (monitor : MonitorClass σ κ α) (m : Monitor σ κ) : Choice κ α → MonitorEvent κ α → Monitor σ κ → Prop
  | granted {choice : Choice κ α} {thread : ℕ} {call : κ} {s : σ} {others : List (Parked κ)}
      (resumes : Resumes monitor m choice thread call s others) (free : (monitor.method call).blocked s = false) :
      Effect monitor m choice (.attempted thread call .granted) ⟨(monitor.method call).grant thread s, others⟩
  | refused {choice : Choice κ α} {thread : ℕ} {call : κ} {s : σ} {others : List (Parked κ)}
      (resumes : Resumes monitor m choice thread call s others) (closed : (monitor.method call).blocked s = true)
      (expired : choice.expired = true) :
      Effect monitor m choice (.attempted thread call .refused) ⟨(monitor.method call).refuse s, others⟩
  | waits {choice : Choice κ α} {waiter : Parked κ} {s : σ} {others : List (Parked κ)}
      (resumes : Resumes monitor m choice waiter.thread waiter.call s others)
      (closed : (monitor.method waiter.call).blocked s = true) :
      Effect monitor m choice (.attempted waiter.thread waiter.call .waits) ⟨s, waiter :: others⟩
  | acted {thread : ℕ} {action : α} {s : σ} {notifies : Bool}
      (done : monitor.action action thread m.shared = some (s, notifies)) :
      Effect monitor m (.act thread action) (.acted thread action)
      ⟨s, if notifies then notifyAll m.parked else m.parked⟩
  | raised {thread : ℕ} {action : α} (failed : monitor.action action thread m.shared = none) :
      Effect monitor m (.act thread action) (.raised thread action) m

theorem Resumes.effect (waiter : Parked κ) (resumes : Resumes monitor m choice waiter.thread waiter.call s others) :
    Effect monitor m choice
      (.attempted waiter.thread waiter.call (attempt (monitor.method waiter.call) waiter.thread choice.expired s).1)
      ⟨(attempt (monitor.method waiter.call) waiter.thread choice.expired s).2,
        parkIf (attempt (monitor.method waiter.call) waiter.thread choice.expired s).1 waiter others⟩ := by
  rw [attempt]
  cases closed : (monitor.method waiter.call).blocked s with
  | false => exact .granted resumes closed
  | true =>
    cases expired : choice.expired with
    | true => exact .refused resumes closed expired
    | false => exact .waits resumes closed

theorem Steps.effect (steps : Steps monitor m (choice, event) m') : Effect monitor m choice event m' := by
  rw [Steps] at steps
  cases choice with
  | call thread call timed expired =>
    rw [step] at steps
    split_ifs at steps with excluded
    cases steps
    exact Resumes.effect ⟨thread, call, timed, false⟩ (.enters call timed expired (not_or.mp excluded).1)
  | wake waiter expired =>
    rw [step] at steps
    split_ifs at steps with excluded
    cases steps
    have resumes : Resumes monitor m (.wake waiter expired) waiter.thread waiter.call m.shared
      (m.parked.erase waiter) :=
      .wakes expired (not_not.mp (not_or.mp excluded).1)
    exact Resumes.effect { waiter with notified := false } resumes
  | act thread action =>
    rw [step] at steps
    split_ifs at steps
    cases result : monitor.action action thread m.shared with
    | none =>
      rw [result] at steps
      cases steps
      exact .raised result
    | some after =>
      rw [result] at steps
      cases steps
      exact .acted result

theorem runs_of_play {first : Monitor σ κ} {before : List (Choice κ α × MonitorEvent κ α)}
    (runs : Runs (Steps monitor) first before m)
    {choices : List (Choice κ α)} {labels : List (Choice κ α × MonitorEvent κ α)}
    (played : play monitor m choices = some (labels, m')) :
    Runs (Steps monitor) first (before ++ labels) m' := by
  induction choices generalizing before m labels with
  | nil =>
    obtain ⟨rfl, rfl⟩ := Prod.mk.inj (Option.some.inj played)
    rwa [List.append_nil]
  | cons choice rest ih =>
    rw [play] at played
    split at played
    · cases played
    · next event next made =>
      obtain ⟨⟨more, last⟩, rest_played, same⟩ := Option.map_eq_some_iff.mp played
      obtain ⟨rfl, rfl⟩ := Prod.mk.inj same
      have here : Steps monitor m (choice, event) next := made
      have later : Runs (Steps monitor) first ((before ++ [(choice, event)]) ++ more) last :=
        ih (.next runs here) rest_played
      rwa [List.append_assoc] at later

section

variable (resumes : Resumes monitor m choice thread call s others)
include resumes

theorem Resumes.sublist : others.Sublist m.parked := by
  cases resumes with
  | enters => exact .refl _
  | wakes => exact List.erase_sublist

theorem Resumes.shared : s = (monitor.method call).enter m.shared ∨ s = m.shared := by
  cases resumes with
  | enters => exact .inl rfl
  | wakes => exact .inr rfl

theorem Resumes.distinct (distinct : (m.parked.map (·.thread)).Nodup) : (thread :: others.map (·.thread)).Nodup := by
  cases resumes with
  | enters _ _ _ absent => exact List.nodup_cons.mpr ⟨absent, distinct⟩
  | @wakes waiter _ parked =>
    have perm : (m.parked.map (·.thread)).Perm (waiter.thread :: (m.parked.erase waiter).map (·.thread)) :=
      (List.perm_cons_erase parked).map _
    exact perm.nodup_iff.mp distinct

end

omit [DecidableEq κ] in
theorem map_thread_notifyAll (parked : List (Parked κ)) :
    (notifyAll parked).map (·.thread) = parked.map (·.thread) := by
  simp [notifyAll]

theorem Effect.distinct (effect : Effect monitor m choice event m') (distinct : (m.parked.map (·.thread)).Nodup) :
    (m'.parked.map (·.thread)).Nodup := by
  cases effect with
  | granted resumes | refused resumes => exact (resumes.sublist.map _).nodup distinct
  | waits resumes => exact resumes.distinct distinct
  | @acted thread action s notifies done =>
    cases notifies with
    | true => exact (map_thread_notifyAll m.parked).symm ▸ distinct
    | false => exact distinct
  | raised => exact distinct

def ParkedBlocked (monitor : MonitorClass σ κ α) (m : Monitor σ κ) : Prop :=
  ∀ waiter ∈ m.parked, waiter.notified = false → (monitor.method waiter.call).blocked m.shared = true

/-- Only giving up or a notification opens a guard. -/
structure Steady (monitor : MonitorClass σ κ α) : Prop where
  enter : ∀ call other s, (monitor.method other).blocked s = true →
  (monitor.method other).blocked ((monitor.method call).enter s) = true
  grant : ∀ call thread other s, (monitor.method call).blocked s = false → (monitor.method other).blocked s = true →
    (monitor.method other).blocked ((monitor.method call).grant thread s) = true
  action : ∀ action thread other s s', monitor.action action thread s = some (s', false) →
    (monitor.method other).blocked s = true → (monitor.method other).blocked s' = true

theorem Resumes.blocked (steady : Steady monitor)
    (resumes : Resumes monitor m choice thread call s others) (parked : ParkedBlocked monitor m) :
    ParkedBlocked monitor ⟨s, others⟩ := by
  intro waiter member unnotified
  have closed := parked waiter (resumes.sublist.subset member) unnotified
  cases resumes with
  | enters => exact steady.enter _ _ _ closed
  | wakes => exact closed

theorem Effect.blocked (steady : Steady monitor) (effect : Effect monitor m choice event m')
    (refusal : ∀ thread call s others, choice.expired = true → Resumes monitor m choice thread call s others →
      (monitor.method call).blocked s = true → ParkedBlocked monitor ⟨(monitor.method call).refuse s, others⟩)
    (parked : ParkedBlocked monitor m) : ParkedBlocked monitor m' := by
  cases effect with
  | granted resumes free =>
    intro waiter member unnotified
    exact steady.grant _ _ _ _ free (resumes.blocked steady parked waiter member unnotified)
  | refused resumes closed expired => exact refusal _ _ _ _ expired resumes closed
  | waits resumes closed =>
    intro waiter member unnotified
    rcases List.mem_cons.mp member with rfl | member
    · exact closed
    · exact resumes.blocked steady parked waiter member unnotified
  | @acted thread action s notifies done =>
    intro waiter member unnotified
    cases notifies with
    | true =>
      obtain ⟨old, -, rfl⟩ := List.mem_map.mp member
      exact nomatch unnotified
    | false => exact steady.action _ _ _ _ _ done (parked waiter member unnotified)
  | raised => exact parked

end Monitor

end Tinydb.Lib
