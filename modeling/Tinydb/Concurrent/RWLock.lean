import Tinydb.Lib.Monitor
import Mathlib.Data.List.Perm.Subperm
import Mathlib.Tactic.Ring

/-! The shared-exclusive lock (`concurrent/rwlock.py`), as a monitor with one condition.

`acquire_write` announces itself before it waits, and with `prefer_writer` an announced writer
keeps new readers out. Nobody is notified when that writer gives up.
-/

namespace Tinydb.Concurrent

open Lib List

structure RWLock where
  readers : ℤ
  writer : Option ℕ
  writersWaiting : ℤ
  preferWriter : Bool
  deriving DecidableEq

namespace RWLock

inductive Call where
  | acquireRead | acquireWrite
  deriving DecidableEq

inductive Action where
  | releaseRead | releaseWrite
  deriving DecidableEq

def new (preferWriter : Bool) : RWLock := ⟨0, none, 0, preferWriter⟩

def acquireRead : Guarded RWLock where
  enter := id
  blocked lock := lock.writer.isSome || (lock.preferWriter && decide (0 < lock.writersWaiting))
  grant _ lock := { lock with readers := lock.readers + 1 }
  refuse := id

-- The announcement is taken back in a `finally`, on both ways out.
def acquireWrite : Guarded RWLock where
  enter lock := { lock with writersWaiting := lock.writersWaiting + 1 }
  blocked lock := decide (0 < lock.readers) || lock.writer.isSome
  grant me lock := { lock with writer := some me, writersWaiting := lock.writersWaiting - 1 }
  refuse lock := { lock with writersWaiting := lock.writersWaiting - 1 }

def releaseRead (lock : RWLock) : Option (RWLock × Bool) :=
  if lock.readers ≤ 0 ∨ lock.writer.isSome then none
  else some ({ lock with readers := lock.readers - 1 }, decide (lock.readers - 1 = 0))

def releaseWrite (me : ℕ) (lock : RWLock) : Option (RWLock × Bool) :=
  if lock.writer ≠ some me then none else some ({ lock with writer := none }, true)

def monitor : MonitorClass RWLock Call Action where
  method
    | .acquireRead => acquireRead
    | .acquireWrite => acquireWrite
  action
    | .releaseRead, _, lock => lock.releaseRead
    | .releaseWrite, me, lock => lock.releaseWrite me

abbrev State := Monitor RWLock Call

abbrev Label := Choice Call Action × MonitorEvent Call Action

def unused (preferWriter : Bool) : State := ⟨new preferWriter, []⟩

def readGranted : Label → Option ℕ
  | (_, .attempted thread .acquireRead .granted) => some thread
  | _ => none

def readReleased : Label → Option ℕ
  | (_, .acted thread .releaseRead) => some thread
  | _ => none

def writeGranted : Label → Option ℕ
  | (_, .attempted thread .acquireWrite .granted) => some thread
  | _ => none

def writeReleased : Label → Option ℕ
  | (_, .acted thread .releaseWrite) => some thread
  | _ => none

def readsHeld (labels : List Label) : ℤ :=
  (labels.filterMap readGranted).length - (labels.filterMap readReleased).length

def readsHeldBy (thread : ℕ) (labels : List Label) : ℤ :=
  (labels.filterMap readGranted).count thread - (labels.filterMap readReleased).count thread

def writesHeldBy (thread : ℕ) (labels : List Label) : ℤ :=
  (labels.filterMap writeGranted).count thread - (labels.filterMap writeReleased).count thread

def isWriter (waiter : Parked Call) : Bool := decide (waiter.call = .acquireWrite)

/-- The threads inside `acquire_write` that neither got the lock nor gave up. -/
def waitingWriters (m : State) : List ℕ := (m.parked.filter isWriter).map (·.thread)

structure Sound (preferWriter : Bool) (labels : List Label) (m : State) : Prop where
  prefers : m.shared.preferWriter = preferWriter
  reads : m.shared.readers = readsHeld labels
  counted : 0 ≤ m.shared.readers
  writes : ∀ thread, writesHeldBy thread labels = if m.shared.writer = some thread then 1 else 0
  exclusive : m.shared.writer.isSome = true → m.shared.readers = 0
  waiting : m.shared.writersWaiting = m.parked.countP isWriter
  distinct : (m.parked.map (·.thread)).Nodup

theorem sound_unused (preferWriter : Bool) : Sound preferWriter [] (unused preferWriter) := by
  refine ⟨rfl, rfl, le_refl _, fun thread => ?_, nofun, rfl, nodup_nil⟩
  simp [writesHeldBy, unused, new]

section Step

variable {m m' : State} {choice : Choice Call Action} {event : MonitorEvent Call Action} {thread : ℕ} {call : Call}
  {s : RWLock} {others : List (Parked Call)} {preferWriter : Bool} {labels : List Label}
  (sound : Sound preferWriter labels m)

theorem resumes_fields (resumes : Monitor.Resumes monitor m choice thread call s others)
    (waiting : m.shared.writersWaiting = m.parked.countP isWriter) :
    s = { m.shared with writersWaiting := others.countP isWriter + if call = .acquireWrite then 1 else 0 } := by
  cases resumes with
  | enters =>
    cases call with
    | acquireRead => simp [monitor, acquireRead, ← waiting]
    | acquireWrite => simp [monitor, acquireWrite, ← waiting]
  | @wakes waiter _ parked =>
    have count := (perm_cons_erase parked).countP_eq isWriter
    rw [countP_cons] at count
    have split : m.shared.writersWaiting =
        ((m.parked.erase waiter).countP isWriter : ℤ) + if waiter.call = .acquireWrite then 1 else 0 := by
      rw [waiting, count]
      simp [isWriter]
    rw [← split]

theorem countP_notifyAll (parked : List (Parked Call)) :
    (Monitor.notifyAll parked).countP isWriter = parked.countP isWriter := by
  rw [Monitor.notifyAll, countP_map]
  rfl

theorem filterMap_snoc (kind : Label → Option ℕ) (labels : List Label) (label : Label) :
    (labels ++ [label]).filterMap kind = labels.filterMap kind ++ (kind label).toList := by
  cases here : kind label with
  | none | some thread => simp [here]

theorem readsHeld_snoc (label : Label) : readsHeld (labels ++ [label]) =
    readsHeld labels + (readGranted label).toList.length - (readReleased label).toList.length := by
  simp only [readsHeld, filterMap_snoc, length_append]
  push_cast
  ring

theorem writesHeldBy_snoc (label : Label) : writesHeldBy thread (labels ++ [label]) =
    writesHeldBy thread labels + (writeGranted label).toList.count thread -
    (writeReleased label).toList.count thread := by
  simp only [writesHeldBy, filterMap_snoc, count_append]
  push_cast
  ring

include sound

theorem Sound.idle (same : m'.shared = { m.shared with writersWaiting := m'.parked.countP isWriter })
    (distinct : (m'.parked.map (·.thread)).Nodup)
    (reads : readsHeld (labels ++ [(choice, event)]) = readsHeld labels)
    (writes : ∀ thread, writesHeldBy thread (labels ++ [(choice, event)]) = writesHeldBy thread labels) :
    Sound preferWriter (labels ++ [(choice, event)]) m' where
  prefers := by rw [same]; exact sound.prefers
  reads := by rw [same, reads]; exact sound.reads
  counted := by rw [same]; exact sound.counted
  writes thread := by rw [same, writes]; exact sound.writes thread
  exclusive := by rw [same]; exact sound.exclusive
  waiting := by rw [same]
  distinct := distinct

theorem Sound.granted (resumes : Monitor.Resumes monitor m choice thread call s others)
    (free : (monitor.method call).blocked s = false) :
    Sound preferWriter (labels ++ [(choice, .attempted thread call .granted)])
    ⟨(monitor.method call).grant thread s, others⟩ := by
  have distinct : (others.map (·.thread)).Nodup := (resumes.sublist.map _).nodup sound.distinct
  obtain rfl := resumes_fields resumes sound.waiting
  cases call with
  | acquireRead =>
    have vacant : m.shared.writer = none := by
      simpa [monitor, acquireRead] using (Bool.or_eq_false_iff.mp free).1
    refine ⟨sound.prefers, ?_, ?_, fun holder => ?_, ?_, ?_, distinct⟩
    · simp [readsHeld_snoc, readGranted, readReleased, ← sound.reads, monitor, acquireRead]
    · exact add_nonneg sound.counted zero_le_one
    · simp [writesHeldBy_snoc, writeGranted, writeReleased, sound.writes, monitor, acquireRead]
    · simp [monitor, acquireRead, vacant]
    · simp [monitor, acquireRead]
  | acquireWrite =>
    obtain ⟨unread, vacant⟩ : m.shared.readers ≤ 0 ∧ m.shared.writer = none := by
      simpa [monitor, acquireWrite] using free
    refine ⟨sound.prefers, ?_, sound.counted, fun holder => ?_, fun _ => ?_, ?_, distinct⟩
    · simp [readsHeld_snoc, readGranted, readReleased, ← sound.reads, monitor, acquireWrite]
    · simp [writesHeldBy_snoc, writeGranted, writeReleased, sound.writes, vacant, monitor,
        acquireWrite, count_singleton]
    · exact le_antisymm unread sound.counted
    · simp [monitor, acquireWrite]

theorem Sound.acted {action : Action} {notifies : Bool}
    (done : monitor.action action thread m.shared = some (s, notifies)) :
    Sound preferWriter (labels ++ [(choice, .acted thread action)])
      ⟨s, if notifies then Monitor.notifyAll m.parked else m.parked⟩ := by
  have counts : (if notifies then Monitor.notifyAll m.parked else m.parked).countP isWriter =
    m.parked.countP isWriter := by
    cases notifies with
    | true => exact countP_notifyAll m.parked
    | false => rfl
  have distinct : ((if notifies then Monitor.notifyAll m.parked else m.parked).map (·.thread)).Nodup := by
    cases notifies with
    | true => exact (Monitor.map_thread_notifyAll m.parked).symm ▸ sound.distinct
    | false => exact sound.distinct
  cases action with
  | releaseRead =>
    simp only [monitor, releaseRead] at done
    split_ifs at done with misused
    obtain ⟨held, vacant⟩ := not_or.mp misused
    cases done
    refine ⟨sound.prefers, ?_, ?_, fun holder => ?_, fun taken => absurd taken vacant, ?_, distinct⟩
    · simp [readsHeld_snoc, readGranted, readReleased, ← sound.reads]
    · exact Int.le_sub_one_of_lt (not_le.mp held)
    · simp [writesHeldBy_snoc, writeGranted, writeReleased, sound.writes]
    · rw [counts]; exact sound.waiting
  | releaseWrite =>
    simp only [monitor, releaseWrite] at done
    split_ifs at done with misused
    cases done
    refine ⟨sound.prefers, ?_, sound.counted, fun holder => ?_, nofun, ?_, distinct⟩
    · simp [readsHeld_snoc, readGranted, readReleased, ← sound.reads]
    · have mine : m.shared.writer = some thread := not_not.mp misused
      simp [writesHeldBy_snoc, writeGranted, writeReleased, sound.writes, mine, count_singleton]
    · rw [counts]; exact sound.waiting

theorem Sound.step (effect : Monitor.Effect monitor m choice event m') :
    Sound preferWriter (labels ++ [(choice, event)]) m' := by
  have distinct := effect.distinct sound.distinct
  cases effect with
  | granted resumes free => exact sound.granted resumes free
  | @refused _ thread call _ _ resumes =>
    obtain rfl := resumes_fields resumes sound.waiting
    refine sound.idle ?_ distinct ?_ fun holder => ?_
    · cases call <;> simp [monitor, acquireRead, acquireWrite]
    · simp [readsHeld_snoc, readGranted, readReleased]
    · simp [writesHeldBy_snoc, writeGranted, writeReleased]
  | waits resumes =>
    obtain rfl := resumes_fields resumes sound.waiting
    refine sound.idle ?_ distinct ?_ fun holder => ?_
    · simp [countP_cons, isWriter]
    · simp [readsHeld_snoc, readGranted, readReleased]
    · simp [writesHeldBy_snoc, writeGranted, writeReleased]
  | acted done => exact sound.acted done
  | raised =>
    refine sound.idle ?_ distinct ?_ fun holder => ?_
    · rw [← sound.waiting]
    · simp [readsHeld_snoc, readGranted, readReleased]
    · simp [writesHeldBy_snoc, writeGranted, writeReleased]

end Step

variable {preferWriter : Bool} {labels : List Label} {m : State} {thread : ℕ} {choice : Choice Call Action}

theorem sound_of_runs (runs : Runs (Monitor.Steps monitor) (unused preferWriter) labels m) :
    Sound preferWriter labels m :=
  runs.invariant (sound_unused preferWriter) fun _ _ _ _ sound steps => sound.step steps.effect

theorem readsHeldBy_eq_zero (none_held : readsHeld labels = 0) (fair : ∀ thread, 0 ≤ readsHeldBy thread labels)
    (thread : ℕ) : readsHeldBy thread labels = 0 := by
  have fewer : (labels.filterMap readReleased).Subperm (labels.filterMap readGranted) := by
    refine subperm_ext_iff.mpr fun holder _ => ?_
    have here := fair holder
    rw [readsHeldBy] at here
    omega
  have perm := fewer.perm_of_length_le (by rw [readsHeld] at none_held; omega)
  rw [readsHeldBy, perm.count_eq, sub_self]

theorem Sound.no_writer_waits {m' : State}
    {event : MonitorEvent Call Action} (sound : Sound preferWriter labels m) (prefers : preferWriter = true)
    (effect : Monitor.Effect monitor m choice event m') (granted : event = .attempted thread .acquireRead .granted) :
    waitingWriters m = [] := by
  cases effect with
  | granted resumes free =>
    obtain ⟨rfl, rfl, -⟩ := MonitorEvent.attempted.inj granted
    obtain rfl : _ = m.shared := resumes.shared.elim id id
    have uncounted : m.parked.countP isWriter = 0 := by
      simpa [monitor, acquireRead, sound.prefers, prefers, sound.waiting] using (Bool.or_eq_false_iff.mp free).2
    rw [waitingWriters, map_eq_nil_iff, ← length_eq_zero_iff, ← countP_eq_length_filter, uncounted]
  | refused | waits => exact absurd (MonitorEvent.attempted.inj granted).2.2 (by decide)
  | acted | raised => cases granted

/-- In every state of every run of the lock:
* at most one thread holds it for writing, once, and then no read is held, by any thread that never released
  more than it had;
* the counters of the lock are the numbers of reads held and of threads that wait to write;
* with `prefer_writer`, a step that grants a read finds no thread waiting to write. -/
theorem rwlock_excludes_and_counts (preferWriter : Bool)
    (runs : Runs (Monitor.Steps monitor) (unused preferWriter) labels m) :
    (∀ writer other, 0 < writesHeldBy writer labels → 0 < writesHeldBy other labels → writer = other) ∧
    (∀ writer, 0 < writesHeldBy writer labels → writesHeldBy writer labels = 1 ∧ readsHeld labels = 0 ∧
      ((∀ thread, 0 ≤ readsHeldBy thread labels) → ∀ thread, readsHeldBy thread labels = 0)) ∧
    (∀ thread, m.shared.writer = some thread ↔ 0 < writesHeldBy thread labels) ∧ m.shared.readers = readsHeld labels ∧
    (waitingWriters m).Nodup ∧ m.shared.writersWaiting = (waitingWriters m).length ∧
    (preferWriter = true → ∀ choice thread m',
      Monitor.Steps monitor m (choice, .attempted thread .acquireRead .granted) m' →
      waitingWriters m = []) := by
  have sound := sound_of_runs runs
  have holds : ∀ thread, m.shared.writer = some thread ↔ 0 < writesHeldBy thread labels := by
    intro thread
    rw [sound.writes]
    split_ifs with mine <;> simp [mine]
  refine ⟨fun writer other mine others => ?_, fun writer mine => ?_, holds, sound.reads, ?_, ?_, ?_⟩
  · exact Option.some.inj (((holds writer).mpr mine).symm.trans ((holds other).mpr others))
  · have taken := (holds writer).mpr mine
    have unread : readsHeld labels = 0 := by
      rw [← sound.reads]
      exact sound.exclusive (by rw [taken]; rfl)
    exact ⟨by rw [sound.writes, if_pos taken], unread, readsHeldBy_eq_zero unread⟩
  · exact (filter_sublist.map _).nodup sound.distinct
  · rw [sound.waiting, waitingWriters, length_map, countP_eq_length_filter]
  · intro prefers choice thread m' steps
    exact sound.no_writer_waits prefers steps.effect rfl

/-- A reader holds the lock, a writer waits, and the next reader waits behind the writer. -/
def queueBehindWriter : List Label :=
  [(.call 1 .acquireRead false false, .attempted 1 .acquireRead .granted),
    (.call 2 .acquireWrite true false, .attempted 2 .acquireWrite .waits),
    (.call 3 .acquireRead false false, .attempted 3 .acquireRead .waits)]

def queuedBehindWriter : State := ⟨⟨1, none, 1, true⟩,
    [⟨3, .acquireRead, false, false⟩, ⟨2, .acquireWrite, true, false⟩]⟩

theorem runs_queueBehindWriter : Runs (Monitor.Steps monitor) (unused true) queueBehindWriter queuedBehindWriter := by
  have played : Monitor.play monitor (unused true) (queueBehindWriter.map Prod.fst) =
    some (queueBehindWriter, queuedBehindWriter) :=
    rfl
  exact Monitor.runs_of_play .start played

theorem rwlock_excludes_and_counts_queue :
    Runs (Monitor.Steps monitor) (unused true) queueBehindWriter queuedBehindWriter ∧
      readsHeld queueBehindWriter = 1 ∧ waitingWriters queuedBehindWriter = [2] ∧
      queuedBehindWriter.shared.readers = readsHeld queueBehindWriter :=
  ⟨runs_queueBehindWriter, rfl, rfl, (rwlock_excludes_and_counts true runs_queueBehindWriter).2.2.2.1⟩

theorem steady : Monitor.Steady monitor where
  enter call other s closed := by
    cases call with
    | acquireRead => exact closed
    | acquireWrite =>
      cases other with
      | acquireRead =>
        simp only [monitor, acquireRead, acquireWrite, Bool.or_eq_true, Bool.and_eq_true, decide_eq_true_eq] at closed ⊢
        exact closed.imp id fun waits => ⟨waits.1, by omega⟩
      | acquireWrite => exact closed
  grant call thread other s free closed := by
    cases call with
    | acquireRead =>
      cases other with
      | acquireRead => exact closed
      | acquireWrite =>
        simp only [monitor, acquireWrite, acquireRead, Bool.or_eq_true, decide_eq_true_eq] at closed ⊢
        exact closed.imp (fun read => by omega) id
    | acquireWrite =>
      -- The lock is taken, and that closes both guards.
      cases other with
      | acquireRead => rfl
      | acquireWrite => exact Bool.or_true _
  action action thread other s s' done closed := by
    cases action with
    | releaseRead =>
      simp only [monitor, releaseRead] at done
      split_ifs at done with misused
      obtain ⟨rfl, more⟩ := Prod.mk.inj (Option.some.inj done)
      have others : s.readers - 1 ≠ 0 := of_decide_eq_false more
      cases other with
      | acquireRead => exact closed
      | acquireWrite =>
        have held : 0 < s.readers - 1 := by
          have := (not_or.mp misused).1
          omega
        simp only [monitor, acquireWrite, Bool.or_eq_true, decide_eq_true_eq]
        exact .inl held
    | releaseWrite =>
      simp only [monitor, releaseWrite] at done
      split_ifs at done
      exact absurd (Prod.mk.inj (Option.some.inj done)).2 (by decide)

/-- The last announced writer gives up while a reader waits behind it and no one writes. -/
def Strands (m : State) (choice : Choice Call Action) : Prop :=
  m.shared.preferWriter = true ∧ m.shared.writer = none ∧ 0 < m.shared.readers ∧
    (∃ writer ∈ m.parked, choice = .wake writer true ∧ writer.call = .acquireWrite ∧
      ∀ other ∈ m.parked, other.call = .acquireWrite → other = writer) ∧
    ∃ reader ∈ m.parked, reader.call = .acquireRead ∧ reader.notified = false

theorem Sound.still_waiting (sound : Sound preferWriter labels m) {writer other : Parked Call}
    (parked : writer ∈ m.parked)
    (writes : writer.call = .acquireWrite) (waits : other ∈ m.parked) (other_writes : other.call = .acquireWrite)
    (distinct : other ≠ writer) : 0 < m.shared.writersWaiting - 1 := by
  have count := (perm_cons_erase parked).countP_eq isWriter
  rw [countP_cons_of_pos (by simp [isWriter, writes])] at count
  have left : 0 < (m.parked.erase writer).countP isWriter :=
    countP_pos_iff.mpr ⟨other, (mem_erase_of_ne distinct).mpr waits, by simp [isWriter, other_writes]⟩
  rw [sound.waiting, count]
  omega

theorem Sound.refusal (sound : Sound preferWriter labels m) (kept : ¬ Strands m choice)
    (parked : Monitor.ParkedBlocked monitor m) {call : Call} {s : RWLock} {others : List (Parked Call)}
    (expired : choice.expired = true)
    (resumes : Monitor.Resumes monitor m choice thread call s others)
    (closed : (monitor.method call).blocked s = true) :
    Monitor.ParkedBlocked monitor ⟨(monitor.method call).refuse s, others⟩ := by
  intro waiter member unnotified
  have waits : waiter ∈ m.parked := resumes.sublist.subset member
  have guard := parked waiter waits unnotified
  cases resumes with
  | enters =>
    -- The announcement is made and taken back in one step.
    cases call with
    | acquireRead => exact guard
    | acquireWrite => simpa [monitor, acquireWrite] using guard
  | @wakes writer _ present =>
    obtain rfl : _ = true := expired
    cases reads : writer.call with
    | acquireRead => exact guard
    | acquireWrite =>
      rw [reads] at closed
      cases behind : waiter.call with
      | acquireWrite =>
        rw [behind] at guard
        exact guard
      | acquireRead =>
        rw [behind] at guard
        simp only [monitor, acquireRead, acquireWrite, Bool.or_eq_true, Bool.and_eq_true, decide_eq_true_eq]
          at guard closed ⊢
        rcases guard with taken | ⟨prefers, -⟩
        · exact .inl taken
        · cases holder : m.shared.writer with
          | some _ => exact .inl rfl
          | none =>
            have read : 0 < m.shared.readers := closed.resolve_right (by simp [holder])
            by_cases alone : ∀ other ∈ m.parked, other.call = .acquireWrite → other = writer
            · exact absurd ⟨prefers, holder, read, ⟨writer, present, rfl, reads, alone⟩, waiter,
                waits, behind, unnotified⟩ kept
            · push Not at alone
              obtain ⟨other, here, writes, distinct⟩ := alone
              exact .inr ⟨prefers, sound.still_waiting present reads here writes distinct⟩

/-- As long as no step strands a reader, a thread that waits without a notification has to wait. -/
theorem rwlock_no_lost_wakeup (preferWriter : Bool)
    (runs : Runs (fun m label m' => Monitor.Steps monitor m label m' ∧ ¬ Strands m label.1)
      (unused preferWriter) labels m) :
    ∀ waiter ∈ m.parked, waiter.notified = false → (monitor.method waiter.call).blocked m.shared = true := by
  have kept : Sound preferWriter labels m ∧ Monitor.ParkedBlocked monitor m := by
    refine runs.invariant (I := fun labels m => Sound preferWriter labels m ∧ Monitor.ParkedBlocked monitor m)
      ⟨sound_unused preferWriter, nofun⟩ ?_
    rintro labels m ⟨choice, event⟩ m' ⟨sound, parked⟩ ⟨steps, harmless⟩
    exact ⟨sound.step steps.effect, steps.effect.blocked steady (fun _ _ _ _ => sound.refusal harmless parked) parked⟩
  exact kept.2

theorem rwlock_no_lost_wakeup_queue :
    Runs (fun m label m' => Monitor.Steps monitor m label m' ∧ ¬ Strands m label.1) (unused true) queueBehindWriter
        queuedBehindWriter ∧ ∀ waiter ∈ queuedBehindWriter.parked, waiter.notified = false →
        (monitor.method waiter.call).blocked queuedBehindWriter.shared = true := by
  have calls : ∀ label ∈ queueBehindWriter, ∀ m, ¬ Strands m label.1 := by
    rintro label member m ⟨-, -, -, ⟨writer, -, wakes, -⟩, -⟩
    simp only [queueBehindWriter, mem_cons, not_mem_nil, or_false] at member
    obtain rfl | rfl | rfl := member <;> cases wakes
  have runs : Runs (fun m label m' => Monitor.Steps monitor m label m' ∧ ¬ Strands m label.1)
    (unused true) queueBehindWriter
      queuedBehindWriter :=
    runs_queueBehindWriter.mono fun label member m m' steps => ⟨steps, calls label member m⟩
  exact ⟨runs, rwlock_no_lost_wakeup true runs⟩

/-- The writer gives up, and the reader behind it sleeps on beside the reader that holds the lock. -/
theorem reader_sleeps_after_writer_gave_up :
    ¬ ∀ (preferWriter : Bool) (labels : List Label) (m : State),
    Runs (Monitor.Steps monitor) (unused preferWriter) labels m →
      ∀ waiter ∈ m.parked, waiter.notified = false → (monitor.method waiter.call).blocked m.shared = true := by
  intro never
  have gaveUp : Monitor.Steps monitor queuedBehindWriter
      (.wake ⟨2, .acquireWrite, true, false⟩ true, .attempted 2 .acquireWrite .refused)
      ⟨⟨1, none, 0, true⟩, [⟨3, .acquireRead, false, false⟩]⟩ := rfl
  have blocked := never true _ _ (runs_queueBehindWriter.next gaveUp) ⟨3, .acquireRead, false, false⟩
    (mem_singleton.mpr rfl) rfl
  exact absurd blocked (by decide)

end RWLock

end Tinydb.Concurrent
