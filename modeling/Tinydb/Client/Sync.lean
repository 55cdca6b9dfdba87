import Tinydb.Protocol.Messages

/-! The synchronous client on one connection (`client/sync.py`).

The state is what the server has sent, or will send, for the requests so far and what
no call has taken from the queue yet. A call waits until its deadline; how many frames
reach it by then is up to the network and the server.
-/

namespace Tinydb.Client

open Lib Program Tinydb.Types Protocol List

structure Result (X : Type) where
  rows : List (List (Value X))
  rowcount : ℤ
  columns : List String
  lastInsertId : ℤ
  deriving DecidableEq

/-- `_Response`: the frames of one answer. -/
structure Response (X : Type) where
  header : Option (List (String × UInt8))
  rows : List (List (Value X))
  done : Option (ℤ × ℤ)
  error : Option (String × String)

namespace Response

variable {X : Type} [Wire X]

def new : Response X := ⟨none, [], none, none⟩

def put (response : Response X) : Message X → Response X
  | .resultHeader columns => { response with header := some columns }
  | .resultRow values => { response with rows := response.rows ++ [values] }
  | .resultDone rowcount lastInsertId _ => { response with done := some (rowcount, lastInsertId) }
  | .resultError code msg => { response with error := some (code, msg) }
  | _ => response

def add (response : Response X) (frame : Frame) : Except Exc (Response X) :=
  match MessageType.ofCode frame.type with
  | some .resultHeader | some .resultRow | some .resultDone | some .resultError => do
    return response.put (← decodeMessage frame)
  | _ => .ok response

def complete (response : Response X) : Bool := response.done.isSome || response.error.isSome

/-- What `_collect_response` makes of a complete answer. -/
def finish (response : Response X) : Except Exc (Result X) :=
  match response.error with
  | some (code, msg) =>
    if code = "22000" then .error ⟨.integrityError, msg⟩ else .error ⟨.clientProtocolError, code ++ ": " ++ msg⟩
  | none =>
    let (rowcount, lastInsertId) := response.done.getD (0, 0)
    .ok ⟨response.rows, rowcount, (response.header.getD []).map Prod.fst, lastInsertId⟩

end Response

abbrev ConnectionM := Program Exc (List Frame)

variable {X : Type} [Wire X]

def timedOut : Exc := ⟨.clientTimeoutError, "execute timed out"⟩

/-- `_collect_response`, when `arrivals` more frames reach the queue before the deadline. -/
def collectResponse : ℕ → Response X → ConnectionM (Result X)
  | 0, _ => raise timedOut
  | arrivals + 1, response => do
    match ← read with
    | [] => raise timedOut
    | frame :: pending =>
      modify fun _ => pending
      let response ← ofExcept (response.add frame)
      if response.complete then ofExcept response.finish else collectResponse arrivals response

/-- A call of `Client.execute`: what the server sends for its request, and how many frames come in time. -/
structure Call where
  answer : List Frame
  arrivals : ℕ

/-- The server answers in order, so what it sends for this request comes after all it still owes. -/
def execute (call : Call) : ConnectionM (Result X) := do
  modify (· ++ call.answer)
  collectResponse call.arrivals Response.new

/-- The frames that no call has taken after some calls on a new connection. -/
def pendingAfter (X : Type) [Wire X] (calls : List Call) : List Frame :=
  calls.foldl (fun pending call => (execute (X := X) call pending).state) []

variable {X : Type} {response : Response X} {message : Message X}

/-- What a server may send for one request. -/
inductive Answer (X : Type) where
  | failed (code msg : String)
  | counted (rowcount lastInsertId : ℤ) (statusFlags : UInt8)
  | selected (columns : List (String × UInt8)) (rows : List (List (Value X))) (rowcount lastInsertId : ℤ)
      (statusFlags : UInt8)

def Answer.messages : Answer X → List (Message X)
  | failed code msg => [.resultError code msg]
  | counted rowcount lastInsertId statusFlags => [.resultDone rowcount lastInsertId statusFlags]
  | selected columns rows rowcount lastInsertId statusFlags =>
    .resultHeader columns :: rows.map .resultRow ++ [.resultDone rowcount lastInsertId statusFlags]

def Answer.result : Answer X → Option (Result X)
  | failed _ _ => none
  | counted rowcount lastInsertId _ => some ⟨[], rowcount, [], lastInsertId⟩
  | selected columns rows rowcount lastInsertId _ => some ⟨rows, rowcount, columns.map Prod.fst, lastInsertId⟩

def Opens : Message X → Prop
  | .resultHeader _ | .resultRow _ => True
  | _ => False

def Closes : Message X → Prop
  | .resultDone _ _ _ | .resultError _ _ => True
  | _ => False

theorem Answer.messages_closed (answer : Answer X) :
    ∃ early last, answer.messages = early ++ [last] ∧ (∀ message ∈ early, Opens message) ∧ Closes last := by
  cases answer with
  | failed code msg | counted rowcount lastInsertId statusFlags => exact ⟨[], _, rfl, nofun, trivial⟩
  | selected columns rows rowcount lastInsertId statusFlags =>
    refine ⟨.resultHeader columns :: rows.map .resultRow, _, rfl, fun message member => ?_, trivial⟩
    rcases mem_cons.mp member with rfl | member
    · trivial
    · obtain ⟨row, -, rfl⟩ := mem_map.mp member
      trivial

theorem complete_put_opens (opens : Opens message) :
    (response.put message).complete = response.complete := by
  cases message with
  | resultHeader | resultRow => rfl
  | _ => exact opens.elim

theorem complete_put_closes (closes : Closes message) :
    (response.put message).complete = true := by
  cases message with
  | resultDone | resultError => simp [Response.put, Response.complete]
  | _ => exact closes.elim

theorem put_rows (rows : List (List (Value X))) (response : Response X) :
    (rows.map Message.resultRow).foldl Response.put response = { response with rows := response.rows ++ rows } := by
  induction rows generalizing response with
  | nil => simp
  | cons row rows ih =>
    rw [map_cons, foldl_cons, ih]
    simp [Response.put]

theorem finish_answer {answer : Answer X} {result : Result X}
    (finished : (answer.messages.foldl Response.put Response.new).finish = .ok result) :
    answer.result = some result := by
  cases answer with
  | failed code msg =>
    simp only [Answer.messages, foldl_cons, foldl_nil, Response.put, Response.finish] at finished
    split_ifs at finished
  | counted rowcount lastInsertId statusFlags =>
    cases finished
    rfl
  | selected columns rows rowcount lastInsertId statusFlags =>
    simp only [Answer.messages, foldl_append, foldl_cons, put_rows] at finished
    cases finished
    rfl

variable [Wire X] {answer : Answer X} {calls : List Call} {call : Call}

def Spells (frames : List Frame) (answer : Answer X) : Prop :=
  Forall₂ (fun frame message => decodeMessage frame = .ok message) frames answer.messages

theorem add_eq_put {frame : Frame} (decoded : decodeMessage frame = .ok message)
    (isResult : Opens message ∨ Closes message) : response.add frame = .ok (response.put message) := by
  have typed : MessageType.ofCode frame.type = some message.type := by
    rw [decodeMessage] at decoded
    split at decoded
    · cases decoded
    · rename_i type found
      rw [found, fromFrame_type decoded]
  rw [Response.add, typed]
  cases message with
  | resultHeader | resultRow | resultDone | resultError => exact bind_ok_iff.mpr ⟨_, decoded, rfl⟩
  | _ => exact isResult.elim False.elim False.elim

theorem wp_collectResponse {early : List (Message X)} {last : Message X} (opens : ∀ message ∈ early, Opens message)
    (closes : Closes last) {frames : List Frame} {arrivals : ℕ} {response : Response X}
    (spelled : Forall₂ (fun frame message => decodeMessage frame = .ok message) frames (early ++ [last]))
    (incomplete : response.complete = false) : (collectResponse arrivals response).wp
      (fun result pending => pending = [] ∧ ((early ++ [last]).foldl Response.put response).finish = .ok result)
      (fun _ pending => frames.length ≤ arrivals → pending = []) frames := by
  induction early generalizing frames arrivals response with
  | nil =>
    obtain ⟨frame, rest, decoded, ends, rfl⟩ := forall₂_cons_right_iff.mp spelled
    obtain rfl := forall₂_nil_right_iff.mp ends
    cases arrivals with
    | zero => exact fun enough => absurd enough (by simp)
    | succ arrivals =>
      rw [collectResponse, wp_bind, wp_read]
      simp only [wp_bind, wp_modify, add_eq_put decoded (.inr closes), wp_ofExcept_ok,
        complete_put_closes closes, if_true]
      rw [wp_ofExcept]
      exact ⟨fun result ended => ⟨rfl, ended⟩, fun _ _ _ => rfl⟩
  | cons message early ih =>
    obtain ⟨frame, rest, decoded, later, rfl⟩ := forall₂_cons_right_iff.mp spelled
    have opensHere := opens message mem_cons_self
    cases arrivals with
    | zero => exact fun enough => absurd enough (by simp)
    | succ arrivals =>
      have still : (response.put message).complete = false := (complete_put_opens opensHere).trans incomplete
      rw [collectResponse, wp_bind, wp_read]
      simp only [wp_bind, wp_modify, add_eq_put decoded (.inl opensHere), wp_ofExcept_ok, still,
        Bool.false_eq_true, if_false]
      refine (ih (fun message member => opens message (mem_cons_of_mem _ member)) later still).mono
        (fun _ _ ended => ended) fun _ _ ended enough => ended ?_
      simpa using enough

theorem wp_execute (spelled : Spells call.answer answer) :
    (execute call).wp (fun result pending => pending = [] ∧ answer.result = some result)
      (fun _ pending => call.answer.length ≤ call.arrivals → pending = []) [] := by
  obtain ⟨early, last, messages, opens, closes⟩ := answer.messages_closed
  rw [Spells, messages] at spelled
  rw [execute, wp_bind, wp_modify]
  refine (wp_collectResponse opens closes spelled rfl).mono (fun result pending ended => ⟨ended.1, finish_answer ?_⟩)
    fun _ _ ended => ended
  rw [messages]
  exact ended.2

theorem pendingAfter_in_time (spelled : ∀ call ∈ calls, ∃ answer : Answer X, Spells call.answer answer)
    (inTime : ∀ call ∈ calls, call.answer.length ≤ call.arrivals) : pendingAfter X calls = [] := by
  induction calls with
  | nil => rfl
  | cons call calls ih =>
    obtain ⟨answer, here⟩ := spelled call mem_cons_self
    have empty : (execute (X := X) call []).state = [] :=
      wp_state ((wp_execute here).mono (fun _ _ ended => ended.1) fun _ _ ended =>
        ended (inTime call mem_cons_self))
    rw [pendingAfter, foldl_cons, empty]
    exact ih (fun other member => spelled other (mem_cons_of_mem _ member))
      fun other member => inTime other (mem_cons_of_mem _ member)

/-- As long as no earlier call timed out, a call that returns has its own answer. -/
theorem call_gets_own_answer (spelled : ∀ call ∈ calls, ∃ answer : Answer X, Spells call.answer answer)
    (inTime : ∀ call ∈ calls, call.answer.length ≤ call.arrivals)
    (here : Spells call.answer answer) {result : Result X}
    (returned : (execute call (pendingAfter X calls)).result = .ok result) : answer.result = some result := by
  rw [pendingAfter_in_time spelled inTime] at returned
  exact ((wp_execute here).returns ⟨returned, rfl⟩).2

local instance noFloats : Wire Unit := ⟨fun _ => ⟨replicate 8 0, rfl⟩, fun _ => ()⟩

def countedFrame (rowcount : UInt8) : Frame := .of .resultDone (replicate 7 0 ++ rowcount :: replicate 8 0 ++ [5])

theorem spells_one (arrivals : ℕ) : ∀ call ∈ [(⟨[countedFrame 1], arrivals⟩ : Call)],
    ∃ answer : Answer Unit, Spells call.answer answer := by
  intro call member
  obtain rfl := mem_singleton.mp member
  exact ⟨.counted 1 0 5, .cons (by decide +kernel) .nil⟩

theorem spells_two : Spells [countedFrame 2] (.counted 2 0 5 : Answer Unit) := .cons (by decide +kernel) .nil

/-- Two calls in time: the second returns its own count. -/
theorem call_gets_own_answer_second :
    (execute ⟨[countedFrame 2], 1⟩ (pendingAfter Unit [⟨[countedFrame 1], 1⟩])).result =
        .ok (⟨[], 2, [], 0⟩ : Result Unit) ∧
      (Answer.counted 2 0 5 : Answer Unit).result = some ⟨[], 2, [], 0⟩ := by
  have returned : (execute ⟨[countedFrame 2], 1⟩ (pendingAfter Unit [⟨[countedFrame 1], 1⟩])).result =
      .ok (⟨[], 2, [], 0⟩ : Result Unit) := by decide +kernel
  exact ⟨returned, call_gets_own_answer (spells_one 1) (by decide) spells_two returned⟩

/-- After a call that timed out, the next one returns the late answer. -/
theorem late_answer_returned : ¬ ∀ (calls : List Call) (call : Call) (answer : Answer Unit) (result : Result Unit),
    (∀ call ∈ calls, ∃ answer : Answer Unit, Spells call.answer answer) → Spells call.answer answer →
    (execute call (pendingAfter Unit calls)).result = .ok result → answer.result = some result := by
  intro claimed
  have returned : (execute ⟨[countedFrame 2], 1⟩ (pendingAfter Unit [⟨[countedFrame 1], 0⟩])).result =
      .ok (⟨[], 1, [], 0⟩ : Result Unit) := by decide +kernel
  have late := claimed _ _ _ _ (spells_one 0) spells_two returned
  exact absurd (congrArg (Option.map Result.rowcount) late) (by decide)

end Tinydb.Client
