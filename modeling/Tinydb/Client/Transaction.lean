import Tinydb.Client.Sync

/-! The transaction blocks of the client (`Client.transaction`).

The counter is raised before `BEGIN` is sent and lowered after `COMMIT` or `ROLLBACK` was; only the
`ROLLBACK` is guarded by a `finally`.
-/

namespace Tinydb.Client

open Lib Program Protocol

structure ClientState (σ : Type) where
  connection : σ
  transactionDepth : ℕ

abbrev ClientM (σ : Type) := Program Exc (ClientState σ)

variable {σ α : Type} (execute : String → Program Exc σ Unit)

def onConnection (p : Program Exc σ α) : ClientM σ α :=
  zoom (·.connection) (fun connection client => { client with connection }) p

def nested : Exc := ⟨.clientProtocolError, "nested transaction not supported"⟩

def enter : ClientM σ Unit := modify fun client => { client with transactionDepth := client.transactionDepth + 1 }

def leave : ClientM σ Unit := modify fun client => { client with transactionDepth := client.transactionDepth - 1 }

/-- What follows the body of a block: `ROLLBACK` if it raised, `COMMIT` if not. -/
def endBlock : Option Exc → ClientM σ Unit
  | some e => do
    (onConnection (execute "ROLLBACK")).catching fun e' => do
      leave
      raise e'
    leave
    raise e
  | none => do
    onConnection (execute "COMMIT")
    leave

/-- `with client.transaction(): body`. -/
def transaction (body : ClientM σ Unit) : ClientM σ Unit := do
  if 0 < (← read).transactionDepth then
    raise nested
  enter
  onConnection (execute "BEGIN")
  let raised ← (do body; pure none).catching fun e => pure (some e)
  endBlock execute raised

/-- Code that uses the client through its methods. -/
inductive Uses : {α : Type} → ClientM σ α → Prop where
  | pure {α : Type} (a : α) : Uses (pure a)
  | raise {α : Type} (e : Exc) : Uses (raise e : ClientM σ α)
  | call {α : Type} (p : Program Exc σ α) : Uses (onConnection p)
  | bind {α β : Type} {p : ClientM σ α} {f : α → ClientM σ β} : Uses p → (∀ a, Uses (f a)) → Uses (p >>= f)
  | catching {α : Type} {p : ClientM σ α} {handler : Exc → ClientM σ α} : Uses p →
      (∀ e, Uses (handler e)) → Uses (p.catching handler)
  | block {body : ClientM σ Unit} : Uses body → Uses (transaction execute body)

/-- `BEGIN` returns, and the body raises or `COMMIT` returns. -/
def Completes (body : ClientM σ Unit) (connection : σ) : Prop :=
  (execute "BEGIN").wp (fun _ begun => body.wp
    (fun _ client => (execute "COMMIT").wp (fun _ _ => True) (fun _ _ => False) client.connection)
    (fun _ _ => True) ⟨begun, 1⟩) (fun _ _ => False) connection

variable {execute} {body : ClientM σ Unit} {client : ClientState σ}

theorem wp_transaction_nested (inside : 0 < client.transactionDepth) {Q : Unit → ClientState σ → Prop}
    {E : Exc → ClientState σ → Prop} :
    (transaction execute body).wp Q E client ↔ E nested client := by
  rw [transaction, wp_bind, wp_read, if_pos inside]
  rfl

/-- Inside a block the counter stays as it is: a nested block is refused before it counts. -/
theorem Uses.depth {p : ClientM σ α} (uses : Uses execute p) {n : ℕ} (inside : 0 < n)
    (same : client.transactionDepth = n) :
    p.wp (fun _ after => after.transactionDepth = n) (fun _ after => after.transactionDepth = n) client := by
  induction uses generalizing client with
  | pure a => exact same
  | raise e => exact same
  | call p =>
    rw [onConnection, wp_zoom]
    exact wp_iff.mpr ⟨fun _ _ _ => same, fun _ _ _ => same⟩
  | bind _ _ first later =>
    rw [wp_bind]
    exact (first same).mono (fun a _ same => later a same) fun _ _ same => same
  | catching _ _ first later =>
    rw [wp_catching]
    exact (first same).mono (fun _ _ same => same) fun e _ same => later e same
  | block _ _ => exact (wp_transaction_nested (same ▸ inside)).mpr same

/-- The counter is lowered on every way out of the block but a failing `COMMIT`. -/
theorem wp_body (uses : Uses execute body) (begun : σ) :
    body.wp (fun _ => (endBlock execute none).wp (fun _ after => after.transactionDepth = 0) fun _ after =>
      after.transactionDepth = 0)
      (fun e => (endBlock execute (some e)).wp (fun _ after => after.transactionDepth = 0) fun _ after =>
        after.transactionDepth = 0)
      ⟨begun, 1⟩ ↔
    body.wp (fun _ after => (execute "COMMIT").wp (fun _ _ => True) (fun _ _ => False) after.connection)
    (fun _ _ => True) ⟨begun, 1⟩ := by
  have depth := uses.depth Nat.one_pos (rfl : (⟨begun, 1⟩ : ClientState σ).transactionDepth = 1)
  rcases returns_or_raises body ⟨begun, 1⟩ with ⟨_, after, returned⟩ | ⟨e, after, raised⟩
  · have one := depth.returns returned
    rw [wp_of_returns returned, wp_of_returns returned, endBlock, wp_bind, onConnection, wp_zoom]
    refine wp_congr (fun _ _ => ?_) fun _ _ => ?_
    · simp [leave, one]
    · simp [one]
  · have one := depth.raises raised
    rw [wp_of_raises raised, wp_of_raises raised, endBlock, wp_bind, wp_catching, onConnection, wp_zoom, iff_true]
    exact wp_iff.mpr ⟨fun _ _ _ => by simp [leave, one], fun _ _ _ => by simp [leave, one]⟩

theorem transaction_closes_iff (uses : Uses execute body) (client : ClientState σ) :
    (transaction execute body client).state.transactionDepth = 0 ↔
      client.transactionDepth = 0 ∧ Completes execute body client.connection := by
  rw [state_iff_wp (P := fun client : ClientState σ => client.transactionDepth = 0)]
  obtain ⟨connection, _ | depth⟩ := client
  · rw [transaction, wp_bind, wp_read, if_neg (lt_irrefl 0), wp_bind, enter, wp_modify, wp_bind,
      onConnection, wp_zoom, Completes]
    refine Iff.trans (wp_congr (fun _ begun => ?_) fun _ _ => ?_) (and_iff_right rfl).symm
    · rw [← wp_body uses begun]
      simp only [wp_bind, wp_catching, wp_pure]
    · simp
  · rw [wp_transaction_nested (Nat.succ_pos depth)]
    simp

theorem transaction_closes_raising :
    (transaction (fun _ => pure ()) (raise timedOut) ⟨(), 0⟩).state.transactionDepth = 0 :=
  (transaction_closes_iff (.raise timedOut) _).mpr ⟨rfl, trivial⟩

/-- A `BEGIN` that times out. -/
theorem failed_begin_counts :
    ¬ ∀ (σ : Type) (execute : String → Program Exc σ Unit) (body : ClientM σ Unit) (client : ClientState σ),
    Uses execute body → client.transactionDepth = 0 → (transaction execute body client).state.transactionDepth = 0 := by
  intro claim
  have closed := claim _ (fun _ => do let _ ← @Client.execute Unit noFloats ⟨[], 0⟩) (pure ()) ⟨[], 0⟩ (.pure ()) rfl
  exact absurd closed (by decide)

end Tinydb.Client
