import Mathlib.Data.List.Forall2
import Mathlib.Logic.Relation

/-! Imperative programs that raise, keep their state and leave a trace.

An outcome records how a program ended, the state it left (also when it raised)
and the states it passed through at its marked points, in order. A crash can
only be observed at a marked point, so the trace is the list of crash states.
The relations `Returns` and `Raises` are the two big-step judgements; `Keeps`
carries a preorder on states over whole programs, marked points included.
`p.wp Q E s` says how `p` ends from `s`: in `Q` if it returns, in `E` if it raises.
-/

namespace Tinydb.Lib

open List

variable {ε α β : Type} {r : Except ε α} {f : α → Except ε β} {P : ε → Prop}

theorem ok_bind (a : α) (f : α → Except ε β) : (Except.ok a >>= f) = f a := by simp only [bind, Except.bind]

theorem bind_ok_iff {b : β} :
    (r >>= f) = .ok b ↔ ∃ a, r = .ok a ∧ f a = .ok b := by
  cases r <;> simp [bind, Except.bind]

theorem bind_return_iff {f : α → β} {b : β} :
    (r >>= fun a => pure (f a)) = .ok b ↔ ∃ a, r = .ok a ∧ f a = b := by
  cases r <;> simp [bind, Except.bind, pure, Except.pure]

theorem bind_error_iff {e : ε} :
    (r >>= f) = .error e ↔ r = .error e ∨ ∃ a, r = .ok a ∧ f a = .error e := by
  cases r <;> simp [bind, Except.bind]

theorem map_ok_iff {f : α → β} {b : β} : r.map f = .ok b ↔ ∃ a, r = .ok a ∧ f a = b := by
  cases r <;> simp [Except.map]

theorem map_error_iff {f : α → β} {e : ε} : r.map f = .error e ↔ r = .error e := by
  cases r <;> simp [Except.map]

theorem mapM_eq_ok {g : α → β} {items : List α} (each : ∀ a ∈ items, f a = .ok (g a)) :
    items.mapM f = .ok (items.map g) := by
  induction items with
  | nil => rfl
  | cons a rest ih =>
    obtain ⟨here, later⟩ := forall_mem_cons.mp each
    rw [mapM_cons, here, ih later]
    rfl

def FailsWith (P : ε → Prop) (r : Except ε α) : Prop := ∀ e, r = .error e → P e

theorem failsWith_ok (a : α) : FailsWith P (.ok a : Except ε α) := nofun

theorem failsWith_error {e : ε} (fine : P e) : FailsWith P (.error e : Except ε α) := by
  rintro _ ⟨⟩
  exact fine

theorem FailsWith.bind (first : FailsWith P r) (rest : ∀ a, r = .ok a → FailsWith P (f a)) :
    FailsWith P (r >>= f) := by
  intro e failed
  rcases bind_error_iff.mp failed with here | ⟨a, returned, later⟩
  · exact first e here
  · exact rest a returned e later

structure Outcome (ε σ α : Type) where
  result : Except ε α
  state : σ
  trace : List σ

def Program (ε σ α : Type) : Type := σ → Outcome ε σ α

namespace Program

variable {σ τ : Type} {p : Program ε σ α} {f : α → Program ε σ β} {items : List α} {body : α → Program ε σ Unit}
  {s s' t : σ} {a : α} {e : ε} {component : σ → τ} {replace : τ → σ → σ} {R : σ → σ → Prop}

def returning (a : α) : Program ε σ α := fun s => ⟨.ok a, s, []⟩

/-- Run the continuation from the state left behind, unless the first program raised. -/
def andThen (p : Program ε σ α) (f : α → Program ε σ β) : Program ε σ β := fun s =>
  match p s with
  | ⟨.error e, s', t⟩ => ⟨.error e, s', t⟩
  | ⟨.ok a, s', t⟩ => ⟨(f a s').result, (f a s').state, t ++ (f a s').trace⟩

instance : Monad (Program ε σ) where
  pure := returning
  bind := andThen

def raise (e : ε) : Program ε σ α := fun s => ⟨.error e, s, []⟩

def read : Program ε σ σ := fun s => ⟨.ok s, s, []⟩

def modify (f : σ → σ) : Program ε σ Unit := fun s => ⟨.ok (), f s, []⟩

def mark : Program ε σ Unit := fun s => ⟨.ok (), s, [s]⟩

def ofExcept (r : Except ε α) : Program ε σ α := fun s => ⟨r, s, []⟩

def catching (p : Program ε σ α) (handler : ε → Program ε σ α) : Program ε σ α := fun s =>
  match p s with
  | ⟨.ok a, s', t⟩ => ⟨.ok a, s', t⟩
  | ⟨.error e, s', t⟩ => ⟨(handler e s').result, (handler e s').state, t ++ (handler e s').trace⟩

def zoom (component : σ → τ) (replace : τ → σ → σ) (p : Program ε τ α) : Program ε σ α := fun s =>
  let o := p (component s)
  ⟨o.result, replace o.state s, o.trace.map fun t => replace t s⟩

def forEach : List α → (α → Program ε σ Unit) → Program ε σ Unit
  | [], _ => pure ()
  | x :: rest, body => do
    body x
    forEach rest body

/-- Run the body once for each element, in order, and collect what it yields. -/
def collect : List α → (α → Program ε σ (Option β)) → Program ε σ (List β)
  | [], _ => pure []
  | x :: rest, body => do
    let here ← body x
    let others ← collect rest body
    return here.toList ++ others

/-- Run a program on every element of the state, in order, until it raises on one. -/
def each (p : Program ε σ Unit) : Program ε (List σ) Unit
  | [] => ⟨.ok (), [], []⟩
  | s :: rest =>
    match p s with
    | ⟨.error e, s', t⟩ => ⟨.error e, s' :: rest, t.map (· :: rest)⟩
    | ⟨.ok _, s', t⟩ =>
      let o := each p rest
      ⟨o.result, s' :: o.state, t.map (· :: rest) ++ o.trace.map (s' :: ·)⟩

theorem bind_apply (p : Program ε σ α) (f : α → Program ε σ β) (s : σ) : (p >>= f) s = match p s with
    | ⟨.error e, s', t⟩ => ⟨.error e, s', t⟩
    | ⟨.ok a, s', t⟩ => ⟨(f a s').result, (f a s').state, t ++ (f a s').trace⟩ := rfl

theorem pure_apply (a : α) (s : σ) : (pure a : Program ε σ α) s = ⟨.ok a, s, []⟩ := rfl

theorem raise_apply (e : ε) (s : σ) : (raise e : Program ε σ α) s = ⟨.error e, s, []⟩ := rfl

theorem read_apply (s : σ) : (read : Program ε σ σ) s = ⟨.ok s, s, []⟩ := rfl

theorem modify_apply (f : σ → σ) (s : σ) : (modify f : Program ε σ Unit) s = ⟨.ok (), f s, []⟩ := rfl

theorem mark_apply (s : σ) : (mark : Program ε σ Unit) s = ⟨.ok (), s, [s]⟩ := rfl

theorem ofExcept_apply (r : Except ε α) (s : σ) : (ofExcept r : Program ε σ α) s = ⟨r, s, []⟩ := rfl

theorem zoom_apply (component : σ → τ) (replace : τ → σ → σ) (p : Program ε τ α) (s : σ) :
    zoom component replace p s = ⟨(p (component s)).result, replace (p (component s)).state s,
      (p (component s)).trace.map fun t => replace t s⟩ := rfl

attribute [simp] pure_apply raise_apply read_apply modify_apply mark_apply ofExcept_apply

def Returns (p : Program ε σ α) (s : σ) (a : α) (s' : σ) : Prop := (p s).result = .ok a ∧ (p s).state = s'

def Raises (p : Program ε σ α) (s : σ) (e : ε) (s' : σ) : Prop := (p s).result = .error e ∧ (p s).state = s'

theorem returns_or_raises (p : Program ε σ α) (s : σ) : (∃ a s', p.Returns s a s') ∨ ∃ e s', p.Raises s e s' := by
  cases ended : (p s).result with
  | ok a => exact .inl ⟨a, _, ended, rfl⟩
  | error e => exact .inr ⟨e, _, ended, rfl⟩

theorem exists_returns_of_isOk (ends : (p s).result.isOk = true) : ∃ a, p.Returns s a (p s).state := by
  cases value : (p s).result with
  | ok a => exact ⟨a, value, rfl⟩
  | error e =>
    rw [value] at ends
    cases ends

theorem returns_of_isOk {p : Program ε σ Unit} (ends : (p s).result.isOk = true) : p.Returns s () (p s).state :=
  (exists_returns_of_isOk ends).elim fun _ returned => returned

theorem Returns.unique {a b : α}
    (first : p.Returns s a s') (second : p.Returns s b t) : a = b ∧ s' = t := by
  obtain ⟨value, rfl⟩ := first
  obtain ⟨other, rfl⟩ := second
  rw [value] at other
  exact ⟨Except.ok.inj other, rfl⟩

theorem Raises.raises_unique {e e' : ε}
    (first : p.Raises s e s') (second : p.Raises s e' t) : e = e' ∧ s' = t := by
  obtain ⟨value, rfl⟩ := first
  obtain ⟨other, rfl⟩ := second
  rw [value] at other
  exact ⟨Except.error.inj other, rfl⟩

theorem Returns.not_raises (first : p.Returns s a s') (second : p.Raises s e t) : False := by
  have := first.1.symm.trans second.1
  cases this

@[simp] theorem returns_pure {a b : α} : (pure a : Program ε σ α).Returns s b s' ↔ a = b ∧ s = s' := by
  simp [Returns, pure, returning]

@[simp] theorem raises_pure (a : α) (e : ε) (s s' : σ) : (pure a : Program ε σ α).Raises s e s' ↔ False := by
  simp [Raises, pure, returning]

@[simp] theorem returns_raise (e : ε) (b : α) (s s' : σ) :
    (raise e : Program ε σ α).Returns s b s' ↔ False := by simp [Returns, raise]

@[simp] theorem returns_read (s t s' : σ) : (read : Program ε σ σ).Returns s t s' ↔ s = t ∧ s = s' := by
  simp [Returns, read]

@[simp] theorem raises_read (e : ε) (s s' : σ) : (read : Program ε σ σ).Raises s e s' ↔ False := by
  simp [Raises, read]

@[simp] theorem returns_modify (f : σ → σ) (u : Unit) (s s' : σ) :
    (modify f : Program ε σ Unit).Returns s u s' ↔ f s = s' := by simp [Returns, modify]

@[simp] theorem raises_modify (f : σ → σ) (e : ε) (s s' : σ) :
    (modify f : Program ε σ Unit).Raises s e s' ↔ False := by simp [Raises, modify]

@[simp] theorem returns_ofExcept :
    (ofExcept r : Program ε σ α).Returns s a s' ↔ r = .ok a ∧ s = s' := by simp [Returns, ofExcept]

@[simp] theorem raises_ofExcept (r : Except ε α) (e : ε) (s s' : σ) :
    (ofExcept r : Program ε σ α).Raises s e s' ↔ r = .error e ∧ s = s' := by simp [Raises, ofExcept]

theorem bind_of_returns (first : p.Returns s a s') :
    (p >>= f) s = ⟨(f a s').result, (f a s').state, (p s).trace ++ (f a s').trace⟩ := by
  obtain ⟨value, rfl⟩ := first
  show andThen p f s = _
  unfold andThen
  rcases outcome : p s with ⟨result, state, trace⟩
  rw [outcome] at value
  simp only at value
  subst value
  rfl

theorem bind_of_raises (first : p.Raises s e s') : (p >>= f) s = ⟨.error e, s', (p s).trace⟩ := by
  obtain ⟨value, rfl⟩ := first
  show andThen p f s = _
  unfold andThen
  rcases outcome : p s with ⟨result, state, trace⟩
  rw [outcome] at value
  simp only at value
  subst value
  rfl

theorem returns_bind {b : β} :
    (p >>= f).Returns s b t ↔ ∃ a s', p.Returns s a s' ∧ (f a).Returns s' b t := by
  rcases returns_or_raises p s with ⟨a, s', first⟩ | ⟨e, s', first⟩
  · constructor
    · intro whole
      refine ⟨a, s', first, ?_⟩
      simpa only [Returns, bind_of_returns first] using whole
    · rintro ⟨a', s'', first', rest⟩
      obtain ⟨rfl, rfl⟩ := first.unique first'
      simpa only [Returns, bind_of_returns first] using rest
  · constructor
    · intro whole
      simp [Returns, bind_of_raises first] at whole
    · rintro ⟨a', s'', first', _⟩
      exact (first'.not_raises first).elim

theorem raises_bind (p : Program ε σ α) (f : α → Program ε σ β) (s t : σ) (e : ε) :
    (p >>= f).Raises s e t ↔ p.Raises s e t ∨ ∃ a s', p.Returns s a s' ∧ (f a).Raises s' e t := by
  rcases returns_or_raises p s with ⟨a, s', first⟩ | ⟨e', s', first⟩
  · constructor
    · intro whole
      exact .inr ⟨a, s', first, by simpa only [Raises, bind_of_returns first] using whole⟩
    · rintro (raised | ⟨a', s'', first', rest⟩)
      · exact (first.not_raises raised).elim
      · obtain ⟨rfl, rfl⟩ := first.unique first'
        simpa only [Raises, bind_of_returns first] using rest
  · constructor
    · intro whole
      simp only [Raises, bind_of_raises first, Except.error.injEq] at whole
      obtain ⟨rfl, rfl⟩ := whole
      exact .inl first
    · rintro (raised | ⟨a', s'', first', _⟩)
      · obtain ⟨rfl, rfl⟩ := first.raises_unique raised
        simp only [Raises, bind_of_raises first, and_self]
      · exact (first'.not_raises first).elim

@[simp] theorem returns_read_bind (f : σ → Program ε σ β) (s t : σ) (b : β) :
    (read >>= f).Returns s b t ↔ (f s).Returns s b t := Iff.rfl

@[simp] theorem raises_read_bind (f : σ → Program ε σ β) (s t : σ) (e : ε) :
    (read >>= f).Raises s e t ↔ (f s).Raises s e t := Iff.rfl

@[simp] theorem returns_modify_bind (g : σ → σ) (f : Unit → Program ε σ β) (s t : σ) (b : β) :
    (modify g >>= f).Returns s b t ↔ (f ()).Returns (g s) b t := Iff.rfl

@[simp] theorem returns_forEach_nil {u : Unit} :
    (forEach [] body).Returns s u s' ↔ s = s' := by simp [forEach]

theorem returns_forEach_cons {x : α} {rest : List α} {u : Unit} :
    (forEach (x :: rest) body).Returns s u s' ↔ ∃ t, (body x).Returns s () t ∧ (forEach rest body).Returns t u s' := by
  rw [forEach, returns_bind]
  exact ⟨fun ⟨(), t, first, others⟩ => ⟨t, first, others⟩, fun ⟨t, first, others⟩ => ⟨(), t, first, others⟩⟩

theorem returns_forEach_append (early late : List α) (body : α → Program ε σ Unit) (u : Unit) (s s' : σ) :
    (forEach (early ++ late) body).Returns s u s' ↔
      ∃ t, (forEach early body).Returns s () t ∧ (forEach late body).Returns t u s' := by
  induction early generalizing s with
  | nil => exact ⟨fun all => ⟨s, returns_forEach_nil.mpr rfl, all⟩,
      fun ⟨t, here, rest⟩ => returns_forEach_nil.mp here ▸ rest⟩
  | cons x rest ih =>
    rw [cons_append, returns_forEach_cons]
    simp only [returns_forEach_cons, ih]
    exact ⟨fun ⟨t, first, u, middle, last⟩ => ⟨u, ⟨t, first, middle⟩, last⟩,
      fun ⟨u, ⟨t, first, middle⟩, last⟩ => ⟨t, first, u, middle, last⟩⟩

theorem raises_forEach_append (early late : List α) (body : α → Program ε σ Unit) (e : ε) (s s' : σ) :
    (forEach (early ++ late) body).Raises s e s' ↔
      (forEach early body).Raises s e s' ∨ ∃ t, (forEach early body).Returns s () t ∧
      (forEach late body).Raises t e s' := by
  induction early generalizing s with
  | nil => simp [forEach]
  | cons x rest ih =>
    simp only [cons_append, forEach, raises_bind, returns_bind, ih]
    constructor
    · rintro (raised | ⟨u, t, first, raised | ⟨m, middle, last⟩⟩)
      · exact .inl (.inl raised)
      · exact .inl (.inr ⟨u, t, first, raised⟩)
      · exact .inr ⟨m, ⟨u, t, first, middle⟩, last⟩
    · rintro ((raised | ⟨u, t, first, raised⟩) | ⟨m, ⟨u, t, first, middle⟩, last⟩)
      · exact .inl raised
      · exact .inr ⟨u, t, first, .inl raised⟩
      · exact .inr ⟨u, t, first, .inr ⟨m, middle, last⟩⟩

@[simp] theorem returns_collect_nil (body : α → Program ε σ (Option β)) (found : List β) (s s' : σ) :
    (collect [] body).Returns s found s' ↔ found = [] ∧ s = s' := by simp [collect, eq_comm]

theorem returns_collect_cons (x : α) (rest : List α) (body : α → Program ε σ (Option β)) (found : List β) (s s' : σ) :
    (collect (x :: rest) body).Returns s found s' ↔
      ∃ here others t, (body x).Returns s here t ∧ (collect rest body).Returns t others s' ∧
        found = here.toList ++ others := by
  simp only [collect, returns_bind, returns_pure]
  exact ⟨fun ⟨here, t, first, others, _, last, same, end'⟩ => ⟨here, others, t, first, end' ▸ last, same.symm⟩,
    fun ⟨here, others, t, first, last, same⟩ => ⟨here, t, first, others, s', last, same.symm, rfl⟩⟩

theorem returns_collect_of_reads {body : α → Program ε σ (Option β)}
    {value : α → Option β} (reads : ∀ x ∈ items, (body x).Returns s (value x) s) :
    (collect items body).Returns s (items.filterMap value) s := by
  induction items with
  | nil => simp
  | cons x rest ih =>
    refine (returns_collect_cons ..).mpr ⟨value x, _, s, reads x (by simp),
      ih fun y member => reads y (mem_cons_of_mem _ member), ?_⟩
    cases kept : value x <;> simp [kept]

def valueIn (p : Program ε σ (Option β)) (s : σ) : Option β :=
  match (p s).result with
  | .ok value => value
  | .error _ => none

theorem valueIn_eq {p : Program ε σ (Option β)} {value : Option β} (returned : p.Returns s value s') :
    p.valueIn s = value := by rw [valueIn, returned.1]

theorem returns_each_nil (p : Program ε σ Unit) (u : Unit) (s' : List σ) :
    (each p).Returns [] u s' ↔ s' = [] := by simp [each, Returns, eq_comm]

theorem returns_each_cons (p : Program ε σ Unit) (u : Unit) (s : σ) (rest s' : List σ) :
    (each p).Returns (s :: rest) u s' ↔
      ∃ here others, p.Returns s () here ∧ (each p).Returns rest () others ∧ s' = here :: others := by
  rcases returns_or_raises p s with ⟨a, t, first⟩ | ⟨e, t, first⟩
  · obtain ⟨value, rfl⟩ := first
    rcases outcome : p s with ⟨result, state, trace⟩
    rw [outcome] at value
    simp only at value
    subst value
    simp [each, Returns, outcome, eq_comm]
  · obtain ⟨value, rfl⟩ := first
    rcases outcome : p s with ⟨result, state, trace⟩
    rw [outcome] at value
    simp only at value
    subst value
    simp [each, Returns, outcome]

theorem returns_each (p : Program ε σ Unit) (u : Unit) (s s' : List σ) :
    (each p).Returns s u s' ↔ Forall₂ (fun x y => p.Returns x () y) s s' := by
  induction s generalizing s' with
  | nil => simp [returns_each_nil]
  | cons x rest ih =>
    rw [returns_each_cons, forall₂_cons_left_iff]
    simp only [ih]

theorem returns_zoom (component : σ → τ) (replace : τ → σ → σ) (p : Program ε τ α) (s s' : σ) (a : α) :
    (zoom component replace p).Returns s a s' ↔ ∃ t, p.Returns (component s) a t ∧ replace t s = s' := by
  constructor
  · rintro ⟨value, rfl⟩
    exact ⟨_, ⟨value, rfl⟩, rfl⟩
  · rintro ⟨t, ⟨value, rfl⟩, rfl⟩
    exact ⟨value, rfl⟩

theorem raises_zoom (component : σ → τ) (replace : τ → σ → σ) (p : Program ε τ α) (s s' : σ) (e : ε) :
    (zoom component replace p).Raises s e s' ↔ ∃ t, p.Raises (component s) e t ∧ replace t s = s' := by
  constructor
  · rintro ⟨value, rfl⟩
    exact ⟨_, ⟨value, rfl⟩, rfl⟩
  · rintro ⟨t, ⟨value, rfl⟩, rfl⟩
    exact ⟨value, rfl⟩

/-- Reading a component and putting it back obey the usual laws. -/
structure Lawful (component : σ → τ) (replace : τ → σ → σ) : Prop where
  get_put : ∀ t s, component (replace t s) = t
  put_get : ∀ s, replace (component s) s = s
  put_put : ∀ t u s, replace t (replace u s) = replace t s

theorem forEach_zoom (lawful : Lawful component replace) (items : List α) (body : α → Program ε τ Unit) :
    (forEach items fun x => zoom component replace (body x)) = zoom component replace (forEach items body) := by
  induction items with
  | nil =>
    funext s
    simp [forEach, zoom_apply, lawful.put_get]
  | cons x rest ih =>
    funext s
    rw [forEach, ih, forEach, zoom_apply]
    rcases returns_or_raises (body x) (component s) with ⟨u, t, first⟩ | ⟨e, t, first⟩
    · have outer : (zoom component replace (body x)).Returns s u (replace t s) :=
        ⟨first.1, by rw [zoom_apply]; exact congrArg (replace · s) first.2⟩
      rw [bind_of_returns outer, bind_of_returns first, zoom_apply, zoom_apply, lawful.get_put]
      simp [lawful.put_put]
    · have outer : (zoom component replace (body x)).Raises s e (replace t s) :=
        ⟨first.1, by rw [zoom_apply]; exact congrArg (replace · s) first.2⟩
      rw [bind_of_raises outer, bind_of_raises first, zoom_apply]

/-- Every state the program marks, and the one it ends in, is related to the first. -/
def Keeps (R : σ → σ → Prop) (p : Program ε σ α) : Prop := ∀ s, R s (p s).state ∧ ∀ t ∈ (p s).trace, R s t

theorem Keeps.of_returns (kept : p.Keeps R)
    (returned : p.Returns s a s') : R s s' := returned.2 ▸ (kept s).1

theorem Keeps.of_raises (kept : p.Keeps R)
    (raised : p.Raises s e s') : R s s' := raised.2 ▸ (kept s).1

theorem keeps_pure (refl : ∀ s, R s s) (a : α) : (pure a : Program ε σ α).Keeps R :=
  fun s => ⟨refl s, fun _ member => by cases member⟩

theorem keeps_raise (refl : ∀ s, R s s) (e : ε) : (raise e : Program ε σ α).Keeps R :=
  fun s => ⟨refl s, fun _ member => by cases member⟩

theorem keeps_read (refl : ∀ s, R s s) : (read : Program ε σ σ).Keeps R :=
  fun s => ⟨refl s, fun _ member => by cases member⟩

theorem keeps_ofExcept (refl : ∀ s, R s s) (r : Except ε α) : (ofExcept r : Program ε σ α).Keeps R :=
  fun s => ⟨refl s, fun _ member => by cases member⟩

theorem keeps_modify {f : σ → σ} (related : ∀ s, R s (f s)) : (modify f : Program ε σ Unit).Keeps R :=
  fun s => ⟨related s, fun _ member => by cases member⟩

theorem keeps_bind (trans : ∀ s t u, R s t → R t u → R s u)
    (first : p.Keeps R) (rest : ∀ a, (f a).Keeps R) : (p >>= f).Keeps R := by
  intro s
  rcases returns_or_raises p s with ⟨a, s', returned⟩ | ⟨e, s', raised⟩
  · rw [bind_of_returns returned]
    have toMiddle := first.of_returns returned
    refine ⟨trans _ _ _ toMiddle (rest a s').1, fun t member => ?_⟩
    rcases mem_append.mp member with early | late
    · exact (first s).2 t early
    · exact trans _ _ _ toMiddle ((rest a s').2 t late)
  · rw [bind_of_raises raised]
    exact ⟨first.of_raises raised, (first s).2⟩

theorem keeps_forEach (refl : ∀ s, R s s) (trans : ∀ s t u, R s t → R t u → R s u)
    (each : ∀ x ∈ items, (body x).Keeps R) : (forEach items body).Keeps R := by
  induction items with
  | nil => exact keeps_pure refl ()
  | cons x rest ih =>
    exact keeps_bind trans (each x (by simp)) fun _ => ih fun y member => each y (by simp [member])

theorem keeps_zoom {Q : τ → τ → Prop} {p : Program ε τ α}
    (kept : p.Keeps Q) (lift : ∀ s t, Q (component s) t → R s (replace t s)) : (zoom component replace p).Keeps R := by
  intro s
  refine ⟨lift s _ (kept (component s)).1, fun t member => ?_⟩
  obtain ⟨u, inner, rfl⟩ := mem_map.mp member
  exact lift s u ((kept (component s)).2 u inner)

/-- The state is never changed, neither at the end nor at a marked point. -/
def Reads (p : Program ε σ α) : Prop := p.Keeps Eq

private theorem eq_trans (s t u : σ) (first : s = t) (second : t = u) : s = u := first.trans second

theorem Reads.state (reads : p.Reads) (s : σ) : (p s).state = s := (reads s).1.symm

theorem Reads.of_returns (reads : p.Reads) (returned : p.Returns s a s') :
    s' = s := (Keeps.of_returns reads returned).symm

theorem Reads.of_raises (reads : p.Reads) (raised : p.Raises s e s') :
    s' = s := (Keeps.of_raises reads raised).symm

theorem reads_pure (a : α) : (pure a : Program ε σ α).Reads := keeps_pure Eq.refl a

theorem reads_raise (e : ε) : (raise e : Program ε σ α).Reads := keeps_raise Eq.refl e

theorem reads_read : (read : Program ε σ σ).Reads := keeps_read Eq.refl

theorem reads_ofExcept (r : Except ε α) : (ofExcept r : Program ε σ α).Reads := keeps_ofExcept Eq.refl r

theorem reads_bind (first : p.Reads) (rest : ∀ a, (f a).Reads) :
    (p >>= f).Reads := keeps_bind eq_trans first rest

theorem reads_forEach (all : ∀ x ∈ items, (body x).Reads) :
    (forEach items body).Reads := keeps_forEach Eq.refl eq_trans all

theorem returns_forEach_ofExcept (items : List α) (f : α → Except ε Unit) (s s' : σ) :
    (forEach items fun x => (ofExcept (f x) : Program ε σ Unit)).Returns s () s' ↔
    s = s' ∧ ∀ x ∈ items, f x = .ok () := by
  induction items with
  | nil => simp
  | cons x rest ih => simp [returns_forEach_cons, ih, and_left_comm]

theorem reads_collect {body : α → Program ε σ (Option β)} (all : ∀ x ∈ items, (body x).Reads) :
    (collect items body).Reads := by
  induction items with
  | nil => exact reads_pure []
  | cons x rest ih =>
    exact reads_bind (all x (by simp)) fun _ =>
      reads_bind (ih fun y member => all y (mem_cons_of_mem _ member)) fun _ => reads_pure _

theorem returns_of_reads_collect {body : α → Program ε σ (Option β)} {found : List β}
    (reads : ∀ x, (body x).Reads) (returned : (collect items body).Returns s found s') :
    s' = s ∧ (∀ x ∈ items, (body x).Returns s ((body x).valueIn s) s) ∧
      found = items.filterMap fun x => (body x).valueIn s := by
  induction items generalizing found with
  | nil =>
    obtain ⟨rfl, rfl⟩ := (returns_collect_nil ..).mp returned
    simp
  | cons x rest ih =>
    obtain ⟨here, others, t, first, later, rfl⟩ := (returns_collect_cons ..).mp returned
    obtain rfl := (reads x).of_returns first
    obtain ⟨same, each, rfl⟩ := ih later
    have value := valueIn_eq first
    refine ⟨same, fun y member => ?_, ?_⟩
    · rcases mem_cons.mp member with rfl | deeper
      · rw [value]
        exact first
      · exact each y deeper
    · rw [filterMap_cons, value]
      cases here <;> rfl

theorem reads_zoom (lawful : Lawful component replace)
    {p : Program ε τ α} (reads : p.Reads) : (zoom component replace p).Reads :=
  keeps_zoom reads fun s _ same => same ▸ (lawful.put_get s).symm

end Program

end Tinydb.Lib

namespace Tinydb.Lib.Program

variable {ε σ τ α β : Type} {Q : α → σ → Prop} {E : ε → σ → Prop} {s : σ} {p : Program ε σ α} {a : α} {s' : σ} {e : ε}
  {Q' : α → σ → Prop} {E' : ε → σ → Prop}

def wp (p : Program ε σ α) (Q : α → σ → Prop) (E : ε → σ → Prop) (s : σ) : Prop :=
  match (p s).result with
  | .ok a => Q a (p s).state
  | .error e => E e (p s).state

theorem wp_iff : p.wp Q E s ↔ (∀ a s', p.Returns s a s' → Q a s') ∧ ∀ e s', p.Raises s e s' → E e s' := by
  unfold wp Returns Raises
  cases (p s).result with
  | ok a | error e => simp [and_imp]

theorem wp.returns (ends : p.wp Q E s) (returned : p.Returns s a s') : Q a s' := (wp_iff.mp ends).1 a s' returned

theorem wp.raises (ends : p.wp Q E s) (raised : p.Raises s e s') : E e s' := (wp_iff.mp ends).2 e s' raised

theorem wp_of_returns (returned : p.Returns s a s') : p.wp Q E s ↔ Q a s' := by
  rw [wp, returned.1, returned.2]

theorem wp_of_raises (raised : p.Raises s e s') : p.wp Q E s ↔ E e s' := by
  rw [wp, raised.1, raised.2]

theorem wp.mono (ends : p.wp Q E s)
    (returning : ∀ a s', Q a s' → Q' a s') (raising : ∀ e s', E e s' → E' e s') : p.wp Q' E' s :=
  wp_iff.mpr ⟨fun a s' returned => returning a s' (ends.returns returned),
    fun e s' raised => raising e s' (ends.raises raised)⟩

theorem state_iff_wp {P : σ → Prop} : P (p s).state ↔ p.wp (fun _ => P) (fun _ => P) s := by
  unfold wp
  split <;> rfl

theorem wp_state {P : σ → Prop} (ends : p.wp (fun _ => P) (fun _ => P) s) : P (p s).state := state_iff_wp.mpr ends

theorem wp_congr (returning : ∀ a s', Q a s' ↔ Q' a s') (raising : ∀ e s', E e s' ↔ E' e s') :
    p.wp Q E s ↔ p.wp Q' E' s :=
  ⟨fun ends => ends.mono (fun a s' => (returning a s').mp) fun e s' => (raising e s').mp,
    fun ends => ends.mono (fun a s' => (returning a s').mpr) fun e s' => (raising e s').mpr⟩

theorem wp.exists_returns_of (ends : p.wp Q E s) (never : ∀ e s', ¬ E e s') : ∃ a s', p.Returns s a s' ∧ Q a s' := by
  rcases returns_or_raises p s with ⟨a, s', returned⟩ | ⟨e, s', raised⟩
  · exact ⟨a, s', returned, ends.returns returned⟩
  · exact (never e s' (ends.raises raised)).elim

theorem wp.exists_returns (ends : p.wp Q (fun _ _ => False) s) : ∃ a s', p.Returns s a s' ∧ Q a s' :=
  ends.exists_returns_of fun _ _ absurd => absurd

theorem returns_iff_wp : p.Returns s a s' ↔ p.wp (fun b t => a = b ∧ s' = t) (fun _ _ => False) s := by
  refine ⟨fun returned => (wp_of_returns returned).mpr ⟨rfl, rfl⟩, fun ends => ?_⟩
  obtain ⟨b, t, returned, rfl, rfl⟩ := ends.exists_returns
  exact returned

theorem wp.and (ends : p.wp Q E s) (also : p.wp Q' E' s) :
    p.wp (fun a s' => Q a s' ∧ Q' a s') (fun e s' => E e s' ∧ E' e s') s :=
  wp_iff.mpr ⟨fun _ _ returned => ⟨ends.returns returned, also.returns returned⟩,
    fun _ _ raised => ⟨ends.raises raised, also.raises raised⟩⟩

@[simp] theorem wp_pure (a : α) : (pure a : Program ε σ α).wp Q E s ↔ Q a s := Iff.rfl

@[simp] theorem wp_raise (e : ε) : (raise e : Program ε σ α).wp Q E s ↔ E e s := Iff.rfl

@[simp] theorem wp_read {Q : σ → σ → Prop} : (read : Program ε σ σ).wp Q E s ↔ Q s s := Iff.rfl

@[simp] theorem wp_modify {Q : Unit → σ → Prop} (f : σ → σ) :
    (modify f : Program ε σ Unit).wp Q E s ↔ Q () (f s) := Iff.rfl

@[simp] theorem wp_mark {Q : Unit → σ → Prop} : (mark : Program ε σ Unit).wp Q E s ↔ Q () s := Iff.rfl

theorem wp_ofExcept (r : Except ε α) :
    (ofExcept r : Program ε σ α).wp Q E s ↔ (∀ a, r = .ok a → Q a s) ∧ ∀ e, r = .error e → E e s := by
  cases r <;> simp [wp, ofExcept]

@[simp] theorem wp_ofExcept_ok (a : α) : (ofExcept (.ok a) : Program ε σ α).wp Q E s ↔ Q a s := Iff.rfl

@[simp] theorem wp_ofExcept_error (e : ε) : (ofExcept (.error e) : Program ε σ α).wp Q E s ↔ E e s := Iff.rfl

@[simp] theorem wp_bind {Q : β → σ → Prop} (p : Program ε σ α) (f : α → Program ε σ β) :
    (p >>= f).wp Q E s ↔ p.wp (fun a s' => (f a).wp Q E s') E s := by
  rcases returns_or_raises p s with ⟨a, s', first⟩ | ⟨e, s', first⟩
  · unfold wp
    rw [bind_of_returns first, first.1, first.2]
  · unfold wp
    rw [bind_of_raises first, first.1, first.2]

theorem wp_zoom {component : σ → τ} {replace : τ → σ → σ} {p : Program ε τ α} : (zoom component replace p).wp Q E s ↔
      p.wp (fun a t => Q a (replace t s)) (fun e t => E e (replace t s)) (component s) := Iff.rfl

@[simp] theorem wp_catching (p : Program ε σ α) (handler : ε → Program ε σ α) :
    (catching p handler).wp Q E s ↔ p.wp Q (fun e s' => (handler e).wp Q E s') s := by
  unfold wp catching
  rcases p s with ⟨result | result, state, trace⟩ <;> rfl

theorem wp_ite {c : Prop} [Decidable c] {q : Program ε σ α} :
    (if c then p else q).wp Q E s ↔ (c → p.wp Q E s) ∧ (¬ c → q.wp Q E s) := by
  split <;> simp [*]

theorem Reads.wp (reads : p.Reads) (returning : ∀ a, p.Returns s a s → Q a s)
    (raising : ∀ e, p.Raises s e s → E e s) : p.wp Q E s :=
  wp_iff.mpr ⟨fun a s' returned => by
      obtain rfl := reads.of_returns returned
      exact returning a returned,
    fun e s' raised => by
      obtain rfl := reads.of_raises raised
      exact raising e raised⟩

theorem wp_forEach {items : List α} {body : α → Program ε σ Unit} {Q : Unit → σ → Prop} (I : List α → σ → Prop)
    (enter : I items s) (step : ∀ x rest s, I (x :: rest) s → (body x).wp (fun _ s' => I rest s') E s)
    (leave : ∀ s, I [] s → Q () s) : (forEach items body).wp Q E s := by
  induction items generalizing s with
  | nil => exact leave s enter
  | cons x rest ih =>
    rw [forEach, wp_bind]
    exact (step x rest s enter).mono (fun _ _ entered => ih entered) fun _ _ => id

end Tinydb.Lib.Program
