/-!
# Fallible updates

An action on a state either succeeds with a result or fails with an error, and in both cases
leaves a state behind.  A sequence of actions stops at the first failure and keeps what was
done before it, so that a caller can go on from there.  The `run` lemmas describe each
construction by what it does to a state.
-/
namespace SymbolicMachine

/-- A computation that updates a state of type `σ` and may fail with an `ε` half-way. -/
def Action (σ ε α : Type) : Type := σ → Except ε α × σ

namespace Action

variable {σ ρ ε ε' α β : Type}

/-- The outcome of an action, and the state it leaves behind. -/
def run (m : Action σ ε α) (s : σ) : Except ε α × σ := m s

protected def pure (a : α) : Action σ ε α := fun s => (.ok a, s)

/-- Goes on with the result of a first action, unless it fails. -/
protected def bind (m : Action σ ε α) (k : α → Action σ ε β) : Action σ ε β := fun s =>
  match m s with
  | (.ok a, s') => k a s'
  | (.error e, s') => (.error e, s')

instance : Monad (Action σ ε) where
  pure := Action.pure
  bind := Action.bind

def fail (e : ε) : Action σ ε α := fun s => (.error e, s)

def read : Action σ ε σ := fun s => (.ok s, s)

def reads (f : σ → α) : Action σ ε α := fun s => (.ok (f s), s)

def write (s : σ) : Action σ ε Unit := fun _ => (.ok (), s)

def update (f : σ → σ) : Action σ ε Unit := fun s => (.ok (), f s)

/-- A result that was computed without the state, or its error. -/
def ofExcept (r : Except ε α) : Action σ ε α := fun s => (r, s)

def mapError (f : ε → ε') (m : Action σ ε α) : Action σ ε' α := fun s =>
  match m s with
  | (.ok a, s') => (.ok a, s')
  | (.error e, s') => (.error (f e), s')

/-- Runs an action and gives its outcome as a result, so that the sequence goes on after a
failure. -/
def attempt (m : Action σ ε α) : Action σ ε' (Except ε α) := fun s => (.ok (m s).1, (m s).2)

def onPart (get : σ → ρ) (put : ρ → σ → σ) (m : Action ρ ε α) : Action σ ε α := fun s =>
  ((m (get s)).1, put (m (get s)).2 s)

@[simp] theorem run_pure (a : α) (s : σ) : (pure a : Action σ ε α).run s = (.ok a, s) := rfl

@[simp] theorem run_fail (e : ε) (s : σ) : (fail e : Action σ ε α).run s = (.error e, s) := rfl

@[simp] theorem run_read (s : σ) : (read : Action σ ε σ).run s = (.ok s, s) := rfl

@[simp] theorem run_reads (f : σ → α) (s : σ) :
    (reads f : Action σ ε α).run s = (.ok (f s), s) := rfl

@[simp] theorem run_write (s t : σ) : (write t : Action σ ε Unit).run s = (.ok (), t) := rfl

@[simp] theorem run_update (f : σ → σ) (s : σ) :
    (update f : Action σ ε Unit).run s = (.ok (), f s) := rfl

@[simp] theorem run_ofExcept (r : Except ε α) (s : σ) :
    (ofExcept r : Action σ ε α).run s = (r, s) := rfl

@[simp] theorem run_attempt (m : Action σ ε α) (s : σ) :
    (attempt m : Action σ ε' (Except ε α)).run s = (.ok (m.run s).1, (m.run s).2) := rfl

theorem run_bind (m : Action σ ε α) (k : α → Action σ ε β) (s : σ) :
    (m >>= k).run s =
      match m.run s with
      | (.ok a, s') => (k a).run s'
      | (.error e, s') => (.error e, s') := rfl

/-- After a success the sequence goes on in the state that was left behind. -/
theorem run_bind_ok {m : Action σ ε α} {a : α} {s s' : σ} (h : m.run s = (.ok a, s'))
    (k : α → Action σ ε β) : (m >>= k).run s = (k a).run s' := by
  rw [run_bind, h]

/-- After a failure the sequence stops in the state that was left behind. -/
theorem run_bind_error {m : Action σ ε α} {e : ε} {s s' : σ} (h : m.run s = (.error e, s'))
    (k : α → Action σ ε β) : (m >>= k).run s = (.error e, s') := by
  rw [run_bind, h]

@[simp] theorem run_onPart (get : σ → ρ) (put : ρ → σ → σ) (m : Action ρ ε α) (s : σ) :
    (onPart get put m).run s = ((m.run (get s)).1, put (m.run (get s)).2 s) := rfl

theorem id_map_action (m : Action σ ε α) : id <$> m = m := by
  funext s
  simp only [Functor.map, Action.bind, Function.comp, id]
  rcases m s with ⟨_ | _, _⟩ <;> rfl

theorem bind_assoc_action {γ : Type} (m : Action σ ε α) (f : α → Action σ ε β)
    (g : β → Action σ ε γ) : m >>= f >>= g = m >>= fun a => f a >>= g := by
  funext s
  simp only [bind, Action.bind]
  rcases m s with ⟨_ | _, _⟩ <;> rfl

instance : LawfulMonad (Action σ ε) :=
  LawfulMonad.mk' (Action σ ε) id_map_action (fun _ _ => rfl) bind_assoc_action

/-- Runs an action for each element of a list in order, and collects the results. -/
def forEach (f : α → Action σ ε β) : List α → Action σ ε (List β)
  | [] => pure []
  | a :: rest => do
    let b ← f a
    let bs ← forEach f rest
    pure (b :: bs)

end Action

end SymbolicMachine
