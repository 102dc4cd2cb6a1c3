import SymbolicMachine.Action
/-!
# Reasoning about fallible updates

A result that came out of a sequence of fallible steps is taken apart by `bind_eq_ok`.  An
action is described by what it establishes: `Meets` says what holds of its outcome and of the
state it leaves behind, after a success and after a failure.  Every construction of actions has
a rule that reduces what it meets to what its parts meet, so that a description of a function is
computed along its definition.

Two actions on different states are compared by `Couples`: started in related states they come
to the same outcome, and leave related states behind.
-/
namespace SymbolicMachine

section Results

variable {ε ε' α β : Type}

theorem bind_eq_ok {x : Except ε α} {f : α → Except ε β} {b : β} :
    x >>= f = .ok b ↔ ∃ a, x = .ok a ∧ f a = .ok b := by
  cases x with
  | ok a => exact ⟨fun h => ⟨a, rfl, h⟩, fun ⟨_, h, h'⟩ => by cases h; exact h'⟩
  | error e => exact ⟨nofun, fun ⟨_, h, _⟩ => nomatch h⟩

theorem bind_eq_error {x : Except ε α} {f : α → Except ε β} {e : ε} :
    x >>= f = .error e ↔ x = .error e ∨ ∃ a, x = .ok a ∧ f a = .error e := by
  cases x with
  | ok a =>
    refine ⟨fun h => .inr ⟨a, rfl, h⟩, ?_⟩
    rintro (h | ⟨_, h, h'⟩) <;> cases h
    exact h'
  | error e' =>
    refine ⟨fun h => .inl (by cases h; rfl), ?_⟩
    rintro (h | ⟨_, h, -⟩) <;> cases h
    rfl

theorem mapError_eq_ok {x : Except ε α} {f : ε → ε'} {a : α} :
    x.mapError f = .ok a ↔ x = .ok a := by
  cases x with
  | ok b =>
    constructor <;>
    · intro h
      cases h
      rfl
  | error e =>
    constructor <;>
    · intro h
      cases h

theorem mapError_eq_error {x : Except ε α} {f : ε → ε'} {e : ε'} :
    x.mapError f = .error e ↔ ∃ e', x = .error e' ∧ f e' = e := by
  cases x with
  | ok b =>
    constructor
    · intro h
      cases h
    · rintro ⟨e', h, -⟩
      cases h
  | error e₁ =>
    constructor
    · intro h
      cases h
      exact ⟨e₁, rfl, rfl⟩
    · rintro ⟨e', h, rfl⟩
      cases h
      rfl

theorem map_eq_ok {x : Except ε α} {f : α → β} {b : β} :
    x.map f = .ok b ↔ ∃ a, x = .ok a ∧ f a = b := by
  cases x with
  | ok a =>
    constructor
    · rintro ⟨⟩
      exact ⟨a, rfl, rfl⟩
    · rintro ⟨a', ⟨⟩, rfl⟩
      rfl
  | error e =>
    constructor
    · intro h
      cases h
    · rintro ⟨a, ha, -⟩
      cases ha

end Results

namespace Action

variable {σ ρ ε ε' α β : Type}

/-- What holds of the outcome of an action and of the state that it leaves behind. -/
def Meets (m : Action σ ε α) (s : σ) (good : α → σ → Prop) (bad : ε → σ → Prop) : Prop :=
  match m.run s with
  | (.ok a, t) => good a t
  | (.error e, t) => bad e t

variable {good : α → σ → Prop} {bad : ε → σ → Prop} {s : σ}

theorem Meets.mono {m : Action σ ε α} {good' : α → σ → Prop} {bad' : ε → σ → Prop}
    (h : m.Meets s good bad) (hgood : ∀ a t, good a t → good' a t)
    (hbad : ∀ e t, bad e t → bad' e t) : m.Meets s good' bad' := by
  unfold Meets at *
  split at h
  · exact hgood _ _ h
  · exact hbad _ _ h

theorem Meets.of_ok {m : Action σ ε α} {a : α} {t : σ} (h : m.Meets s good bad)
    (hm : m.run s = (.ok a, t)) : good a t := by
  unfold Meets at h
  rwa [hm] at h

theorem Meets.of_error {m : Action σ ε α} {e : ε} {t : σ} (h : m.Meets s good bad)
    (hm : m.run s = (.error e, t)) : bad e t := by
  unfold Meets at h
  rwa [hm] at h

theorem Meets.and {m : Action σ ε α} {good' : α → σ → Prop} {bad' : ε → σ → Prop}
    (h : m.Meets s good bad) (h' : m.Meets s good' bad') :
    m.Meets s (fun a t => good a t ∧ good' a t) fun e t => bad e t ∧ bad' e t := by
  unfold Meets at *
  split at h <;> rename_i hrun <;> rw [hrun] at h' <;> exact ⟨h, h'⟩

/-- What holds after a success and after a failure holds after every run. -/
theorem Meets.of_run {m : Action σ ε α} {P : σ → Prop} {result : Except ε α} {t : σ}
    (h : m.Meets s (fun _ t => P t) fun _ t => P t) (hrun : m.run s = (result, t)) : P t := by
  cases result with
  | ok a => exact h.of_ok hrun
  | error e => exact h.of_error hrun

theorem run_eq_ok_iff_meets {m : Action σ ε α} {t : σ} {a : α} :
    m.run s = (.ok a, t) ↔ m.Meets s (fun a' t' => a' = a ∧ t' = t) fun _ _ => False := by
  unfold Meets
  rcases m.run s with ⟨_ | _, _⟩
  · simp
  · simp only [Prod.mk.injEq, Except.ok.injEq]

theorem meets_iff {m : Action σ ε α} :
    m.Meets s good bad ↔
      (∀ a t, m.run s = (.ok a, t) → good a t) ∧ ∀ e t, m.run s = (.error e, t) → bad e t := by
  refine ⟨fun h => ⟨fun a t hm => h.of_ok hm, fun e t hm => h.of_error hm⟩, fun h => ?_⟩
  unfold Meets
  split
  · rename_i a t hm
    exact h.1 a t hm
  · rename_i e t hm
    exact h.2 e t hm

@[simp] theorem meets_pure (a : α) : (pure a : Action σ ε α).Meets s good bad ↔ good a s := Iff.rfl

@[simp] theorem meets_fail (e : ε) : (fail e : Action σ ε α).Meets s good bad ↔ bad e s := Iff.rfl

@[simp] theorem meets_read {good : σ → σ → Prop} :
    (read : Action σ ε σ).Meets s good bad ↔ good s s := Iff.rfl

@[simp] theorem meets_reads (f : σ → α) :
    (reads f : Action σ ε α).Meets s good bad ↔ good (f s) s := Iff.rfl

@[simp] theorem meets_write {good : Unit → σ → Prop} (t : σ) :
    (write t : Action σ ε Unit).Meets s good bad ↔ good () t := Iff.rfl

@[simp] theorem meets_update {good : Unit → σ → Prop} (f : σ → σ) :
    (update f : Action σ ε Unit).Meets s good bad ↔ good () (f s) := Iff.rfl

@[simp] theorem meets_bind {good : β → σ → Prop} (m : Action σ ε α) (k : α → Action σ ε β) :
    (m >>= k).Meets s good bad ↔ m.Meets s (fun a t => (k a).Meets t good bad) bad := by
  unfold Meets
  rw [run_bind]
  rcases m.run s with ⟨_ | _, _⟩ <;> rfl

theorem meets_ofExcept {r : Except ε α} :
    (ofExcept r : Action σ ε α).Meets s good bad ↔
      (∀ a, r = .ok a → good a s) ∧ ∀ e, r = .error e → bad e s := by
  cases r <;> simp [Meets]

theorem meets_ofExcept_mapError {r : Except ε' α} {f : ε' → ε} :
    (ofExcept (r.mapError f) : Action σ ε α).Meets s good bad ↔
      (∀ a, r = .ok a → good a s) ∧ ∀ e, r = .error e → bad (f e) s := by
  simp only [meets_ofExcept, mapError_eq_ok, mapError_eq_error]
  refine and_congr_right fun _ => ⟨fun h e he => h _ ⟨e, he, rfl⟩, fun h e he => ?_⟩
  obtain ⟨e', he', rfl⟩ := he
  exact h e' he'

/-- A sequence succeeds just if its first action does and the others do from there. -/
theorem run_bind_eq_ok {m : Action σ ε α} {k : α → Action σ ε β} {b : β} :
    ((m >>= k).run s).1 = .ok b ↔
      ∃ a, (m.run s).1 = .ok a ∧ ((k a).run (m.run s).2).1 = .ok b := by
  rw [run_bind]
  rcases m.run s with ⟨error | a, t⟩
  · exact ⟨nofun, nofun⟩
  · refine ⟨fun h => ⟨a, rfl, h⟩, ?_⟩
    rintro ⟨_, ⟨⟩, h⟩
    exact h

theorem run_mapError (f : ε → ε') (m : Action σ ε α) (s : σ) :
    (mapError f m).run s = ((m.run s).1.mapError f, (m.run s).2) := by
  change (match m.run s with | (.ok a, t) => _ | (.error e, t) => _) = _
  rcases m.run s with ⟨_ | _, _⟩ <;> rfl

@[simp] theorem meets_mapError {bad : ε' → σ → Prop} (f : ε → ε') (m : Action σ ε α) :
    (mapError f m).Meets s good bad ↔ m.Meets s good fun e => bad (f e) := by
  unfold Meets
  rw [run_mapError]
  rcases m.run s with ⟨_ | _, _⟩ <;> rfl

@[simp] theorem meets_onPart (get : σ → ρ) (put : ρ → σ → σ) (m : Action ρ ε α) :
    (onPart get put m).Meets s good bad ↔
      m.Meets (get s) (fun a p => good a (put p s)) fun e p => bad e (put p s) := by
  unfold Meets
  rw [run_onPart]
  rcases m.run (get s) with ⟨_ | _, _⟩ <;> rfl

/-! ## Attempts -/

theorem run_attempts_cons (f : α → Action σ ε β) (a : α) (rest : List α) (s : σ) :
    (forEach (fun a => attempt (f a)) (a :: rest) : Action σ ε' (List (Except ε β))).run s =
      let others := (forEach (fun a => attempt (f a)) rest : Action σ ε' (List (Except ε β))).run
        ((f a).run s).2
      (others.1.map (((f a).run s).1 :: ·), others.2) := by
  rw [forEach, run_bind_ok (run_attempt (f a) s), run_bind]
  dsimp only
  split <;> rename_i h <;> rw [h] <;> rfl

/-- A run of attempts has an outcome for each, in the state that those before it left behind. -/
theorem exists_attempts (f : α → Action σ ε β) (as : List α) (s : σ) :
    let left := fun as : List α =>
      ((forEach (fun a => attempt (f a)) as : Action σ ε' (List (Except ε β))).run s).2
    ∃ results, ((forEach (fun a => attempt (f a)) as : Action σ ε' (List (Except ε β))).run s).1 =
        .ok results ∧ results.length = as.length ∧
      ∀ k a, as[k]? = some a → results[k]? = some ((f a).run (left (as.take k))).1 ∧
        left (as.take (k + 1)) = ((f a).run (left (as.take k))).2 := by
  induction as generalizing s with
  | nil => exact ⟨[], rfl, rfl, nofun⟩
  | cons b rest ih =>
    obtain ⟨results, hresults, hlength, hrest⟩ := ih ((f b).run s).2
    refine ⟨((f b).run s).1 :: results, ?_, congrArg (· + 1) hlength, fun k a ha => ?_⟩
    · rw [run_attempts_cons]
      dsimp only
      rw [hresults]
      rfl
    · cases k with
      | zero =>
        cases ha
        exact ⟨rfl, rfl⟩
      | succ k =>
        obtain ⟨hresult, hleft⟩ := hrest k a ha
        dsimp only at hresult hleft ⊢
        rw [List.take_succ_cons, List.take_succ_cons, run_attempts_cons, run_attempts_cons]
        exact ⟨hresult, hleft⟩

/-! ## Two runs -/

section Coupling

variable {σ₁ σ₂ : Type} {P Q M E : σ₁ → σ₂ → Prop}

/-- Started in states related by `P`, two actions come to the same outcome, and leave states
behind that are related by `Q` after a success and by `E` after a failure. -/
def Couples (P Q E : σ₁ → σ₂ → Prop) (m₁ : Action σ₁ ε α) (m₂ : Action σ₂ ε α) : Prop :=
  ∀ s₁ s₂, P s₁ s₂ →
    (m₁.run s₁).1 = (m₂.run s₂).1 ∧
      match (m₁.run s₁).1 with
      | .ok _ => Q (m₁.run s₁).2 (m₂.run s₂).2
      | .error _ => E (m₁.run s₁).2 (m₂.run s₂).2

theorem Couples.mono {P' Q' E' : σ₁ → σ₂ → Prop} {m₁ : Action σ₁ ε α} {m₂ : Action σ₂ ε α}
    (h : Couples P Q E m₁ m₂) (hP : ∀ a b, P' a b → P a b) (hQ : ∀ a b, Q a b → Q' a b)
    (hE : ∀ a b, E a b → E' a b) : Couples P' Q' E' m₁ m₂ := by
  intro s₁ s₂ hs
  obtain ⟨heq, hafter⟩ := h s₁ s₂ (hP _ _ hs)
  refine ⟨heq, ?_⟩
  split
  · rename_i hok
    rw [hok] at hafter
    exact hQ _ _ hafter
  · rename_i herror
    rw [herror] at hafter
    exact hE _ _ hafter

theorem couples_pure (h : ∀ a b, P a b → Q a b) (a : α) :
    Couples P Q E (pure a : Action σ₁ ε α) (pure a) :=
  fun _ _ hs => ⟨rfl, h _ _ hs⟩

theorem couples_fail (h : ∀ a b, P a b → E a b) (e : ε) :
    Couples P Q E (fail e : Action σ₁ ε α) (fail e) :=
  fun _ _ hs => ⟨rfl, h _ _ hs⟩

theorem couples_ofExcept (hQ : ∀ a b, P a b → Q a b) (hE : ∀ a b, P a b → E a b)
    (r : Except ε α) : Couples P Q E (ofExcept r : Action σ₁ ε α) (ofExcept r) := by
  cases r with
  | ok a => exact fun _ _ hs => ⟨rfl, hQ _ _ hs⟩
  | error e => exact fun _ _ hs => ⟨rfl, hE _ _ hs⟩

theorem couples_pure_self (a : α) : Couples P P E (pure a : Action σ₁ ε α) (pure a) :=
  couples_pure (fun _ _ h => h) a

theorem couples_ofExcept_self (r : Except ε α) :
    Couples P P P (ofExcept r : Action σ₁ ε α) (ofExcept r) :=
  couples_ofExcept (fun _ _ h => h) (fun _ _ h => h) r

theorem couples_update {f : σ₁ → σ₁} {g : σ₂ → σ₂} (h : ∀ a b, P a b → Q (f a) (g b)) :
    Couples P Q E (update f : Action σ₁ ε Unit) (update g) :=
  fun _ _ hs => ⟨rfl, h _ _ hs⟩

theorem Couples.bind {m₁ : Action σ₁ ε α} {m₂ : Action σ₂ ε α} {k₁ : α → Action σ₁ ε β}
    {k₂ : α → Action σ₂ ε β} (hm : Couples P M E m₁ m₂) (hk : ∀ a, Couples M Q E (k₁ a) (k₂ a)) :
    Couples P Q E (m₁ >>= k₁) (m₂ >>= k₂) := by
  intro s₁ s₂ hs
  obtain ⟨heq, hafter⟩ := hm s₁ s₂ hs
  rcases h₁ : m₁.run s₁ with ⟨_ | a, t₁⟩ <;> rcases h₂ : m₂.run s₂ with ⟨_ | b, t₂⟩ <;>
    rw [h₁, h₂] at heq hafter <;> cases heq
  · rw [run_bind_error h₁, run_bind_error h₂]
    exact ⟨rfl, hafter⟩
  · rw [run_bind_ok h₁, run_bind_ok h₂]
    exact hk a t₁ t₂ hafter

theorem Couples.mapError {m₁ : Action σ₁ ε α} {m₂ : Action σ₂ ε α} (h : Couples P Q E m₁ m₂)
    (f : ε → ε') : Couples P Q E (Action.mapError f m₁) (Action.mapError f m₂) := by
  intro s₁ s₂ hs
  obtain ⟨heq, hafter⟩ := h s₁ s₂ hs
  rw [run_mapError, run_mapError, ← heq]
  cases hm : (m₁.run s₁).1 with
  | ok a =>
    rw [hm] at hafter
    exact ⟨rfl, hafter⟩
  | error e =>
    rw [hm] at hafter
    exact ⟨rfl, hafter⟩

/-- What is related after a success and after a failure is related after every run. -/
theorem couples_any {m₁ : Action σ₁ ε α} {m₂ : Action σ₂ ε α} :
    Couples P Q Q m₁ m₂ ↔ ∀ s₁ s₂, P s₁ s₂ →
      (m₁.run s₁).1 = (m₂.run s₂).1 ∧ Q (m₁.run s₁).2 (m₂.run s₂).2 := by
  refine forall_congr' fun s₁ => forall_congr' fun s₂ => imp_congr_right fun _ => ?_
  refine and_congr_right fun _ => ?_
  split <;> rfl

/-- Actions that are attempted never stop a sequence, so their states are related in any case. -/
theorem Couples.attempt {m₁ : Action σ₁ ε α} {m₂ : Action σ₂ ε α} (h : Couples P Q Q m₁ m₂) :
    Couples P Q E (Action.attempt m₁ : Action σ₁ ε' (Except ε α)) (Action.attempt m₂) := by
  intro s₁ s₂ hs
  obtain ⟨heq, hafter⟩ := couples_any.1 h s₁ s₂ hs
  exact ⟨congrArg Except.ok heq, hafter⟩

theorem couples_forEach {f₁ : α → Action σ₁ ε β} {f₂ : α → Action σ₂ ε β}
    (h : ∀ a, Couples P P E (f₁ a) (f₂ a)) (as : List α) :
    Couples P P E (forEach f₁ as) (forEach f₂ as) := by
  induction as with
  | nil => exact couples_pure_self _
  | cons a rest ih => exact (h a).bind fun _ => ih.bind fun _ => couples_pure_self _

end Coupling

end Action

end SymbolicMachine
