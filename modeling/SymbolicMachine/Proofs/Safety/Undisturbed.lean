import SymbolicMachine.Proofs.Explore.Rules
import SymbolicMachine.Proofs.State.Soundness
import SymbolicMachine.Proofs.Types.Superclasses
/-!
# Undisturbed engines

Whatever an undisturbed engine does, nothing outside makes it fail: its oracle answers, its
watchdog stays quiet, and the only error of a native method is that it cannot be invoked.  An
action is safe if its other errors at worst end the path of the state, or show that a class that
can have instances is above itself.
-/
namespace SymbolicMachine

open SymbolicMachine.Action

variable {ω τ ε α β : Type}

/-! ## Undisturbed engines -/

structure Oracle.Answers (o : Oracle ω) : Prop where
  set : ∀ cs w, (o.set cs).Meets w (fun _ _ => True) fun _ _ => False
  push : ∀ c w, (o.push c).Meets w (fun _ _ => True) fun _ _ => False
  ask : ∀ q w, (o.ask q).Meets w (fun _ _ => True) fun _ _ => False
  simplify : ∀ t w, (o.simplify t).Meets w (fun _ _ => True) fun _ _ => False

theorem Oracle.permissive_answers : Oracle.permissive.Answers where
  set cs w := (Engine.meets_permissive_set cs w).mono (fun _ _ _ => trivial) fun _ _ h => h
  push _ _ := trivial
  ask q w := by cases q <;> trivial
  simplify _ _ := trivial

/-- An evaluator that has no other errors than that it cannot invoke a method. -/
def NativeEvaluator.OnlyRejects (n : NativeEvaluator) : Prop :=
  ∀ method args error, n.invoke method args = .error error →
    ∃ name reason, error = .cannotInvokeNative name reason

/-- An engine that is not interfered with while it explores. -/
structure Engine.Steady (e : Engine ω τ) : Prop where
  oracle : e.oracle.Answers
  triggers : e.triggers = .absent τ
  watchdog : ∀ queries, e.watchdog.shouldStop queries = false

/-- An engine that nothing outside interferes with. -/
structure Engine.Undisturbed (e : Engine ω τ) : Prop extends e.Steady where
  natives : e.natives.OnlyRejects

namespace NativeEvaluator

variable {n : NativeEvaluator} {method : MethodSignature}

theorem absent_onlyRejects : absent.OnlyRejects := by
  intro method args error h
  cases h
  exact ⟨_, _, rfl⟩

theorem argumentTerms_rejects {args : List Value} {error : ExecutionError}
    (h : argumentTerms method args = .error error) :
    ∃ name reason, error = .cannotInvokeNative name reason := by
  induction args with
  | nil => cases h
  | cons v rest ih =>
    cases v with
    | primitive t =>
      rcases bind_eq_error.1 h with h | ⟨others, -, h⟩
      · exact ih h
      · cases h
    | reference r =>
      cases h
      exact ⟨_, _, rfl⟩

theorem apply_rejects (hn : n.OnlyRejects) {type : PrimType} {args : List Term}
    {error : ExecutionError} (h : n.apply method type args = .error error) :
    ∃ name reason, error = .cannotInvokeNative name reason := by
  unfold apply at h
  split at h
  · cases h
  · split at h
    · rename_i hinvoke
      cases h
      exact hn _ _ _ hinvoke
    · split at h
      · cases h
      · cases h
        exact ⟨_, _, rfl⟩

theorem invokePure_rejects (hn : n.OnlyRejects) {args : List Value} {error : ExecutionError}
    (h : n.invokePure method args = .error error) :
    ∃ name reason, error = .cannotInvokeNative name reason := by
  unfold invokePure at h
  split at h
  · cases h
    exact ⟨_, _, rfl⟩
  · split at h
    · cases h
    · split at h
      · cases h
      · rcases bind_eq_error.1 h with h | ⟨terms, -, h⟩
        · exact argumentTerms_rejects h
        · rcases bind_eq_error.1 h with h | ⟨term, -, h⟩
          · exact apply_rejects hn h
          · cases h

theorem invokePure_usable {args : List Value} {v : Value} (s : State)
    (h : n.invokePure method args = .ok (some v)) : s.Usable v := by
  unfold invokePure at h
  split at h
  · cases h
  · split at h
    · cases h
    · split at h
      · cases h
        trivial
      · obtain ⟨terms, -, h⟩ := bind_eq_ok.1 h
        obtain ⟨term, -, h⟩ := bind_eq_ok.1 h
        cases h
        trivial

end NativeEvaluator

/-! ## Safe actions -/

/-- The error of an instruction that an undisturbed engine may have: a native method may not be
invocable. -/
def Instruction.MayFail (i : Instruction) (x : ExecutionError) : Prop :=
  (∃ method isStatic length, i = .invokeNative method isStatic length) ∧
    ∃ name reason, x = .cannotInvokeNative name reason

/-- A fault that ends the path of a state, and does not fail the step. -/
def Fault.EndsPath : Fault → Prop
  | .memory cause => cause.isEngineFault = false
  | .linkage cause => cause.isEndless = false
  | .execution _ => False

/-- A fault that ends a path throws an exception. -/
theorem Fault.EndsPath.settle {fault : Fault} (h : fault.EndsPath)
    (s : State) : ∃ className, fault.settle s = .ok (s.throwNew className).2 := by
  cases fault with
  | memory cause =>
    have hmild : cause.isEngineFault = false := h
    exact ⟨verifyError, by simp [Fault.settle, hmild]; rfl⟩
  | linkage cause =>
    cases cause with
    | notFound _ => exact ⟨_, rfl⟩
    | notAccessible _ _ => exact ⟨_, rfl⟩
    | endless _ => cases h
  | execution cause => exact h.elim

theorem Fault.exists_settle (fault : Fault) (h : fault.EndsPath) {s : State} (hs : s.Sound) :
    ∃ t, fault.settle s = .ok t ∧ s.Follows t := by
  obtain ⟨className, ht⟩ := h.settle s
  exact ⟨_, ht, hs.throwNew _, s.grows_throwNew _⟩

/-- An error for the caller that stands for a search without end for the fields of a class. -/
def ExecutionError.Hangs (t : ClassTable) (x : ExecutionError) : Prop :=
  ∃ cause, t.Hangs cause ∧ x = .linkage cause

/-- A fault that ends a path, or a search without end. -/
def Fault.Expected (t : ClassTable) (fault : Fault) : Prop :=
  fault.EndsPath ∨ ∃ cause, t.Hangs cause ∧ fault = .linkage cause

/-- A search without end is not settled. -/
theorem ClassTable.Hangs.settle {t : ClassTable} {cause : ClassError} (h : t.Hangs cause)
    (s : State) : (Fault.linkage cause).settle s = .error (.linkage cause) := by
  cases cause with
  | endless _ => rfl
  | _ => cases h.1

/-- A class that can have instances is there to be used, unless its fields are looked for without
end. -/
theorem Fault.expected_of_instanceFields {t : ClassTable} {name : String} {cause : ClassError}
    (hname : t.Instantiable name) (h : t.instanceFields name = .error cause) :
    (Fault.linkage cause).Expected t := by
  cases hendless : cause.isEndless with
  | false => exact .inl hendless
  | true => exact .inr ⟨cause, ⟨hendless, name, hname, h⟩, rfl⟩

/-- Whatever state an action is run on, its result or its error has a property. -/
def Action.Always {σ : Type} (m : Action σ ε α) (post : α → Prop) (bad : ε → Prop) : Prop :=
  ∀ w, m.Meets w (fun a _ => post a) fun x _ => bad x

theorem Action.Always.bind {σ : Type} {m : Action σ ε α} {k : α → Action σ ε β}
    {post : α → Prop} {post' : β → Prop} {bad : ε → Prop} (hm : m.Always post bad)
    (hk : ∀ a, post a → (k a).Always post' bad) : (m >>= k).Always post' bad := by
  intro w
  rw [meets_bind]
  exact (hm w).mono (fun a w' ha => hk a ha w') fun _ _ hx => hx

theorem Action.Always.mapError {σ ε' : Type} {m : Action σ ε α} {post : α → Prop}
    {bad : ε → Prop} {bad' : ε' → Prop} {f : ε → ε'} (hm : m.Always post bad)
    (hf : ∀ x, bad x → bad' (f x)) : (Action.mapError f m).Always post bad' := by
  intro w
  rw [meets_mapError]
  exact (hm w).mono (fun _ _ ha => ha) fun x _ hx => hf x hx

theorem Action.always_pure {σ : Type} {post : α → Prop} {bad : ε → Prop} {a : α} (h : post a) :
    (pure a : Action σ ε α).Always post bad := fun _ => h

theorem Action.always_ofExcept {σ : Type} {post : α → Prop} {bad : ε → Prop} {r : Except ε α}
    (hok : ∀ a, r = .ok a → post a) (herror : ∀ x, r = .error x → bad x) :
    (ofExcept r : Action σ ε α).Always post bad := fun _ => meets_ofExcept.2 ⟨hok, herror⟩

namespace Engine

/-- An action on a successor leads to a sound state further along the path, and at worst ends
it or hangs. -/
def SafeRefinement (t : ClassTable) (m : Refinement ω τ α) (s : State)
    (post : α → State → Prop) : Prop :=
  ∀ ses, m.Meets (s, ses) (fun a w => s.Follows w.1 ∧ post a w.1)
    fun fault w => s.Follows w.1 ∧ fault.Expected t

section SafeRefinement

variable {t : ClassTable} {s : State} {post : α → State → Prop}

theorem SafeRefinement.bind {m : Refinement ω τ α} {k : α → Refinement ω τ β}
    {post' : β → State → Prop} (hm : SafeRefinement t m s post)
    (hk : ∀ a u, s.Follows u → post a u → SafeRefinement t (k a) u post') :
    SafeRefinement t (m >>= k) s post' := by
  intro ses
  rw [meets_bind]
  refine (hm ses).mono (fun a w ⟨hst, hpost⟩ => ?_) fun _ _ h => h
  exact (hk a w.1 hst hpost w.2).mono (fun _ _ ⟨htu, hpost'⟩ => ⟨hst.trans htu, hpost'⟩)
    fun _ _ ⟨htu, hfault⟩ => ⟨hst.trans htu, hfault⟩

theorem safeRefinement_pure (h : s.Sound) {a : α} (hpost : post a s) :
    SafeRefinement t (pure a : Refinement ω τ α) s post := fun _ => ⟨⟨h, .refl s⟩, hpost⟩

theorem safeRefinement_ofExcept (h : s.Sound) {r : Except Fault α}
    (hpost : ∀ a, r = .ok a → post a s) (hbad : ∀ fault, r = .error fault → fault.Expected t) :
    SafeRefinement t (ofExcept r : Refinement ω τ α) s post := fun _ =>
  meets_ofExcept.2
    ⟨fun a ha => ⟨⟨h, .refl s⟩, hpost a ha⟩, fun fault hf => ⟨⟨h, .refl s⟩, hbad fault hf⟩⟩

theorem safeRefinement_value (h : s.Sound) {r : Except ValueError α}
    (hpost : ∀ a, r = .ok a → post a s) :
    SafeRefinement t (ofExcept (r.mapError (Fault.memory ∘ MemoryError.value)) : Refinement ω τ α)
      s post := by
  refine safeRefinement_ofExcept h (fun a ha => hpost a (mapError_eq_ok.1 ha)) fun fault hf => ?_
  obtain ⟨cause, -, rfl⟩ := mapError_eq_error.1 hf
  exact .inl rfl

theorem safeRefinement_updating {m : State.Update α} (h : State.Safe m s post) :
    SafeRefinement t (updating (ω := ω) (τ := τ) m) s post := by
  intro ses
  rw [meets_updating]
  exact h.mono (fun _ _ ht => ht) fun _ _ ht => ⟨ht.1, .inl ht.2⟩

end SafeRefinement

/-! ## Services -/

section Services

variable {e : Engine ω τ} (he : e.Steady)

include he

omit he in
theorem count_always {bad : ε → Prop} (f : Statistics → Statistics) :
    (Session.count (ω := ω) (τ := τ) f).Always (fun _ => True) bad := fun _ => trivial

theorem sync_answers (s : State) : (e.sync s).Always (fun _ => True) fun _ => False := by
  intro ses
  rw [meets_sync]
  exact (he.oracle.set _ _).mono (fun _ _ _ => trivial) fun _ _ h => h

theorem query_answers (q : Query) : (e.query q).Always (fun _ => True) fun _ => False := by
  intro ses
  refine meets_query (fun hstop => ?_) ?_
  · unfold stops at hstop
    rw [he.watchdog, Bool.and_false] at hstop
    cases hstop
  · exact (he.oracle.ask q _).mono (fun _ _ _ => trivial) fun _ _ h => h

theorem push_answers (c : Clause) :
    (Session.consult (τ := τ) (e.oracle.push c)).Always (fun _ => True) fun _ => False := by
  intro ses
  rw [Session.meets_consult]
  exact (he.oracle.push c _).mono (fun _ _ _ => trivial) fun _ _ h => h

theorem simplify_answers (t : Term) :
    (Session.consult (τ := τ) (e.oracle.simplify t)).Always (fun _ => True) fun _ => False := by
  intro ses
  rw [Session.meets_consult]
  exact (he.oracle.simplify t _).mono (fun _ _ _ => trivial) fun _ _ h => h

end Services

end Engine

end SymbolicMachine
