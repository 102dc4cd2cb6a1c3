import SymbolicMachine.Proofs.Explore.History
import SymbolicMachine.Proofs.Safety.Reachable
/-!
# The order of an exploration

An embedder decides from the look of a state whether to step it, and by which instruction, or to
take it as a leaf.  It keeps the states that are left in some order, and takes up any of them
next.  Steps that forget the history of their session make all complete explorations of the same
states alike: they come to the same leaves, and count the same.

Every complete exploration is compared with the one that finishes the states from first to last
and the successors of a state before the next state: its leaves are a permutation of theirs.
-/
namespace SymbolicMachine

open SymbolicMachine.Action

variable {ω τ : Type}

/-- What an embedder does with a state. -/
inductive Plan where
  | step (instruction : Instruction)
  /-- The state is a leaf, and how its path ended is counted if it is known. -/
  | leaf (outcome : Option PathOutcome)

/-- Counts the end of a path. -/
def Statistics.recordEnd (a : Statistics) : Option PathOutcome → Statistics
  | some outcome => a.recordPath outcome
  | none => a

theorem Statistics.adds_recordEnd (outcome : Option PathOutcome) :
    Adds (·.recordEnd outcome) (zero.recordEnd outcome) := by
  cases outcome with
  | none => exact fun _ => rfl
  | some outcome => exact adds_recordPath outcome

def Session.recordEnd (ses : Session ω τ) (outcome : Option PathOutcome) : Session ω τ :=
  { ses with statistics := ses.statistics.recordEnd outcome }

namespace Engine

variable {e : Engine ω τ} {plan : State → Plan}

/-- A complete exploration of pending states, in which no step fails: any pending state is taken
up next, and the successors of a step are pending in its place. -/
inductive Explores (e : Engine ω τ) (plan : State → Plan) :
    List State → Session ω τ → List State → Session ω τ → Prop
  | done (ses : Session ω τ) : Explores e plan [] ses [] ses
  | leaf (before : List State) {after leaves : List State} {s : State} {ses ses' : Session ω τ}
      {outcome : Option PathOutcome} (hplan : plan s = .leaf outcome)
      (hrest : Explores e plan (before ++ after) (ses.recordEnd outcome) leaves ses') :
      Explores e plan (before ++ s :: after) ses (s :: leaves) ses'
  | step (before : List State) {after found leaves : List State} {s : State}
      {ses ses₁ ses' : Session ω τ} {i : Instruction} (hplan : plan s = .step i)
      (hstep : (e.step i s).run ses = (.ok found, ses₁))
      (hrest : Explores e plan (before ++ (found ++ after)) ses₁ leaves ses') :
      Explores e plan (before ++ s :: after) ses leaves ses'

/-- A step gives successors and adds to the statistics, whatever the session. -/
def Gives (e : Engine ω τ) (i : Instruction) (s : State) (found : List State)
    (amount : Statistics) : Prop :=
  ∀ ses, ((e.step i s).run ses).1 = .ok found ∧
    ((e.step i s).run ses).2.statistics = ses.statistics.plus amount

theorem Gives.unique {i : Instruction} {s : State} {found found' : List State}
    {amount amount' : Statistics} (ses : Session ω τ) (h : e.Gives i s found amount)
    (h' : e.Gives i s found' amount') : found = found' ∧ amount = amount' := by
  constructor
  · exact Except.ok.inj ((h ses).1.symm.trans (h' ses).1)
  · exact Statistics.plus_left_cancel ((h ses).2.symm.trans (h' ses).2)

/-- The leaves below pending states from first to last, and what the exploration of the states
adds to the statistics. -/
inductive Yields (e : Engine ω τ) (plan : State → Plan) :
    List State → List State → Statistics → Prop
  | done : Yields e plan [] [] .zero
  | leaf {s : State} {rest leaves : List State} {outcome : Option PathOutcome}
      {amount : Statistics} (hplan : plan s = .leaf outcome)
      (hrest : Yields e plan rest leaves amount) :
      Yields e plan (s :: rest) (s :: leaves) ((Statistics.zero.recordEnd outcome).plus amount)
  | step {s : State} {found rest below leaves : List State} {i : Instruction}
      {gained inner amount : Statistics} (hplan : plan s = .step i)
      (hgives : e.Gives i s found gained) (hbelow : Yields e plan found below inner)
      (hrest : Yields e plan rest leaves amount) :
      Yields e plan (s :: rest) (below ++ leaves) ((gained.plus inner).plus amount)

namespace Yields

variable {p q leaves leaves' : List State} {amount amount' : Statistics}

theorem append (hp : Yields e plan p leaves amount) (hq : Yields e plan q leaves' amount') :
    Yields e plan (p ++ q) (leaves ++ leaves') (amount.plus amount') := by
  induction hp with
  | done => simpa using hq
  | leaf hplan _ ih =>
    rw [Statistics.plus_assoc]
    exact .leaf hplan ih
  | step hplan hgives hbelow _ _ ih =>
    rw [Statistics.plus_assoc, List.append_assoc]
    exact .step hplan hgives hbelow ih

theorem split (h : Yields e plan (p ++ q) leaves amount) :
    ∃ leaves₁ amount₁ leaves₂ amount₂, Yields e plan p leaves₁ amount₁ ∧
      Yields e plan q leaves₂ amount₂ ∧ leaves = leaves₁ ++ leaves₂ ∧
      amount = amount₁.plus amount₂ := by
  induction p generalizing leaves amount with
  | nil => exact ⟨[], .zero, leaves, amount, .done, h, rfl, by simp⟩
  | cons s p ih =>
    cases h with
    | leaf hplan hrest =>
      obtain ⟨leaves₁, amount₁, leaves₂, amount₂, h₁, h₂, rfl, rfl⟩ := ih hrest
      exact ⟨_, _, leaves₂, amount₂, .leaf hplan h₁, h₂, rfl, (Statistics.plus_assoc ..).symm⟩
    | step hplan hgives hbelow hrest =>
      obtain ⟨leaves₁, amount₁, leaves₂, amount₂, h₁, h₂, rfl, rfl⟩ := ih hrest
      exact ⟨_, _, leaves₂, amount₂, .step hplan hgives hbelow h₁, h₂,
        (List.append_assoc ..).symm, (Statistics.plus_assoc ..).symm⟩

/-- Pending states in another order have the same leaves in another order. -/
theorem perm (h : Yields e plan p leaves amount) (hperm : p.Perm q) :
    ∃ leaves', Yields e plan q leaves' amount ∧ leaves.Perm leaves' := by
  induction hperm generalizing leaves amount with
  | nil => exact ⟨leaves, h, .rfl⟩
  | cons s _ ih =>
    obtain ⟨leaves₁, amount₁, leaves₂, amount₂, h₁, h₂, rfl, rfl⟩ := split (p := [s]) h
    obtain ⟨leaves', h', hleaves⟩ := ih h₂
    exact ⟨leaves₁ ++ leaves', h₁.append h', hleaves.append_left leaves₁⟩
  | swap s t rest =>
    obtain ⟨leaves₁, amount₁, _, _, h₁, hrest, rfl, rfl⟩ := split (p := [t]) h
    obtain ⟨leaves₂, amount₂, leaves₃, amount₃, h₂, h₃, rfl, rfl⟩ := split (p := [s]) hrest
    refine ⟨leaves₂ ++ (leaves₁ ++ leaves₃), ?_, ?_⟩
    · rw [Statistics.plus_left_comm]
      exact h₂.append (h₁.append h₃)
    · rw [← List.append_assoc, ← List.append_assoc]
      exact List.perm_append_comm.append_right leaves₃
  | trans _ _ ih₁ ih₂ =>
    obtain ⟨leaves₁, h₁, hleaves₁⟩ := ih₁ h
    obtain ⟨leaves₂, h₂, hleaves₂⟩ := ih₂ h₁
    exact ⟨leaves₂, h₂, hleaves₁.trans hleaves₂⟩

/-- What pending states yield is determined, given any session to try a step in. -/
theorem unique (ses : Session ω τ) (h : Yields e plan p leaves amount)
    (h' : Yields e plan p leaves' amount') : leaves = leaves' ∧ amount = amount' := by
  induction h generalizing leaves' amount' with
  | done =>
    cases h'
    exact ⟨rfl, rfl⟩
  | leaf hplan _ ih =>
    cases h' with
    | leaf hplan' hrest' =>
      cases hplan.symm.trans hplan'
      obtain ⟨rfl, rfl⟩ := ih hrest'
      exact ⟨rfl, rfl⟩
    | step hplan' => exact nomatch hplan.symm.trans hplan'
  | step hplan hgives _ _ ihbelow ihrest =>
    cases h' with
    | leaf hplan' => exact nomatch hplan.symm.trans hplan'
    | step hplan' hgives' hbelow' hrest' =>
      cases hplan.symm.trans hplan'
      obtain ⟨rfl, rfl⟩ := hgives.unique ses hgives'
      obtain ⟨rfl, rfl⟩ := ihbelow hbelow'
      obtain ⟨rfl, rfl⟩ := ihrest hrest'
      exact ⟨rfl, rfl⟩

end Yields

/-- The leaves of a complete exploration are those below its pending states, and the statistics
grow by what the pending states add. -/
theorem Explores.yields
    (hgives : ∀ {i s ses found ses'}, (e.step i s).run ses = (.ok found, ses') →
      ∃ amount, e.Gives i s found amount ∧
        ses'.statistics = ses.statistics.plus amount)
    {pending leaves : List State} {ses ses' : Session ω τ}
    (h : e.Explores plan pending ses leaves ses') :
    ∃ ordered amount, Yields e plan pending ordered amount ∧ leaves.Perm ordered ∧
      ses'.statistics = ses.statistics.plus amount := by
  -- The state that was taken up goes to the front, where its leaves are the first ones.
  induction h with
  | done ses => exact ⟨[], .zero, .done, .rfl, rfl⟩
  | @leaf before after leaves s ses ses' outcome hplan _ ih =>
    obtain ⟨ordered, amount, hyields, hleaves, hstatistics⟩ := ih
    obtain ⟨ordered', hyields', hordered⟩ :=
      (Yields.leaf hplan hyields).perm List.perm_middle.symm
    refine ⟨ordered', _, hyields', (hleaves.cons s).trans hordered, ?_⟩
    rw [hstatistics, ← Statistics.plus_assoc]
    exact congrArg (Statistics.plus · amount) (Statistics.adds_recordEnd outcome _)
  | @step before after found leaves s ses ses₁ ses' i hplan hstep _ ih =>
    obtain ⟨ordered, amount, hyields, hleaves, hstatistics⟩ := ih
    obtain ⟨gained, hgained, hses⟩ := hgives hstep
    have hfront : (before ++ (found ++ after)).Perm (found ++ (before ++ after)) := by
      rw [← List.append_assoc, ← List.append_assoc]
      exact List.perm_append_comm.append_right after
    obtain ⟨ordered', hyields', hordered⟩ := hyields.perm hfront
    obtain ⟨below, inner, others, amount', hbelow, hothers, rfl, rfl⟩ := hyields'.split
    obtain ⟨ordered'', hyields'', hordered'⟩ :=
      (Yields.step hplan hgained hbelow hothers).perm List.perm_middle.symm
    refine ⟨ordered'', _, hyields'', (hleaves.trans hordered).trans hordered', ?_⟩
    rw [hstatistics, hses, Statistics.plus_assoc, Statistics.plus_assoc]

variable {stack : ω → List Clause}

/-- A step that succeeds in one session gives the same in every session. -/
theorem gives_of_run (hanswers : e.oracle.AnswersFrom stack)
    (htriggers : e.triggers = .absent τ) (hwatch : ∀ n, e.watchdog.shouldStop n = false)
    {i : Instruction} {s : State} {ses ses' : Session ω τ} {found : List State}
    (hstep : (e.step i s).run ses = (.ok found, ses')) :
    ∃ amount, e.Gives i s found amount ∧ ses'.statistics = ses.statistics.plus amount := by
  obtain ⟨-, amount, hamount, -⟩ := step_forgets hanswers htriggers hwatch i s ses ses
  rw [hstep] at hamount
  -- The amount is the same in every session, since equal summands cancel in this one.
  refine ⟨amount, fun other => ?_, hamount⟩
  obtain ⟨hresult, amount', hses, hother⟩ := step_forgets hanswers htriggers hwatch i s ses other
  rw [hstep] at hresult hses
  cases Statistics.plus_left_cancel (hamount.symm.trans hses)
  exact ⟨hresult.symm, hother⟩

/-- Outcomes do not depend on history.  A step comes to the same outcome in any two sessions and
adds the same to their statistics, whatever was done in them before, be it that a step failed in
the middle.  Hence two complete explorations of the same states with the same plan, which take up
the pending states in any orders, reach the same leaves and end with the same statistics. -/
theorem exploration_is_independent_of_history_and_order (hanswers : e.oracle.AnswersFrom stack)
    (htriggers : e.triggers = .absent τ) (hwatch : ∀ n, e.watchdog.shouldStop n = false) :
    (∀ (i : Instruction) (s : State) (a b : Session ω τ),
      ((e.step i s).run a).1 = ((e.step i s).run b).1 ∧
        ∃ amount, ((e.step i s).run a).2.statistics = a.statistics.plus amount ∧
          ((e.step i s).run b).2.statistics = b.statistics.plus amount) ∧
      ∀ (plan : State → Plan) (pending pending' leaves leaves' : List State)
        (a b a' b' : Session ω τ), pending.Perm pending' → a.statistics = b.statistics →
        e.Explores plan pending a leaves a' → e.Explores plan pending' b leaves' b' →
        leaves.Perm leaves' ∧ a'.statistics = b'.statistics := by
  refine ⟨step_forgets hanswers htriggers hwatch, ?_⟩
  intro plan pending pending' leaves leaves' a b a' b' hpending hstatistics hleft hright
  have hgives : ∀ {i s ses found ses'}, (e.step i s).run ses = (.ok found, ses') →
      ∃ amount, e.Gives i s found amount ∧ ses'.statistics = ses.statistics.plus amount :=
    gives_of_run hanswers htriggers hwatch
  obtain ⟨ordered, amount, hyields, hleaves, ha'⟩ := hleft.yields hgives
  obtain ⟨ordered', amount', hyields', hleaves', hb'⟩ := hright.yields hgives
  obtain ⟨reordered, hreordered, hperm⟩ := hyields.perm hpending
  obtain ⟨rfl, rfl⟩ := hreordered.unique a hyields'
  refine ⟨(hleaves.trans hperm).trans hleaves'.symm, ?_⟩
  rw [ha', hb', hstatistics]

def scripted (s : Script) : Engine Consultation Unit :=
  { oracle := s.oracle
    classes := .initial
    triggers := .absent Unit
    natives := .absent
    watchdog := .lazy
    config := .standard }

/-- Loads the first local variable and goes no further. -/
def loadOnce (s : State) : Plan :=
  match s.pc with
  | .ok 0 => .step (.loadLocal 0 1)
  | _ => .leaf (some .safe)

/-- A session in which another state was stepped before. -/
def usedSession : Session Consultation Unit :=
  { Session.start Consultation.start () with oracle := ⟨[.initialized "Main"], []⟩, queries := 7 }

/-- An array argument is loaded as null first and as an array second. -/
theorem exists_loaded {ses : Session Consultation Unit}
    (hses : ses = .start .start () ∨ ses = usedSession) :
    ∃ null array after,
      ((scripted ⟨[], [], []⟩).step (.loadLocal 0 1) arrayRoot).run ses =
        (.ok [null, array], after) ∧
      (null.branches = [1, 1] ∧ loadOnce null = .leaf (some .safe)) ∧
      array.branches = [1, 2] ∧ loadOnce array = .leaf (some .safe) := by
  have hfound : ∃ found after,
      ((scripted ⟨[], [], []⟩).step (.loadLocal 0 1) arrayRoot).run ses = (.ok found, after) ∧
      found.map (·.branches) = [[1, 1], [1, 2]] ∧
      found.map loadOnce = [.leaf (some .safe), .leaf (some .safe)] := by
    have hrun := @rfl _ (((scripted ⟨[], [], []⟩).step (.loadLocal 0 1) arrayRoot).run ses)
    rcases hses with rfl | rfl
    · exact ⟨_, _, hrun, rfl, rfl⟩
    · exact ⟨_, _, hrun, rfl, rfl⟩
  obtain ⟨found, after, hrun, hbranches, hplans⟩ := hfound
  obtain ⟨null, rest, rfl, hnull, hrest⟩ := List.map_eq_cons_iff.1 hbranches
  obtain ⟨array, last, rfl, harray, hlast⟩ := List.map_eq_cons_iff.1 hrest
  obtain rfl := List.map_eq_nil_iff.1 hlast
  have hleaves : loadOnce null = .leaf (some .safe) ∧ loadOnce array = .leaf (some .safe) := by
    simpa using hplans
  exact ⟨null, array, after, hrun, ⟨hnull, hleaves.1⟩, harray, hleaves.2⟩

/-- An array argument is null or an array.  The two leaves may be finished in either order, the
second time in a session whose oracle was left with an assumption of another state. -/
theorem either_leaf_may_come_first :
    let e := scripted ⟨[], [], []⟩
    let fresh : Session Consultation Unit := .start .start ()
    ∃ left right a b, e.Explores loadOnce [arrayRoot] fresh left a ∧
      e.Explores loadOnce [arrayRoot] usedSession right b ∧
      left.map (·.branches) = [[1, 1], [1, 2]] ∧ right.map (·.branches) = [[1, 2], [1, 1]] ∧
      left.Perm right ∧ a.statistics = b.statistics := by
  intro e fresh
  have hforward : ∃ left a, e.Explores loadOnce [arrayRoot] fresh left a ∧
      left.map (·.branches) = [[1, 1], [1, 2]] := by
    obtain ⟨null, array, after, hrun, ⟨hnull, hleaf⟩, harray, hleaf'⟩ := exists_loaded (.inl rfl)
    refine ⟨[null, array], _, .step [] rfl hrun (.leaf [] hleaf (.leaf [] hleaf' (.done _))), ?_⟩
    simp [hnull, harray]
  have hbackward : ∃ right b, e.Explores loadOnce [arrayRoot] usedSession right b ∧
      right.map (·.branches) = [[1, 2], [1, 1]] := by
    obtain ⟨null, array, after, hrun, ⟨hnull, hleaf⟩, harray, hleaf'⟩ := exists_loaded (.inr rfl)
    refine ⟨[array, null], _, .step [] rfl hrun
      (.leaf [null] hleaf' (.leaf [] hleaf (.done _))), ?_⟩
    simp [hnull, harray]
  obtain ⟨left, a, hleft, hleft_branches⟩ := hforward
  obtain ⟨right, b, hright, hright_branches⟩ := hbackward
  obtain ⟨-, horder⟩ := exploration_is_independent_of_history_and_order (e := e)
    (Script.answersFrom _) rfl fun _ => rfl
  obtain ⟨hperm, hstatistics⟩ :=
    horder loadOnce [arrayRoot] [arrayRoot] left right fresh usedSession a b .rfl rfl hleft hright
  exact ⟨left, right, a, b, hleft, hright, hleft_branches, hright_branches, hperm, hstatistics⟩

end Engine

end SymbolicMachine
