import SymbolicMachine.Proofs.Explore.Rules
/-!
# Which triggers run

Triggers that are given by rules run on the successor of every alternative that loads a value,
after the value was pushed and before the program counter moves.  A rule runs just if the
alternative is of its kind, and expands to its class if it names one; each that does runs once, and
they run in the order in which they are given.  The program counter moves on unless one of them
holds it.

An access out of bounds loads nothing.  Its successor ends by an exception at once, so that a rule
for this kind of alternative never runs.
-/
namespace SymbolicMachine

open SymbolicMachine.Action

variable {ω τ : Type}

namespace TriggerRule

variable {r : TriggerRule τ} {a : Alternative} {rules : List (TriggerRule τ)} {w w' : State × τ}
  {verdicts : List Advance}

/-- A rule is for the alternatives of its kind; if it names a class, only for those that expand
to it. -/
def Matches (r : TriggerRule τ) (a : Alternative) : Prop :=
  a.kind = r.kind ∧ ∀ c, r.className = some c → a.expandedClass? = some c

theorem appliesTo_iff : r.appliesTo a = true ↔ r.Matches a := by
  unfold appliesTo Matches
  rw [Bool.and_eq_true, beq_iff_eq]
  refine and_congr_right fun _ => ?_
  cases r.className with
  | none => exact iff_of_true rfl nofun
  | some c =>
    refine beq_iff_eq.trans ⟨fun h d hd => ?_, fun h => h c rfl⟩
    cases hd
    exact h

/-- The action of the rule does not fail. -/
def Succeeds (r : TriggerRule τ) : Prop :=
  ∀ a w, ∃ verdict w', (r.action a).run w = (.ok verdict, w')

/-- Rules in order: each that matches runs once, where the one before it ended, and gives a
verdict; the others are passed over. -/
inductive Ran (a : Alternative) :
    List (TriggerRule τ) → State × τ → List Advance → State × τ → Prop
  | nil (w : State × τ) : Ran a [] w [] w
  | pass {r : TriggerRule τ} {rest : List (TriggerRule τ)} {w w' : State × τ}
      {verdicts : List Advance} (hmatches : ¬r.Matches a) (hrest : Ran a rest w verdicts w') :
      Ran a (r :: rest) w verdicts w'
  | run {r : TriggerRule τ} {rest : List (TriggerRule τ)} {w w' w'' : State × τ}
      {verdict : Advance} {verdicts : List Advance} (hmatches : r.Matches a)
      (hrun : (r.action a).run w = (.ok verdict, w')) (hrest : Ran a rest w' verdicts w'') :
      Ran a (r :: rest) w (verdict :: verdicts) w''

theorem exists_ran (hactions : ∀ r ∈ rules, r.Succeeds) (a : Alternative) (w : State × τ) :
    ∃ verdicts w', Ran a rules w verdicts w' := by
  induction rules generalizing w with
  | nil => exact ⟨[], w, .nil w⟩
  | cons r rest ih =>
    obtain ⟨hr, hrest⟩ := List.forall_mem_cons.1 hactions
    by_cases hmatches : r.Matches a
    · obtain ⟨verdict, w', hrun⟩ := hr a w
      obtain ⟨verdicts, w'', hran⟩ := ih hrest w'
      exact ⟨verdict :: verdicts, w'', .run hmatches hrun hran⟩
    · obtain ⟨verdicts, w', hran⟩ := ih hrest w
      exact ⟨verdicts, w', .pass hmatches hran⟩

/-- Running the rules for an alternative comes to what running them in order comes to.  The
program counter may move on if no verdict holds it. -/
theorem Ran.run_ofRules (h : Ran a rules w verdicts w') :
    ((Triggers.ofRules rules).run a).run w = (.ok (decide (.suppress ∉ verdicts)), w') := by
  change (runAll a (rules.filter (·.appliesTo a))).run w = _
  induction h with
  | nil w => rfl
  | @pass r rest w w' verdicts hmatches _ ih =>
    have hskip : ¬(r.appliesTo a) = true := fun happlies => hmatches (appliesTo_iff.1 happlies)
    rw [List.filter_cons, if_neg hskip]
    exact ih
  | @run r rest w w' w'' verdict verdicts hmatches hrun _ ih =>
    have happlies : r.appliesTo a = true := appliesTo_iff.2 hmatches
    rw [List.filter_cons, if_pos happlies, runAll, run_bind_ok hrun,
      run_bind_ok ih, run_pure]
    cases verdict <;> simp

end TriggerRule

namespace Engine

open TriggerRule

variable {e : Engine ω τ} {rules : List (TriggerRule τ)} {parent s t : State} {branching : Bool}
  {offset number : Nat} {a : Alternative} {ses placed after : Session ω τ}
  {alternatives : List Alternative}

/-! ## Before and after the triggers -/

/-- All that is done for an alternative before the triggers: what it decides is assumed, and the
value that it loads, if any, is pushed. -/
def place (e : Engine ω τ) (a : Alternative) : Refinement ω τ Unit := do
  assumeGuard a
  let loaded ← e.assumeDecision a.decision
  match loaded with
  | none => pure ()
  | some v => do
    recordFresh a v
    let widened ← Action.ofExcept (v.widen.mapError (.memory ∘ .value))
    updating (State.pushOperand widened)

/-- What is done once an alternative is in place. -/
def moveOn (e : Engine ω τ) (a : Alternative) (offset : Nat) : Refinement ω τ Unit := do
  let advance ← e.triggering a
  if advance then updating (State.incPc offset) else pure ()

theorem apply_eq_place (e : Engine ω τ) (a : Alternative) (offset : Nat) :
    e.apply a offset = e.place a >>= fun _ =>
      if a.kind = .outOfRange then
        Action.update fun (s, ses) => ((s.throwNew indexOutOfBounds).2, ses)
      else e.moveOn a offset := by
  unfold Engine.apply place Alternative.kind
  cases a.decision <;>
    simp only [assumeDecision, Decision.kind, load, moveOn, bind_assoc, pure_bind, reduceCtorEq,
      if_false, if_true]

/-- What becomes of an alternative that is in place in the successor `s`. -/
inductive Concludes (rules : List (TriggerRule τ)) (offset : Nat) (a : Alternative) (s : State)
    (ses : Session ω τ) : State → Session ω τ → Prop
  /-- An access out of bounds ends the path, and no rule runs. -/
  | outOfRange (hkind : a.kind = .outOfRange) :
      Concludes rules offset a s ses (s.throwNew indexOutOfBounds).2 ses
  /-- The rules ran, and none of them holds the program counter. -/
  | moves {verdicts : List Advance} {t : State} {trail : τ} {f : Frame} {rest : List Frame}
      (hkind : a.kind ≠ .outOfRange)
      (hran : Ran a rules (s, ses.trail) verdicts (t, trail)) (hverdicts : .suppress ∉ verdicts)
      (hframes : t.frames = f :: rest) (hinside : f.pc + offset < f.code.length) :
      Concludes rules offset a s ses (t.withFrames ({ f with pc := f.pc + offset } :: rest))
        { ses with trail := trail }
  /-- The rules ran, and the program counter would leave the code. -/
  | leaves {verdicts : List Advance} {t : State} {trail : τ} (hkind : a.kind ≠ .outOfRange)
      (hran : Ran a rules (s, ses.trail) verdicts (t, trail)) (hverdicts : .suppress ∉ verdicts)
      (houtside : ∀ f rest, t.frames = f :: rest → f.code.length ≤ f.pc + offset) :
      Concludes rules offset a s ses t.throwVerifyError.2 { ses with trail := trail }
  /-- The rules ran, and one of them holds the program counter. -/
  | held {verdicts : List Advance} {t : State} {trail : τ} (hkind : a.kind ≠ .outOfRange)
      (hran : Ran a rules (s, ses.trail) verdicts (t, trail)) (hverdicts : .suppress ∈ verdicts) :
      Concludes rules offset a s ses t { ses with trail := trail }

/-- Alternatives taken one after another.  Each is put in place in a successor of its own, where the
rules run for it; the successors are those of the alternatives, in order. -/
inductive TakenFrom (e : Engine ω τ) (rules : List (TriggerRule τ)) (parent : State)
    (branching : Bool) (offset : Nat) :
    Nat → List Alternative → Session ω τ → List State → Session ω τ → Prop
  | nil (number : Nat) (ses : Session ω τ) :
      TakenFrom e rules parent branching offset number [] ses [] ses
  | cons {number : Nat} {a : Alternative} {rest : List Alternative} {s t : State}
      {others : List State} {ses placed next after : Session ω τ}
      (hplaced : (e.place { a with branch := number }).run
        (successorOf parent branching number, ses) = (.ok (), (s, placed)))
      (hconcluded : Concludes rules offset { a with branch := number } s placed t next)
      (hrest : TakenFrom e rules parent branching offset (number + 1) rest
        { next with statistics := next.statistics.addSuccessors 1 } others after) :
      TakenFrom e rules parent branching offset number (a :: rest) ses (t :: others) after

/-- No alternative faults before the triggers, when they are taken one after another. -/
def Unfaulted (e : Engine ω τ) (parent : State) (branching : Bool) (offset : Nat) :
    Nat → List Alternative → Session ω τ → Prop
  | _, [], _ => True
  | number, a :: rest, ses =>
    let next := ((e.refineOne parent branching offset number a).run ses).2
    ((e.place { a with branch := number }).run (successorOf parent branching number, ses)).1 =
        .ok () ∧
      Unfaulted e parent branching offset (number + 1) rest
        { next with statistics := next.statistics.addSuccessors 1 }

/-! ## Alternatives in order -/

section Rules

variable (hrules : e.triggers = .ofRules rules) (hactions : ∀ r ∈ rules, r.Succeeds)

include hrules

theorem run_triggering {verdicts : List Advance} {trail : τ}
    (hran : Ran a rules (s, ses.trail) verdicts (t, trail)) :
    (e.triggering a).run (s, ses) =
      (.ok (decide (.suppress ∉ verdicts)), (t, { ses with trail := trail })) := by
  have hrun := hran.run_ofRules
  unfold triggering
  rw [run_mapError, run_onPart, hrules, hrun]
  rfl

omit hrules in
/-- The program counter moves on inside the code, and leaving it ends the path. -/
theorem meets_advance {verdicts : List Advance} {trail : τ} (hkind : a.kind ≠ .outOfRange)
    (hran : Ran a rules (s, ses.trail) verdicts (t, trail)) (hverdicts : .suppress ∉ verdicts) :
    (updating (State.incPc offset)).Meets (t, { ses with trail := trail })
      (fun _ w => Concludes rules offset a s ses w.1 w.2)
      fun fault w => ∃ u, fault.settle w.1 = .ok u ∧ Concludes rules offset a s ses u w.2 := by
  have hends : ∀ error : MemoryError, error.isEngineFault = false →
      (∀ f rest, t.frames = f :: rest → f.code.length ≤ f.pc + offset) →
      ∃ u, (Fault.memory error).settle t = .ok u ∧
        Concludes rules offset a s ses u { ses with trail := trail } := by
    intro error hmild houtside
    exact ⟨_, by rw [Fault.settle, hmild]; rfl, .leaves hkind hran hverdicts houtside⟩
  rw [meets_updating]
  cases hframes : t.frames with
  | nil =>
    have hnone : ∀ f rest, t.frames ≠ f :: rest := fun _ _ hf => nomatch hframes.symm.trans hf
    exact State.meets_incPc (fun f rest hf _ => absurd hf (hnone f rest)) fun error hmild =>
      hends error hmild fun f rest hf => absurd hf (hnone f rest)
  | cons f rest =>
    refine State.meets_incPc_cons hframes (fun hinside => ?_) fun error houtside hmild => ?_
    · exact .moves hkind hran hverdicts hframes hinside
    · refine hends error hmild fun g below hg => ?_
      cases hframes.symm.trans hg
      exact Nat.not_lt.1 houtside

include hactions

/-- An alternative that is in place has a successor, and the rules for it ran. -/
theorem meets_apply_of_placed {w : State × Session ω τ}
    (hplaced : (e.place a).run w = (.ok (), (s, ses))) :
    (e.apply a offset).Meets w (fun _ w' => Concludes rules offset a s ses w'.1 w'.2)
      fun fault w' => ∃ t, fault.settle w'.1 = .ok t ∧ Concludes rules offset a s ses t w'.2 := by
  unfold Meets
  rw [apply_eq_place, run_bind_ok hplaced]
  by_cases hkind : a.kind = .outOfRange
  · rw [if_pos hkind]
    exact .outOfRange hkind
  · rw [if_neg hkind]
    obtain ⟨verdicts, ⟨t, trail⟩, hran⟩ := exists_ran hactions a (s, ses.trail)
    rw [moveOn, run_bind_ok (run_triggering hrules hran)]
    by_cases hverdicts : .suppress ∈ verdicts
    · simp only [hverdicts, not_true_eq_false, decide_false, Bool.false_eq_true, if_false, run_pure]
      exact .held hkind hran hverdicts
    · simp only [hverdicts, not_false_eq_true, decide_true, if_true]
      exact meets_advance hkind hran hverdicts

theorem exists_concludes
    (hplaced : (e.place { a with branch := number }).run
      (successorOf parent branching number, ses) = (.ok (), (s, placed))) :
    ∃ t next, (e.refineOne parent branching offset number a).run ses = (.ok t, next) ∧
      Concludes rules offset { a with branch := number } s placed t next := by
  have hrefined : (e.refineOne parent branching offset number a).Meets ses
      (fun t next => Concludes rules offset { a with branch := number } s placed t next)
      fun _ _ => False := by
    refine meets_refineOne ((meets_apply_of_placed hrules hactions hplaced).mono
      (fun _ _ h => h) ?_)
    rintro fault w ⟨t, ht, hconcluded⟩
    refine ⟨fun u hu => ?_, fun error herror => nomatch ht.symm.trans herror⟩
    cases ht.symm.trans hu
    exact hconcluded
  rcases hrun : (e.refineOne parent branching offset number a).run ses with ⟨error | t, next⟩
  · exact (hrefined.of_error hrun).elim
  · exact ⟨t, next, rfl, hrefined.of_ok hrun⟩

theorem exists_takenFrom
    (hunfaulted : e.Unfaulted parent branching offset number alternatives ses) :
    ∃ successors after,
      (e.refineFrom parent branching offset number alternatives).run ses = (.ok successors, after) ∧
        TakenFrom e rules parent branching offset number alternatives ses successors after := by
  induction alternatives generalizing number ses with
  | nil => exact ⟨[], ses, rfl, .nil number ses⟩
  | cons a rest ih =>
    obtain ⟨hhead, htail⟩ := hunfaulted
    rcases hplaced : (e.place { a with branch := number }).run
      (successorOf parent branching number, ses) with ⟨error | ⟨⟩, ⟨s, placed⟩⟩
    · rw [hplaced] at hhead
      cases hhead
    obtain ⟨t, next, hrun, hconcluded⟩ := exists_concludes hrules hactions hplaced
    rw [hrun] at htail
    obtain ⟨others, after, hothers, htaken⟩ := ih htail
    refine ⟨t :: others, after, ?_, .cons hplaced hconcluded htaken⟩
    rw [refineFrom, run_bind_ok hrun]
    change (e.refineFrom parent branching offset (number + 1) rest >>= fun others =>
      pure (t :: others)).run _ = _
    rw [run_bind_ok hothers, run_pure]

/-- The rules run for every alternative that loads a value.  If no alternative faults before the
triggers, the state is refined; for each alternative in order, the rules that match it ran in the
successor in which it was put in place, each once and in the order in which they are given, and
the program counter moved on unless one of them held it.  Only an access out of bounds ends
without them. -/
theorem rules_run_for_loads
    (hunfaulted : e.Unfaulted parent (decide (1 < alternatives.length)) offset 1 alternatives ses) :
    ∃ successors after, (e.refine parent alternatives offset).run ses = (.ok successors, after) ∧
      TakenFrom e rules parent (decide (1 < alternatives.length)) offset 1 alternatives ses
        successors after :=
  exists_takenFrom hrules hactions hunfaulted

end Rules

/-- An engine with rules that share a number, and otherwise as the permissive one. -/
def triggered (rules : List (TriggerRule Nat)) : Engine (List Clause) Nat :=
  { oracle := .permissive
    classes := .initial
    triggers := .ofRules rules
    natives := .absent
    watchdog := .lazy
    config := .standard }

/-- A rule for a kind of alternatives that counts how often it ran. -/
def counting (kind : AlternativeKind) (verdict : Advance) : TriggerRule Nat :=
  { kind := kind
    className := none
    action := fun _ => do
      Action.update fun w => (w.1, w.2 + 1)
      pure verdict }

theorem counting_succeeds (kind : AlternativeKind) (verdict : Advance) :
    (counting kind verdict).Succeeds := fun _ w => ⟨verdict, (w.1, w.2 + 1), rfl⟩

/-- A frame with room for an operand. -/
def twoNops : Frame := .create ⟨"Main", "run", "()V"⟩ [0, 0] (.create 0 []) 1

/-- A reference that may be null or an access out of bounds: the rule for null runs for one of the
two, and holds its program counter. -/
theorem rules_run_for_null :
    let rules := [counting .loads .continue, counting .null .suppress]
    let parent := State.root.pushFrame twoNops
    let alternatives := [Alternative.create (.null ⟨0, rootClass, .root "x"⟩) none,
      .create .outOfRange none]
    (triggered rules).Unfaulted parent true 1 1 alternatives (.start [] 0) ∧
      ∃ successors after,
        ((triggered rules).refine parent alternatives 1).run (.start [] 0) =
            (.ok successors, after) ∧
          (triggered rules).TakenFrom rules parent true 1 1 alternatives (.start [] 0) successors
            after := by
  intro rules parent alternatives
  have hunfaulted :
      (triggered rules).Unfaulted parent true 1 1 alternatives (.start [] 0) :=
    ⟨rfl, rfl, trivial⟩
  refine ⟨hunfaulted, rules_run_for_loads rfl ?_ hunfaulted⟩
  exact List.forall_mem_cons.2 ⟨counting_succeeds _ _,
    List.forall_mem_singleton.2 (counting_succeeds _ _)⟩

/-- A rule for accesses out of bounds matches them, but never runs. -/
theorem rule_for_out_of_bounds_does_not_run :
    let rule := counting .outOfRange .continue
    let a := Alternative.create .outOfRange none
    rule.Matches a ∧ rule.Succeeds ∧
      (triggered [rule]).Unfaulted .root false 1 1 [a] (.start [] 0) ∧
      ∃ t after, ((triggered [rule]).refine .root [a] 1).run (.start [] 0) = (.ok [t], after) ∧
        after.trail = 0 ∧ ∀ s, ¬∃ w verdicts, Ran a [rule] (s, 0) verdicts (w, after.trail) := by
  intro rule a
  have hmatches : rule.Matches a := ⟨rfl, nofun⟩
  refine ⟨hmatches, counting_succeeds _ _, ⟨rfl, trivial⟩, _, _, rfl, rfl, ?_⟩
  rintro s ⟨w, verdicts, hran⟩
  cases hran with
  | pass hpass _ => exact hpass hmatches
  | run _ hrun hrest =>
    cases hrest
    exact nomatch hrun

end Engine

end SymbolicMachine
