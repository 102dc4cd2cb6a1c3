import SymbolicMachine.Explore.Step
import SymbolicMachine.Oracle.Decorators
import SymbolicMachine.Proofs.Explore.Order
/-!
# Decorated oracles are transparent

Oracles may be wrapped any number of times and in any order.  What the oracle inside notices of
it is nothing: it receives the calls that it would receive on its own, also when one of them
fails, and so an exploration has the same results.

The calls that an oracle receives are recorded by a listening post around it, which takes the
replacement of assumptions apart as the oracle itself does.  A wrapped oracle *follows* another
one if related states stay related by every call, and every call has the same outcome.  One
layer around an oracle that follows the listening post follows it as well; this is shown layer
by layer, and all layers together by induction.
-/
namespace SymbolicMachine

open SymbolicMachine.Action

variable {ω ω₁ ω₂ σ σ' τ α : Type}

/-! ## What an oracle receives -/

/-- The calls that were received, by kind of query, with the times that the assumptions were
dropped. -/
def QueryCounts.received (calls : List Call) : QueryCounts where
  sat := calls.countP fun c => c matches .ask (.sat _)
  null := calls.countP fun c => c matches .ask (.null _)
  aliases := calls.countP fun c => c matches .ask (.aliases ..)
  expands := calls.countP fun c => c matches .ask (.expands ..)
  initialized := calls.countP fun c => c matches .ask (.initialized _)
  notInitialized := calls.countP fun c => c matches .ask (.notInitialized _)
  resets := calls.countP fun c => c matches .clear

namespace QueryCounts

variable (calls : List Call)

@[simp] theorem received_nil : received [] = zero := rfl

@[simp] theorem received_push (c : Clause) : received (.push c :: calls) = received calls := rfl

@[simp] theorem received_simplify (t : Term) :
    received (.simplify t :: calls) = received calls := rfl

@[simp] theorem received_clear : received (.clear :: calls) = (received calls).addReset := by
  simp [received, addReset]

@[simp] theorem received_ask (q : Query) : received (.ask q :: calls) = (received calls).add q := by
  cases q <;> simp [received, add]

end QueryCounts

/-- Replacing the assumptions has the same outcome and the same effect as dropping them and
adding the new ones one after another. -/
def Oracle.SetsByPushing (o : Oracle ω) : Prop :=
  ∀ cs w, (o.set cs).run w = (clearAndPush o.clear o.push cs).run w

/-- An oracle with a record of the calls that it receives.  The replacement of assumptions is
taken apart, so that it shows in the record by what it is made of. -/
def Oracle.listening (o : Oracle ω) : Oracle (Traced ω) :=
  { o.traced with set := clearAndPush o.traced.clear o.traced.push }

/-! ## Oracles that follow each other -/

/-- Every call of the first oracle has the outcome that it has for the second one, and leaves
related states related, whether it succeeds or fails. -/
structure Oracle.Follows (R : ω₁ → ω₂ → Prop) (o : Oracle ω₁) (p : Oracle ω₂) : Prop where
  push : ∀ c, Couples R R R (o.push c) (p.push c)
  clear : Couples R R R o.clear p.clear
  set : ∀ cs, Couples R R R (o.set cs) (p.set cs)
  assumptions : ∀ a b, R a b → o.assumptions a = p.assumptions b
  ask : ∀ q, Couples R R R (o.ask q) (p.ask q)
  simplify : ∀ t, Couples R R R (o.simplify t) (p.simplify t)

namespace Oracle

theorem follows_self (o : Oracle ω) : o.Follows (· = ·) o := by
  have hself : ∀ {α} (m : Action ω DecisionError α), Couples (· = ·) (· = ·) (· = ·) m m := by
    rintro α m
    refine couples_any.2 ?_
    rintro a _ rfl
    exact ⟨rfl, rfl⟩
  exact ⟨fun _ => hself _, hself _, fun _ => hself _, fun _ _ h => congrArg _ h, fun _ => hself _,
    fun _ => hself _⟩

/-- Related oracles stay related when their assumptions are replaced one by one. -/
theorem couples_clearAndPush {R : ω₁ → ω₂ → Prop} {o : Oracle ω₁} {p : Oracle ω₂}
    (hclear : Couples R R R o.clear p.clear) (hpush : ∀ c, Couples R R R (o.push c) (p.push c))
    (cs : List Clause) :
    Couples R R R (clearAndPush o.clear o.push cs) (clearAndPush p.clear p.push cs) :=
  hclear.bind fun _ => couples_pushAll hpush cs

/-- The record of a listening post changes nothing about the oracle. -/
theorem listening_follows {o : Oracle ω} (hset : o.SetsByPushing) :
    o.listening.Follows (fun r w => r.inner = w) o := by
  have hwithin : ∀ {α} (call : Call) (m : Action ω DecisionError α),
      Couples (fun (r : Traced ω) w => r.inner = w) (fun r w => r.inner = w)
        (fun r w => r.inner = w) (Traced.within call m) m := by
    rintro α call m
    refine couples_any.2 ?_
    rintro r _ rfl
    exact ⟨rfl, rfl⟩
  refine ⟨fun _ => hwithin _ _, hwithin _ _, fun cs => ?_, ?_, fun _ => hwithin _ _,
    fun _ => hwithin _ _⟩
  · have hpushed := couples_clearAndPush (o := o.traced) (p := o) (hwithin _ _)
      (fun _ => hwithin _ _) cs
    intro r w hr
    rw [hset cs w]
    exact hpushed r w hr
  · rintro r _ rfl
    rfl

end Oracle

/-! ## Layers -/

/-- The counted oracle is related to a listening post, and the counts are those of what was heard
there. -/
def Counted.Accounts (R : σ → Traced ω → Prop) (s : Counted σ) (heard : Traced ω) : Prop :=
  R s.inner heard ∧ s.counts = .received heard.calls

/-- A wrapper of an oracle. -/
inductive Decorator where
  | counting
  | timed (clock : Nat → Nat)
  | traced
  | boxed

namespace Decorator

/-- The state of a wrapped oracle. -/
def Around : Decorator → Type → Type
  | .counting, σ => Counted σ
  | .timed _, σ => Timed σ
  | .traced, σ => Traced σ
  | .boxed, σ => σ

def wrap : (d : Decorator) → Oracle σ → Oracle (d.Around σ)
  | .counting, o => o.counting
  | .timed clock, o => o.timed clock
  | .traced, o => o.traced
  | .boxed, o => o.boxed

/-- The state of a wrapper in which it has not been used. -/
def unused : (d : Decorator) → σ → d.Around σ
  | .counting, s => ⟨s, .zero⟩
  | .timed _, s => ⟨s, 0, 0⟩
  | .traced, s => ⟨s, []⟩
  | .boxed, s => s

/-- The state inside a wrapper is related to that of a listening post, and a counting wrapper
has counted what was heard there. -/
def Accounts (R : σ → Traced ω → Prop) : (d : Decorator) → d.Around σ → Traced ω → Prop
  | .counting => Counted.Accounts R
  | .timed _ => fun s => R s.inner
  | .traced => fun s => R s.inner
  | .boxed => R

/-- The state of an oracle inside several wrappers, the outermost one first. -/
def Nested (ω : Type) : List Decorator → Type
  | [] => ω
  | d :: ds => d.Around (Nested ω ds)

/-- An oracle inside several wrappers, the outermost one first. -/
def nest (o : Oracle ω) : (ds : List Decorator) → Oracle (Nested ω ds)
  | [] => o
  | d :: ds => d.wrap (nest o ds)

def unusedAll (w : ω) : (ds : List Decorator) → Nested ω ds
  | [] => w
  | d :: ds => d.unused (unusedAll w ds)

/-- The innermost state is that of a listening post, and every counting wrapper has counted what
was heard there. -/
def AllAccount : (ds : List Decorator) → Nested (Traced ω) ds → Traced ω → Prop
  | [] => (· = ·)
  | d :: ds => d.Accounts (AllAccount ds)

/-! ## Each layer follows -/

section Layer

variable {o : Oracle σ} {p : Oracle ω} {R : σ → Traced ω → Prop}

/-- A call that passes on what happens inside follows what the inside follows. -/
theorem couples_through {inner : σ' → σ} {m : Action σ' DecisionError α}
    {m' : Action σ DecisionError α} {n : Action (Traced ω) DecisionError α}
    (hrun : ∀ s, (m.run s).1 = (m'.run (inner s)).1 ∧
      inner (m.run s).2 = (m'.run (inner s)).2) (h : Couples R R R m' n) :
    Couples (fun s => R (inner s)) (fun s => R (inner s)) (fun s => R (inner s)) m n := by
  refine couples_any.2 fun s w hs => ?_
  obtain ⟨hsame, hafter⟩ := couples_any.1 h (inner s) w hs
  rw [(hrun s).1, (hrun s).2]
  exact ⟨hsame, hafter⟩

/-- A call of a counting wrapper notes what the listening post hears. -/
theorem couples_counted {m : Action (Counted σ) DecisionError α} {m' : Action σ DecisionError α}
    {call : Call} {n : Action ω DecisionError α} (note : QueryCounts → QueryCounts)
    (hrun : ∀ s, m.run s = ((m'.run s.inner).1, ⟨(m'.run s.inner).2, note s.counts⟩))
    (hnote : ∀ calls, QueryCounts.received (call :: calls) = note (.received calls))
    (h : Couples R R R m' (Traced.within call n)) :
    Couples (Counted.Accounts R) (Counted.Accounts R) (Counted.Accounts R) m
      (Traced.within call n) := by
  refine couples_any.2 ?_
  rintro s w ⟨hs, hcounts⟩
  obtain ⟨hsame, hafter⟩ := couples_any.1 h s.inner w hs
  rw [hrun s]
  refine ⟨hsame, hafter, ?_⟩
  dsimp only
  rw [hcounts]
  exact (hnote w.calls).symm

/-- A counting wrapper takes a replacement apart as the listening post does, so it follows it
from clearing and adding alone. -/
theorem counting_follows (h : o.Follows R p.listening) :
    o.counting.Follows (Counted.Accounts R) p.listening := by
  have hpush : ∀ c, Couples (Counted.Accounts R) (Counted.Accounts R) (Counted.Accounts R)
      (o.counting.push c) (p.listening.push c) := fun c =>
    couples_counted id (fun _ => rfl) (fun _ => rfl) (h.push c)
  have hclear : Couples (Counted.Accounts R) (Counted.Accounts R) (Counted.Accounts R)
      o.counting.clear p.listening.clear :=
    couples_counted QueryCounts.addReset (fun _ => rfl) QueryCounts.received_clear h.clear
  exact {
    push := hpush
    clear := hclear
    set := Oracle.couples_clearAndPush hclear hpush
    assumptions := fun s w hs => h.assumptions s.inner w hs.1
    ask := fun q =>
      couples_counted (·.add q) (fun _ => rfl) (QueryCounts.received_ask · q) (h.ask q)
    simplify := fun t =>
      couples_counted id (fun _ => rfl) (fun _ => rfl) (h.simplify t) }

theorem timed_follows (clock : Nat → Nat) (h : o.Follows R p.listening) :
    (o.timed clock).Follows (fun s => R s.inner) p.listening where
  push c := couples_through (fun _ => ⟨rfl, rfl⟩) (h.push c)
  clear := couples_through (fun _ => ⟨rfl, rfl⟩) h.clear
  set cs := couples_through (fun _ => ⟨rfl, rfl⟩) (h.set cs)
  assumptions s w hs := h.assumptions s.inner w hs
  ask q := couples_through (fun _ => ⟨rfl, rfl⟩) (h.ask q)
  simplify t := couples_through (fun _ => ⟨rfl, rfl⟩) (h.simplify t)

theorem traced_follows (h : o.Follows R p.listening) :
    o.traced.Follows (fun s => R s.inner) p.listening where
  push c := couples_through (fun _ => ⟨rfl, rfl⟩) (h.push c)
  clear := couples_through (fun _ => ⟨rfl, rfl⟩) h.clear
  set cs := couples_through (fun _ => ⟨rfl, rfl⟩) (h.set cs)
  assumptions s w hs := h.assumptions s.inner w hs
  ask q := couples_through (fun _ => ⟨rfl, rfl⟩) (h.ask q)
  simplify t := couples_through (fun _ => ⟨rfl, rfl⟩) (h.simplify t)

theorem wrap_follows (d : Decorator) (h : o.Follows R p.listening) :
    (d.wrap o).Follows (d.Accounts R) p.listening := by
  cases d with
  | counting => exact counting_follows h
  | timed clock => exact timed_follows clock h
  | traced => exact traced_follows h
  | boxed => exact h

end Layer

/-- Any number of layers around a listening post follows it. -/
theorem nest_follows (p : Oracle ω) (ds : List Decorator) :
    (nest p.listening ds).Follows (AllAccount ds) p.listening := by
  induction ds with
  | nil => exact p.listening.follows_self
  | cons d ds ih => exact wrap_follows d ih

theorem allAccount_unusedAll (w : ω) (ds : List Decorator) :
    AllAccount ds (unusedAll ⟨w, []⟩ ds) ⟨w, []⟩ := by
  induction ds with
  | nil => rfl
  | cons d ds ih =>
    cases d with
    | counting => exact ⟨ih, rfl⟩
    | timed clock => exact ih
    | traced => exact ih
    | boxed => exact ih

end Decorator

/-! ## Explorations -/

namespace Session

def withOracle (ses : Session ω₁ τ) (w : ω₂) : Session ω₂ τ :=
  ⟨w, ses.trail, ses.queries, ses.statistics⟩

/-- Two sessions with related oracles that agree on everything else. -/
structure Parallel (R : ω₁ → ω₂ → Prop) (a : Session ω₁ τ) (b : Session ω₂ τ) : Prop where
  oracle : R a.oracle b.oracle
  trail : a.trail = b.trail
  queries : a.queries = b.queries
  statistics : a.statistics = b.statistics

variable {R : ω₁ → ω₂ → Prop}

theorem counts_parallel : Counts (Parallel (τ := τ) R) := by
  intro f amount _ a b h
  exact ⟨h.oracle, h.trail, h.queries, congrArg f h.statistics⟩

theorem couples_consult_parallel {m₁ : Action ω₁ DecisionError α}
    {m₂ : Action ω₂ DecisionError α} (h : Couples R R R m₁ m₂) :
    Couples (Parallel (τ := τ) R) (Parallel R) (Parallel R) (consult m₁) (consult m₂) := by
  refine Couples.mapError (couples_any.2 fun a b hab => ?_) _
  obtain ⟨hresult, hafter⟩ := couples_any.1 h a.oracle b.oracle hab.oracle
  exact ⟨hresult, hafter, hab.trail, hab.queries, hab.statistics⟩

end Session

namespace Engine

open Session (Parallel)

/-- An engine with another oracle. -/
def withOracle (e : Engine ω₁ τ) (o : Oracle ω₂) : Engine ω₂ τ :=
  { oracle := o
    classes := e.classes
    triggers := e.triggers
    natives := e.natives
    watchdog := e.watchdog
    config := e.config }

/-- Steps states by instructions one after another.  A step that fails does not keep the next
one from being taken. -/
def handle (e : Engine ω τ) (calls : List (Instruction × State)) :
    Run ω τ Empty (List (Except (Located ExecutionError) (List State))) :=
  Action.forEach (fun (i, s) => Action.attempt (e.step i s)) calls

theorem alike_of_follows {R : ω₁ → ω₂ → Prop} {o : Oracle ω₁} {p : Oracle ω₂} (e : Engine ω τ)
    (h : o.Follows R p) : (e.withOracle o).Alike (e.withOracle p) (Parallel R) (Parallel R) where
  classes := rfl
  natives := rfl
  config := rfl
  rest _ _ hab := hab
  deciding := Session.counts_parallel.deciding
  making := Session.counts_parallel.making
  triggering := by
    refine couples_triggering rfl (fun _ _ hab => hab.trail) fun _ _ _ hab => ?_
    exact ⟨hab.oracle, rfl, hab.queries, hab.statistics⟩
  sync s := Session.couples_consult_parallel (h.set _)
  push c := Session.couples_consult_parallel (h.push c)
  simplify t := Session.couples_consult_parallel (h.simplify t)
  query q := by
    refine couples_query (fun a b hab => ?_) (fun _ _ hab => hab) (fun a b hab => ?_)
      Session.counts_parallel (Session.couples_consult_parallel (h.ask q))
    · rw [stops, stops, hab.queries]
      rfl
    · exact ⟨hab.oracle, hab.trail, congrArg (· + 1) hab.queries, hab.statistics⟩

/-- Handling the same calls with oracles that follow each other has the same results. -/
theorem handle_follows {R : ω₁ → ω₂ → Prop} {o : Oracle ω₁} {p : Oracle ω₂} (e : Engine ω τ)
    (h : o.Follows R p) (calls : List (Instruction × State)) {a : Session ω₁ τ}
    {b : Session ω₂ τ} (hab : Parallel R a b) :
    (((e.withOracle o).handle calls).run a).1 = (((e.withOracle p).handle calls).run b).1 ∧
      Parallel R (((e.withOracle o).handle calls).run a).2
        (((e.withOracle p).handle calls).run b).2 := by
  have hcalls : Couples (Parallel R) (Parallel R) (Parallel R) ((e.withOracle o).handle calls)
      ((e.withOracle p).handle calls) :=
    couples_forEach (fun (i, s) => ((alike_of_follows e h).step i s).attempt) calls
  exact couples_any.1 hcalls a b hab

/-- Wrapping an oracle changes neither the results nor the statistics of any sequence of steps,
nor the calls that the oracle receives, the failing ones included; and every counting wrapper
counts the calls that the oracle received. -/
theorem decorators_are_transparent (e : Engine ω τ) (hset : e.oracle.SetsByPushing)
    (layers : List Decorator) (calls : List (Instruction × State)) (ses : Session ω τ) :
    let plain := (e.handle calls).run ses
    let heard := ((e.withOracle e.oracle.listening).handle calls).run
      (ses.withOracle ⟨ses.oracle, []⟩)
    let wrapped := ((e.withOracle (Decorator.nest e.oracle.listening layers)).handle calls).run
      (ses.withOracle (Decorator.unusedAll ⟨ses.oracle, []⟩ layers))
    wrapped.1 = plain.1 ∧ heard.1 = plain.1 ∧
      Parallel (Decorator.AllAccount layers) wrapped.2 heard.2 ∧
      Parallel (fun record w => record.inner = w) heard.2 plain.2 := by
  obtain ⟨hheard, hafter⟩ := handle_follows e (Oracle.listening_follows hset) calls
    (a := ses.withOracle ⟨ses.oracle, []⟩) (b := ses) ⟨rfl, rfl, rfl, rfl⟩
  obtain ⟨hwrapped, hbeside⟩ := handle_follows e (Decorator.nest_follows e.oracle layers) calls
    (a := ses.withOracle (Decorator.unusedAll ⟨ses.oracle, []⟩ layers))
    (b := ses.withOracle ⟨ses.oracle, []⟩)
    ⟨Decorator.allAccount_unusedAll _ _, rfl, rfl, rfl⟩
  exact ⟨hwrapped.trans hheard, hheard, hbeside, hafter⟩

/-- The permissive oracle, but with room for a single assumption. -/
def cramped : Oracle (List Clause) :=
  let push := fun c => do
    let held ← Action.read
    if held.isEmpty then Action.write [c] else Action.fail .timeout
  { Oracle.permissive with
    push := push
    set := Oracle.clearAndPush Oracle.permissive.clear push }

/-- A state with more assumptions than a cramped oracle has room for. -/
def crowded : State :=
  arrayRoot.withPath (PathCondition.empty.append [.initialized "A", .initialized "B"] (by decide))

/-- The second step fails half-way through the replacement of assumptions, with all layers as
with none, and both counting layers count the two resets. -/
theorem layers_pass_on_failing_replacement :
    let e := (permissive .initial).withOracle cramped
    let load : Instruction := .loadLocal 0 1
    let calls := [(load, arrayRoot), (load, crowded)]
    let layers : List Decorator := [.counting, .timed id, .boxed, .traced, .counting]
    let ses : Session (List Clause) Unit := .start [] ()
    let plain := (e.handle calls).run ses
    let wrapped := ((e.withOracle (Decorator.nest e.oracle.listening layers)).handle calls).run
      (ses.withOracle (Decorator.unusedAll ⟨ses.oracle, []⟩ layers))
    e.oracle.SetsByPushing ∧
      (∃ found x, plain.1 = .ok [.ok found, .error x]) ∧ wrapped.1 = plain.1 ∧
        wrapped.2.oracle.counts = ⟨0, 1, 0, 1, 0, 0, 3⟩ := by
  intro e load calls layers ses plain wrapped
  have hset : e.oracle.SetsByPushing := fun _ _ => rfl
  obtain ⟨hresults, -, hbeside, -⟩ :=
    decorators_are_transparent e hset layers calls ses
  refine ⟨hset, ⟨_, _, rfl⟩, hresults, ?_⟩
  refine hbeside.oracle.2.trans ?_
  decide +kernel

end Engine

end SymbolicMachine
