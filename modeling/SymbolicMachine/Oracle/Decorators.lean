import SymbolicMachine.Oracle.Basic
/-!
# Decorated oracles

An oracle can be wrapped so that its use is counted, timed or recorded.  A wrapped oracle
gives the answers of the one inside; it only keeps something of its own beside the inner
state, so wrappings nest freely.  The counting wrapper replaces assumptions by a reset and
single additions, and so it counts the reset; the others pass the replacement on whole.
-/
namespace SymbolicMachine

variable {ω : Type}

/-! ## Counting -/

/-- How often an oracle was asked, by kind of query, and how often it was reset. -/
structure QueryCounts where
  sat : Nat
  null : Nat
  aliases : Nat
  expands : Nat
  initialized : Nat
  notInitialized : Nat
  /-- The number of times that the assumptions were dropped. -/
  resets : Nat
  deriving DecidableEq, Repr

namespace QueryCounts

def zero : QueryCounts := ⟨0, 0, 0, 0, 0, 0, 0⟩

def add (c : QueryCounts) : Query → QueryCounts
  | .sat _ => { c with sat := c.sat + 1 }
  | .null _ => { c with null := c.null + 1 }
  | .aliases .. => { c with aliases := c.aliases + 1 }
  | .expands .. => { c with expands := c.expands + 1 }
  | .initialized _ => { c with initialized := c.initialized + 1 }
  | .notInitialized _ => { c with notInitialized := c.notInitialized + 1 }

def addReset (c : QueryCounts) : QueryCounts := { c with resets := c.resets + 1 }

def total (c : QueryCounts) : Nat :=
  c.sat + c.null + c.aliases + c.expands + c.initialized + c.notInitialized

def counters (c : QueryCounts) : List (String × Nat) :=
  [("is_sat", c.sat),
    ("is_sat_null", c.null),
    ("is_sat_aliases", c.aliases),
    ("is_sat_expands", c.expands),
    ("is_sat_initialized", c.initialized),
    ("is_sat_not_initialized", c.notInitialized),
    ("assumption_resets", c.resets)]

@[simp] theorem total_add (c : QueryCounts) (q : Query) : (c.add q).total = c.total + 1 := by
  cases q <;> simp only [add, total] <;> omega

@[simp] theorem total_addReset (c : QueryCounts) : c.addReset.total = c.total := rfl

end QueryCounts

/-- The state of a counting oracle. -/
structure Counted (ω : Type) where
  inner : ω
  counts : QueryCounts

namespace Counted

variable {α : Type}

def within (m : Action ω DecisionError α) : Action (Counted ω) DecisionError α :=
  Action.onPart inner (fun i s => { s with inner := i }) m

def note (f : QueryCounts → QueryCounts) : Action (Counted ω) DecisionError Unit :=
  Action.update fun s => { s with counts := f s.counts }

end Counted

def Oracle.counting (o : Oracle ω) : Oracle (Counted ω) :=
  let push := fun c => Counted.within (o.push c)
  let clear := do
    Counted.note QueryCounts.addReset
    Counted.within o.clear
  { push := push
    clear := clear
    set := Oracle.clearAndPush clear push
    assumptions := fun s => o.assumptions s.inner
    ask := fun q => do
      Counted.note (·.add q)
      Counted.within (o.ask q)
    simplify := fun t => Counted.within (o.simplify t) }

/-! ## Timing -/

/-- The state of a timed oracle. -/
structure Timed (ω : Type) where
  inner : ω
  /-- How often the clock was read. -/
  readings : Nat
  elapsed : Nat

/-- Adds the time of an inner action, given what the clock shows at each reading. -/
def Timed.within {α : Type} (clock : Nat → Nat) (m : Action ω DecisionError α) :
    Action (Timed ω) DecisionError α := fun s =>
  let (result, inner) := m s.inner
  let spent := clock (s.readings + 1) - clock s.readings
  (result, ⟨inner, s.readings + 2, s.elapsed + spent⟩)

/-- Adds up the time that an oracle takes for its calls. -/
def Oracle.timed (clock : Nat → Nat) (o : Oracle ω) : Oracle (Timed ω) :=
  { push := fun c => Timed.within clock (o.push c)
    clear := Timed.within clock o.clear
    set := fun cs => Timed.within clock (o.set cs)
    assumptions := fun s => o.assumptions s.inner
    ask := fun q => Timed.within clock (o.ask q)
    simplify := fun t => Timed.within clock (o.simplify t) }

/-! ## Recording -/

/-- A call of an oracle that may change its state. -/
inductive Call where
  | push (clause : Clause)
  | clear
  | set (clauses : List Clause)
  | ask (query : Query)
  | simplify (term : Term)

/-- The state of a recorded oracle. -/
structure Traced (ω : Type) where
  inner : ω
  /-- The calls made so far, latest first. -/
  calls : List Call

def Traced.within {α : Type} (call : Call) (m : Action ω DecisionError α) :
    Action (Traced ω) DecisionError α := fun s =>
  let (result, inner) := m s.inner
  (result, ⟨inner, call :: s.calls⟩)

def Oracle.traced (o : Oracle ω) : Oracle (Traced ω) :=
  { push := fun c => Traced.within (.push c) (o.push c)
    clear := Traced.within .clear o.clear
    set := fun cs => Traced.within (.set cs) (o.set cs)
    assumptions := fun s => o.assumptions s.inner
    ask := fun q => Traced.within (.ask q) (o.ask q)
    simplify := fun t => Traced.within (.simplify t) (o.simplify t) }

/-! ## Boxing -/

/-- Passes every call on.  A boxed oracle hides what kind of oracle is inside. -/
def Oracle.boxed (o : Oracle ω) : Oracle ω :=
  { push := fun c => o.push c
    clear := o.clear
    set := fun cs => o.set cs
    assumptions := fun s => o.assumptions s
    ask := fun q => o.ask q
    simplify := fun t => o.simplify t }

end SymbolicMachine
