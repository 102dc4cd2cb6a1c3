import SymbolicMachine.Oracle.Basic
/-!
# Scripted oracles

An oracle that follows a script instead of solving anything.  It goes by the wording of each
call: the script says which calls fail, which queries are answered with no, and which terms
have a simpler form.  Everything the script does not mention is feasible.  The oracle keeps a
log of its queries, so that an exploration can be examined for what it asked, and in which
order, and under how many assumptions.
-/
namespace SymbolicMachine

def Query.text : Query → String
  | .sat t => s!"sat {t.text}"
  | .null r => s!"null {r.text}"
  | .aliases r a o => s!"aliases {r.text} {addressText a} {o.className}"
  | .expands r c => s!"expands {r.text} {c}"
  | .initialized c => s!"init {c}"
  | .notInitialized c => s!"not_init {c}"

/-- A pattern for wordings.  One that ends in a star stands for every text with that beginning,
and any other stands for itself. -/
structure Pattern where
  text : String
  deriving DecidableEq, Repr

def Pattern.admits (p : Pattern) (text : String) : Bool :=
  let chars := p.text.toList
  if chars.getLast? == some '*' then chars.dropLast.isPrefixOf text.toList else p.text == text

/-- A query that is answered with no. -/
structure Denial where
  query : Pattern
  /-- The wording of an assumption that has to be there, if one is given. -/
  given : Option Pattern
  deriving DecidableEq, Repr

/-- Whether a denial is for a query under some assumptions. -/
def Denial.covers (d : Denial) (query : String) (assumptions : List Clause) : Bool :=
  d.query.admits query &&
    match d.given with
    | none => true
    | some p => assumptions.any fun c => p.admits c.text

/-- What a scripted oracle does. -/
structure Script where
  denials : List Denial
  /-- The calls that fail, by their wording.  The first entry for a call counts. -/
  failures : List (Pattern × DecisionError)
  /-- The simpler forms of terms.  The first entry for a term counts. -/
  simplifications : List (Pattern × Term)

/-- The state of a scripted oracle. -/
structure Consultation where
  assumptions : List Clause
  /-- The wording of each query with the number of assumptions it was asked under, latest
  first. -/
  log : List String

namespace Consultation

def start : Consultation := ⟨[], []⟩

def note (call : String) : Action Consultation DecisionError Unit :=
  Action.update fun c => { c with log := s!"{call} | {c.assumptions.length}" :: c.log }

def assume (f : List Clause → List Clause) : Action Consultation DecisionError Unit :=
  Action.update fun c => { c with assumptions := f c.assumptions }

end Consultation

namespace Script

def failure? (s : Script) (call : String) : Option DecisionError :=
  (s.failures.find? fun (p, _) => p.admits call).map (·.2)

def attempt (s : Script) (call : String) : Except DecisionError Unit :=
  match s.failure? call with
  | some error => .error error
  | none => .ok ()

def allows (s : Script) (query : String) (assumptions : List Clause) : Bool :=
  !s.denials.any fun d => d.covers query assumptions

/-- The form that the script gives a term. -/
def simplified (s : Script) (t : Term) : Term :=
  match s.simplifications.find? fun (p, _) => p.admits t.text with
  | some (_, simpler) => simpler
  | none => t

/-- Adds an assumption, unless that fails. -/
def push (s : Script) (c : Clause) : Action Consultation DecisionError Unit := do
  Action.ofExcept (s.attempt s!"push {c.text}")
  Consultation.assume (· ++ [c])

/-- Drops the assumptions, unless that fails. -/
def clear (s : Script) : Action Consultation DecisionError Unit := do
  Action.ofExcept (s.attempt "clear")
  Consultation.assume fun _ => []

/-- Answers a query, unless that fails. -/
def ask (s : Script) (q : Query) : Action Consultation DecisionError Bool := do
  Consultation.note q.text
  Action.ofExcept (s.attempt q.text)
  Action.reads fun c => s.allows q.text c.assumptions

/-- Simplifies a term, unless that fails. -/
def simplify (s : Script) (t : Term) : Action Consultation DecisionError Term := do
  let call := s!"simplify {t.text}"
  Consultation.note call
  Action.ofExcept (s.attempt call)
  pure (s.simplified t)

def oracle (s : Script) : Oracle Consultation :=
  { push := s.push
    clear := s.clear
    set := Oracle.clearAndPush s.clear s.push
    assumptions := fun c => do
      s.attempt "get"
      .ok c.assumptions
    ask := s.ask
    simplify := s.simplify }

end Script

end SymbolicMachine
