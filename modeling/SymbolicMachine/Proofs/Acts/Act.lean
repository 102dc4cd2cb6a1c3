import SymbolicMachine.Proofs.Explore.Rules
import SymbolicMachine.Proofs.State.Soundness
/-!
# Acts

Everything that the engine does to a state on the way to a successor is a sequence of small acts.
Besides the state there is a hand of values: those that were read off the state or made on the
way, of which some are put back into it.  An act says under which conditions it happens, so that
what holds of all states that an engine gets to is shown once for each act.
-/
namespace SymbolicMachine

variable {ω τ : Type}

inductive Value.IsPlain : Value → Prop
  | constant (c : Constant) : IsPlain (.primitive (.constant c))
  | null : IsPlain (.reference .null)

/-- A value that can be read off a state. -/
inductive State.Shows (s : State) : Value → Prop
  | operand {f : Frame} {v : Value} (hf : f ∈ s.frames) (hv : v ∈ f.operands.operands) : s.Shows v
  | slot {f : Frame} {v : Value} (hf : f ∈ s.frames) (hv : some v ∈ f.locals.slots) : s.Shows v
  | content {address : Nat} {o : HeapObject} {v : Value} (ho : s.heap.get address = .ok o)
      (hv : o.Contains v) : s.Shows v
  | length {address : Nat} {a : ArrayObject} (ha : s.heap.get address = .ok (.array a)) :
      s.Shows (.primitive a.length)

/-- An object that the program makes: nothing in it is unknown but the length of an array. -/
inductive HeapObject.IsBlank (hand : List Value) : HeapObject → Prop
  | object {className : String} {fields : List (String × Value)}
      (hfields : ∀ f ∈ fields, f.2.IsPlain) : IsBlank hand (.object (.create className none fields))
  | array {className : String} {length : Term} (hlength : .primitive length ∈ hand)
      (hint : length.type = .int) : IsBlank hand (.array (.create className none length))

/-- What a new symbol may be named for: an input of the method, or a member of an input array. -/
inductive State.Names (s : State) (hand : List Value) : Origin → Prop
  | root (name : String) : s.Names hand (.root name)
  | member {address : Nat} {a : ArrayObject} {container : RefSymbol} {index : Term}
      (ha : s.heap.get address = .ok (.array a)) (horigin : a.origin = some container)
      (hindex : .primitive index ∈ hand) : s.Names hand (.member container index)

namespace Engine

/-- A condition that may be assumed: the guard of an outcome of an array access, or what is said
about the sign of a length, possibly in the form that the oracle gives it under the path condition
of the state. -/
inductive Assumable (e : Engine ω τ) (s : State) (hand : List Value) : Term → Prop
  | guard {address : Nat} {a : ArrayObject} {index : Term} {outcomes : List AccessOutcome}
      {outcome : AccessOutcome} (ha : s.heap.get address = .ok (.array a))
      (hindex : .primitive index ∈ hand) (hget : a.get index = .ok outcomes)
      (houtcome : outcome ∈ outcomes) : Assumable e s hand outcome.guard
  | negative {length condition : Term} (hlength : .primitive length ∈ hand)
      (hcondition : length.mkLt (.ofInt 0) = .ok condition) : Assumable e s hand condition
  | nonnegative {length condition : Term} (hlength : .primitive length ∈ hand)
      (hcondition : length.mkGe (.ofInt 0) = .ok condition) : Assumable e s hand condition
  | simplified {length condition simpler : Term} {w w' w'' : ω}
      (hlength : .primitive length ∈ hand) (hcondition : length.mkGe (.ofInt 0) = .ok condition)
      (hset : (e.oracle.set s.pathCondition.clauses).run w = (.ok (), w'))
      (hsimplify : (e.oracle.simplify condition).run w' = (.ok simpler, w'')) :
      Assumable e s hand simpler

/-- One act on a state, with the values in hand before and after it. -/
inductive Act (e : Engine ω τ) : State → List Value → State → List Value → Prop
  | take {s : State} {hand : List Value} {v : Value} (hv : s.Shows v) : Act e s hand s (v :: hand)
  | make {s : State} {hand : List Value} {v : Value} (hv : v.IsPlain) : Act e s hand s (v :: hand)
  | widen {s : State} {hand : List Value} {v w : Value} (hv : v ∈ hand) (hw : v.widen = .ok w) :
      Act e s hand s (w :: hand)
  | apply {s : State} {hand : List Value} {type : PrimType} {name : String} {args : List Term}
      (hargs : ∀ t ∈ args, .primitive t ∈ hand) :
      Act e s hand s (.primitive (.application type name args) :: hand)
  | drop {s : State} {hand below : List Value} {f : Frame} {rest : List Frame} {v : Value}
      (hframes : s.frames = f :: rest) (hoperands : f.operands.operands = v :: below) :
      Act e s hand (popped s f below rest) hand
  | push {s : State} {hand : List Value} {f : Frame} {rest : List Frame} {v : Value}
      (hv : v ∈ hand) (hframes : s.frames = f :: rest)
      (hroom : f.operands.size + 1 ≤ f.operands.maxDepth) :
      Act e s hand (s.withFrames
        ({ f with operands := { f.operands with operands := v :: f.operands.operands } } :: rest))
        hand
  | jump {s : State} {hand : List Value} {f : Frame} {rest : List Frame} {pc : Nat}
      (hframes : s.frames = f :: rest) (hpc : pc < f.code.length) :
      Act e s hand (s.withFrames ({ f with pc := pc } :: rest)) hand
  | enter {s : State} {hand : List Value} {f : Frame} (hoperands : f.operands.operands = [])
      (hlocals : ∀ v, some v ∈ f.locals.slots → v ∈ hand) : Act e s hand (s.pushFrame f) hand
  | place {s : State} {hand : List Value} (branches : List Nat) (sequence : Nat) :
      Act e s hand { s with branches := branches, sequence := sequence } hand
  | namePrimitive {s : State} {hand : List Value} {type : PrimType} {origin : Origin}
      (horigin : s.Names hand origin) :
      Act e s hand (s.withSymbols (s.nextSymbol + 1))
        (.primitive (.symbol ⟨s.nextSymbol, type, origin⟩) :: hand)
  | nameReference {s : State} {hand : List Value} {staticType : String} {origin : Origin}
      (horigin : s.Names hand origin) :
      Act e s hand (s.withSymbols (s.nextSymbol + 1))
        (.reference (.symbolic ⟨s.nextSymbol, staticType, origin⟩) :: hand)
  /-- Numbers of symbols that are used nowhere. -/
  | skip {s : State} {hand : List Value} {n : Nat} (hn : s.nextSymbol ≤ n) :
      Act e s hand (s.withSymbols n) hand
  | allocate {s : State} {hand : List Value} {object : HeapObject} (hobject : object.IsBlank hand) :
      Act e s hand (s.withHeap (s.heap.allocate object).2)
        (.reference (.concrete s.heap.next) :: hand)
  | record {s : State} {hand : List Value} {address : Nat} {index : Term} {v : Value} {h : Heap}
      (hv : v ∈ hand) (hindex : .primitive index ∈ hand) (hint : index.type = .int)
      (hset : s.heap.arraySet address index v = .ok h) : Act e s hand (s.withHeap h) hand
  | throw {s : State} {hand : List Value} (className : String) :
      Act e s hand (s.throwNew className).2 hand
  | assume {s : State} {hand : List Value} {condition : Term} {p : PathCondition}
      (hcondition : e.Assumable s hand condition) (hboolean : condition.type = .boolean)
      (hp : s.pathCondition.push (.assume condition) = .ok p) : Act e s hand (s.withPath p) hand
  | isNull {s : State} {hand : List Value} {r : RefSymbol} {p : PathCondition}
      (hr : .reference (.symbolic r) ∈ hand) (hp : s.pathCondition.push (.isNull r) = .ok p) :
      Act e s hand (s.withPath p) hand
  | aliases {s : State} {hand : List Value} {r : RefSymbol} {address : Nat} {o : HeapObject}
      {p : PathCondition} (hr : .reference (.symbolic r) ∈ hand)
      (ho : s.initialHeap.get address = .ok o)
      (hfits : e.classes.isAssignable o.className r.staticType = true)
      (hp : s.pathCondition.push (.aliases r address) = .ok p) : Act e s hand (s.withPath p) hand
  | expands {s : State} {hand : List Value} {r : RefSymbol} {className : String}
      {fields : List FieldInfo} {object : HeapObject} {n : Nat} {p : PathCondition}
      (hr : .reference (.symbolic r) ∈ hand)
      (hclass : className = r.staticType ∨
        className ∈ (e.classes.expansionClasses r.staticType).toOption.getD [])
      (hfields : fields = [] ∨ e.classes.instanceFields className = .ok fields)
      (hobject : Expansion r className fields s.nextSymbol object n)
      (hp : s.pathCondition.push (.expands r s.heap.next className) = .ok p) :
      Act e s hand (((s.withSymbols n).withInput object).withPath p) hand
  | initialized {s : State} {hand : List Value} {className : String} {c : Clause}
      {p : PathCondition} (hopen : s.initialization? className = none)
      (hc : c = .initialized className ∨ c = .notInitialized className)
      (hp : s.pathCondition.push c = .ok p) : Act e s hand (s.withPath p) hand

/-- A sequence of acts. -/
inductive Acts (e : Engine ω τ) (s : State) (hand : List Value) : State → List Value → Prop
  | refl : Acts e s hand s hand
  | tail {t u : State} {hand' hand'' : List Value} (hacts : Acts e s hand t hand')
      (hact : Act e t hand' u hand'') : Acts e s hand u hand''

section Acts

variable {e : Engine ω τ} {s t u : State} {hand hand' hand'' : List Value}

theorem Act.acts (h : Act e s hand t hand') : Acts e s hand t hand' := .tail .refl h

theorem Acts.trans (h : Acts e s hand t hand') (h' : Acts e t hand' u hand'') :
    Acts e s hand u hand'' := by
  induction h' with
  | refl => exact h
  | tail _ hact ih => exact .tail ih hact

/-- What is in hand stays there. -/
theorem Act.subset (h : Act e s hand t hand') : hand ⊆ hand' := by
  cases h <;> first | exact List.Subset.refl _ | exact List.subset_cons_self _ _

theorem Acts.subset (h : Acts e s hand t hand') : hand ⊆ hand' := by
  induction h with
  | refl => exact List.Subset.refl _
  | tail _ hact ih => exact List.Subset.trans ih hact.subset

/-- What every act keeps is kept by a sequence of acts. -/
theorem Acts.keeps {P : State → List Value → Prop}
    (hkeeps : ∀ {s hand t hand'}, P s hand → Act e s hand t hand' → P t hand')
    (h : Acts e s hand t hand') (hs : P s hand) : P t hand' := by
  induction h with
  | refl => exact hs
  | tail _ hact ih => exact hkeeps ih hact

end Acts

end Engine

end SymbolicMachine
