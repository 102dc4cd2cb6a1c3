import Mathlib.Data.List.Forall2
import SymbolicMachine.Proofs.Arrays.Loads
import SymbolicMachine.Proofs.Effects.Progress
import SymbolicMachine.Proofs.Natives.Arguments
import SymbolicMachine.Proofs.Terms.Replacement
/-!
# Native calls and replaced symbols

The result of a native method is computed by an evaluator if all arguments are constants, and is
otherwise an application of the method's function symbol.  The two agree: a call whose result is
given its value afterwards, with the evaluator for the function symbol, comes to the same as a call
on the operands in which the symbols were replaced by their values before.
-/
namespace SymbolicMachine

open SymbolicMachine.Action

/-! ## Replaced operands -/

/-- Builds a value with other terms for the symbols of its term; a reference stays. -/
def Value.replace (leaf : Symbol → Term) : Value → Except ValueError Value
  | .primitive t => (t.replace leaf).map .primitive
  | .reference r => .ok (.reference r)

theorem Value.exists_replaceAll {I : Interpretation} {leaf : Symbol → Term}
    (h : Expression.Represents I leaf) {vs : List Value}
    (hvs : ∀ t, .primitive t ∈ vs → t.WellTyped) :
    ∃ ws, List.Forall₂ (fun v w => v.replace leaf = .ok w) vs ws := by
  induction vs with
  | nil => exact ⟨[], .nil⟩
  | cons v rest ih =>
    obtain ⟨ws, hws⟩ := ih fun t ht => hvs t (List.mem_cons_of_mem _ ht)
    cases v with
    | reference r => exact ⟨.reference r :: ws, .cons rfl hws⟩
    | primitive t =>
      obtain ⟨u, hu, -⟩ := Term.exists_replace h (hvs t List.mem_cons_self)
      exact ⟨.primitive u :: ws, .cons (map_eq_ok.2 ⟨u, hu, rfl⟩) hws⟩

/-! ## The function symbol of a method -/

/-- The interpretation in which an evaluator computes the function symbol of a method, wherever it
gives a result of the wanted type. -/
def Interpretation.withNative (I : Interpretation) (natives : NativeEvaluator)
    (method : MethodSignature) : Interpretation :=
  { I with
    function := fun t name args =>
      match natives.invoke method args with
      | .ok c => if name = method.text ∧ c.type = t then c else I.function t name args
      | .error _ => I.function t name args
    type_function := fun t name args => by
      split
      · split
        · rename_i h
          exact h.2
        · exact I.type_function t name args
      · exact I.type_function t name args }

theorem Interpretation.withNative_function {I : Interpretation} {natives : NativeEvaluator}
    {method : MethodSignature} {args : List Constant} {c : Constant}
    (h : natives.invoke method args = .ok c) :
    (I.withNative natives method).function c.type method.text args = c := by
  simp [withNative, h]

theorem Term.evalAll_constants (I : Interpretation) (constants : List Constant) :
    evalAll I (constants.map constant) = constants := by
  induction constants with
  | nil => rfl
  | cons c rest ih => rw [List.map_cons, evalAll, ih, eval]

namespace NativeEvaluator

variable {natives : NativeEvaluator} {method : MethodSignature} {type : PrimType}
  {args : List Term}

theorem argumentTerms_primitives (method : MethodSignature) (args : List Term) :
    argumentTerms method (args.map .primitive) = .ok args := by
  induction args with
  | nil => rfl
  | cons a rest ih => exact bind_eq_ok.2 ⟨rest, ih, rfl⟩

theorem eq_of_constants?_eq_some {constants : List Constant}
    (h : constants? args = some constants) : args = constants.map .constant := by
  induction args generalizing constants with
  | nil =>
    cases h
    rfl
  | cons a rest ih =>
    obtain ⟨c, hc, h⟩ := Option.bind_eq_some_iff.1 h
    obtain ⟨others, hothers, h⟩ := Option.bind_eq_some_iff.1 h
    cases h
    cases a with
    | constant c' =>
      cases hc
      rw [List.map_cons, ← ih hothers]
    | _ => cases hc

theorem exists_symbolic_of_constants?_eq_none (h : constants? args = none) :
    ∃ a ∈ args, a.isSymbolic = true := by
  induction args with
  | nil => cases h
  | cons a rest ih =>
    cases ha : a.isSymbolic with
    | true => exact ⟨a, List.mem_cons_self, ha⟩
    | false =>
      obtain ⟨c, rfl⟩ := Term.eq_constant_of_isSymbolic ha
      obtain ⟨b, hb, hsymbolic⟩ := ih (by
        cases hrest : constants? rest with
        | none => rfl
        | some others => simp [constants?, Term.constant?, hrest] at h)
      exact ⟨b, List.mem_cons_of_mem _ hb, hsymbolic⟩

/-- What a method with a result of a type gives on terms: what the evaluator computes if all of
them are constants, and otherwise the application of the method's function symbol. -/
inductive Gives (natives : NativeEvaluator) (method : MethodSignature) (type : PrimType) :
    List Term → Term → Prop
  | computed {constants : List Constant} {c : Constant}
      (hinvoke : natives.invoke method constants = .ok c) (hc : c.type = type) :
      Gives natives method type (constants.map .constant) (.constant c)
  | applied {args : List Term} (h : ∃ a ∈ args, a.isSymbolic = true) :
      Gives natives method type args (.application type method.text args)

theorem Gives.exists_constant {r : Term} (h : natives.Gives method type args r)
    (hconstants : ∀ a ∈ args, a.isSymbolic = false) : ∃ c, r = .constant c := by
  cases h with
  | computed _ _ => exact ⟨_, rfl⟩
  | applied h =>
    obtain ⟨a, ha, hsymbolic⟩ := h
    rw [hconstants a ha] at hsymbolic
    cases hsymbolic

/-- A method gives a result on terms if its evaluator accepts their values, and the result has the
value that the evaluator computes from them. -/
theorem exists_gives {I : Interpretation} {c : Constant} (hargs : Term.AllWellTyped args)
    (hinvoke : natives.invoke method (Term.evalAll (I.withNative natives method) args) = .ok c)
    (hc : c.type = type) :
    ∃ r, natives.apply method type args = .ok r ∧ natives.Gives method type args r ∧
      r.WellTyped ∧ r.type = type ∧ r.eval (I.withNative natives method) = c := by
  unfold apply
  cases hconstants : constants? args with
  | none =>
    refine ⟨_, rfl, .applied (exists_symbolic_of_constants?_eq_none hconstants), hargs, rfl, ?_⟩
    rw [Term.eval, ← hc]
    exact Interpretation.withNative_function hinvoke
  | some constants =>
    obtain rfl := eq_of_constants?_eq_some hconstants
    rw [Term.evalAll_constants] at hinvoke
    refine ⟨.constant c, ?_, .computed hinvoke hc, trivial, hc, rfl⟩
    simp only [hinvoke, if_pos hc]

end NativeEvaluator

/-! ## The successor -/

/-- The operand stack of a method that is about to invoke another one on arguments. -/
def onStack (args : List Term) (below : List Value) : List Value :=
  (args.map Value.primitive).reverse ++ below

/-- A state in which an invocation put its result in the place of its arguments, or which threw an
exception because there is no room for the result or no next instruction. -/
def State.returned (s : State) (f : Frame) (rest : List Frame) (below : List Value) (length : Nat)
    (v : Value) : State :=
  if below.length + 1 ≤ f.operands.maxDepth ∧ f.pc + length < f.code.length then
    s.withFrames ({ f with
      pc := f.pc + length
      operands := { f.operands with operands := v :: below } } :: rest)
  else (s.throwNew verifyError).2

namespace Engine

variable {ω τ : Type} {e : Engine ω τ} {s : State} {f : Frame} {rest : List Frame}
  {below : List Value}

/-- Pushing a result and moving on succeeds just if there is room and a next instruction. -/
theorem meets_pushResult {v w : Value} (hwiden : v.widen = .ok w) (length : Nat)
    {good : Unit → State → Prop} {bad : MemoryError → State → Prop}
    (hgood : below.length + 1 ≤ f.operands.maxDepth → f.pc + length < f.code.length →
      good () (s.withFrames ({ f with
        pc := f.pc + length
        operands := { f.operands with operands := w :: below } } :: rest)))
    (hbad : ∀ error t, ¬ (below.length + 1 ≤ f.operands.maxDepth ∧ f.pc + length < f.code.length) →
      error.isEngineFault = false → bad error t) :
    (pushResult (some v) length).Meets (popped s f below rest) good bad := by
  have hwiden' : v.widen.mapError MemoryError.value = .ok w := by rw [hwiden]; rfl
  unfold pushResult
  rw [meets_bind, hwiden']
  change ((State.pushOperand w >>= fun _ => State.incPc length) : State.Update Unit).Meets _ _ _
  rw [meets_bind]
  by_cases hroom : below.length + 1 ≤ f.operands.maxDepth
  · rw [State.meets_pushOperand_cons rfl hroom]
    exact State.meets_incPc_cons
      (f := { f with operands := { f.operands with operands := w :: below } }) rfl
      (fun hinside => hgood hroom hinside) fun error houtside hmild =>
        hbad error _ (fun h => houtside h.2) hmild
  · refine State.meets_pushOperand (fun f' rest' hframes hroom' => ?_) fun error hmild =>
      hbad error _ (fun h => hroom h.1) hmild
    cases hframes
    exact absurd hroom' hroom

variable {method : MethodSignature} {parameters : List String} {args : List Value}

/-- A static invocation whose method has a result has one successor. -/
theorem run_step_invokeNative
    (hparameters : Descriptor.parameterTypes method.descriptor = .ok parameters)
    (hlength : args.length = parameters.length) (hframes : s.frames = f :: rest)
    (hoperands : f.operands.operands = args.reverse ++ below) {v w : Value}
    (hresult : e.natives.invokePure method args = .ok (some v)) (hwiden : v.widen = .ok w)
    (length : Nat) (ses : Session ω τ) :
    (e.step (.invokeNative method true length) s).run ses =
      (.ok [(s.returned f rest below length w).incSequence],
        { ses with statistics := ses.statistics.addSuccessors 1 }) := by
  have hbody := run_invokeNative (e := e) hparameters hlength
    (run_popArguments_static hframes hoperands ses) length
  rw [run_eq_ok_iff_meets]
  refine meets_execute ?_
  change Meets (e.invokeNative method true length s) _ _ _
  unfold Meets
  rw [hbody]
  change Meets (e.invokeOn method args length (popped s f below rest)) _ _ _
  unfold invokeOn
  rw [meets_bind, hresult]
  change Meets (onState (popped s f below rest) (pushResult (some v) length) >>= _) _ _ _
  rw [meets_bind, meets_onState]
  refine meets_pushResult hwiden length (fun hroom hinside => ?_) fun error _ hfails hmild => ?_
  · refine ⟨?_, rfl⟩
    rw [State.returned, if_pos ⟨hroom, hinside⟩]
  · rw [State.returned, if_neg hfails]
    have hsettled : (Fault.memory error).settle s = .ok (s.throwNew verifyError).2 := by
      simp [Fault.settle, hmild, State.throwVerifyError]
    change Meets (ofExcept ((Fault.memory error).settle s) >>= fun failed => single failed) _ _ _
    rw [meets_bind, hsettled]
    exact ⟨rfl, rfl⟩

/-- The invocation of a static native method with a result of a type takes its arguments off and
pushes `u`, which is the form on the operand stack of what the method gives on the arguments in
the order of its parameters. -/
structure Returns (e : Engine ω τ) (method : MethodSignature) (type : PrimType) (length : Nat)
    (s : State) (args : List Term) (below : List Value) (u : Term) : Prop where
  steps : ∃ f rest, s.frames = f :: rest ∧ f.operands.operands = onStack args below ∧
    ∀ ses, (e.step (.invokeNative method true length) s).run ses =
      (.ok [(s.returned f rest below length (.primitive u)).incSequence],
        { ses with statistics := ses.statistics.addSuccessors 1 })
  gives : ∃ r, e.natives.Gives method type args r ∧ (Value.primitive r).widen = .ok (.primitive u)
  type_eq : u.type = type.stackType

/-- A static method with a primitive result returns if its evaluator accepts the values of the
arguments. -/
theorem exists_returns {I : Interpretation} {d : String} {type : PrimType} {args : List Term}
    {c : Constant} (hparameters : Descriptor.parameterTypes method.descriptor = .ok parameters)
    (hlength : args.length = parameters.length)
    (hreturn : Descriptor.returnType method.descriptor = .ok d)
    (htype : Descriptor.primType? d = some type) (hframes : s.frames = f :: rest)
    (hoperands : f.operands.operands = onStack args below) (hargs : Term.AllWellTyped args)
    (hinvoke : e.natives.invoke method
      (Term.evalAll (I.withNative e.natives method) args) = .ok c)
    (hc : c.type = type) (length : Nat) :
    ∃ u, e.Returns method type length s args below u ∧
      u.eval (I.withNative e.natives method) = c.cast type.stackType := by
  obtain ⟨r, happly, hgives, hwell, hr, heval⟩ := NativeEvaluator.exists_gives hargs hinvoke hc
  obtain ⟨u, hu, hvalue⟩ := Value.exists_widen hwell
  have hvoid : Descriptor.isVoid d = false := by
    refine Bool.eq_false_iff.2 fun h => ?_
    rw [eq_of_beq h] at htype
    cases htype
  have hresult : e.natives.invokePure method (args.map Value.primitive) =
      .ok (some (.primitive r)) := by
    unfold NativeEvaluator.invokePure
    simp only [hreturn, hvoid, htype, NativeEvaluator.argumentTerms_primitives, bind, Except.bind,
      happly, Bool.false_eq_true, if_false]
  have hconvert : r.convert r.type.stackType = .ok u := by
    obtain ⟨u', hu', heq⟩ := map_eq_ok.1 hu
    cases heq
    exact hu'
  refine ⟨u, ⟨⟨f, rest, hframes, hoperands, fun ses => ?_⟩, ⟨r, hgives, hu⟩, ?_⟩, ?_⟩
  · exact run_step_invokeNative hparameters (by rw [List.length_map, hlength]) hframes hoperands
      hresult hu length ses
  · rw [(Term.convert_spec hwell hconvert).2.1, hr]
  · rw [hvalue, heval, hr]

/-- A native call commutes with the replacement of symbols by their values.  On the state and on
the state with the replaced operands the method returns, from the arguments in the order of its
parameters.  The results have the type that the result of the method has on the operand stack, and
the value that the evaluator computes, if it is taken for the function symbol of the method.  If no
argument applies a function or meets an integral division by zero, the second result is a
constant. -/
theorem native_calls_commute_with_replacement (I : Interpretation) {d : String} {type : PrimType}
    {args : List Term} {c : Constant}
    (hparameters : Descriptor.parameterTypes method.descriptor = .ok parameters)
    (hlength : args.length = parameters.length)
    (hreturn : Descriptor.returnType method.descriptor = .ok d)
    (htype : Descriptor.primType? d = some type) (hframes : s.frames = f :: rest)
    (hoperands : f.operands.operands = onStack args below)
    (htyped : ∀ t, .primitive t ∈ f.operands.operands → t.WellTyped)
    (hinvoke : e.natives.invoke method
      (Term.evalAll (I.withNative e.natives method) args) = .ok c)
    (hc : c.type = type) (length : Nat) :
    ∃ (args' : List Term) (below' : List Value) (u u' : Term),
      Term.replaceAll I.literal args = .ok args' ∧
      List.Forall₂ (fun v w => v.replace I.literal = .ok w) below below' ∧
      e.Returns method type length s args below u ∧
      e.Returns method type length (popped s f (onStack args' below') rest) args' below' u' ∧
      u.eval (I.withNative e.natives method) = c.cast type.stackType ∧
      u'.eval (I.withNative e.natives method) = c.cast type.stackType ∧
      ((∀ a ∈ args, ∀ n ∈ a.nodes, ¬ n.Resists (I.withNative e.natives method)) →
        u' = .constant (c.cast type.stackType)) := by
  set J := I.withNative e.natives method
  have hleaf : Expression.Represents J I.literal := Expression.represents_literal J
  have hargs : Term.AllWellTyped args := by
    refine Term.allWellTyped_iff.2 fun a ha => htyped a ?_
    rw [hoperands]
    exact List.mem_append_left _ (List.mem_reverse.2 (List.mem_map_of_mem ha))
  obtain ⟨args', hargs', hwell, heval⟩ := Term.exists_replaceAll hleaf hargs
  obtain ⟨below', hbelow⟩ := Value.exists_replaceAll hleaf fun t (ht : _ ∈ below) =>
    htyped t (hoperands ▸ List.mem_append_right _ ht)
  have hlength' : args'.length = parameters.length := by
    rw [← (Term.replaceAll_eq_ok_iff.1 hargs').length_eq, hlength]
  obtain ⟨u, hu, hvalue⟩ := exists_returns hparameters hlength hreturn htype hframes hoperands
    hargs hinvoke hc length
  rw [← heval] at hinvoke
  obtain ⟨u', hu', hvalue'⟩ := exists_returns (s := popped s f (onStack args' below') rest)
    hparameters hlength' hreturn htype rfl rfl hwell hinvoke hc length
  refine ⟨args', below', u, u', hargs', hbelow, hu, hu', hvalue, hvalue', fun hn => ?_⟩
  -- The replaced arguments are constants, so the evaluator was asked, and its result widened.
  have hconstants : args' = (Term.evalAll J args).map .constant :=
    Except.ok.inj (hargs'.symm.trans (Term.replaceAll_literal hargs hn))
  obtain ⟨r, hgives, hwiden⟩ := hu'.gives
  obtain ⟨d', rfl⟩ := hgives.exists_constant (by
    rw [hconstants]
    simp [Term.isSymbolic])
  obtain ⟨v, hv, heq⟩ := map_eq_ok.1 hwiden
  cases heq
  obtain ⟨v, rfl⟩ := Expression.convert_constant hv
  rw [← hvalue', Term.eval]

/-- An evaluator that compares two numbers. -/
def comparing : NativeEvaluator :=
  ⟨fun method args =>
    match args with
    | [.int a, .int b] => .ok (.boolean (decide (a < b)))
    | _ => .error (cannotInvoke method "two numbers are needed")⟩

/-- With three for the symbol, `{V0} + 1` is below five, which the operand stack has as the
number one. -/
theorem comparison_commutes_with_replacement :
    let x : Symbol := ⟨0, .int, .root "x"⟩
    let I := Interpretation.zero.assign fun _ => .int 3
    let method : MethodSignature := ⟨"app/Main", "less", "(II)Z"⟩
    let e := { permissive .initial with natives := comparing }
    let args : List Term := [.binary .add .int (.symbol x) (.ofInt 1), .ofInt 5]
    ∃ u u', e.Returns method .boolean 3 (stackRoot (onStack args [])) args [] u ∧
      e.Returns method .boolean 3 (stackRoot (onStack [.ofInt 4, .ofInt 5] []))
        [.ofInt 4, .ofInt 5] [] u' ∧
      u.eval (I.withNative e.natives method) = .int 1 ∧ u' = .constant (.int 1) := by
  intro x I method e args
  have htyped : ∀ t, Value.primitive t ∈ onStack args [] → t.WellTyped := by
    intro t ht
    rcases List.mem_cons.1 ht with heq | ht
    · cases heq
      trivial
    · cases List.mem_singleton.1 ht
      exact ⟨trivial, trivial, rfl, rfl⟩
  have hparameters : Descriptor.parameterTypes method.descriptor = .ok ["I", "I"] := by cbv
  have hreturn : Descriptor.returnType method.descriptor = .ok "Z" := by cbv
  have htype : Descriptor.primType? "Z" = some .boolean := by cbv
  have hinvoke : e.natives.invoke method (Term.evalAll (I.withNative e.natives method) args) =
      .ok (.boolean true) := by decide
  obtain ⟨args', below', u, u', hargs', hbelow', hu, hu', hvalue, -, hconstant⟩ :=
    native_calls_commute_with_replacement (s := stackRoot (onStack args [])) I hparameters rfl
      hreturn htype rfl rfl htyped hinvoke rfl 3
  have hreplaced : Term.replaceAll I.literal args = .ok [.ofInt 4, .ofInt 5] := by rfl
  cases hargs'.symm.trans hreplaced
  cases hbelow'
  refine ⟨u, u', hu, hu', hvalue, hconstant ?_⟩
  -- The nodes are a sum, a symbol and two constants, and a sum divides nothing.
  have hsum : ∀ n ∈ (Term.binary .add .int (.symbol x) (.ofInt 1)).nodes,
      ¬ n.Resists (I.withNative e.natives method) :=
    List.forall_mem_cons.2 ⟨fun h => Bool.false_ne_true h.1,
      List.forall_mem_cons.2 ⟨id, List.forall_mem_singleton.2 id⟩⟩
  have hfive : ∀ n ∈ (Term.ofInt 5).nodes, ¬ n.Resists (I.withNative e.natives method) :=
    List.forall_mem_singleton.2 id
  exact List.forall_mem_cons.2 ⟨hsum, List.forall_mem_singleton.2 hfive⟩

end Engine

end SymbolicMachine
