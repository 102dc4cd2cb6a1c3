import SymbolicMachine.Proofs.Explore.Rules
/-!
# Arguments on the operand stack

The arguments of a method lie on the operand stack with the last one on top, above the receiver if
there is one.  Taking them off gives them in the order of the parameters.
-/
namespace SymbolicMachine

open SymbolicMachine.Action

/-- A state in a method with the given operands, the topmost first. -/
def stackRoot (operands : List Value) : State :=
  State.root.pushFrame ⟨⟨"app/Main", "run", "()V"⟩, [0, 0, 0, 0], 0, ⟨operands, 4⟩, ⟨[], []⟩⟩

variable {s : State} {f : Frame} {rest : List Frame} {below : List Value}

namespace State

theorem meets_popDownward_append {values : List Value} (hframes : s.frames = f :: rest)
    (hoperands : f.operands.operands = values ++ below) {good : List Value → State → Prop}
    {bad : MemoryError → State → Prop} :
    (popDownward values.length).Meets s good bad ↔ good values (Engine.popped s f below rest) := by
  induction values generalizing s f good with
  | nil =>
    obtain rfl : f.operands.operands = below := hoperands
    have hsame : Engine.popped s f f.operands.operands rest = s := by
      unfold Engine.popped
      rw [← hframes]
      rfl
    rw [hsame]
    rfl
  | cons v rest' ih =>
    rw [List.length_cons, popDownward, meets_bind, meets_popOperand_cons hframes hoperands,
      meets_bind, ih rfl rfl]
    rfl

theorem run_popOperands {args : List Value} (hframes : s.frames = f :: rest)
    (hoperands : f.operands.operands = args.reverse ++ below) :
    (popOperands args.length).run s = (.ok args, Engine.popped s f below rest) := by
  rw [run_eq_ok_iff_meets, popOperands, ← List.length_reverse, meets_bind,
    meets_popDownward_append hframes hoperands, meets_pure, List.reverse_reverse]
  exact ⟨rfl, rfl⟩

end State

namespace Engine

variable {ω τ : Type} {e : Engine ω τ} {args : List Value}

/-- The arguments of a static method are taken off in the order of its parameters. -/
theorem run_popArguments_static (hframes : s.frames = f :: rest)
    (hoperands : f.operands.operands = args.reverse ++ below) (ses : Session ω τ) :
    (popArguments s args.length true).run ses = (.ok (args, popped s f below rest), ses) := by
  change (onState s (State.popOperands args.length)).run ses = _
  rw [run_eq_ok_iff_meets, meets_onState, Meets, State.run_popOperands hframes hoperands]
  exact ⟨rfl, rfl⟩

/-- The receiver of an instance method is taken off with the arguments, whatever it denotes. -/
theorem run_popArguments_instance {r : Reference} (hframes : s.frames = f :: rest)
    (hoperands : f.operands.operands = args.reverse ++ .reference r :: below)
    (ses : Session ω τ) :
    (popArguments s args.length false).run ses = (.ok (args, popped s f below rest), ses) := by
  have hall : f.operands.operands = (.reference r :: args).reverse ++ below := by
    rw [hoperands, List.reverse_cons, List.append_assoc]
    rfl
  have hpopped := State.run_popOperands hframes hall
  rw [List.length_cons] at hpopped
  rw [run_eq_ok_iff_meets]
  unfold popArguments
  rw [if_neg Bool.false_ne_true, meets_bind, meets_onState, Meets, hpopped]
  exact ⟨rfl, rfl⟩

/-- What is left of the invocation of a native method when its arguments are off the stack. -/
def invokeOn (e : Engine ω τ) (method : MethodSignature) (args : List Value) (length : Nat) :
    Body ω τ := fun s => do
  let result ← Action.ofExcept ((e.natives.invokePure method args).mapError .execution)
  let ((), s) ← onState s (pushResult result length)
  pure (.done s)

theorem run_invokeNative {method : MethodSignature} {parameters : List String}
    (hparameters : Descriptor.parameterTypes method.descriptor = .ok parameters)
    (hlength : args.length = parameters.length) {isStatic : Bool} {t : State}
    {ses : Session ω τ}
    (hpopped : (popArguments s args.length isStatic).run ses = (.ok (args, t), ses))
    (length : Nat) :
    (e.invokeNative method isStatic length s).run ses =
      (e.invokeOn method args length t).run ses := by
  rw [hlength] at hpopped
  unfold invokeNative
  rw [hparameters]
  exact run_bind_ok hpopped _

end Engine

end SymbolicMachine
