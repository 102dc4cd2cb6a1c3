import SymbolicMachine.Proofs.Arrays.Loads
import SymbolicMachine.Proofs.Natives.Arguments
/-!
# Null receivers

A reference denotes no object if it is null, or a symbol that was assumed to be null.  An
instruction that follows such a reference throws an exception, in the only successor.  The
invocation of a native method does not follow its receiver: it only takes it off, and goes on as
a static method would that finds the same arguments.
-/
namespace SymbolicMachine

open SymbolicMachine.Action

/-- Whether a reference denotes no object. -/
def State.DenotesNull (s : State) : Reference → Prop
  | .null => True
  | .symbolic r => ∃ q, s.resolution? r = some (.isNull q)
  | .concrete _ => False

theorem State.DenotesNull.deref {s : State} {r : Reference} (h : s.DenotesNull r) :
    s.deref r = .ok none := by
  cases r with
  | null => rfl
  | concrete a => exact h.elim
  | symbolic r =>
    obtain ⟨q, hq⟩ := h
    simp only [State.deref, hq, Clause.address?]

/-- The instructions that follow a reference, with the operands that they take off. -/
inductive Instruction.Follows : Instruction → Reference → List Value → Prop
  | getField (name : String) (r : Reference) : Follows (.getField name) r [.reference r]
  | arrayLoad {index : Term} (h : index.type = .int) (r : Reference) :
      Follows .arrayLoad r [.primitive index, .reference r]

namespace Engine

variable {ω τ : Type} {e : Engine ω τ} {s : State} {f : Frame} {rest : List Frame}
  {below : List Value} {r : Reference}

/-- Following a null reference throws an exception, once the operands are off the stack. -/
theorem body_throws_of_null {i : Instruction} {taken : List Value} (hfollows : i.Follows r taken)
    (hframes : s.frames = f :: rest) (hoperands : f.operands.operands = taken ++ below)
    (hnull : s.DenotesNull r) (ses : Session ω τ) :
    (e.body i s).run ses =
      (.ok (.done ((popped s f below rest).throwNew nullPointer).2), ses) := by
  rw [run_eq_ok_iff_meets]
  cases hfollows with
  | getField name =>
    unfold body getField
    rw [meets_bind, meets_popTarget_cons hframes hoperands hnull.deref]
    exact ⟨rfl, rfl⟩
  | @arrayLoad index hindex =>
    unfold body arrayLoad
    have hnull' : (popped s f (.reference r :: below) rest).DenotesNull r := hnull
    have hoperands' : f.operands.operands = .primitive index :: .reference r :: below := hoperands
    rw [meets_bind, meets_popInt_cons hframes hoperands' hindex, meets_bind,
      meets_popTarget_cons rfl rfl hnull'.deref]
    exact ⟨rfl, rfl⟩

theorem step_throws_of_null {i : Instruction} {taken : List Value} (hfollows : i.Follows r taken)
    (hframes : s.frames = f :: rest) (hoperands : f.operands.operands = taken ++ below)
    (hnull : s.DenotesNull r) (ses : Session ω τ) :
    ∃ t after, (e.step i s).run ses = (.ok [t], after) ∧ s.ThrowsNew t nullPointer ∧
      t.pathCondition = s.pathCondition := by
  refine ⟨((popped s f below rest).throwNew nullPointer).2.incSequence,
    { ses with statistics := ses.statistics.addSuccessors 1 }, ?_,
    State.throwsNew_throwNew rfl nullPointer, rfl⟩
  rw [step, run_execute, body_throws_of_null hfollows hframes hoperands hnull]
  rfl

/-- The receiver of a native method is taken off and forgotten. -/
theorem invokeNative_forgets_receiver {method : MethodSignature} {parameters : List String}
    (hparameters : Descriptor.parameterTypes method.descriptor = .ok parameters)
    {args : List Value} (hlength : args.length = parameters.length)
    (hframes : s.frames = f :: rest)
    (hoperands : f.operands.operands = args.reverse ++ .reference r :: below) (length : Nat)
    (ses : Session ω τ) :
    (e.invokeNative method false length s).run ses =
      (e.invokeNative method true length (popped s f (args.reverse ++ below) rest)).run ses := by
  rw [run_invokeNative hparameters hlength (run_popArguments_instance hframes hoperands ses),
    run_invokeNative hparameters hlength (run_popArguments_static rfl rfl ses)]
  rfl

/-- With a null reference as the receiver, an instruction that follows it has one successor, which
threw the exception and assumes nothing new.  The invocation of a native method does what that of
a static method does without the receiver. -/
theorem null_receivers_throw_unless_native (hframes : s.frames = f :: rest)
    (hnull : s.DenotesNull r) (ses : Session ω τ) :
    (∀ i taken, i.Follows r taken → f.operands.operands = taken ++ below →
      ∃ t after, (e.step i s).run ses = (.ok [t], after) ∧ s.ThrowsNew t nullPointer ∧
        t.pathCondition = s.pathCondition) ∧
    ∀ method parameters (args : List Value) length,
      Descriptor.parameterTypes method.descriptor = .ok parameters →
        args.length = parameters.length →
          f.operands.operands = args.reverse ++ .reference r :: below →
            (e.invokeNative method false length s).run ses =
              (e.invokeNative method true length
                (popped s f (args.reverse ++ below) rest)).run ses :=
  ⟨fun _ _ hfollows hoperands => step_throws_of_null hfollows hframes hoperands hnull ses,
    fun _ _ _ length hparameters hlength hoperands =>
      invokeNative_forgets_receiver hparameters hlength hframes hoperands length ses⟩

/-- An unknown object. -/
def unknownObject : RefSymbol := ⟨0, "app/Main", .root "this"⟩

/-- A state that assumed the unknown object to be null and has it on its operand stack. -/
def nullRoot (above : List Value) : State :=
  ((State.assumeNull unknownObject).run
    (stackRoot (above ++ [.reference (.symbolic unknownObject)]))).2

/-- An array load from the null reference throws, with an index out of any bounds, and a native
method with the null reference as its receiver is invoked. -/
theorem array_load_throws_on_assumed_null :
    let e := permissive .initial
    let s := nullRoot [.primitive (.ofInt (-1))]
    (∃ t after, (e.step .arrayLoad s).run (.start [] ()) = (.ok [t], after) ∧
      s.ThrowsNew t nullPointer ∧ t.pathCondition = s.pathCondition) ∧
    (e.invokeNative ⟨"app/Main", "tick", "(I)V"⟩ false 3 s).run (.start [] ()) =
      (e.invokeNative ⟨"app/Main", "tick", "(I)V"⟩ true 3
        (stackRoot [.primitive (.ofInt (-1))] |>.withPath s.pathCondition)).run (.start [] ()) := by
  intro e s
  obtain ⟨hfollows, hnative⟩ := null_receivers_throw_unless_native (e := e) (s := s)
    (r := .symbolic unknownObject) rfl ⟨unknownObject, rfl⟩ (.start [] ())
  refine ⟨hfollows .arrayLoad _ (.arrayLoad rfl _) rfl, ?_⟩
  exact hnative ⟨"app/Main", "tick", "(I)V"⟩ ["I"] [.primitive (.ofInt (-1))] 3 (by cbv) rfl rfl

/-- The invocation of a native method on the null reference goes on to the next instruction. -/
theorem native_method_runs_on_null :
    let e := permissive .initial
    let s := stackRoot [.reference .null]
    s.DenotesNull .null ∧
      ¬ ∃ t after, (e.step (.invokeNative ⟨"app/Main", "tick", "()V"⟩ false 3) s).run
          (.start [] ()) = (.ok [t], after) ∧ s.ThrowsNew t nullPointer := by
  intro e s
  refine ⟨trivial, ?_⟩
  rintro ⟨t, after, hrun, hending, -⟩
  have hruns : ((e.step (.invokeNative ⟨"app/Main", "tick", "()V"⟩ false 3) s).run
      (.start [] ())).1.toOption.all (·.all fun t => t.ending.isNone) = true := by decide +kernel
  rw [hrun] at hruns
  simp [Except.toOption, hending] at hruns

end Engine

end SymbolicMachine
