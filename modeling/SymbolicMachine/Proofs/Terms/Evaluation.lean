import SymbolicMachine.Proofs.Terms.Arithmetic
/-!
# The value of a term

An interpretation gives every symbol a constant of its type, and settles what the arithmetic of
the machine leaves open: the functions without an interpretation, and the division of integers
by zero.  Under an interpretation every term has a value.

The operations that build terms check types, fold and simplify.  On well-typed operands each of
them gives a well-typed term whose value is the operator's value on the operands' values, so
none of the simplifications is visible in a value or in a type.
-/
namespace SymbolicMachine

/-- What gives terms their values. -/
structure Interpretation where
  symbol : Symbol → Constant
  function : PrimType → String → List Constant → Constant
  /-- What a division or a remainder of integers gives on a zero divisor. -/
  byZero : BinaryOp → Constant → Constant
  type_symbol : ∀ s, (symbol s).type = s.type
  type_function : ∀ t f args, (function t f args).type = t
  type_byZero : ∀ op a, (byZero op a).type = a.type

namespace Interpretation

def zero : Interpretation :=
  { symbol := fun s => .zero s.type
    function := fun t _ _ => .zero t
    byZero := fun _ a => .zero a.type
    type_symbol := fun s => Constant.type_zero s.type
    type_function := fun t _ _ => Constant.type_zero t
    type_byZero := fun _ a => Constant.type_zero a.type }

/-- Gives the symbols other constants, and zero where a constant does not fit its symbol. -/
def assign (I : Interpretation) (value : Symbol → Constant) : Interpretation :=
  { I with
    symbol := fun s => if (value s).type = s.type then value s else .zero s.type
    type_symbol := fun s => by
      split
      · assumption
      · exact Constant.type_zero s.type }

def literal (I : Interpretation) (s : Symbol) : Term := .constant (I.symbol s)

/-- Symbols of a type get their constants by their numbers alone. -/
def ByNumber (I : Interpretation) : Prop :=
  ∀ x y : Symbol, x.id = y.id → x.type = y.type → I.symbol x = I.symbol y

theorem byNumber_zero : zero.ByNumber :=
  fun _ _ _ htype => congrArg Constant.zero htype

end Interpretation

namespace Term

mutual

def eval (I : Interpretation) : Term → Constant
  | constant c => c
  | symbol s => I.symbol s
  | unary op _ a => Constant.unaryValue op (a.eval I)
  | binary op _ a b => Constant.binaryValue I.byZero op (a.eval I) (b.eval I)
  | application t f args => I.function t f (evalAll I args)
  | conversion t a => (a.eval I).cast t

def evalAll (I : Interpretation) : List Term → List Constant
  | [] => []
  | a :: rest => a.eval I :: evalAll I rest

end

/-- Whether a conversion from one type to another exists and changes something. -/
def Converts (source target : PrimType) : Prop :=
  source ≠ target ∧
    ((source = .boolean ∧ target = .int) ∨
      (source.isNumeric = true ∧ target.isNumeric = true))

mutual

/-- Whether every node of a term carries the type that its operator gives it. -/
def WellTyped : Term → Prop
  | constant _ => True
  | symbol _ => True
  | unary op t a => a.WellTyped ∧ op.accepts a.type = true ∧ t = a.type
  | binary op t a b =>
    a.WellTyped ∧ b.WellTyped ∧ b.type = a.type ∧ op.result? a.type = some t
  | application _ _ args => AllWellTyped args
  | conversion t a => a.WellTyped ∧ Converts a.type t

def AllWellTyped : List Term → Prop
  | [] => True
  | a :: rest => a.WellTyped ∧ AllWellTyped rest

end

theorem allWellTyped_iff {args : List Term} : AllWellTyped args ↔ ∀ a ∈ args, a.WellTyped := by
  induction args with
  | nil => simp [AllWellTyped]
  | cons a rest ih => simp [AllWellTyped, ih]

theorem exists_convert {c : Constant} {t : PrimType} (h : Converts c.type t) :
    ∃ d, c.convert t = .ok d := by
  unfold Constant.convert
  rw [if_neg h.1]
  cases c with
  | boolean b =>
    rcases h.2 with h | h
    · exact ⟨_, if_pos h.2⟩
    · cases h.1
  | _ =>
    have ht : t ≠ .boolean := by
      rintro rfl
      rcases h.2 with h | h <;> cases h.2
    exact ⟨_, by rw [if_neg ht]; rfl⟩

theorem exists_convert_of_converts {t : Term} {target : PrimType}
    (h : Converts t.type target) : ∃ u, t.convert target = .ok u := by
  unfold convert
  rw [if_neg h.1]
  split
  · rename_i c
    obtain ⟨d, hd⟩ := exists_convert (c := c) h
    exact ⟨.constant d, by rw [hd]; rfl⟩
  · rcases h.2 with hint | hnumeric
    · exact ⟨_, if_pos hint⟩
    · split
      · exact ⟨_, rfl⟩
      · exact ⟨_, if_pos (by simpa using hnumeric)⟩

theorem type_cast {c : Constant} {t : PrimType} (h : Converts c.type t) :
    (c.cast t).type = t := by
  obtain ⟨d, hd⟩ := exists_convert h
  rw [Constant.cast_of_convert hd]
  exact Constant.type_convert hd

theorem type_eval (I : Interpretation) : ∀ {t : Term}, t.WellTyped → (t.eval I).type = t.type
  | constant _, _ => rfl
  | symbol s, _ => I.type_symbol s
  | unary op t a, h => by
    rw [eval, Constant.type_unaryValue, type_eval I h.1, type, h.2.2]
  | binary op t a b, h => by
    obtain ⟨ha, hb, htype, hr⟩ := h
    rw [eval, type]
    apply Constant.type_binaryValue I.type_byZero
    · rw [type_eval I ha, type_eval I hb, htype]
    · rw [type_eval I ha, hr]
  | application t f args, _ => I.type_function t f _
  | conversion t a, h => by
    rw [eval, type]
    exact type_cast (by rw [type_eval I h.1]; exact h.2)

/-! ## Building -/

theorem foldUnary_spec {op : UnaryOp} {a : Term} (ha : a.WellTyped)
    (h : op.accepts a.type = true) :
    (foldUnary op a).WellTyped ∧ (foldUnary op a).type = a.type ∧
      ∀ I, (foldUnary op a).eval I = Constant.unaryValue op (a.eval I) := by
  have hnode : ∀ b, b = unary op a.type a → b.WellTyped ∧ b.type = a.type ∧
      ∀ I, b.eval I = Constant.unaryValue op (a.eval I) := by
    rintro b rfl
    exact ⟨⟨ha, h, rfl⟩, rfl, fun _ => rfl⟩
  unfold foldUnary
  split
  · rename_i c
    rw [Constant.fold?_eq h]
    exact ⟨trivial, Constant.type_unaryValue op c, fun _ => rfl⟩
  · rename_i op' t b
    split
    · rename_i hop
      subst hop
      obtain ⟨hb, haccepts, ht⟩ := ha
      refine ⟨hb, ht.symm, fun I => ?_⟩
      rw [eval, Constant.unaryValue_unaryValue]
      rw [type_eval I hb]
      exact haccepts
    · exact hnode _ rfl
  · exact hnode _ rfl

/-- Applying an operator to one term keeps the meaning of the operator. -/
theorem applyUnary_spec {op : Operator} {a b : Term} (ha : a.WellTyped)
    (h : applyUnary op a = .ok b) :
    ∃ u, op = .unary u ∧ u.accepts a.type = true ∧ b.WellTyped ∧ b.type = a.type ∧
      ∀ I, b.eval I = Constant.unaryValue u (a.eval I) := by
  cases op with
  | binary o => cases h
  | unary u =>
    unfold applyUnary at h
    dsimp only at h
    split at h
    · rename_i hu
      cases h
      exact ⟨u, rfl, hu, foldUnary_spec ha hu⟩
    · cases h

theorem eq_constant_of_isSymbolic {a : Term} (h : a.isSymbolic = false) : ∃ v, a = constant v := by
  cases a with
  | constant v => exact ⟨v, rfl⟩
  | _ => cases h

theorem eq_of_bool?_eq_some {a : Term} {v : Bool} (h : a.bool? = some v) :
    a = constant (.boolean v) := by
  cases a with
  | constant c =>
    cases c with
    | boolean b => exact congrArg (fun b => constant (.boolean b)) (Option.some.inj h)
    | _ => cases h
  | _ => cases h

theorem exists_eval_eq_boolean (I : Interpretation) {a : Term} (ha : a.WellTyped)
    (h : a.type = .boolean) : ∃ x, a.eval I = .boolean x := by
  have ht := type_eval I ha
  rw [h] at ht
  cases hv : a.eval I with
  | boolean x => exact ⟨x, rfl⟩
  | _ =>
    rw [hv] at ht
    cases ht

theorem eq_and_or_eq_or {op : BinaryOp} (h : op.isConnective = true) : op = .and ∨ op = .or := by
  cases op <;> simp_all [BinaryOp.isConnective]

/-- A connective with an operand of known truth value keeps its meaning when it is simplified. -/
theorem connective?_spec {op : BinaryOp} {a b c : Term} (hop : op.isConnective = true)
    (ha : a.WellTyped) (hb : b.WellTyped) (hta : a.type = .boolean) (htb : b.type = .boolean)
    (h : connective? op a b = some c) :
    c.WellTyped ∧ c.type = .boolean ∧
      ∀ I, c.eval I = Constant.binaryValue I.byZero op (a.eval I) (b.eval I) := by
  unfold connective? at h
  split at h
  · rename_i v hv
    obtain rfl := eq_of_bool?_eq_some hv
    cases h
    refine ⟨by split <;> trivial, by split <;> first | rfl | exact htb, fun I => ?_⟩
    obtain ⟨y, hy⟩ := exists_eval_eq_boolean I hb htb
    rcases eq_and_or_eq_or hop with rfl | rfl <;> cases v <;>
      simp [eval, ofBool, hy, Constant.binaryValue, BinaryOp.onBools]
  · split at h
    · rename_i v hv
      obtain rfl := eq_of_bool?_eq_some hv
      cases h
      refine ⟨by split <;> trivial, by split <;> first | rfl | exact hta, fun I => ?_⟩
      obtain ⟨x, hx⟩ := exists_eval_eq_boolean I ha hta
      rcases eq_and_or_eq_or hop with rfl | rfl <;> cases v <;>
        simp [eval, ofBool, hx, Constant.binaryValue, BinaryOp.onBools]
    · cases h

theorem foldedPair?_eq_some {op : BinaryOp} {a b : Term} {c : Constant}
    (h : foldedPair? op a b = some c) :
    ∃ x y, a = constant x ∧ b = constant y ∧ Constant.foldPair? op x y = some c := by
  unfold foldedPair? at h
  split at h
  · exact ⟨_, _, rfl, rfl, h⟩
  · cases h

theorem foldBinary_spec {op : BinaryOp} {t : PrimType} {a b : Term} (ha : a.WellTyped)
    (hb : b.WellTyped) (htype : b.type = a.type) (hr : op.result? a.type = some t) :
    (foldBinary op t a b).WellTyped ∧ (foldBinary op t a b).type = t ∧
      ∀ I, (foldBinary op t a b).eval I =
        Constant.binaryValue I.byZero op (a.eval I) (b.eval I) := by
  have hnode : (binary op t a b).WellTyped ∧ (binary op t a b).type = t ∧
      ∀ I, (binary op t a b).eval I =
        Constant.binaryValue I.byZero op (a.eval I) (b.eval I) :=
    ⟨⟨ha, hb, htype, hr⟩, rfl, fun _ => rfl⟩
  unfold foldBinary
  split
  · rename_i c hc
    obtain ⟨x, y, rfl, rfl, hxy⟩ := foldedPair?_eq_some hc
    have hvalue := Constant.binaryValue_of_foldPair? htype hr hxy
    refine ⟨trivial, ?_, fun I => (hvalue I.byZero).symm⟩
    rw [type, ← hvalue Interpretation.zero.byZero]
    exact Constant.type_binaryValue Interpretation.zero.type_byZero htype hr
  · split
    · rename_i hop
      cases hc : connective? op a b with
      | none => exact hnode
      | some c =>
        have htypes : a.type = .boolean ∧ t = .boolean := by
          rcases Constant.result?_cases hr with h | h | h
          · rcases eq_and_or_eq_or hop with rfl | rfl <;> cases h.1
          · exact h.2.2
          · rw [hop] at h
            cases h.2.1
        obtain ⟨hta, rfl⟩ := htypes
        exact connective?_spec hop ha hb hta (htype.trans hta) hc
    · exact hnode

/-- Applying an operator to two terms keeps the meaning of the operator. -/
theorem applyBinary_spec {op : Operator} {a b c : Term} (ha : a.WellTyped) (hb : b.WellTyped)
    (h : applyBinary op a b = .ok c) :
    ∃ o, op = .binary o ∧ b.type = a.type ∧ o.result? a.type = some c.type ∧ c.WellTyped ∧
      ∀ I, c.eval I = Constant.binaryValue I.byZero o (a.eval I) (b.eval I) := by
  cases op with
  | unary u => cases h
  | binary o =>
    unfold applyBinary at h
    dsimp only at h
    split at h
    · rename_i htype
      split at h
      · rename_i t hr
        cases h
        obtain ⟨hwell, ht, heval⟩ := foldBinary_spec ha hb htype hr
        exact ⟨o, rfl, htype, by rw [ht, hr], hwell, heval⟩
      · cases h
    · cases h

/-- Converting a term keeps the meaning of the conversion. -/
theorem convert_spec {a b : Term} {t : PrimType} (ha : a.WellTyped) (h : a.convert t = .ok b) :
    b.WellTyped ∧ b.type = t ∧ ∀ I, b.eval I = (a.eval I).cast t := by
  unfold convert at h
  split at h
  · rename_i ht
    cases h
    refine ⟨ha, ht, fun I => ?_⟩
    rw [← ht, ← type_eval I ha, Constant.cast_type_self]
  · rename_i hne
    split at h
    · rename_i c
      cases hc : c.convert t with
      | error e =>
        rw [hc] at h
        cases h
      | ok d =>
        rw [hc] at h
        cases h
        exact ⟨trivial, Constant.type_convert hc, fun I => (Constant.cast_of_convert hc).symm⟩
    · split at h
      · rename_i hint
        cases h
        exact ⟨⟨ha, hne, .inl hint⟩, rfl, fun _ => rfl⟩
      · split at h
        · rename_i hnumeric
          cases h
          exact ⟨⟨ha, hne, .inr (by simpa using hnumeric)⟩, rfl, fun _ => rfl⟩
        · cases h

end Term

end SymbolicMachine
