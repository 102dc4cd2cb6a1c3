import SymbolicMachine.Proofs.Actions
import SymbolicMachine.Proofs.Terms.Evaluation
/-!
# Building and substituting

An expression is a tree of operators and conversions over symbols and constants, before any of
it is built.  It can be built with its symbols left in, or with constants in their place, and
the main result says that the first and an evaluation afterwards come to the same as the second.
-/
namespace SymbolicMachine

inductive Expression where
  | constant (value : Constant)
  | symbol (atom : Symbol)
  | unary (op : Operator) (arg : Expression)
  | binary (op : Operator) (left right : Expression)
  | convert (target : PrimType) (arg : Expression)

namespace Expression

/-- Builds the term of an expression from its leaves up, with the given terms for the symbols. -/
def build (leaf : Symbol → Term) : Expression → Except ValueError Term
  | constant c => .ok (.constant c)
  | symbol s => .ok (leaf s)
  | unary op a => do
    let x ← build leaf a
    x.applyUnary op
  | binary op a b => do
    let x ← build leaf a
    let y ← build leaf b
    x.applyBinary op y
  | convert t a => do
    let x ← build leaf a
    x.convert t

/-- The value of an expression by the arithmetic of the machine, without building a term. -/
def value (I : Interpretation) : Expression → Constant
  | constant c => c
  | symbol s => I.symbol s
  | unary (.unary op) a => Constant.unaryValue op (a.value I)
  | unary (.binary _) a => a.value I
  | binary (.binary op) a b => Constant.binaryValue I.byZero op (a.value I) (b.value I)
  | binary (.unary _) a _ => a.value I
  | convert t a => (a.value I).cast t

/-- Whether a division or a remainder of the expression has the integer zero as its divisor. -/
def DividesByZero (I : Interpretation) : Expression → Prop
  | constant _ => False
  | symbol _ => False
  | unary _ a => a.DividesByZero I
  | binary op a b =>
    a.DividesByZero I ∨ b.DividesByZero I ∨
      ((op = .binary .div ∨ op = .binary .rem) ∧ (b.value I).toInt? = some 0)
  | convert _ a => a.DividesByZero I

/-! ## Types -/

def unaryType (op : Operator) (t : PrimType) : Except ValueError PrimType :=
  match op with
  | .unary u => if u.accepts t then .ok t else .error (Term.noOperator op t)
  | .binary _ => .error (Term.noOperator op t)

def binaryType (op : Operator) (s t : PrimType) : Except ValueError PrimType :=
  match op with
  | .unary _ => .error (Term.noOperatorPair op s t)
  | .binary o =>
    if t = s then
      match o.result? s with
      | some r => .ok r
      | none => .error (Term.noOperator op s)
    else .error (Term.noOperatorPair op s t)

def conversionType (s t : PrimType) : Except ValueError PrimType :=
  if s = t ∨ (s = .boolean ∧ t = .int) ∨ (s.isNumeric = true ∧ t.isNumeric = true) then .ok t
  else .error (Constant.noConversion s t)

/-- The type of an expression, or the error of building it. -/
def type? : Expression → Except ValueError PrimType
  | constant c => .ok c.type
  | symbol s => .ok s.type
  | unary op a => do
    let t ← a.type?
    unaryType op t
  | binary op a b => do
    let s ← a.type?
    let t ← b.type?
    binaryType op s t
  | convert target a => do
    let t ← a.type?
    conversionType t target

theorem map_type_applyUnary (op : Operator) {a : Term} (ha : a.WellTyped) :
    (a.applyUnary op).map Term.type = unaryType op a.type := by
  cases op with
  | binary o => rfl
  | unary u =>
    unfold Term.applyUnary unaryType
    dsimp only
    split
    · rename_i h
      exact congrArg Except.ok (Term.foldUnary_spec ha h).2.1
    · rfl

theorem map_type_applyBinary (op : Operator) {a b : Term} (ha : a.WellTyped)
    (hb : b.WellTyped) : (a.applyBinary op b).map Term.type = binaryType op a.type b.type := by
  cases op with
  | unary u => rfl
  | binary o =>
    unfold Term.applyBinary binaryType
    dsimp only
    split
    · rename_i htype
      cases hr : o.result? a.type with
      | some t => exact congrArg Except.ok (Term.foldBinary_spec ha hb htype hr).2.1
      | none => rfl
    · rfl

theorem conversionType_of_converts {s t : PrimType} (h : Term.Converts s t) :
    conversionType s t = .ok t :=
  if_pos (.inr h.2)

theorem convert_constant_error {c : Constant} {t : PrimType} (hne : c.type ≠ t)
    (h : ¬ Term.Converts c.type t) :
    c.convert t = .error (Constant.noConversion c.type t) := by
  unfold Constant.convert
  rw [if_neg hne]
  cases c with
  | boolean b => exact if_neg fun ht => h ⟨hne, .inl ⟨rfl, ht⟩⟩
  | _ =>
    refine if_pos (Decidable.byContradiction fun ht => ?_)
    exact h ⟨hne, .inr ⟨rfl, by simpa [PrimType.isNumeric] using ht⟩⟩

theorem convert_error {a : Term} {t : PrimType} (hne : a.type ≠ t)
    (h : ¬ Term.Converts a.type t) :
    a.convert t = .error (Constant.noConversion a.type t) := by
  have hbool : ¬ (a.type = .boolean ∧ t = .int) := fun h' => h ⟨hne, .inl h'⟩
  have hnumeric : ¬ (a.type.isNumeric = true ∧ t.isNumeric = true) :=
    fun h' => h ⟨hne, .inr h'⟩
  unfold Term.convert
  rw [if_neg hne]
  split
  · rename_i c
    rw [convert_constant_error hne h]
    rfl
  · rw [if_neg hbool, if_neg (by simpa using hnumeric)]

theorem conversionType_error {s t : PrimType} (hne : s ≠ t) (h : ¬ Term.Converts s t) :
    conversionType s t = .error (Constant.noConversion s t) := by
  refine if_neg ?_
  rintro (h' | h' | h')
  · exact hne h'
  · exact h ⟨hne, .inl h'⟩
  · exact h ⟨hne, .inr h'⟩

theorem map_type_convert (t : PrimType) {a : Term} (ha : a.WellTyped) :
    (a.convert t).map Term.type = conversionType a.type t := by
  by_cases hne : a.type = t
  · unfold Term.convert conversionType
    rw [if_pos hne, if_pos (.inl hne), ← hne]
    rfl
  by_cases h : Term.Converts a.type t
  · obtain ⟨b, hb⟩ := Term.exists_convert_of_converts h
    rw [conversionType_of_converts h, hb]
    exact congrArg Except.ok (Term.convert_spec ha hb).2.1
  · rw [conversionType_error hne h, convert_error hne h]
    rfl

/-! ## Values -/

/-- Terms for the symbols that have the types and the values of the symbols. -/
structure Represents (I : Interpretation) (leaf : Symbol → Term) : Prop where
  wellTyped : ∀ s, (leaf s).WellTyped
  type_eq : ∀ s, (leaf s).type = s.type
  eval_eq : ∀ s, (leaf s).eval I = I.symbol s

theorem represents_symbol (I : Interpretation) : Represents I .symbol :=
  ⟨fun _ => trivial, fun _ => rfl, fun _ => rfl⟩

theorem represents_literal (I : Interpretation) : Represents I I.literal :=
  ⟨fun _ => trivial, I.type_symbol, fun _ => rfl⟩

/-- What is built is well-typed and has the value of the expression. -/
theorem build_spec {I : Interpretation} {leaf : Symbol → Term} (h : Represents I leaf) :
    ∀ {e : Expression} {a : Term}, e.build leaf = .ok a → a.WellTyped ∧ a.eval I = e.value I
  | constant c, a, ha => by
    cases ha
    exact ⟨trivial, rfl⟩
  | symbol s, a, ha => by
    cases ha
    exact ⟨h.wellTyped s, h.eval_eq s⟩
  | unary op e, a, ha => by
    obtain ⟨x, hx, ha⟩ := bind_eq_ok.1 ha
    obtain ⟨hwell, heval⟩ := build_spec h hx
    obtain ⟨u, rfl, -, hwell', -, heval'⟩ := Term.applyUnary_spec hwell ha
    exact ⟨hwell', by rw [heval', heval, value]⟩
  | binary op e f, a, ha => by
    obtain ⟨x, hx, ha⟩ := bind_eq_ok.1 ha
    obtain ⟨y, hy, ha⟩ := bind_eq_ok.1 ha
    obtain ⟨hwellx, hevalx⟩ := build_spec h hx
    obtain ⟨hwelly, hevaly⟩ := build_spec h hy
    obtain ⟨o, rfl, -, -, hwell, heval⟩ := Term.applyBinary_spec hwellx hwelly ha
    exact ⟨hwell, by rw [heval, hevalx, hevaly, value]⟩
  | convert t e, a, ha => by
    obtain ⟨x, hx, ha⟩ := bind_eq_ok.1 ha
    obtain ⟨hwell, heval⟩ := build_spec h hx
    obtain ⟨hwell', -, heval'⟩ := Term.convert_spec hwell ha
    exact ⟨hwell', by rw [heval', heval, value]⟩

theorem map_type_bind {x : Except ValueError Term} {f : Term → Except ValueError Term}
    {g : PrimType → Except ValueError PrimType} {t : Except ValueError PrimType}
    (hx : x.map Term.type = t) (hf : ∀ a, x = .ok a → (f a).map Term.type = g a.type) :
    (x >>= f).map Term.type = t >>= g := by
  subst hx
  cases x with
  | error err => rfl
  | ok a => exact hf a rfl

/-- Whether an expression can be built, and as what type, hangs on the types of its leaves only. -/
theorem map_type_build {I : Interpretation} {leaf : Symbol → Term} (h : Represents I leaf) :
    ∀ e : Expression, (e.build leaf).map Term.type = e.type?
  | constant _ => rfl
  | symbol s => congrArg Except.ok (h.type_eq s)
  | unary op e =>
    map_type_bind (map_type_build h e) fun _ hx => map_type_applyUnary op (build_spec h hx).1
  | binary op e f =>
    map_type_bind (map_type_build h e) fun _ hx =>
      map_type_bind (map_type_build h f) fun _ hy =>
        map_type_applyBinary op (build_spec h hx).1 (build_spec h hy).1
  | convert t e =>
    map_type_bind (map_type_build h e) fun _ hx => map_type_convert t (build_spec h hx).1

/-! ## Substituted expressions -/

theorem applyUnary_constant {op : Operator} {c : Constant} {b : Term}
    (h : (Term.constant c).applyUnary op = .ok b) : ∃ d, b = .constant d := by
  cases op with
  | binary o => cases h
  | unary u =>
    unfold Term.applyUnary at h
    dsimp only at h
    split at h
    · rename_i hu
      cases h
      unfold Term.foldUnary
      dsimp only
      rw [Constant.fold?_eq hu]
      exact ⟨_, rfl⟩
    · cases h

theorem applyBinary_constant {o : BinaryOp} {c d : Constant} {b : Term}
    (hzero : ¬ (o.divides = true ∧ d.toInt? = some 0))
    (h : (Term.constant c).applyBinary (.binary o) (.constant d) = .ok b) :
    ∃ v, b = .constant v := by
  unfold Term.applyBinary at h
  dsimp only at h
  split at h
  · rename_i htype
    split at h
    · rename_i t hr
      cases h
      cases hfold : Constant.foldPair? o c d with
      | none => exact absurd (Constant.foldPair?_eq_none htype hr hfold) hzero
      | some v =>
        unfold Term.foldBinary Term.foldedPair?
        dsimp only
        rw [hfold]
        exact ⟨v, rfl⟩
    · cases h
  · cases h

theorem convert_constant {c : Constant} {t : PrimType} {b : Term}
    (h : (Term.constant c).convert t = .ok b) : ∃ d, b = .constant d := by
  unfold Term.convert at h
  split at h
  · cases h
    exact ⟨c, rfl⟩
  · cases hc : c.convert t with
    | error e =>
      simp only [hc] at h
      cases h
    | ok d =>
      simp only [hc] at h
      cases h
      exact ⟨d, rfl⟩

/-- With constants for the symbols, what is built without a division by zero is a constant. -/
theorem build_literal {I : Interpretation} :
    ∀ {e : Expression} {b : Term}, e.build I.literal = .ok b → ¬ e.DividesByZero I →
      ∃ c, b = .constant c
  | constant c, b, hb, _ => by
    cases hb
    exact ⟨c, rfl⟩
  | symbol s, b, hb, _ => by
    cases hb
    exact ⟨_, rfl⟩
  | unary op e, b, hb, hz => by
    obtain ⟨x, hx, hb⟩ := bind_eq_ok.1 hb
    obtain ⟨c, rfl⟩ := build_literal hx hz
    exact applyUnary_constant hb
  | binary op e f, b, hb, hz => by
    obtain ⟨x, hx, hb⟩ := bind_eq_ok.1 hb
    obtain ⟨y, hy, hb⟩ := bind_eq_ok.1 hb
    obtain ⟨hze, hzf, hzero⟩ : ¬ e.DividesByZero I ∧ ¬ f.DividesByZero I ∧ _ := by
      simpa only [DividesByZero, not_or] using hz
    obtain ⟨c, rfl⟩ := build_literal hx hze
    obtain ⟨d, rfl⟩ := build_literal hy hzf
    have hd : d = f.value I := (build_spec (represents_literal I) hy).2
    cases op with
    | unary u => cases hb
    | binary o =>
      refine applyBinary_constant (fun ⟨ho, h0⟩ => hzero ⟨?_, hd ▸ h0⟩) hb
      cases o <;> first | exact .inl rfl | exact .inr rfl | cases ho
  | convert t e, b, hb, hz => by
    obtain ⟨x, hx, hb⟩ := bind_eq_ok.1 hb
    obtain ⟨c, rfl⟩ := build_literal hx hz
    exact convert_constant hb

/-- Building an expression and evaluating the term comes to the same as substituting and
building.  The two ways succeed together, with one type, or fail with one error.  When they
succeed, the built term has the value that the arithmetic of the machine gives the expression,
and unless some division or remainder has the divisor zero, the substituted expression is built
to just that constant. -/
theorem building_commutes_with_substitution (e : Expression) (I : Interpretation) :
    (e.build .symbol).map Term.type = (e.build I.literal).map Term.type ∧
      ∀ a, e.build .symbol = .ok a →
        a.eval I = e.value I ∧
          (¬ e.DividesByZero I → e.build I.literal = .ok (.constant (a.eval I))) := by
  have htypes : (e.build .symbol).map Term.type = (e.build I.literal).map Term.type :=
    (map_type_build (represents_symbol I) e).trans (map_type_build (represents_literal I) e).symm
  refine ⟨htypes, fun a ha => ?_⟩
  have heval := (build_spec (represents_symbol I) ha).2
  refine ⟨heval, fun hz => ?_⟩
  cases hb : e.build I.literal with
  | error err =>
    rw [ha, hb] at htypes
    cases htypes
  | ok b =>
    obtain ⟨c, rfl⟩ := build_literal hb hz
    have hc : c = e.value I := (build_spec (represents_literal I) hb).2
    rw [hc, heval]

/-- An `int` past its maximum is below itself, with the symbol left in and without it. -/
theorem building_commutes_at_overflow :
    let x : Symbol := ⟨0, .int, .root "x"⟩
    let I := Interpretation.zero.assign fun _ => .int Int32.maxValue
    let e : Expression := .unary (.unary .not) (.unary (.unary .not)
      (.binary (.binary .and)
        (.binary (.binary .lt)
          (.binary (.binary .add) (.symbol x) (.constant (.int 1))) (.symbol x))
        (.constant (.boolean true))))
    let a : Term := .binary .lt .boolean
      (.binary .add .int (.symbol x) (.ofInt 1)) (.symbol x)
    e.build .symbol = .ok a ∧ ¬ e.DividesByZero I ∧
      e.build I.literal = .ok (.constant (.boolean true)) := by
  intro x I e a
  have ha : e.build .symbol = .ok a := rfl
  have hz : ¬ e.DividesByZero I := by simp [e, Expression.DividesByZero]
  have hvalue : a.eval I = .boolean true := by decide
  have h := ((building_commutes_with_substitution e I).2 a ha).2 hz
  rw [hvalue] at h
  exact ⟨ha, hz, h⟩

end Expression

end SymbolicMachine
