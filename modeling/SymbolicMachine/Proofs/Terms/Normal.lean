import SymbolicMachine.Proofs.Terms.Evaluation
/-!
# Normal terms

`Built` are the terms that the operations build from constants and symbols, in any order.  What
holds of each node of such a term is `NormalNode`: the node has the type that the rule of its
operator gives, and nothing is left of it that could have been computed or cancelled when it was
made.  A normal term can only be other than a constant because of a symbol, an application of a
function, or a division of integers by the constant zero.
-/
namespace SymbolicMachine

/-- The rule of a unary operator: the type of its operand and that of its result. -/
inductive UnaryOp.Rule : UnaryOp → PrimType → PrimType → Prop
  | not : Rule .not .boolean .boolean
  | neg {t : PrimType} (ht : t ∈ [.int, .long, .float, .double]) : Rule .neg t t

/-- The rule of a binary operator: the type that both operands have and that of its result. -/
inductive BinaryOp.Rule : BinaryOp → PrimType → PrimType → Prop
  | equality {op : BinaryOp} {t : PrimType} (hop : op ∈ [.eq, .ne]) : Rule op t .boolean
  | order {op : BinaryOp} {t : PrimType} (hop : op ∈ [.lt, .le, .gt, .ge]) (ht : t ≠ .boolean) :
      Rule op t .boolean
  | connective {op : BinaryOp} (hop : op ∈ [.and, .or]) : Rule op .boolean .boolean
  | arithmetic {op : BinaryOp} {t : PrimType} (hop : op ∈ [.add, .sub, .mul, .div, .rem])
      (ht : t ∈ [.int, .long, .float, .double]) : Rule op t t

theorem PrimType.isStackNative_iff {t : PrimType} :
    t.isStackNative = true ↔ t ∈ [.int, .long, .float, .double] := by
  cases t <;> decide

theorem BinaryOp.isComparison_iff {op : BinaryOp} :
    op.isComparison = true ↔ op ∈ [.eq, .ne] ∨ op ∈ [.lt, .le, .gt, .ge] := by
  cases op <;> decide

theorem BinaryOp.isConnective_iff {op : BinaryOp} :
    op.isConnective = true ↔ op ∈ [.and, .or] := by
  cases op <;> decide

theorem BinaryOp.divides_iff {op : BinaryOp} : op.divides = true ↔ op ∈ [.div, .rem] := by
  cases op <;> decide

theorem BinaryOp.isArithmetic_iff {op : BinaryOp} :
    op.isComparison = false ∧ op.isConnective = false ↔
      op ∈ [.add, .sub, .mul, .div, .rem] := by
  cases op <;> decide

theorem UnaryOp.rule_of_accepts {op : UnaryOp} {t : PrimType} (h : op.accepts t = true) :
    op.Rule t t := by
  cases op with
  | not =>
    obtain rfl := eq_of_beq h
    exact .not
  | neg => exact .neg (PrimType.isStackNative_iff.1 h)

theorem BinaryOp.rule_of_result? {op : BinaryOp} {t r : PrimType} (h : op.result? t = some r) :
    op.Rule t r := by
  rcases Constant.result?_cases h with ⟨hop, rfl⟩ | ⟨-, hop, rfl, rfl⟩ | ⟨hop, hop', ht, rfl⟩
  · rcases isComparison_iff.1 hop with hop | hop
    · exact .equality hop
    · refine .order hop ?_
      rintro rfl
      revert h
      cases op <;> simp_all [result?, isComparison, PrimType.isNumeric]
  · exact .connective (isConnective_iff.1 hop)
  · exact .arithmetic (isArithmetic_iff.1 ⟨hop, hop'⟩) (PrimType.isStackNative_iff.1 ht)

namespace Term

/-! ## Nodes -/

mutual

/-- A term and all terms below it. -/
def nodes : Term → List Term
  | constant c => [constant c]
  | symbol s => [symbol s]
  | unary op t a => unary op t a :: a.nodes
  | binary op t a b => binary op t a b :: (a.nodes ++ b.nodes)
  | application t f args => application t f args :: nodesAll args
  | conversion t a => conversion t a :: a.nodes

def nodesAll : List Term → List Term
  | [] => []
  | a :: rest => a.nodes ++ nodesAll rest

end

theorem mem_nodesAll {args : List Term} {n : Term} :
    n ∈ nodesAll args ↔ ∃ a ∈ args, n ∈ a.nodes := by
  induction args with
  | nil => simp [nodesAll]
  | cons a rest ih => simp [nodesAll, ih]

/-- Whether a node divides an integer by the constant zero, or takes the remainder. -/
def DividesByZero : Term → Prop
  | binary op _ a b =>
    op ∈ [.div, .rem] ∧ a.type.isIntegral = true ∧ b = constant (.zero a.type)
  | _ => False

/-- Whether a node has a value only under an interpretation. -/
def IsOpen : Term → Prop
  | symbol _ => True
  | application _ _ _ => True
  | n => n.DividesByZero

/-- What holds of the root of a term that was built. -/
def NormalNode : Term → Prop
  | constant _ => True
  | symbol _ => True
  | application _ _ _ => True
  | unary op t a => op.Rule a.type t ∧ a.isSymbolic = true ∧ ∀ t' b, a ≠ unary op t' b
  | binary op t a b =>
    b.type = a.type ∧ op.Rule a.type t ∧
      (op ∈ [.and, .or] → a.isSymbolic = true ∧ b.isSymbolic = true) ∧
      (a.isSymbolic = false → b.isSymbolic = false → (binary op t a b).DividesByZero)
  | conversion t a =>
    a.type ≠ t ∧ t.isNumeric = true ∧
      (a.type.isNumeric = true ∨ (a.type = .boolean ∧ t = .int)) ∧ a.isSymbolic = true

/-- Whether every node of a term is as the operations make it. -/
def Normal (t : Term) : Prop := ∀ n ∈ t.nodes, n.NormalNode

/-- Whether a term has neither symbols nor applications nor integral divisions by zero. -/
def Ground (t : Term) : Prop := ∀ n ∈ t.nodes, ¬ n.IsOpen

theorem normal_constant (c : Constant) : (constant c).Normal := by
  intro n hn
  cases List.mem_singleton.1 hn
  trivial

theorem normal_symbol (s : Symbol) : (symbol s).Normal := by
  intro n hn
  cases List.mem_singleton.1 hn
  trivial

theorem normal_unary {op : UnaryOp} {t : PrimType} {a : Term} :
    (unary op t a).Normal ↔ (unary op t a).NormalNode ∧ a.Normal := List.forall_mem_cons

theorem normal_binary {op : BinaryOp} {t : PrimType} {a b : Term} :
    (binary op t a b).Normal ↔ (binary op t a b).NormalNode ∧ a.Normal ∧ b.Normal := by
  unfold Normal
  rw [nodes, List.forall_mem_cons, List.forall_mem_append]

theorem normal_application {t : PrimType} {name : String} {args : List Term}
    (h : ∀ a ∈ args, a.Normal) : (application t name args).Normal := by
  refine List.forall_mem_cons.2 ⟨trivial, fun n hn => ?_⟩
  obtain ⟨a, ha, hn⟩ := mem_nodesAll.1 hn
  exact h a ha n hn

theorem normal_conversion {t : PrimType} {a : Term} :
    (conversion t a).Normal ↔ (conversion t a).NormalNode ∧ a.Normal := List.forall_mem_cons

/-! ## Building -/

variable {a b c : Term}

theorem normal_foldUnary {op : UnaryOp} (ha : a.Normal) (h : op.accepts a.type = true) :
    (foldUnary op a).Normal := by
  have hrule := UnaryOp.rule_of_accepts h
  cases a with
  | constant c =>
    simp only [foldUnary, Constant.fold?_eq (show op.accepts c.type = true from h)]
    exact normal_constant _
  | unary op' t b =>
    by_cases hop : op' = op
    · simp only [foldUnary, if_pos hop]
      exact (normal_unary.1 ha).2
    · simp only [foldUnary, if_neg hop]
      refine normal_unary.2 ⟨⟨hrule, rfl, fun t' b' heq => ?_⟩, ha⟩
      cases heq
      exact hop rfl
  | _ => exact normal_unary.2 ⟨⟨hrule, rfl, nofun⟩, ha⟩

theorem normal_applyUnary {op : Operator} (ha : a.Normal) (h : applyUnary op a = .ok b) :
    b.Normal := by
  cases op with
  | binary o => cases h
  | unary u =>
    unfold applyUnary at h
    dsimp only at h
    split at h
    · rename_i hu
      cases h
      exact normal_foldUnary ha hu
    · cases h

/-- A boolean constant settles a connective, so that what is left open has no such operand. -/
theorem isSymbolic_of_bool?_eq_none (ht : a.type = .boolean) (h : a.bool? = none) :
    a.isSymbolic = true := by
  cases a with
  | constant c =>
    cases c <;> cases ht
    cases h
  | _ => rfl

theorem normal_connective? {op : BinaryOp} (ha : a.Normal) (hb : b.Normal)
    (h : connective? op a b = some c) : c.Normal := by
  unfold connective? at h
  split at h
  · cases h
    split
    · exact normal_constant _
    · exact hb
  · split at h
    · cases h
      split
      · exact normal_constant _
      · exact ha
    · cases h

theorem symbolic_of_connective?_eq_none {op : BinaryOp} (ha : a.type = .boolean)
    (hb : b.type = .boolean) (h : connective? op a b = none) :
    a.isSymbolic = true ∧ b.isSymbolic = true := by
  unfold connective? at h
  split at h
  · cases h
  · rename_i hnone
    split at h
    · cases h
    · rename_i hnone'
      exact ⟨isSymbolic_of_bool?_eq_none ha hnone, isSymbolic_of_bool?_eq_none hb hnone'⟩

theorem eq_zero_of_toInt? {c : Constant} (h : c.toInt? = some 0) : c = .zero c.type := by
  cases c with
  | byte n => exact congrArg Constant.byte (Int8.toInt.inj (Option.some.inj h))
  | char n => exact congrArg Constant.char (UInt16.toNat.inj (by simpa [Constant.toInt?] using h))
  | short n => exact congrArg Constant.short (Int16.toInt.inj (Option.some.inj h))
  | int n => exact congrArg Constant.int (Int32.toInt.inj (Option.some.inj h))
  | long n => exact congrArg Constant.long (Int64.toInt.inj (Option.some.inj h))
  | _ => cases h

/-- Two constants of one type that do not fold are a division of integers by zero. -/
theorem dividesByZero_of_foldedPair? {op : BinaryOp} {t : PrimType} (htype : b.type = a.type)
    (hr : op.result? a.type = some t) (h : foldedPair? op a b = none)
    (ha : a.isSymbolic = false) (hb : b.isSymbolic = false) :
    (binary op t a b).DividesByZero := by
  obtain ⟨x, rfl⟩ := eq_constant_of_isSymbolic ha
  obtain ⟨y, rfl⟩ := eq_constant_of_isSymbolic hb
  have htype' : y.type = x.type := htype
  obtain ⟨hop, hzero⟩ := Constant.foldPair?_eq_none htype' hr h
  refine ⟨BinaryOp.divides_iff.1 hop, ?_, ?_⟩
  · change x.type.isIntegral = true
    rw [← htype']
    cases y <;> first | rfl | cases hzero
  · change constant y = constant (.zero x.type)
    rw [← htype', ← eq_zero_of_toInt? hzero]

theorem normal_foldBinary {op : BinaryOp} {t : PrimType} (ha : a.Normal) (hb : b.Normal)
    (htype : b.type = a.type) (hr : op.result? a.type = some t) :
    (foldBinary op t a b).Normal := by
  have hrule := BinaryOp.rule_of_result? hr
  unfold foldBinary
  split
  · exact normal_constant _
  · rename_i hfold
    have hclosed := dividesByZero_of_foldedPair? htype hr hfold
    split
    · rename_i hop
      cases hc : connective? op a b with
      | some c => exact normal_connective? ha hb hc
      | none =>
        have hboolean : a.type = .boolean := by
          rcases Constant.result?_cases hr with h | h | h
          · rcases eq_and_or_eq_or hop with rfl | rfl <;> cases h.1
          · exact h.2.2.1
          · cases hop.symm.trans h.2.1
        have hsymbolic := symbolic_of_connective?_eq_none hboolean (htype.trans hboolean) hc
        exact normal_binary.2 ⟨⟨htype, hrule, fun _ => hsymbolic, hclosed⟩, ha, hb⟩
    · rename_i hop
      have hopen : op ∈ [.and, .or] → a.isSymbolic = true ∧ b.isSymbolic = true := fun hmem =>
        absurd (BinaryOp.isConnective_iff.2 hmem) hop
      exact normal_binary.2 ⟨⟨htype, hrule, hopen, hclosed⟩, ha, hb⟩

theorem normal_applyBinary {op : Operator} (ha : a.Normal) (hb : b.Normal)
    (h : applyBinary op a b = .ok c) : c.Normal := by
  cases op with
  | unary u => cases h
  | binary o =>
    unfold applyBinary at h
    dsimp only at h
    split at h
    · rename_i htype
      split at h
      · rename_i t hr
        cases h
        exact normal_foldBinary ha hb htype hr
      · cases h
    · cases h

theorem normal_mkAllOnto {terms : List Term} (ha : a.Normal) (hterms : ∀ t ∈ terms, t.Normal)
    (h : mkAllOnto a terms = .ok c) : c.Normal := by
  induction terms generalizing a with
  | nil =>
    cases h
    exact ha
  | cons t rest ih =>
    obtain ⟨ht, hrest⟩ := List.forall_mem_cons.1 hterms
    unfold mkAllOnto at h
    split at h
    · rename_i b hb
      exact ih (normal_applyBinary ha ht hb) hrest h
    · cases h

theorem normal_convert {t : PrimType} (ha : a.Normal) (h : a.convert t = .ok b) : b.Normal := by
  unfold convert at h
  split at h
  · cases h
    exact ha
  · rename_i hne
    split at h
    · rename_i c
      cases hc : c.convert t with
      | error e =>
        rw [hc] at h
        cases h
      | ok d =>
        rw [hc] at h
        cases h
        exact normal_constant d
    · rename_i hconstant
      have hsymbolic : a.isSymbolic = true := by
        cases a with
        | constant c => exact absurd rfl (hconstant c)
        | _ => rfl
      split at h
      · rename_i hint
        cases h
        obtain ⟨hboolean, rfl⟩ := hint
        exact normal_conversion.2 ⟨⟨hne, rfl, .inr ⟨hboolean, rfl⟩, hsymbolic⟩, ha⟩
      · split at h
        · rename_i hnumeric
          cases h
          obtain ⟨hsource, htarget⟩ := Bool.and_eq_true_iff.1 hnumeric
          exact normal_conversion.2 ⟨⟨hne, htarget, .inl hsource, hsymbolic⟩, ha⟩
        · cases h

/-! ## Built terms -/

/-- The terms that the operations build from constants and symbols. -/
inductive Built : Term → Prop
  | constant (c : Constant) : Built (constant c)
  | symbol (s : Symbol) : Built (symbol s)
  | unary {o : Operator} {a b : Term} (ha : Built a) (h : applyUnary o a = .ok b) : Built b
  | binary {o : Operator} {a b c : Term} (ha : Built a) (hb : Built b)
      (h : applyBinary o a b = .ok c) : Built c
  | all {l : List Term} {c : Term} (hl : ∀ t ∈ l, Built t) (h : mkAll l = .ok c) : Built c
  | application (t : PrimType) (name : String) {args : List Term}
      (hargs : ∀ a ∈ args, Built a) : Built (application t name args)
  | convert {t : PrimType} {a b : Term} (ha : Built a) (h : a.convert t = .ok b) : Built b

theorem Built.normal {t : Term} (h : Built t) : t.Normal := by
  induction h with
  | constant c => exact normal_constant c
  | symbol s => exact normal_symbol s
  | unary _ h ha => exact normal_applyUnary ha h
  | binary _ _ h ha hb => exact normal_applyBinary ha hb h
  | all _ h hl => exact normal_mkAllOnto (normal_constant _) hl h
  | application t name _ hargs => exact normal_application hargs
  | convert _ h ha => exact normal_convert ha h

/-! ## Ground terms -/

/-- A normal term over nothing that needs an interpretation is a constant. -/
theorem exists_constant_of_ground : ∀ {t : Term}, t.Normal → t.Ground → ∃ c, t = constant c
  | constant c, _, _ => ⟨c, rfl⟩
  | symbol s, _, hground => absurd trivial (hground _ List.mem_cons_self)
  | application _ _ _, _, hground => absurd trivial (hground _ List.mem_cons_self)
  | unary _ _ a, hnormal, hground => by
    obtain ⟨⟨-, hsymbolic, -⟩, ha⟩ := normal_unary.1 hnormal
    obtain ⟨c, rfl⟩ := exists_constant_of_ground ha (List.forall_mem_cons.1 hground).2
    cases hsymbolic
  | binary _ _ a b, hnormal, hground => by
    obtain ⟨⟨-, -, -, hzero⟩, ha, hb⟩ := normal_binary.1 hnormal
    obtain ⟨hclosed, hbelow⟩ := List.forall_mem_cons.1 hground
    obtain ⟨hga, hgb⟩ := List.forall_mem_append.1 hbelow
    obtain ⟨c, rfl⟩ := exists_constant_of_ground ha hga
    obtain ⟨d, rfl⟩ := exists_constant_of_ground hb hgb
    exact absurd (hzero rfl rfl) hclosed
  | conversion _ a, hnormal, hground => by
    obtain ⟨⟨-, -, -, hsymbolic⟩, ha⟩ := normal_conversion.1 hnormal
    obtain ⟨c, rfl⟩ := exists_constant_of_ground ha (List.forall_mem_cons.1 hground).2
    cases hsymbolic

theorem isTrue_or_isFalse_of_constant {c : Constant} (h : c.type = .boolean) :
    (constant c).isTrue = true ∨ (constant c).isFalse = true := by
  cases c with
  | boolean v => cases v <;> simp [isTrue, isFalse, bool?, constant?, Constant.toBool?]
  | _ => cases h

/-- Every term that is built is normal at each of its nodes.  Without symbols, applications and
integral divisions by zero it is a constant, and if it is boolean it is literally true or
false. -/
theorem built_terms_are_normal {t : Term} (h : Built t) :
    (∀ n ∈ t.nodes, n.NormalNode) ∧
      (t.Ground → ∃ c, t = constant c) ∧
        (t.Ground → t.type = .boolean → t.isTrue = true ∨ t.isFalse = true) := by
  have hconstant : t.Ground → ∃ c, t = constant c := exists_constant_of_ground h.normal
  refine ⟨h.normal, hconstant, fun hground hboolean => ?_⟩
  obtain ⟨c, rfl⟩ := hconstant hground
  exact isTrue_or_isFalse_of_constant hboolean

/-- A double negation in front of a comparison with a remainder by zero cancels, and the remainder
stays; a guard over constants comes to a truth value. -/
theorem guards_over_remainders_are_normal :
    let x : Term := .symbol ⟨0, .short, .root "x"⟩
    let t : Term := .binary .lt .boolean (.binary .rem .int (.ofInt 7) (.ofInt 0))
      (.conversion .int x)
    let guard : Term := .ofBool false
    Built t ∧ (∀ n ∈ t.nodes, n.NormalNode) ∧
      Built guard ∧ guard.Ground ∧ (guard.isTrue = true ∨ guard.isFalse = true) := by
  intro x t guard
  have hwide : Built (.conversion .int x) := .convert (a := x) (t := .int) (.symbol _) rfl
  have hrest : Built (.binary .rem .int (.ofInt 7) (.ofInt 0)) :=
    .binary (o := .binary .rem) (.constant (.int 7)) (.constant (.int 0)) rfl
  have hless : Built t := .binary (o := .binary .lt) hrest hwide rfl
  have hnot : Built (.unary .not .boolean t) := .unary (o := .unary .not) hless rfl
  have ht : Built t := .unary (o := .unary .not) hnot rfl
  have hfalse : Built guard := .binary (o := .binary .lt) (.constant (.long 3))
    (.constant (.long (-3))) rfl
  have hguard : Built guard := .all (l := [.ofBool true, guard])
    (List.forall_mem_cons.2 ⟨.constant _, List.forall_mem_singleton.2 hfalse⟩) rfl
  have hground : guard.Ground := List.forall_mem_singleton.2 id
  exact ⟨ht, (built_terms_are_normal ht).1, hguard, hground,
    (built_terms_are_normal hguard).2.2 hground rfl⟩

end Term

end SymbolicMachine
