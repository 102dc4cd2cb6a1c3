import SymbolicMachine.Terms.Build
/-!
# Machine arithmetic

The values of the operators and conversions, said over exact integers.  An integer of any width
stands for an `Int`; an arithmetic operator is exact, and its result is cut down to the type of
the operands by `Constant.wrap`, which takes the representative of a residue class.  Division
truncates toward zero, and what it gives for a zero divisor is left open as an argument.
Floating-point numbers have the arithmetic of their formats.

Folding computes in 64 bits and truncates afterwards; the second part shows that it agrees.
-/
namespace SymbolicMachine

def BinaryOp.onInts? (op : BinaryOp) (x y : Int) : Option Int :=
  match op with
  | .add => some (x + y)
  | .sub => some (x - y)
  | .mul => some (x * y)
  | .div => if y = 0 then none else some (x.tdiv y)
  | .rem => if y = 0 then none else some (x.tmod y)
  | _ => none

def BinaryOp.compares (op : BinaryOp) (x y : Int) : Bool :=
  match op with
  | .eq => decide (x = y)
  | .ne => decide (x ≠ y)
  | .lt => decide (x < y)
  | .le => decide (x ≤ y)
  | .gt => decide (y < x)
  | .ge => decide (y ≤ x)
  | _ => false

def BinaryOp.onBools (op : BinaryOp) (x y : Bool) : Bool :=
  match op with
  | .and => x && y
  | .or => x || y
  | .eq => decide (x = y)
  | .ne => decide (x ≠ y)
  | _ => false

/-- Whether an operator has no value on integers when the right operand is zero. -/
def BinaryOp.divides : BinaryOp → Bool
  | .div | .rem => true
  | _ => false

namespace Binary

variable {f : FloatFormat}

theorem two_pow_width (f : FloatFormat) :
    2 ^ f.width = 2 * 2 ^ (f.exponentBits + f.fractionBits) := by
  rw [FloatFormat.width, Nat.pow_succ, Nat.mul_comm]

theorem isNegative_eq (x : Binary f) :
    x.isNegative = decide (2 ^ (f.exponentBits + f.fractionBits) ≤ x.bits.toNat) := by
  rw [isNegative, BitVec.msb_eq_decide]
  rfl

theorem magnitude_lt (x : Binary f) : x.magnitude < 2 ^ (f.exponentBits + f.fractionBits) :=
  Nat.mod_lt _ (Nat.two_pow_pos _)

theorem toNat_ofMagnitude (negative : Bool) {m : Nat}
    (hm : m < 2 ^ (f.exponentBits + f.fractionBits)) :
    (ofMagnitude f negative m).bits.toNat =
      (if negative then 2 ^ (f.exponentBits + f.fractionBits) else 0) + m := by
  have hw := two_pow_width f
  unfold ofMagnitude
  rw [BitVec.toNat_ofNat]
  apply Nat.mod_eq_of_lt
  split <;> omega

@[simp] theorem isNegative_ofMagnitude (negative : Bool) {m : Nat}
    (hm : m < 2 ^ (f.exponentBits + f.fractionBits)) :
    (ofMagnitude f negative m).isNegative = negative := by
  rw [isNegative_eq, toNat_ofMagnitude negative hm]
  cases negative
  · exact decide_eq_false (by simpa using hm)
  · exact decide_eq_true (Nat.le_add_right _ _)

@[simp] theorem magnitude_ofMagnitude (negative : Bool) {m : Nat}
    (hm : m < 2 ^ (f.exponentBits + f.fractionBits)) :
    (ofMagnitude f negative m).magnitude = m := by
  rw [magnitude, toNat_ofMagnitude negative hm]
  cases negative
  · simpa using Nat.mod_eq_of_lt hm
  · simpa using Nat.mod_eq_of_lt hm

/-- A pattern is its sign bit and its magnitude field. -/
theorem ofMagnitude_eq (x : Binary f) : ofMagnitude f x.isNegative x.magnitude = x := by
  obtain ⟨bits⟩ := x
  have hw := two_pow_width f
  have hlt := bits.isLt
  apply congrArg Binary.mk
  apply BitVec.eq_of_toNat_eq
  change (ofMagnitude f _ _).bits.toNat = _
  rw [toNat_ofMagnitude _ (magnitude_lt _), isNegative_eq, magnitude]
  dsimp only
  by_cases h : 2 ^ (f.exponentBits + f.fractionBits) ≤ bits.toNat
  · rw [if_pos (decide_eq_true h), Nat.mod_eq_sub_mod h, Nat.mod_eq_of_lt (by omega)]
    omega
  · rw [if_neg (by simpa using h), Nat.mod_eq_of_lt (by omega)]
    omega

/-- Flipping the sign bit twice gives the pattern back. -/
theorem neg_neg (x : Binary f) : x.neg.neg = x := by
  unfold neg
  rw [isNegative_ofMagnitude _ x.magnitude_lt, magnitude_ofMagnitude _ x.magnitude_lt,
    Bool.not_not, ofMagnitude_eq]

end Binary

namespace Constant

def toInt? : Constant → Option Int
  | byte n => some n.toInt
  | char n => some n.toNat
  | short n => some n.toInt
  | int n => some n.toInt
  | long n => some n.toInt
  | _ => none

/-- The constant of an integral type that is congruent to an integer modulo the width. -/
def wrap (t : PrimType) (n : Int) : Constant :=
  match t with
  | .byte => byte (.ofInt n)
  | .char => char (.ofInt n)
  | .short => short (.ofInt n)
  | .long => long (.ofInt n)
  | _ => int (.ofInt n)

def unaryValue (op : UnaryOp) (a : Constant) : Constant :=
  match op, a with
  | .not, boolean x => boolean !x
  | .neg, float x => float x.neg
  | .neg, double x => double x.neg
  | .neg, a =>
    match a.toInt? with
    | some x => wrap a.type (-x)
    | none => a
  | .not, a => a

/-- The value of a binary operator, given what a division by zero gives. -/
def binaryValue (byZero : BinaryOp → Constant → Constant) (op : BinaryOp) (a b : Constant) :
    Constant :=
  match a, b with
  | boolean x, boolean y => boolean (op.onBools x y)
  | _, _ =>
    match a.toInt?, b.toInt? with
    | some x, some y =>
      if op.isComparison then boolean (op.compares x y)
      else
        match op.onInts? x y with
        | some n => wrap a.type n
        | none => byZero op a
    | _, _ => (foldPair? op a b).getD a

/-- The value of a conversion.  Integers are cut down to the low bits of the target. -/
def cast (a : Constant) (target : PrimType) : Constant :=
  if a.type = target then a
  else
    match a.toInt? with
    | some x => if target.isIntegral then wrap target x else (a.convert target).toOption.getD a
    | none => (a.convert target).toOption.getD a

@[simp] theorem cast_type_self (a : Constant) : a.cast a.type = a := if_pos rfl

/-! ## Integers of 64 bits -/

theorem toInt_toInt64_char (n : UInt16) : n.toUInt64.toInt64.toInt = n.toNat := by
  have h := n.toNat_lt
  change n.toUInt64.toBitVec.toInt = n.toNat
  rw [BitVec.toInt_eq_toNat_cond]
  simp only [UInt64.toNat_toBitVec, UInt16.toNat_toUInt64]
  omega

theorem toInt?_eq (c : Constant) : c.toInt? = c.toInt64?.map Int64.toInt := by
  cases c with
  | byte n => exact congrArg some n.toInt_toInt64.symm
  | char n => exact congrArg some (toInt_toInt64_char n).symm
  | short n => exact congrArg some n.toInt_toInt64.symm
  | int n => exact congrArg some n.toInt_toInt64.symm
  | _ => rfl

theorem isIntegral_of_toInt64? {c : Constant} {n : Int64} (h : c.toInt64? = some n) :
    c.type.isIntegral = true := by
  cases c <;> first | rfl | cases h

theorem toChar_toInt64 (n : Int64) : n.toUInt64.toUInt16 = UInt16.ofInt n.toInt := by
  apply UInt16.toNat.inj
  have h : (n.toUInt64.toNat : Int) = n.toInt % (2 ^ 64 : Nat) := by
    change (n.toBitVec.toNat : Int) = n.toBitVec.toInt % (2 ^ 64 : Nat)
    rw [BitVec.toInt_eq_toNat_bmod, Int.bmod_emod]
    have := n.toBitVec.isLt
    omega
  rw [UInt64.toNat_toUInt16, UInt16.ofInt, UInt16.toNat_ofNat']
  omega

/-- Cutting a 64-bit integer down takes the representative of its residue class. -/
theorem ofInt64_eq_wrap {t : PrimType} (h : t.isIntegral = true) (n : Int64) :
    ofInt64 t n = wrap t n.toInt := by
  cases t with
  | byte => rfl
  | char => exact congrArg char (toChar_toInt64 n)
  | short => rfl
  | int => rfl
  | long => exact congrArg long n.ofInt_toInt.symm
  | _ => cases h

/-- An `int` result only depends on the residue class that 64-bit arithmetic keeps. -/
theorem toInt32_of_bmod {n : Int64} {x : Int} (h : n.toInt = x.bmod Int64.size) :
    n.toInt32 = Int32.ofInt x := by
  apply Int32.toInt.inj
  rw [Int64.toInt_toInt32, h, Int32.toInt_ofInt]
  exact Int.bmod_bmod_of_dvd (by decide)

theorem eq_ofInt_of_bmod {n : Int64} {x : Int} (h : n.toInt = x.bmod Int64.size) :
    n = Int64.ofInt x := by
  apply Int64.toInt.inj
  exact h.trans Int64.toInt_ofInt.symm

theorem eq_zero_iff_toInt (n : Int64) : n = 0 ↔ n.toInt = 0 := by
  rw [← Int64.toInt_inj]
  rfl

/-- Arithmetic in 64 bits keeps the residue class of the exact result, and has no result on the
same operands. -/
theorem foldInt64s?_eq (op : BinaryOp) (a b : Int64) :
    match foldInt64s? op a b with
    | some n => ∃ x, op.onInts? a.toInt b.toInt = some x ∧ n.toInt = x.bmod Int64.size
    | none => op.onInts? a.toInt b.toInt = none := by
  cases op with
  | add => exact ⟨_, rfl, Int64.toInt_add a b⟩
  | sub => exact ⟨_, rfl, Int64.toInt_sub a b⟩
  | mul => exact ⟨_, rfl, Int64.toInt_mul a b⟩
  | div =>
    by_cases h : b = 0
    · simp [foldInt64s?, BinaryOp.onInts?, h]
    · have hb := mt (eq_zero_iff_toInt b).2 h
      simp [foldInt64s?, BinaryOp.onInts?, h, hb]
  | rem =>
    by_cases h : b = 0
    · simp [foldInt64s?, BinaryOp.onInts?, h]
    · have hb := mt (eq_zero_iff_toInt b).2 h
      have hm : a.toInt.tmod b.toInt = (a.toInt.tmod b.toInt).bmod Int64.size := by
        rw [← Int64.toInt_mod]
        exact (Int64.toInt_bmod_size _).symm
      simpa [foldInt64s?, BinaryOp.onInts?, h, hb] using hm
  | _ => rfl

theorem holds_eq_compares {op : BinaryOp} (h : op.isComparison = true) (x y : Int) :
    op.holds (compare x y) = op.compares x y := by
  rcases Int.lt_trichotomy x y with hlt | rfl | hgt
  · have hne : x ≠ y := by omega
    have hle : x ≤ y := by omega
    have hge : ¬ y ≤ x := by omega
    rw [Int.compare_eq_lt.2 hlt]
    cases op <;> simp_all [BinaryOp.holds, BinaryOp.compares, BinaryOp.isComparison]
  · rw [Std.compare_self]
    cases op <;> simp_all [BinaryOp.holds, BinaryOp.compares, BinaryOp.isComparison]
  · have hne : x ≠ y := by omega
    have hle : y ≤ x := by omega
    have hge : ¬ x ≤ y := by omega
    rw [Int.compare_eq_gt.2 hgt]
    cases op <;> simp_all [BinaryOp.holds, BinaryOp.compares, BinaryOp.isComparison]

/-! ## Folding -/

/-- The three groups of operators, each with the operands it takes and its result. -/
theorem result?_cases {op : BinaryOp} {t r : PrimType} (h : op.result? t = some r) :
    (op.isComparison = true ∧ r = .boolean) ∨
      (op.isComparison = false ∧ op.isConnective = true ∧ t = .boolean ∧ r = .boolean) ∨
      (op.isComparison = false ∧ op.isConnective = false ∧ t.isStackNative = true ∧ r = t) := by
  unfold BinaryOp.result? at h
  split at h
  · rename_i hc
    split at h <;> simp_all
  · rename_i hc
    split at h
    · rename_i hl
      split at h <;> simp_all
    · rename_i hl
      split at h <;> simp_all

/-- Two constants of one type are booleans, integers or floating-point numbers. -/
theorem pair_cases {a b : Constant} (hb : b.type = a.type) :
    (∃ x y, a = boolean x ∧ b = boolean y) ∨
      (∃ x y, a.toInt64? = some x ∧ b.toInt64? = some y) ∨
      (a.type = .float ∨ a.type = .double) := by
  cases a <;> cases b <;> cases hb <;> simp [toInt64?, type]

theorem foldPair?_of_toInt64? {a b : Constant} {x y : Int64} (ha : a.toInt64? = some x)
    (hb : b.toInt64? = some y) (op : BinaryOp) :
    foldPair? op a b = foldIntegral? op a.type x y := by
  cases a <;> cases ha <;> cases b <;> cases hb <;> rfl

theorem binaryValue_of_toInt64? {a b : Constant} {x y : Int64} (ha : a.toInt64? = some x)
    (hb : b.toInt64? = some y) (byZero : BinaryOp → Constant → Constant) (op : BinaryOp) :
    binaryValue byZero op a b =
      if op.isComparison then boolean (op.compares x.toInt y.toInt)
      else ((op.onInts? x.toInt y.toInt).map (wrap a.type)).getD (byZero op a) := by
  have hx := toInt?_eq a
  have hy := toInt?_eq b
  rw [ha] at hx
  rw [hb] at hy
  unfold binaryValue
  split
  · cases ha
  · simp only [hx, hy, Option.map_some]
    cases op.onInts? x.toInt y.toInt <;> rfl

theorem binaryValue_of_floating {a : Constant} (ha : a.type = .float ∨ a.type = .double)
    (byZero : BinaryOp → Constant → Constant) (op : BinaryOp) (b : Constant) :
    binaryValue byZero op a b = (foldPair? op a b).getD a := by
  cases a <;> first | rfl | (rcases ha with ha | ha <;> cases ha)

theorem foldBools?_eq {op : BinaryOp} {r : PrimType} (hr : op.result? .boolean = some r)
    (x y : Bool) : foldBools? op x y = some (op.onBools x y) := by
  cases op with
  | eq => cases x <;> cases y <;> rfl
  | ne => cases x <;> cases y <;> rfl
  | and => rfl
  | or => rfl
  | _ => cases hr

theorem foldFloating?_isSome {op : BinaryOp} {t r : PrimType} (ht : t = .float ∨ t = .double)
    (hr : op.result? t = some r) (x y : Binary .double) :
    (foldFloating? op t x y).isSome = true := by
  unfold foldFloating?
  split
  · rfl
  · rename_i hc
    have hconnective : op.isConnective = false := by
      rcases result?_cases hr with h | h | h
      · exact absurd h.1 hc
      · rcases ht with rfl | rfl <;> cases h.2.2.1
      · exact h.2.1
    rw [Option.isSome_map]
    cases op <;> simp_all [foldReals?, BinaryOp.isConnective, BinaryOp.isComparison]

theorem foldPair?_isSome_of_floating {op : BinaryOp} {a b : Constant} {r : PrimType}
    (hb : b.type = a.type) (ha : a.type = .float ∨ a.type = .double)
    (hr : op.result? a.type = some r) : (foldPair? op a b).isSome = true := by
  cases a <;> cases b <;> first
    | exact foldFloating?_isSome ha hr _ _
    | (rcases ha with ha | ha <;> cases ha <;> done)
    | cases hb

/-- Folding two integers gives their value, and gives nothing just where that is open. -/
theorem foldIntegral?_eq {op : BinaryOp} {t r : PrimType} (ht : t.isIntegral = true)
    (hr : op.result? t = some r) (x y : Int64) :
    foldIntegral? op t x y =
      if op.isComparison then some (boolean (op.compares x.toInt y.toInt))
      else (op.onInts? x.toInt y.toInt).map (wrap t) := by
  unfold foldIntegral?
  split
  · rename_i hc
    rw [holds_eq_compares hc]
  · rename_i hc
    have hstack : t = .int ∨ t = .long := by
      rcases result?_cases hr with h | h | h
      · exact absurd h.1 hc
      · rw [h.2.2.1] at ht
        cases ht
      · have hnative := h.2.2.1
        cases t <;> simp_all [PrimType.isStackNative, PrimType.isIntegral]
    have hfold := foldInt64s?_eq op x y
    split at hfold
    · rename_i n hn
      obtain ⟨m, hm, hmod⟩ := hfold
      rw [hn, hm]
      rcases hstack with rfl | rfl
      · exact congrArg (fun n => some (int n)) (toInt32_of_bmod hmod)
      · exact congrArg (fun n => some (long n)) (eq_ofInt_of_bmod hmod)
    · rename_i hn
      rw [hn, hfold]
      rfl

theorem onInts?_eq_none {op : BinaryOp} {t r : PrimType} (ht : t.isIntegral = true)
    (hr : op.result? t = some r) (hc : op.isComparison = false) {x y : Int}
    (h : op.onInts? x y = none) : op.divides = true ∧ y = 0 := by
  have hconnective : op.isConnective = false := by
    rcases result?_cases hr with h | h | h
    · rw [h.1] at hc
      cases hc
    · rw [h.2.2.1] at ht
      cases ht
    · exact h.2.1
  cases op <;> simp_all [BinaryOp.onInts?, BinaryOp.divides, BinaryOp.isConnective,
    BinaryOp.isComparison]

/-- Where folding gives a constant, it is the value of the operator. -/
theorem binaryValue_of_foldPair? {op : BinaryOp} {a b c : Constant} {r : PrimType}
    (hb : b.type = a.type) (hr : op.result? a.type = some r) (h : foldPair? op a b = some c)
    (byZero : BinaryOp → Constant → Constant) : binaryValue byZero op a b = c := by
  rcases pair_cases hb with ⟨x, y, rfl, rfl⟩ | ⟨x, y, hx, hy⟩ | ha
  · change (foldBools? op x y).map boolean = some c at h
    rw [foldBools?_eq hr] at h
    exact Option.some.inj h
  · rw [foldPair?_of_toInt64? hx hy, foldIntegral?_eq (isIntegral_of_toInt64? hx) hr] at h
    rw [binaryValue_of_toInt64? hx hy]
    split at h
    · rename_i hc
      rw [if_pos hc]
      exact Option.some.inj h
    · rename_i hc
      rw [if_neg hc, h]
      rfl
  · rw [binaryValue_of_floating ha, h]
    rfl

/-- Folding gives nothing only for a division of integers by zero. -/
theorem foldPair?_eq_none {op : BinaryOp} {a b : Constant} {r : PrimType} (hb : b.type = a.type)
    (hr : op.result? a.type = some r) (h : foldPair? op a b = none) :
    op.divides = true ∧ b.toInt? = some 0 := by
  rcases pair_cases hb with ⟨x, y, rfl, rfl⟩ | ⟨x, y, hx, hy⟩ | ha
  · change (foldBools? op x y).map boolean = none at h
    rw [foldBools?_eq hr] at h
    cases h
  · have ht := isIntegral_of_toInt64? hx
    rw [foldPair?_of_toInt64? hx hy, foldIntegral?_eq ht hr] at h
    split at h
    · cases h
    · rename_i hc
      obtain ⟨hop, hzero⟩ :=
        onInts?_eq_none ht hr (Bool.eq_false_iff.2 hc) (Option.map_eq_none_iff.1 h)
      refine ⟨hop, ?_⟩
      rw [toInt?_eq, hy, ← hzero]
      rfl
  · have hsome := foldPair?_isSome_of_floating hb ha hr
    rw [h] at hsome
    cases hsome

/-! ## Types and conversions -/

theorem type_wrap {t : PrimType} (ht : t.isIntegral = true) (n : Int) : (wrap t n).type = t := by
  cases t <;> first | rfl | cases ht

theorem type_foldPair? {op : BinaryOp} {a b c : Constant} {r : PrimType} (hb : b.type = a.type)
    (ha : a.type = .float ∨ a.type = .double) (hr : op.result? a.type = some r)
    (h : foldPair? op a b = some c) : c.type = r := by
  have hfloating : ∀ x y, foldFloating? op a.type x y = some c → c.type = r := by
    intro x y hxy
    unfold foldFloating? at hxy
    rcases result?_cases hr with hop | hop | hop
    · rw [if_pos hop.1] at hxy
      cases hxy
      exact hop.2.symm
    · rcases ha with ha | ha <;> rw [ha] at hop <;> cases hop.2.2.1
    · rw [if_neg (by simp [hop.1])] at hxy
      obtain ⟨z, -, rfl⟩ := Option.map_eq_some_iff.1 hxy
      rw [hop.2.2.2]
      rcases ha with ha | ha <;> rw [ha] <;> rfl
  cases a <;> cases b <;> first
    | (rcases ha with ha | ha <;> cases ha <;> done)
    | exact hfloating _ _ h
    | cases hb

/-- The value of an operator has the type of its result. -/
theorem type_binaryValue {byZero : BinaryOp → Constant → Constant}
    (hz : ∀ op a, (byZero op a).type = a.type) {op : BinaryOp} {a b : Constant} {r : PrimType}
    (hb : b.type = a.type) (hr : op.result? a.type = some r) :
    (binaryValue byZero op a b).type = r := by
  rcases pair_cases hb with ⟨x, y, rfl, rfl⟩ | ⟨x, y, hx, hy⟩ | ha
  · rcases result?_cases hr with h | h | h
    · exact h.2.symm
    · exact h.2.2.2.symm
    · cases h.2.2.1
  · rw [binaryValue_of_toInt64? hx hy]
    have ht := isIntegral_of_toInt64? hx
    rcases result?_cases hr with h | h | h
    · rw [if_pos h.1, h.2]
      rfl
    · rw [h.2.2.1] at ht
      cases ht
    · rw [if_neg (by simp [h.1]), h.2.2.2]
      cases op.onInts? x.toInt y.toInt with
      | none => exact hz op a
      | some n => exact type_wrap ht n
  · obtain ⟨c, hc⟩ := Option.isSome_iff_exists.1 (foldPair?_isSome_of_floating hb ha hr)
    rw [binaryValue_of_floating ha, hc]
    exact type_foldPair? hb ha hr hc

@[simp] theorem unaryValue_neg_int (n : Int32) : unaryValue .neg (int n) = int (-n) :=
  congrArg int (by rw [Int32.ofInt_neg, Int32.ofInt_toInt])

@[simp] theorem unaryValue_neg_long (n : Int64) : unaryValue .neg (long n) = long (-n) :=
  congrArg long (by rw [Int64.ofInt_neg, Int64.ofInt_toInt])

theorem fold?_eq {op : UnaryOp} {a : Constant} (h : op.accepts a.type = true) :
    fold? op a = some (unaryValue op a) := by
  cases op with
  | not =>
    cases a with
    | boolean x => rfl
    | _ => cases h
  | neg =>
    cases a with
    | int n => rw [unaryValue_neg_int, fold?]
    | long n => rw [unaryValue_neg_long, fold?]
    | float x => rfl
    | double x => rfl
    | _ => cases h

@[simp] theorem type_unaryValue (op : UnaryOp) (a : Constant) :
    (unaryValue op a).type = a.type := by
  cases op <;> cases a <;> rfl

/-- Every unary operator is its own inverse. -/
theorem unaryValue_unaryValue {op : UnaryOp} {a : Constant} (h : op.accepts a.type = true) :
    unaryValue op (unaryValue op a) = a := by
  cases op with
  | not =>
    cases a with
    | boolean x => exact congrArg boolean (Bool.not_not x)
    | _ => cases h
  | neg =>
    cases a with
    | int n => rw [unaryValue_neg_int, unaryValue_neg_int, Int32.neg_neg]
    | long n => rw [unaryValue_neg_long, unaryValue_neg_long, Int64.neg_neg]
    | float x => exact congrArg float x.neg_neg
    | double x => exact congrArg double x.neg_neg
    | _ => cases h

theorem convert_of_toInt64? {a : Constant} {n : Int64} (ha : a.toInt64? = some n)
    {t : PrimType} (hne : a.type ≠ t) (ht : t.isIntegral = true) :
    a.convert t = .ok (ofInt64 t n) := by
  unfold convert
  rw [if_neg hne]
  split
  · cases ha
  · rw [if_neg (by rintro rfl; cases ht)]
    simp only [ha]

/-- Where a constant converts, the value of the conversion is what it converts to. -/
theorem cast_of_convert {a d : Constant} {t : PrimType} (h : a.convert t = .ok d) :
    a.cast t = d := by
  unfold cast
  split
  · rename_i ht
    unfold convert at h
    rw [if_pos ht] at h
    exact Except.ok.inj h
  · rename_i hne
    cases hn : a.toInt64? with
    | none =>
      rw [toInt?_eq, hn]
      simp only [Option.map_none, h, Except.toOption, Option.getD_some]
    | some n =>
      rw [toInt?_eq, hn]
      simp only [Option.map_some]
      split
      · rename_i ht
        rw [convert_of_toInt64? hn hne ht] at h
        rw [← ofInt64_eq_wrap ht]
        exact Except.ok.inj h
      · simp only [h, Except.toOption, Option.getD_some]

end Constant

end SymbolicMachine
