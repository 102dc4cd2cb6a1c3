import Mathlib.Logic.Function.Basic
import SymbolicMachine.Proofs.Arrays.Guards
import SymbolicMachine.Proofs.Arrays.Typed
import SymbolicMachine.Proofs.Terms.Substitution
/-!
# Arrays as maps

Under an interpretation an array is a map from numbers to the values written last at them.  A write
updates the map at the number of its index, and a read gives what the map has there.  That a write
takes out the record of an index that looks the same changes nothing for other numbers, since terms
that look the same have the same value: symbols with the same number are the same unknown, whatever
origins they carry.

If the index, the length and all indices of the records are constants, then so are all guards.
One outcome is left then, and its guard is literally true.
-/
namespace SymbolicMachine

/-! ## Terms that look the same -/

section Same

variable {I : Interpretation} {known : Symbol → Prop}

mutual

/-- Terms that look the same have the same value, although their symbols may have different
origins. -/
theorem Term.eval_eq_of_same (hI : I.ByNumber)
    (htypes : ∀ x y, known x → known y → x.id = y.id → x.type = y.type) : ∀ {a b : Term},
    (∀ x ∈ a.occurrences, known x) → (∀ x ∈ b.occurrences, known x) → Term.same a b = true →
      a.eval I = b.eval I
  | .constant c, .constant d, _, _, hsame => by
    simp only [Term.same, beq_iff_eq] at hsame
    rw [hsame]
  | .symbol x, .symbol y, ha, hb, hsame => by
    simp only [Term.same, Symbol.beq_eq, beq_iff_eq] at hsame
    have hx := ha x List.mem_cons_self
    have hy := hb y List.mem_cons_self
    exact hI x y hsame (htypes x y hx hy hsame)
  | .unary op s a, .unary op' t b, ha, hb, hsame => by
    simp only [Term.same, Bool.and_eq_true, beq_iff_eq] at hsame
    obtain ⟨⟨rfl, rfl⟩, hsame⟩ := hsame
    rw [Term.eval, Term.eval, Term.eval_eq_of_same hI htypes (a := a) (b := b) ha hb hsame]
  | .binary op s a a', .binary op' t b b', ha, hb, hsame => by
    simp only [Term.same, Bool.and_eq_true, beq_iff_eq] at hsame
    obtain ⟨⟨⟨rfl, rfl⟩, hleft⟩, hright⟩ := hsame
    simp only [Term.occurrences, List.forall_mem_append] at ha hb
    rw [Term.eval, Term.eval, Term.eval_eq_of_same hI htypes ha.1 hb.1 hleft,
      Term.eval_eq_of_same hI htypes ha.2 hb.2 hright]
  | .application s f args, .application t g args', ha, hb, hsame => by
    simp only [Term.same, Bool.and_eq_true, beq_iff_eq] at hsame
    obtain ⟨⟨rfl, rfl⟩, hsame⟩ := hsame
    rw [Term.eval, Term.eval, Term.evalAll_eq_of_sameAll hI htypes ha hb hsame]
  | .conversion s a, .conversion t b, ha, hb, hsame => by
    simp only [Term.same, Bool.and_eq_true, beq_iff_eq] at hsame
    obtain ⟨⟨rfl, -⟩, hsame⟩ := hsame
    rw [Term.eval, Term.eval, Term.eval_eq_of_same hI htypes (a := a) (b := b) ha hb hsame]

theorem Term.evalAll_eq_of_sameAll (hI : I.ByNumber)
    (htypes : ∀ x y, known x → known y → x.id = y.id → x.type = y.type) : ∀ {as bs : List Term},
    (∀ x ∈ Term.occurrencesAll as, known x) → (∀ x ∈ Term.occurrencesAll bs, known x) →
      Term.sameAll as bs = true → Term.evalAll I as = Term.evalAll I bs
  | [], [], _, _, _ => rfl
  | a :: as, b :: bs, ha, hb, hsame => by
    simp only [Term.sameAll, Bool.and_eq_true] at hsame
    simp only [Term.occurrencesAll, List.forall_mem_append] at ha hb
    rw [Term.evalAll, Term.evalAll, Term.eval_eq_of_same hI htypes ha.1 hb.1 hsame.1,
      Term.evalAll_eq_of_sameAll hI htypes ha.2 hb.2 hsame.2]

end

theorem Term.IsIndex.isInt {t : Term} (h : t.IsIndex known) : t.IsInt := ⟨h.wellTyped, h.type_eq⟩

theorem Term.number_eq_of_same (hI : I.ByNumber)
    (htypes : ∀ x y, known x → known y → x.id = y.id → x.type = y.type) {a b : Term}
    (ha : a.IsIndex known) (hb : b.IsIndex known) (hsame : (a == b) = true) :
    a.number I = b.number I := by
  unfold number
  rw [Term.eval_eq_of_same hI htypes ha.known hb.known hsame]

end Same

/-! ## Constant guards -/

namespace Term

variable {a b c : Term} {t : PrimType}

/-- An operator that has a value on all constants makes a constant of two. -/
theorem isSymbolic_applyBinary {op : BinaryOp} (hop : op.divides = false)
    (ha : a.isSymbolic = false) (hb : b.isSymbolic = false)
    (h : applyBinary (.binary op) a b = .ok c) : c.isSymbolic = false := by
  obtain ⟨v, rfl⟩ := eq_constant_of_isSymbolic ha
  obtain ⟨w, rfl⟩ := eq_constant_of_isSymbolic hb
  have hvalue : ¬(op.divides = true ∧ w.toInt? = some 0) :=
    fun h => Bool.false_ne_true (hop.symm.trans h.1)
  obtain ⟨u, rfl⟩ := Expression.applyBinary_constant hvalue h
  rfl

theorem isSymbolic_mkNot (ha : a.isSymbolic = false) (h : mkNot a = .ok b) :
    b.isSymbolic = false := by
  obtain ⟨v, rfl⟩ := eq_constant_of_isSymbolic ha
  obtain ⟨u, rfl⟩ := Expression.applyUnary_constant h
  rfl

theorem isSymbolic_mkAllOnto {terms : List Term} (ha : a.isSymbolic = false)
    (hterms : ∀ b ∈ terms, b.isSymbolic = false) (h : mkAllOnto a terms = .ok c) :
    c.isSymbolic = false := by
  induction terms generalizing a with
  | nil =>
    cases h
    exact ha
  | cons b rest ih =>
    unfold mkAllOnto at h
    split at h
    · rename_i next hnext
      obtain ⟨hb, hrest⟩ := List.forall_mem_cons.1 hterms
      exact ih (isSymbolic_applyBinary rfl ha hb hnext) hrest h
    · cases h

/-- A constant condition that is not literally false is literally true. -/
theorem eq_ofBool_true (hconstant : a.isSymbolic = false) (htype : a.type = .boolean)
    (hnot : a.isFalse = false) : a = ofBool true := by
  obtain ⟨v, rfl⟩ := eq_constant_of_isSymbolic hconstant
  cases v with
  | boolean b =>
    cases b with
    | true => rfl
    | false => cases hnot
  | _ => cases htype

end Term

theorem ExactlyOne.eq_singleton {α : Type} {p : α → Prop} {l : List α} (h : ExactlyOne p l)
    (hall : ∀ a ∈ l, p a) : ∃ a, l = [a] := by
  cases h with
  | here _ hnot =>
    rename_i a l _
    cases l with
    | nil => exact ⟨a, rfl⟩
    | cons b _ =>
      have hb := hall b (List.mem_cons_of_mem _ List.mem_cons_self)
      exact absurd hb (hnot b List.mem_cons_self)
  | later hnot _ => exact absurd (hall _ List.mem_cons_self) hnot

namespace ArrayObject

variable {a : ArrayObject} {bounds index : Term} {entries : List ArrayEntry}
  {outcomes : List AccessOutcome} {I : Interpretation} {known : Symbol → Prop}

/-- The index of every record is a constant. -/
def ConstantIndices (entries : List ArrayEntry) : Prop :=
  ∀ e ∈ entries, e.index.isSymbolic = false

theorem isSymbolic_misses {terms : List Term} (hindex : index.isSymbolic = false)
    (hentries : ConstantIndices entries) (h : misses index entries = .ok terms) :
    ∀ t ∈ terms, t.isSymbolic = false := by
  induction entries generalizing terms with
  | nil =>
    cases h
    exact nofun
  | cons e rest ih =>
    obtain ⟨hentry, hrest⟩ := List.forall_mem_cons.1 hentries
    obtain ⟨missed, hmissed, h⟩ := bind_eq_ok.1 h
    obtain ⟨others, hothers, h⟩ := bind_eq_ok.1 h
    cases h
    refine List.forall_mem_cons.2 ⟨?_, ih hrest hothers⟩
    exact Term.isSymbolic_applyBinary rfl hindex hentry hmissed

theorem isSymbolic_inBounds (hindex : index.isSymbolic = false)
    (hlength : a.length.isSymbolic = false) (h : a.inBounds index = .ok bounds) :
    bounds.isSymbolic = false := by
  obtain ⟨low, hlow, h⟩ := bind_eq_ok.1 h
  obtain ⟨high, hhigh, h⟩ := bind_eq_ok.1 h
  have hconstantLow := Term.isSymbolic_applyBinary rfl hindex rfl hlow
  have hconstantHigh := Term.isSymbolic_applyBinary rfl hindex hlength hhigh
  exact Term.isSymbolic_applyBinary rfl hconstantLow hconstantHigh h

/-- The guard of an outcome is a constant, and not the one that says it is impossible. -/
def Settled (o : AccessOutcome) : Prop :=
  o.guard.isSymbolic = false ∧ o.guard.isFalse = false

theorem settled_possible {o : AccessOutcome} (h : o.guard.isSymbolic = false) :
    ∀ o' ∈ possible o, Settled o' := by
  intro o' ho'
  obtain rfl := eq_of_mem_possible ho'
  refine ⟨h, Bool.eq_false_iff.2 fun hfalse => ?_⟩
  unfold possible at ho'
  rw [if_pos hfalse] at ho'
  cases ho'

theorem settled_entryOutcomes (hbounds : bounds.isSymbolic = false)
    (hindex : index.isSymbolic = false) (hentries : ConstantIndices entries)
    (h : entryOutcomes bounds index entries = .ok outcomes) : ∀ o ∈ outcomes, Settled o := by
  induction entries generalizing outcomes with
  | nil =>
    cases h
    exact nofun
  | cons e later ih =>
    obtain ⟨hentry, hlater⟩ := List.forall_mem_cons.1 hentries
    obtain ⟨hit, hhit, h⟩ := bind_eq_ok.1 h
    obtain ⟨missed, hmissed, h⟩ := bind_eq_ok.1 h
    obtain ⟨here, hhere, h⟩ := bind_eq_ok.1 h
    obtain ⟨latest, hlatest, h⟩ := bind_eq_ok.1 h
    obtain ⟨guard, hguard, h⟩ := bind_eq_ok.1 h
    obtain ⟨others, hothers, h⟩ := bind_eq_ok.1 h
    cases h
    have hconstantHit := Term.isSymbolic_applyBinary rfl hindex hentry hhit
    have hconstantHere := Term.isSymbolic_applyBinary rfl hbounds hconstantHit hhere
    have hconstantLatest :=
      Term.isSymbolic_mkAllOnto rfl (isSymbolic_misses hindex hlater hmissed) hlatest
    have hconstantGuard :=
      Term.isSymbolic_applyBinary rfl hconstantHere hconstantLatest hguard
    exact List.forall_mem_append.2 ⟨settled_possible hconstantGuard, ih hlater hothers⟩

theorem settled_get (hindex : index.isSymbolic = false) (hlength : a.length.isSymbolic = false)
    (hentries : ConstantIndices a.entries) (h : a.get index = .ok outcomes) :
    ∀ o ∈ outcomes, Settled o := by
  obtain ⟨bounds, hbounds, h⟩ := bind_eq_ok.1 h
  obtain ⟨hits, hhits, h⟩ := bind_eq_ok.1 h
  obtain ⟨missed, hmissed, h⟩ := bind_eq_ok.1 h
  obtain ⟨none, hnone, h⟩ := bind_eq_ok.1 h
  obtain ⟨unrecorded, hunrecorded, h⟩ := bind_eq_ok.1 h
  obtain ⟨outside, houtside, h⟩ := bind_eq_ok.1 h
  cases h
  have hconstantBounds := isSymbolic_inBounds hindex hlength hbounds
  have hconstantNone :=
    Term.isSymbolic_mkAllOnto rfl (isSymbolic_misses hindex hentries hmissed) hnone
  refine List.forall_mem_append.2 ⟨List.forall_mem_append.2 ⟨?_, ?_⟩, ?_⟩
  · exact settled_entryOutcomes hconstantBounds hindex hentries hhits
  · exact settled_possible (Term.isSymbolic_applyBinary rfl hconstantBounds hconstantNone
      hunrecorded)
  · exact settled_possible (Term.isSymbolic_mkNot hconstantBounds houtside)

/-- Exactly one of several settled outcomes is a single one, which happens in any case. -/
theorem eq_singleton_of_settled (hguarded : ∀ o ∈ outcomes, o.Guarded)
    (hone : ExactlyOne (AccessOutcome.Happens I) outcomes) (hsettled : ∀ o ∈ outcomes, Settled o) :
    ∃ o, outcomes = [o] ∧ o.guard = .ofBool true := by
  have htrue : ∀ o ∈ outcomes, o.guard = .ofBool true := fun o ho =>
    Term.eq_ofBool_true (hsettled o ho).1 (hguarded o ho).type_eq (hsettled o ho).2
  have hhappens : ∀ o ∈ outcomes, o.Happens I := by
    intro o ho
    unfold AccessOutcome.Happens
    rw [htrue o ho]
    rfl
  obtain ⟨o, rfl⟩ := hone.eq_singleton hhappens
  exact ⟨o, rfl, htrue o List.mem_cons_self⟩

/-! ## Sequences of writes -/

/-- Records writes one after the other. -/
def writeAll (a : ArrayObject) (writes : List (Term × Value)) : ArrayObject :=
  writes.foldl (fun b write => b.set write.1 write.2) a

/-- The map that writes one after the other make of a map. -/
def written (I : Interpretation) (writes : List (Term × Value)) (map : Int → Option Value) :
    Int → Option Value :=
  writes.foldl (fun map write => Function.update map (write.1.number I) (some write.2)) map

@[simp] theorem writeAll_length (a : ArrayObject) (writes : List (Term × Value)) :
    (a.writeAll writes).length = a.length := by
  induction writes generalizing a with
  | nil => rfl
  | cons write rest ih => exact (ih (a.set write.1 write.2)).trans (set_length a _ _)

/-- All records are at indices over known symbols, and no two at indices that look the same. -/
structure Distinct (known : Symbol → Prop) (a : ArrayObject) : Prop where
  indices : ∀ e ∈ a.entries, e.index.IsIndex known
  pairwise : a.entries.Pairwise fun x y => (x.index == y.index) = false

theorem Distinct.set (h : a.Distinct known) (hindex : index.IsIndex known) (v : Value) :
    (a.set index v).Distinct known where
  indices := List.forall_mem_append.2
    ⟨fun e he => h.indices e (List.mem_filter.1 he).1, List.forall_mem_singleton.2 hindex⟩
  pairwise := by
    refine List.pairwise_append.2 ⟨h.pairwise.filter _, List.pairwise_singleton _ _, ?_⟩
    -- The records that are kept are those that do not look like the new one.
    intro e he last hlast
    obtain rfl := List.mem_singleton.1 hlast
    simpa using (List.mem_filter.1 he).2

theorem Distinct.writeAll (h : a.Distinct known) {writes : List (Term × Value)}
    (hwrites : ∀ write ∈ writes, write.1.IsIndex known) : (a.writeAll writes).Distinct known := by
  induction writes generalizing a with
  | nil => exact h
  | cons write rest ih =>
    obtain ⟨hwrite, hrest⟩ := List.forall_mem_cons.1 hwrites
    exact ih (h.set hwrite write.2) hrest

theorem distinct_create (className : String) (origin : Option RefSymbol) (length : Term) :
    (create className origin length).Distinct known := ⟨nofun, .nil⟩

/-- A write updates the map at the number of its index. -/
theorem Distinct.recorded?_update (h : a.Distinct known) (hI : I.ByNumber)
    (htypes : ∀ x y, known x → known y → x.id = y.id → x.type = y.type)
    (hindex : index.IsIndex known) (v : Value) :
    (a.set index v).recorded? I = Function.update (a.recorded? I) (index.number I) (some v) := by
  funext n
  rw [recorded?_set v fun e he => Term.number_eq_of_same hI htypes (h.indices e he) hindex,
    Function.update_apply]
  simp only [eq_comm]

/-- Writes one after the other update the map one after the other. -/
theorem Distinct.recorded?_writeAll (h : a.Distinct known) (hI : I.ByNumber)
    (htypes : ∀ x y, known x → known y → x.id = y.id → x.type = y.type)
    {writes : List (Term × Value)} (hwrites : ∀ write ∈ writes, write.1.IsIndex known) :
    (a.writeAll writes).recorded? I = written I writes (a.recorded? I) := by
  induction writes generalizing a with
  | nil => rfl
  | cons write rest ih =>
    obtain ⟨hwrite, hrest⟩ := List.forall_mem_cons.1 hwrites
    have hmap := h.recorded?_update hI htypes hwrite write.2
    refine (ih (h.set hwrite write.2) hrest).trans ?_
    rw [hmap]
    rfl

/-- An array that is written to is a map.  Whatever was written, the map is the sequence of updates
that the writes are, another write is one more update, and no two records look the same.  A read has
under every interpretation exactly one outcome that happens, and that outcome tells whether the
index is in bounds and what the map has there.  With constants all over, it is the only outcome, and
its guard is literally true. -/
theorem reads_and_writes_are_of_a_map (className : String) (origin : Option RefSymbol)
    {length : Term} (hlength : length.IsInt)
    (htypes : ∀ x y, known x → known y → x.id = y.id → x.type = y.type)
    {writes : List (Term × Value)} (hwrites : ∀ write ∈ writes, write.1.IsIndex known)
    (hindex : index.IsIndex known) :
    let a := (create className origin length).writeAll writes
    a.entries.Pairwise (fun x y => (x.index == y.index) = false) ∧
      (∀ I : Interpretation, I.ByNumber →
        a.recorded? I = written I writes (fun _ => none) ∧
        ∀ v, (a.set index v).recorded? I =
          Function.update (a.recorded? I) (index.number I) (some v)) ∧
      ∃ outcomes, a.get index = .ok outcomes ∧
        (∀ I : Interpretation, ExactlyOne (AccessOutcome.Happens I) outcomes ∧
          ∀ o ∈ outcomes, o.Happens I → o.Describes I a (index.number I)) ∧
        (index.isSymbolic = false → length.isSymbolic = false → ConstantIndices a.entries →
          ∃ o, outcomes = [o] ∧ o.guard = .ofBool true) := by
  intro a
  have hdistinct : a.Distinct known := (distinct_create className origin length).writeAll hwrites
  have hlengthEq : a.length = length := writeAll_length _ _
  have hspec := fun I => get_spec (a := a) I (hlengthEq ▸ hlength)
    (fun e he => (hdistinct.indices e he).isInt) hindex.isInt
  obtain ⟨outcomes, hget, hguarded, hone, -⟩ := hspec .zero
  refine ⟨hdistinct.pairwise, fun I hI => ⟨?_, ?_⟩, outcomes, hget, fun I => ?_, ?_⟩
  · exact (distinct_create className origin length).recorded?_writeAll hI htypes hwrites
  · exact hdistinct.recorded?_update hI htypes hindex
  · obtain ⟨outcomes', hget', -, hone', hdescribes⟩ := hspec I
    obtain rfl : outcomes = outcomes' := Except.ok.inj (hget.symm.trans hget')
    exact ⟨hone', hdescribes⟩
  · intro hconstantIndex hconstantLength hconstantEntries
    have hsettled := settled_get hconstantIndex (hlengthEq ▸ hconstantLength) hconstantEntries hget
    exact eq_singleton_of_settled hguarded hone hsettled

/-- Two inputs with one number and different origins are one index, at which the second write is
read.  At a constant the one write there is, is read for certain. -/
theorem reads_of_one_index :
    let i : Term := .symbol ⟨0, .int, .root "i"⟩
    let j : Term := .symbol ⟨0, .int, .root "j"⟩
    let int (n : Int32) : Value := .primitive (.ofInt n)
    let a := create "[I" none (.ofInt 3)
    (a.writeAll [(i, int 1), (j, int 2)]).recorded? .zero 0 = some (int 2) ∧
      (∃ outcomes, (a.writeAll [(i, int 1), (j, int 2)]).get i = .ok outcomes ∧
        ExactlyOne (AccessOutcome.Happens .zero) outcomes) ∧
      ∃ o, (a.writeAll [(.ofInt 1, int 42)]).get (.ofInt 1) = .ok [o] ∧
        o.guard = .ofBool true := by
  intro i j int a
  let known : Symbol → Prop := fun x => x.type = .int
  have htypes : ∀ x y, known x → known y → x.id = y.id → x.type = y.type :=
    fun x y hx hy _ => hx.trans hy.symm
  have hover : ∀ name, (Term.symbol ⟨0, .int, .root name⟩).Over known := fun _ =>
    Term.over_symbol rfl
  have hi : i.IsIndex known := { hover "i" with type_eq := rfl }
  have hj : j.IsIndex known := { hover "j" with type_eq := rfl }
  have hone : (Term.ofInt 1).IsIndex known := { Term.over_constant _ with type_eq := rfl }
  have hwrites : ∀ write ∈ [(i, int 1), (j, int 2)], write.1.IsIndex known :=
    List.forall_mem_cons.2 ⟨hi, List.forall_mem_singleton.2 hj⟩
  obtain ⟨-, hmap, outcomes, hget, houtcomes, -⟩ := reads_and_writes_are_of_a_map "[I" none
    (Term.isInt_ofInt 3) htypes hwrites hi
  obtain ⟨-, -, outcomes', hget', -, hconstant⟩ := reads_and_writes_are_of_a_map "[I" none
    (Term.isInt_ofInt 3) htypes (List.forall_mem_singleton.2 hone : ∀ write ∈
      [(Term.ofInt 1, int 42)], write.1.IsIndex known) hone
  refine ⟨?_, ⟨outcomes, hget, (houtcomes .zero).1⟩, ?_⟩
  · rw [(hmap .zero Interpretation.byNumber_zero).1]
    rfl
  · obtain ⟨o, rfl, ho⟩ := hconstant rfl rfl (List.forall_mem_singleton.2 rfl)
    exact ⟨o, hget', ho⟩

end ArrayObject

end SymbolicMachine
