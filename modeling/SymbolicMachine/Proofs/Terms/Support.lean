import SymbolicMachine.Proofs.Terms.Normal
import SymbolicMachine.Proofs.Terms.Occurrences
/-!
# The support of a term

The symbols of a term are what its value depends on.  They list the number of every symbol node
once, in the order in which the nodes are met first, and what an operation makes has no symbols
but those of its operands.
-/
namespace SymbolicMachine

/-- The order of first places in what is selected from a list is that in the list. -/
theorem findIdx_lt_of_filterMap {α β : Type} {l : List α} {f : α → Option β} {p q : β → Bool}
    (h : (l.filterMap f).findIdx p < (l.filterMap f).findIdx q) :
    (l.findIdx fun a => (f a).any p) < l.findIdx fun a => (f a).any q := by
  induction l with
  | nil => simp at h
  | cons a rest ih =>
    cases hf : f a with
    | none =>
      rw [List.filterMap_cons_none hf] at h
      simp only [List.findIdx_cons, hf, Option.any_none, cond_false]
      have hrest := ih h
      omega
    | some b =>
      rw [List.filterMap_cons_some hf] at h
      simp only [List.findIdx_cons, hf, Option.any_some] at h ⊢
      cases hp : p b <;> cases hq : q b <;> simp only [hp, hq, cond_true, cond_false] at h ⊢
      · have hrest := ih (by omega)
        omega
      all_goals omega

namespace Term

def symbol? : Term → Option Symbol
  | symbol s => some s
  | _ => none

/-- Whether a symbol stands in a term. -/
def Has (t : Term) (s : Symbol) : Prop := symbol s ∈ t.nodes

/-- The place of the first symbol node with a number, from left to right. -/
def firstAt (t : Term) (n : Nat) : Nat := t.nodes.findIdx fun node => node.symbol?.any (·.id == n)

/-- The terms that one operation makes of operands. -/
inductive Made : List Term → Term → Prop
  | unary {o : Operator} {a t : Term} (h : applyUnary o a = .ok t) : Made [a] t
  | binary {o : Operator} {a b t : Term} (h : applyBinary o a b = .ok t) : Made [a, b] t
  | all {operands : List Term} {t : Term} (h : mkAll operands = .ok t) : Made operands t
  | application (type : PrimType) (function : String) (operands : List Term) :
      Made operands (application type function operands)
  | convert {type : PrimType} {a t : Term} (h : a.convert type = .ok t) : Made [a] t

/-! ## Symbol nodes -/

mutual

theorem occurrences_eq_filterMap : ∀ t : Term, t.occurrences = t.nodes.filterMap symbol?
  | constant _ => rfl
  | symbol _ => rfl
  | unary _ _ a => occurrences_eq_filterMap a
  | binary _ _ a b => by
    rw [occurrences, occurrences_eq_filterMap a, occurrences_eq_filterMap b,
      ← List.filterMap_append]
    rfl
  | application _ _ args => occurrencesAll_eq_filterMap args
  | conversion _ a => occurrences_eq_filterMap a

theorem occurrencesAll_eq_filterMap : ∀ args : List Term,
    occurrencesAll args = (nodesAll args).filterMap symbol?
  | [] => rfl
  | a :: rest => by
    rw [occurrencesAll, occurrences_eq_filterMap a, occurrencesAll_eq_filterMap rest,
      ← List.filterMap_append]
    rfl

end

variable {t : Term} {s : Symbol}

theorem has_iff : t.Has s ↔ s ∈ t.occurrences := by
  have hsymbol : ∀ n : Term, n.symbol? = some s ↔ n = symbol s := by
    intro n
    cases n <;> simp [symbol?]
  simp [Has, occurrences_eq_filterMap, hsymbol]

theorem mem_symbols_iff {n : Nat} :
    n ∈ t.symbols.map (·.id) ↔ ∃ s, t.Has s ∧ s.id = n := by
  rw [List.mem_map]
  constructor
  · intro h
    obtain ⟨s, hs, hn⟩ := h
    exact ⟨s, has_iff.2 (Symbol.mem_of_mem_firsts hs), hn⟩
  · intro h
    obtain ⟨s, hs, rfl⟩ := h
    exact Symbol.exists_mem_firsts (has_iff.1 hs) List.not_mem_nil

theorem pairwise_symbols (t : Term) :
    t.symbols.Pairwise fun x y => t.firstAt x.id < t.firstAt y.id := by
  have hfirsts := Symbol.pairwise_firsts [] t.occurrences
  rw [occurrences_eq_filterMap] at hfirsts
  unfold symbols
  rw [occurrences_eq_filterMap]
  exact hfirsts.imp findIdx_lt_of_filterMap

theorem nodup_symbols (t : Term) : (t.symbols.map (·.id)).Nodup := by
  rw [List.Nodup, List.pairwise_map]
  refine t.pairwise_symbols.imp fun {x y} hlt heq => ?_
  rw [heq] at hlt
  omega

/-! ## Values -/

section Agreement

variable {I J : Interpretation}

mutual

theorem eval_eq_of_occurrences (hf : I.function = J.function) (hz : I.byZero = J.byZero) :
    ∀ {t : Term}, (∀ s ∈ t.occurrences, I.symbol s = J.symbol s) → t.eval I = t.eval J
  | constant _, _ => rfl
  | symbol s, h => h s List.mem_cons_self
  | unary _ _ a, h => by
    have ha : a.eval I = a.eval J := eval_eq_of_occurrences hf hz h
    rw [eval, eval, ha]
  | binary _ _ a b, h => by
    obtain ⟨hleft, hright⟩ := List.forall_mem_append.1 h
    have ha : a.eval I = a.eval J := eval_eq_of_occurrences hf hz hleft
    have hb : b.eval I = b.eval J := eval_eq_of_occurrences hf hz hright
    rw [eval, eval, ha, hb, hz]
  | application _ _ args, h => by
    have hargs : evalAll I args = evalAll J args := evalAll_eq_of_occurrences hf hz h
    rw [eval, eval, hargs, hf]
  | conversion _ a, h => by
    have ha : a.eval I = a.eval J := eval_eq_of_occurrences hf hz h
    rw [eval, eval, ha]

theorem evalAll_eq_of_occurrences (hf : I.function = J.function) (hz : I.byZero = J.byZero) :
    ∀ {args : List Term}, (∀ s ∈ occurrencesAll args, I.symbol s = J.symbol s) →
      evalAll I args = evalAll J args
  | [], _ => rfl
  | a :: rest, h => by
    obtain ⟨hfirst, hothers⟩ := List.forall_mem_append.1 h
    have ha : a.eval I = a.eval J := eval_eq_of_occurrences hf hz hfirst
    have hrest : evalAll I rest = evalAll J rest := evalAll_eq_of_occurrences hf hz hothers
    rw [evalAll, evalAll, ha, hrest]

end

/-- Agreement on the first symbol with each number is agreement on all of them. -/
theorem eval_eq_of_symbols (htypes : ∀ x y, t.Has x → t.Has y → x.id = y.id → x.type = y.type)
    (hI : I.ByNumber) (hJ : J.ByNumber) (hf : I.function = J.function)
    (hz : I.byZero = J.byZero) (h : ∀ x ∈ t.symbols, I.symbol x = J.symbol x) :
    t.eval I = t.eval J := by
  refine eval_eq_of_occurrences hf hz fun s hs => ?_
  obtain ⟨x, hx, hid⟩ : ∃ x ∈ t.symbols, x.id = s.id :=
    Symbol.exists_mem_firsts hs List.not_mem_nil
  have htype : x.type = s.type :=
    htypes x s (has_iff.2 (Symbol.mem_of_mem_firsts hx)) (has_iff.2 hs) hid
  calc I.symbol s = I.symbol x := (hI x s hid htype).symm
    _ = J.symbol x := h x hx
    _ = J.symbol s := hJ x s hid htype

end Agreement

/-! ## Operations -/

theorem Made.has {operands : List Term} (h : Made operands t) (hs : t.Has s) :
    ∃ a ∈ operands, a.Has s := by
  rw [has_iff] at hs
  have hmem : s ∈ occurrencesAll operands := by
    cases h with
    | unary h => simpa [occurrencesAll] using occurrences_applyUnary h hs
    | binary h => simpa [occurrencesAll] using occurrences_applyBinary h hs
    | all h => exact occurrences_mkAll h hs
    | application type function operands => exact hs
    | convert h => simpa [occurrencesAll] using occurrences_convert h hs
  obtain ⟨a, ha, hsa⟩ := mem_occurrencesAll.1 hmem
  exact ⟨a, ha, has_iff.2 hsa⟩

/-- The symbols of a term are its support.  They list every number in the term once, by its first
place from left to right; the value of the term is the same under interpretations that agree on
them; and an operation that makes the term brings in none. -/
theorem symbols_are_support {t : Term}
    (htypes : ∀ x y, t.Has x → t.Has y → x.id = y.id → x.type = y.type) :
    (t.symbols.map (·.id)).Nodup ∧
      (∀ n, n ∈ t.symbols.map (·.id) ↔ ∃ s, t.Has s ∧ s.id = n) ∧
      (t.symbols.Pairwise fun x y => t.firstAt x.id < t.firstAt y.id) ∧
      (∀ I J : Interpretation, I.ByNumber → J.ByNumber → I.function = J.function →
        I.byZero = J.byZero → (∀ x ∈ t.symbols, I.symbol x = J.symbol x) →
          t.eval I = t.eval J) ∧
      ∀ operands, Made operands t → ∀ s, t.Has s → ∃ a ∈ operands, a.Has s := by
  refine ⟨t.nodup_symbols, fun _ => mem_symbols_iff, t.pairwise_symbols, ?_, ?_⟩
  · intro I J hI hJ hf hz h
    exact eval_eq_of_symbols htypes hI hJ hf hz h
  · intro operands hmade s hs
    exact hmade.has hs

/-- A sum, less a second occurrence of one of its symbols, has two symbols, and its value is the
same whatever a third one is. -/
theorem support_of_difference :
    let x : Symbol := ⟨0, .int, .root "x"⟩
    let y : Symbol := ⟨1, .int, .root "y"⟩
    let sum : Term := .binary .add .int (.symbol y) (.symbol x)
    let again : Term := .symbol ⟨1, .int, .root "again"⟩
    let t : Term := .binary .sub .int sum again
    let other : Symbol := ⟨2, .int, .root "z"⟩
    let I : Interpretation := .zero
    let J := I.assign fun s => if s.id = 2 then .int 9 else .zero s.type
    Made [sum, again] t ∧ t.symbols = [y, x] ∧ I.symbol other ≠ J.symbol other ∧
      (t.symbols.map (·.id)).Nodup ∧ t.eval I = t.eval J ∧
        ∀ s, t.Has s → ∃ a ∈ [sum, again], a.Has s := by
  intro x y sum again t other I J
  have hmade : Made [sum, again] t := .binary (o := .binary .sub) rfl
  have hsymbols : t.symbols = [y, x] := rfl
  have hint : ∀ s, t.Has s → s.type = .int := by
    intro s hs
    have hcases : s = y ∨ s = x ∨ s = ⟨1, .int, .root "again"⟩ := by
      simpa [t, sum, again, Has, nodes] using hs
    rcases hcases with rfl | rfl | rfl <;> rfl
  have htypes : ∀ s s', t.Has s → t.Has s' → s.id = s'.id → s.type = s'.type :=
    fun s s' hs hs' _ => (hint s hs).trans (hint s' hs').symm
  have hJ : J.ByNumber := by
    intro s s' hid htype
    simp only [J, Interpretation.assign, hid, htype]
  have hagree : ∀ s ∈ t.symbols, I.symbol s = J.symbol s := by
    intro s hs
    rw [hsymbols] at hs
    have hcases : s = y ∨ s = x := by simpa using hs
    rcases hcases with rfl | rfl <;> rfl
  have hdiffer : I.symbol other ≠ J.symbol other := by decide
  obtain ⟨hnodup, -, -, heval, hoperands⟩ := symbols_are_support htypes
  exact ⟨hmade, hsymbols, hdiffer, hnodup, heval I J Interpretation.byNumber_zero hJ rfl rfl hagree,
    hoperands _ hmade⟩

end Term

end SymbolicMachine
