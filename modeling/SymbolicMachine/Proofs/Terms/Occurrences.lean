import SymbolicMachine.Proofs.Actions
import SymbolicMachine.Terms.Build
/-!
# Occurrences of symbols

The operations that build terms may drop operands, but what they give has no symbol that the
operands have not.  The symbols of a term are its occurrences, of which the first with each number
is kept.
-/
namespace SymbolicMachine

/-! ## Keeping the first -/

namespace Symbol

variable {seen : List Nat} {l : List Symbol} {x : Symbol}

theorem mem_of_mem_firsts (h : x ∈ firsts seen l) : x ∈ l := by
  induction l generalizing seen with
  | nil => cases h
  | cons y rest ih =>
    unfold firsts at h
    split at h
    · exact List.mem_cons_of_mem y (ih h)
    · rcases List.mem_cons.1 h with rfl | h
      · exact List.mem_cons_self
      · exact List.mem_cons_of_mem y (ih h)

/-- Every number that was not seen before is that of a symbol which is kept. -/
theorem exists_mem_firsts (hx : x ∈ l) (hseen : x.id ∉ seen) :
    ∃ y ∈ firsts seen l, y.id = x.id := by
  induction l generalizing seen with
  | nil => cases hx
  | cons y rest ih =>
    unfold firsts
    split
    · rename_i hskip
      rcases List.mem_cons.1 hx with rfl | hx
      · exact absurd (List.contains_iff_mem.1 hskip) hseen
      · exact ih hx hseen
    · by_cases heq : x.id = y.id
      · exact ⟨y, List.mem_cons_self, heq.symm⟩
      · rcases List.mem_cons.1 hx with rfl | hx
        · exact absurd rfl heq
        · have hunseen : x.id ∉ y.id :: seen := List.not_mem_cons_of_ne_of_not_mem heq hseen
          obtain ⟨z, hz, hid⟩ := ih hx hunseen
          exact ⟨z, List.mem_cons_of_mem y hz, hid⟩

theorem unseen_of_mem_firsts (h : x ∈ firsts seen l) : x.id ∉ seen := by
  induction l generalizing seen with
  | nil => cases h
  | cons y rest ih =>
    unfold firsts at h
    split at h
    · exact ih h
    · rename_i hfresh
      rcases List.mem_cons.1 h with rfl | h
      · simpa using hfresh
      · exact fun hseen => ih h (List.mem_cons_of_mem _ hseen)

/-- What is kept stands in the order of the first occurrences. -/
theorem pairwise_firsts (seen : List Nat) (l : List Symbol) :
    (firsts seen l).Pairwise fun x y =>
      l.findIdx (·.id == x.id) < l.findIdx (·.id == y.id) := by
  induction l generalizing seen with
  | nil => exact .nil
  | cons z rest ih =>
    -- A symbol with another number is found one place later behind `z`.
    have hlater : ∀ x : Symbol, x.id ≠ z.id →
        (z :: rest).findIdx (·.id == x.id) = rest.findIdx (·.id == x.id) + 1 := by
      intro x hx
      have hne : (z.id == x.id) = false := by simpa using Ne.symm hx
      simp [List.findIdx_cons, hne]
    have hshift : ∀ seen', z.id ∈ seen' → (firsts seen' rest).Pairwise fun x y =>
        (z :: rest).findIdx (·.id == x.id) < (z :: rest).findIdx (·.id == y.id) := by
      intro seen' hz
      have hother : ∀ x ∈ firsts seen' rest, x.id ≠ z.id :=
        fun x hx heq => unseen_of_mem_firsts hx (heq ▸ hz)
      refine (ih seen').imp_of_mem fun {x y} hx hy hxy => ?_
      rw [hlater x (hother x hx), hlater y (hother y hy)]
      omega
    unfold firsts
    split
    · rename_i hskip
      exact hshift seen (List.contains_iff_mem.1 hskip)
    · refine List.pairwise_cons.2 ⟨fun y hy => ?_, hshift _ List.mem_cons_self⟩
      have hne : y.id ≠ z.id := fun heq => unseen_of_mem_firsts hy (heq ▸ List.mem_cons_self)
      rw [hlater y hne, List.findIdx_cons]
      simp

end Symbol

namespace Term

theorem mem_occurrencesAll {args : List Term} {x : Symbol} :
    x ∈ occurrencesAll args ↔ ∃ t ∈ args, x ∈ t.occurrences := by
  induction args with
  | nil => simp [occurrencesAll]
  | cons a rest ih => simp [occurrencesAll, ih]

/-! ## Building -/

variable {a b c : Term}

theorem occurrences_foldUnary (op : UnaryOp) (a : Term) :
    (foldUnary op a).occurrences ⊆ a.occurrences := by
  unfold foldUnary
  split
  · split
    · exact List.nil_subset _
    · exact List.Subset.refl _
  · split
    · exact List.Subset.refl _
    · exact List.Subset.refl _
  · exact List.Subset.refl _

theorem occurrences_applyUnary {op : Operator} (h : applyUnary op a = .ok b) :
    b.occurrences ⊆ a.occurrences := by
  unfold applyUnary at h
  split at h
  · split at h
    · cases h
      exact occurrences_foldUnary _ a
    · cases h
  · cases h

theorem occurrences_connective? {op : BinaryOp} (h : connective? op a b = some c) :
    c.occurrences ⊆ a.occurrences ++ b.occurrences := by
  unfold connective? at h
  split at h
  · cases h
    split
    · exact List.nil_subset _
    · exact List.subset_append_right _ _
  · split at h
    · cases h
      split
      · exact List.nil_subset _
      · exact List.subset_append_left _ _
    · cases h

theorem occurrences_foldBinary (op : BinaryOp) (t : PrimType) (a b : Term) :
    (foldBinary op t a b).occurrences ⊆ a.occurrences ++ b.occurrences := by
  unfold foldBinary
  split
  · exact List.nil_subset _
  · split
    · cases h : connective? op a b with
      | none => exact List.Subset.refl _
      | some c => exact occurrences_connective? h
    · exact List.Subset.refl _

theorem occurrences_applyBinary {op : Operator} (h : applyBinary op a b = .ok c) :
    c.occurrences ⊆ a.occurrences ++ b.occurrences := by
  unfold applyBinary at h
  split at h
  · cases h
  · split at h
    · split at h
      · cases h
        exact occurrences_foldBinary _ _ a b
      · cases h
    · cases h

theorem occurrences_convert {t : PrimType} (h : a.convert t = .ok b) :
    b.occurrences ⊆ a.occurrences := by
  unfold convert at h
  split at h
  · cases h
    exact List.Subset.refl _
  · split at h
    · obtain ⟨d, -, rfl⟩ := map_eq_ok.1 h
      exact List.nil_subset _
    · split at h
      · cases h
        exact List.Subset.refl _
      · split at h
        · cases h
          exact List.Subset.refl _
        · cases h

theorem occurrences_mkAllOnto {terms : List Term} (h : mkAllOnto a terms = .ok c) :
    c.occurrences ⊆ a.occurrences ++ occurrencesAll terms := by
  induction terms generalizing a with
  | nil =>
    cases h
    exact List.subset_append_left _ _
  | cons t rest ih =>
    unfold mkAllOnto at h
    split at h
    · rename_i b hb
      have hrest : c.occurrences ⊆ b.occurrences ++ occurrencesAll rest := ih h
      have hboth : b.occurrences ⊆ a.occurrences ++ t.occurrences := occurrences_applyBinary hb
      intro x hx
      have hcases := List.mem_append.1 (hrest hx)
      rw [occurrencesAll, ← List.append_assoc]
      exact List.mem_append.2 (hcases.imp_left fun hxb => hboth hxb)
    · cases h

theorem occurrences_mkAll {terms : List Term} (h : mkAll terms = .ok c) :
    c.occurrences ⊆ occurrencesAll terms :=
  occurrences_mkAllOnto h

end Term

end SymbolicMachine
