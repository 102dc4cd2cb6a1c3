import SymbolicMachine.Proofs.Fields.Instances
import SymbolicMachine.Proofs.Types.Bytes
/-!
# The parameters of a method

Reading the parameters of a method descriptor is the inverse of writing them: a list of field
descriptors is read back from its text between parentheses, and what is read from any text is the
only list of field descriptors that the text is made of up to the first closing parenthesis.  Each
of them describes a location: it has a default value and symbols, of one type.
-/
namespace SymbolicMachine

/-- The primitive type of a value, and nothing for a reference. -/
def Value.type? (v : Value) : Option PrimType := v.term?.map Term.type

theorem Stands.type?_eq {d : String} {origin : Origin} {id : Nat} {v : Value}
    (h : Stands d origin id v) : v.type? = Descriptor.primType? d := by
  cases h with
  | primitive htype => exact htype.symm
  | reference hnone _ => exact hnone.symm

theorem Value.type?_default {d : String} {v : Value} (h : Value.default d = .ok v) :
    v.type? = Descriptor.primType? d := by
  unfold Value.default at h
  split at h
  · rename_i t ht
    cases h
    simp [type?, term?, Term.type, ht]
  · rename_i hnone
    split at h
    · cases h
      exact hnone.symm
    · cases h

namespace Descriptor

variable {d : String}

theorem IsField.denotes (h : IsField d) : Denotes d := by
  cases h with
  | primitive t => exact .inl (by simp [isPrimitive, primType?])
  | object _ _ => exact .inr (by simp [isReference, isArray, className?])
  | array _ => exact .inr (by simp [isReference, isArray])

/-- A symbol can be made for every location whose type is described. -/
theorem exists_createSymbol (h : Denotes d) (s : State) (origin : Origin) :
    ∃ v, (State.createSymbol d origin).run s = (.ok v, s.withSymbols (s.nextSymbol + 1)) ∧
      Stands d origin s.nextSymbol v := by
  unfold State.createSymbol
  split
  · rename_i t ht
    exact ⟨_, rfl, .primitive ht⟩
  · rename_i hnone
    obtain ⟨c, hc⟩ := exists_staticType h hnone
    rw [hc]
    exact ⟨_, rfl, .reference hnone hc⟩

theorem parameterTypes_eq_error {e : ValueError} (h : parameterTypes d = .error e) :
    e = .invalidDescriptor d := by
  unfold parameterTypes at h
  split at h <;> cases h
  rfl

/-- Reading parameters is the inverse of writing them.  A list of field descriptors is read back
from its text between parentheses, whatever result type follows.  Of any text at all the bytes can
be scanned without a fault, and this either finds what is read or that the text is malformed.  What
is read is the list of field descriptors whose text stands between the first parenthesis and the
first closing one, and each of them has a default value and symbols, of one type. -/
theorem parameterTypes_inverts_printing :
    (∀ ds : List String, (∀ d ∈ ds, IsField d) → ∀ result : String,
        parameterTypes ("(" ++ String.join ds ++ ")" ++ result) = .ok ds) ∧
      ∀ d : String,
        ((∃ ds, ByteScan.parameters d = .done ds ∧ parameterTypes d = .ok ds) ∨
          ByteScan.parameters d = .malformed ∧
            parameterTypes d = .error (.invalidDescriptor d)) ∧
        ∀ ds, parameterTypes d = .ok ds →
          (∃ result, d = "(" ++ String.join ds ++ ")" ++ result ∧
            ')' ∉ (String.join ds).toList) ∧
          ∀ field ∈ ds, IsField field ∧
            ∃ v, Value.default field = .ok v ∧ v.conformsTo field = true ∧
              ∀ (s : State) (origin : Origin), ∃ w,
                (State.createSymbol field origin).run s =
                    (.ok w, s.withSymbols (s.nextSymbol + 1)) ∧
                  Stands field origin s.nextSymbol w ∧ w.conformsTo field = true ∧
                  w.type? = v.type? := by
  refine ⟨fun ds hds result => parameterTypes_eq_ok_iff.2 ⟨hds, result, rfl⟩, fun d => ⟨?_, ?_⟩⟩
  · rw [ByteScan.parameters_eq]
    cases h : parameterTypes d with
    | ok ds => exact .inl ⟨ds, rfl, rfl⟩
    | error e =>
      cases parameterTypes_eq_error h
      exact .inr ⟨rfl, rfl⟩
  · intro ds hds
    obtain ⟨hfields, result, hd⟩ := parameterTypes_eq_ok_iff.1 hds
    refine ⟨⟨result, hd, not_mem_join hfields⟩, fun field hmem => ⟨hfields field hmem, ?_⟩⟩
    have hdenotes := (hfields field hmem).denotes
    obtain ⟨v, hv⟩ := Value.exists_default hdenotes
    refine ⟨v, hv, Value.conformsTo_default hv, fun s origin => ?_⟩
    obtain ⟨w, hw, hstands⟩ := exists_createSymbol hdenotes s origin
    exact ⟨w, hw, hstands, hstands.conformsTo,
      hstands.type?_eq.trans (Value.type?_default hv).symm⟩

example : parameterTypes "([[ILMain;J)V" = .ok ["[[I", "LMain;", "J"] := by cbv

end Descriptor

end SymbolicMachine
