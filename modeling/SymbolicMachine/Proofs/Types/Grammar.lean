import Mathlib.Data.List.TakeWhile
import SymbolicMachine.Types.Descriptor
/-!
# The grammar of descriptors

A field descriptor is a primitive letter, a class name between `L` and `;`, or the descriptor of
the members behind a bracket.  A parameter list is one field descriptor behind the other, and the
scan of a list finds the only field descriptors that it is made of: every field descriptor says by
itself where it ends.
-/
namespace SymbolicMachine

theorem PrimType.eq_letter_of_ofLetter? {c : Char} {t : PrimType} (h : ofLetter? c = some t) :
    c = t.letter := by
  unfold ofLetter? at h
  split at h <;> cases h <;> rfl

theorem PrimType.isSome_ofLetter?_iff {c : Char} :
    (ofLetter? c).isSome = true ↔ ∃ t : PrimType, c = t.letter := by
  constructor
  · intro h
    obtain ⟨t, ht⟩ := Option.isSome_iff_exists.1 h
    exact ⟨t, eq_letter_of_ofLetter? ht⟩
  · rintro ⟨t, rfl⟩
    rw [ofLetter?_letter]
    rfl

namespace Descriptor

/-! ## The first place of a character -/

section First

variable {c d : Char} {cs before behind : List Char}

theorem takeWhile_ne_append (h : c ∉ before) (behind : List Char) :
    (before ++ c :: behind).takeWhile (· != c) = before ∧
      (before ++ c :: behind).dropWhile (· != c) = c :: behind := by
  have hne : ∀ d ∈ before, (d != c) = true := fun d hd => bne_iff_ne.2 fun heq => h (heq ▸ hd)
  rw [List.takeWhile_append_of_pos hne, List.dropWhile_append_of_pos hne]
  simp

/-- What the search for a character stops at is its first place. -/
theorem eq_append_of_dropWhile_ne (h : cs.dropWhile (· != c) = d :: behind) :
    d = c ∧ cs = cs.takeWhile (· != c) ++ c :: behind ∧ c ∉ cs.takeWhile (· != c) := by
  have hhead := List.head?_dropWhile_not (· != c) cs
  rw [h] at hhead
  have hd : d = c := by simpa using hhead
  subst hd
  refine ⟨rfl, ?_, fun hmem => ?_⟩
  · rw [← h, List.takeWhile_append_dropWhile]
  · exact absurd (List.mem_takeWhile_imp hmem) (by simp)

end First

/-- The text is a field descriptor.  Class names contain neither of the characters that end a name
and a parameter list. -/
inductive IsField : String → Prop
  | primitive (t : PrimType) : IsField (String.singleton t.letter)
  | object {name : String} (hname : ';' ∉ name.toList) (hlist : ')' ∉ name.toList) :
      IsField ("L" ++ name ++ ";")
  | array {member : String} (h : IsField member) : IsField ("[" ++ member)

variable {d : String} {cs field rest : List Char}

/-! ## One field descriptor -/

theorem scanField_of_ne {c : Char} (hbracket : c ≠ '[') (hclass : c ≠ 'L') (cs : List Char) :
    scanField (c :: cs) = if (PrimType.ofLetter? c).isSome then some ([c], cs) else none :=
  scanField.eq_4 c cs hbracket hclass

theorem IsField.not_mem_list (h : IsField d) : ')' ∉ d.toList := by
  induction h with
  | primitive t => cases t <;> decide
  | object hname hlist => simp [hlist]
  | array _ ih => simpa using ih

/-- A field descriptor is scanned whatever comes behind it. -/
theorem IsField.scanField_append (h : IsField d) (rest : List Char) :
    scanField (d.toList ++ rest) = some (d.toList, rest) := by
  induction h with
  | primitive t =>
    rw [String.toList_singleton, List.singleton_append, scanField_of_ne]
    · simp
    · cases t <;> decide
    · cases t <;> decide
  | @object name hname _ =>
    have hchars : ("L" ++ name ++ ";").toList ++ rest = 'L' :: (name.toList ++ ';' :: rest) := by
      simp
    obtain ⟨htake, hdrop⟩ := takeWhile_ne_append hname rest
    rw [hchars, scanField, hdrop, htake]
    simp
  | @array member _ ih =>
    have hchars : ("[" ++ member).toList = '[' :: member.toList := by simp
    rw [hchars, List.cons_append, scanField, ih]
    rfl

/-- What is scanned from a text without the end of a parameter list is a field descriptor. -/
theorem isField_of_scanField (h : scanField cs = some (field, rest)) (hlist : ')' ∉ cs) :
    IsField (String.ofList field) := by
  induction cs using scanField.induct generalizing field rest with
  | case1 => cases h
  | case2 cs ih =>
    rw [scanField, Option.map_eq_some_iff] at h
    obtain ⟨⟨member, rest⟩, hmember, ⟨⟩⟩ := h
    rw [String.ofList_cons]
    exact .array (ih hmember fun hmem => hlist (List.mem_cons_of_mem _ hmem))
  | case3 cs semicolon rest' hrest =>
    rw [scanField, hrest] at h
    cases h
    obtain ⟨rfl, hsplit, hname⟩ := eq_append_of_dropWhile_ne hrest
    have hlist' : ')' ∉ cs.takeWhile (· != ';') := fun hmem =>
      hlist (List.mem_cons_of_mem _ (List.takeWhile_subset _ hmem))
    have htext : String.ofList ('L' :: cs.takeWhile (· != ';') ++ [';']) =
        "L" ++ String.ofList (cs.takeWhile (· != ';')) ++ ";" := by
      rw [String.ofList_append, String.ofList_cons]
      rfl
    rw [htext]
    exact .object (by rwa [String.toList_ofList]) (by rwa [String.toList_ofList])
  | case4 cs hrest =>
    rw [scanField, hrest] at h
    cases h
  | case5 c cs hbracket hclass hletter =>
    obtain ⟨t, rfl⟩ := PrimType.isSome_ofLetter?_iff.1 hletter
    rw [scanField_of_ne hbracket hclass, if_pos hletter] at h
    cases h
    exact .primitive t
  | case6 c cs hbracket hclass hletter =>
    rw [scanField_of_ne hbracket hclass, if_neg hletter] at h
    cases h

/-! ## Lists of field descriptors -/

theorem scanFields_of_none (hne : cs ≠ []) (h : scanField cs = none) : scanFields cs = none := by
  rw [scanFields, if_neg hne]
  split
  · rfl
  · rename_i hsome
    cases h.symm.trans hsome

theorem scanFields_of_some (h : scanField cs = some (field, rest)) :
    scanFields cs = (scanFields rest).map (field :: ·) := by
  have hne : cs ≠ [] := by
    rintro rfl
    cases h
  rw [scanFields, if_neg hne]
  split
  · rename_i hnone
    cases h.symm.trans hnone
  · rename_i hsome
    cases h.symm.trans hsome
    rfl

theorem scanFields_flatMap {ds : List String} (h : ∀ d ∈ ds, IsField d) :
    scanFields (ds.flatMap String.toList) = some (ds.map String.toList) := by
  induction ds with
  | nil => rw [List.flatMap_nil, scanFields, if_pos rfl]; rfl
  | cons d ds ih =>
    obtain ⟨hhead, htail⟩ := List.forall_mem_cons.1 h
    rw [List.flatMap_cons, scanFields_of_some (hhead.scanField_append _), ih htail]
    rfl

/-- A text without the end of a parameter list is made of the field descriptors found in it. -/
theorem eq_flatten_of_scanFields {fields : List (List Char)} (h : scanFields cs = some fields)
    (hlist : ')' ∉ cs) : cs = fields.flatten ∧ ∀ f ∈ fields, IsField (String.ofList f) := by
  induction cs using scanFields.induct generalizing fields with
  | case1 =>
    rw [scanFields, if_pos rfl] at h
    cases h
    exact ⟨rfl, nofun⟩
  | case2 cs hne hnone => cases (scanFields_of_none hne hnone).symm.trans h
  | case3 cs hne field rest hfield ih =>
    rw [scanFields_of_some hfield, Option.map_eq_some_iff] at h
    obtain ⟨others, hothers, rfl⟩ := h
    have hsplit := Descriptor.scanField_append hfield
    have hlist' : ')' ∉ rest := fun hmem => hlist (hsplit ▸ List.mem_append_right _ hmem)
    obtain ⟨hflatten, hfields⟩ := ih hothers hlist'
    refine ⟨?_, List.forall_mem_cons.2 ⟨isField_of_scanField hfield hlist, hfields⟩⟩
    rw [← hsplit, hflatten, List.flatten_cons]

/-! ## Method descriptors -/

theorem splitMethod?_eq_some_iff {parameters result : List Char} :
    splitMethod? d = some (parameters, result) ↔
      d.toList = '(' :: (parameters ++ ')' :: result) ∧ ')' ∉ parameters := by
  constructor
  · intro h
    unfold splitMethod? at h
    split at h
    · rename_i cs hcs
      split at h
      · rename_i close result' hrest
        cases h
        obtain ⟨-, hsplit, hparameters⟩ := eq_append_of_dropWhile_ne hrest
        exact ⟨hcs.trans (congrArg _ hsplit), hparameters⟩
      · cases h
    · cases h
  · rintro ⟨hd, hparameters⟩
    obtain ⟨htake, hdrop⟩ := takeWhile_ne_append hparameters result
    simp only [splitMethod?, hd, hdrop, htake]

theorem not_mem_join {ds : List String} (h : ∀ d ∈ ds, IsField d) :
    ')' ∉ (String.join ds).toList := by
  rw [String.toList_join, List.mem_flatMap]
  rintro ⟨d, hd, hmem⟩
  exact (h d hd).not_mem_list hmem

/-- A method descriptor is read as the only list of field descriptors that its parameter list is
made of. -/
theorem parameterTypes_eq_ok_iff {ds : List String} :
    parameterTypes d = .ok ds ↔
      (∀ field ∈ ds, IsField field) ∧ ∃ result, d = "(" ++ String.join ds ++ ")" ++ result := by
  constructor
  · intro h
    unfold parameterTypes at h
    split at h
    · rename_i fields hfields
      cases h
      obtain ⟨⟨parameters, result⟩, hsplit, hscan⟩ := Option.bind_eq_some_iff.1 hfields
      obtain ⟨hd, hlist⟩ := splitMethod?_eq_some_iff.1 hsplit
      obtain ⟨hflatten, hall⟩ := eq_flatten_of_scanFields hscan hlist
      refine ⟨List.forall_mem_map.2 hall, String.ofList result, ?_⟩
      rw [← String.toList_inj, hd, hflatten]
      simp [List.flatMap_map, List.flatMap_id']
    · cases h
  · rintro ⟨hfields, result, rfl⟩
    have hsplit : splitMethod? ("(" ++ String.join ds ++ ")" ++ result) =
        some ((String.join ds).toList, result.toList) :=
      splitMethod?_eq_some_iff.2 ⟨by simp, not_mem_join hfields⟩
    simp only [parameterTypes, hsplit, String.toList_join, Option.bind_some,
      scanFields_flatMap hfields]
    simp

end Descriptor

end SymbolicMachine
