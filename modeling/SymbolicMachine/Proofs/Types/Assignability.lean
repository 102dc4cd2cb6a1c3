import Mathlib.Logic.Relation
import SymbolicMachine.Proofs.Inputs.Loads
/-!
# Assignability

Which types may stand for which is a question about the graph of the known classes: an edge leads
from a known class to its superclass and to each of its interfaces, and the graph may be cyclic and
may lead to classes that are not known.  The search follows the edges of each class once.  When it
fails, the classes that it went through are closed under the edges and the target is not among
them; that is how a failed search answers for every path.
-/
namespace SymbolicMachine

/-! ## Array types -/

namespace Descriptor

/-- A bracket before the text of the members. -/
def IsArrayType (d : String) : Prop := ∃ member, member ≠ "" ∧ d = "[" ++ member

/-- An array type whose members are references of a static type. -/
def ArrayOf (d type : String) : Prop :=
  ∃ member, (member ≠ "" ∧ d = "[" ++ member) ∧ isPrimitive member = false ∧
    isReference member = true ∧ staticType member = .ok type

variable {d m type : String}

theorem member?_eq_some_iff : member? d = some m ↔ m ≠ "" ∧ d = "[" ++ m := by
  constructor
  · intro h
    unfold member? at h
    split at h
    · rename_i c cs hd
      cases h
      refine ⟨fun hempty => ?_, ?_⟩
      · simpa using congrArg String.toList hempty
      · apply String.toList_inj.1
        simp [hd]
    · cases h
  · rintro ⟨hne, rfl⟩
    cases hm : m.toList with
    | nil => exact absurd (String.toList_eq_nil_iff.1 hm) hne
    | cons c cs =>
      have hcons : ("[" ++ m).toList = '[' :: c :: cs := by simp [hm]
      unfold member?
      rw [hcons]
      exact congrArg some (String.toList_inj.1 (by rw [String.toList_ofList, hm]))

theorem isArrayType_iff : IsArrayType d ↔ ∃ m, member? d = some m := by
  simp only [member?_eq_some_iff]
  rfl

theorem member?_eq_none_iff : member? d = none ↔ ¬IsArrayType d := by
  rw [isArrayType_iff, Option.eq_none_iff_forall_ne_some, not_exists]

/-- A bracket alone passes for an array although it names no members. -/
theorem isArray_iff : isArray d = true ↔ IsArrayType d ∨ d = "[" := by
  constructor
  · intro h
    unfold isArray at h
    split at h
    · rename_i cs hd
      have htext : d = "[" ++ String.ofList cs := String.toList_inj.1 (by simp [hd])
      by_cases hcs : String.ofList cs = ""
      · exact .inr (by rw [htext, hcs]; rfl)
      · exact .inl ⟨_, hcs, htext⟩
    · cases h
  · rintro (⟨member, -, rfl⟩ | rfl)
    · simp [isArray]
    · rfl

theorem isReference_of_staticType (h : staticType d = .ok type) : isReference d = true := by
  unfold staticType at h
  unfold isReference
  split at h
  · rename_i harray
    rw [harray, Bool.true_or]
  · split at h
    · rename_i name hname
      rw [hname, Option.isSome_some, Bool.or_true]
    · cases h

theorem arrayOf_iff : ArrayOf d type ↔
    ∃ member, member? d = some member ∧ isPrimitive member = false ∧
      staticType member = .ok type := by
  simp only [ArrayOf, member?_eq_some_iff]
  constructor
  · rintro ⟨member, hd, hprimitive, -, htype⟩
    exact ⟨member, hd, hprimitive, htype⟩
  · rintro ⟨member, hd, hprimitive, htype⟩
    exact ⟨member, hd, hprimitive, isReference_of_staticType htype, htype⟩

theorem ArrayOf.isArrayType (h : ArrayOf d type) : IsArrayType d := by
  obtain ⟨member, hd, -⟩ := h
  exact ⟨member, hd⟩

theorem ArrayOf.unique {type' : String} (h : ArrayOf d type) (h' : ArrayOf d type') :
    type = type' := by
  obtain ⟨member, hmember, -, htype⟩ := arrayOf_iff.1 h
  obtain ⟨member', hmember', -, htype'⟩ := arrayOf_iff.1 h'
  cases hmember.symm.trans hmember'
  cases htype.symm.trans htype'
  rfl

theorem not_isArrayType_rootClass : ¬IsArrayType rootClass :=
  member?_eq_none_iff.1 (by decide)

theorem not_isArrayType_of_arrayInterface (h : d ∈ ClassTable.arrayInterfaces) :
    ¬IsArrayType d := by
  unfold ClassTable.arrayInterfaces at h
  simp only [List.mem_cons, List.not_mem_nil, or_false] at h
  rcases h with rfl | rfl <;> exact member?_eq_none_iff.1 (by decide)

end Descriptor

open Relation (ReflTransGen)

namespace ClassTable

/-! ## The search along the edges -/

/-- A known class and one that stands directly above it. -/
def Below (t : ClassTable) (name above : String) : Prop :=
  ∃ c, t.classes.get? name = some c ∧ (c.superclass = some above ∨ above ∈ c.interfaces)

variable {t : ClassTable} {name above target sub sup : String} {met pending : List String}

theorem mem_supertypes {c : ClassInfo} :
    above ∈ supertypes c ↔ c.superclass = some above ∨ above ∈ c.interfaces := by
  rw [supertypes, List.mem_append, Option.mem_toList]

theorem below_iff_mem_supertypes {c : ClassInfo} (hc : t.classes.get? name = some c) :
    t.Below name above ↔ above ∈ supertypes c := by
  simp only [Below, hc, Option.some.injEq, exists_eq_left', mem_supertypes]

theorem not_below_of_unknown (hc : t.classes.get? name = none) : ¬t.Below name above := by
  rintro ⟨c, hsome, -⟩
  cases hc.symm.trans hsome

theorem reaches_of_met (hne : name ≠ target) (hmet : met.contains name = true) :
    t.reaches target met (name :: pending) = t.reaches target met pending := by
  rw [reaches, if_neg hne]
  split
  · rfl
  · rename_i hnot
    cases hmet.symm.trans hnot

theorem reaches_of_unknown (hne : name ≠ target) (hc : t.classes.get? name = none) :
    t.reaches target met (name :: pending) = t.reaches target met pending := by
  rw [reaches, if_neg hne]
  split
  · rfl
  · split
    · rfl
    · rename_i c hsome
      cases hc.symm.trans hsome

theorem reaches_of_known {c : ClassInfo} (hne : name ≠ target) (hmet : met.contains name = false)
    (hc : t.classes.get? name = some c) :
    t.reaches target met (name :: pending) =
      t.reaches target (name :: met) (supertypes c ++ pending) := by
  rw [reaches, if_neg hne]
  split
  · rename_i h
    cases hmet.symm.trans h
  · split
    · rename_i hnone
      cases hc.symm.trans hnone
    · rename_i c' hsome
      cases hc.symm.trans hsome
      rfl

/-- What is found is above one of the pending classes. -/
theorem exists_path_of_reaches (h : t.reaches target met pending = true) :
    ∃ name ∈ pending, ReflTransGen t.Below name target := by
  induction met, pending using reaches.induct t target with
  | case1 met => simp [reaches] at h
  | case2 met pending => exact ⟨target, List.mem_cons_self, .refl⟩
  | case3 met name pending hne hmet ih =>
    obtain ⟨start, hmem, hpath⟩ := ih (reaches_of_met hne hmet ▸ h)
    exact ⟨start, List.mem_cons_of_mem _ hmem, hpath⟩
  | case4 met name pending hne hmet hc ih =>
    obtain ⟨start, hmem, hpath⟩ := ih (reaches_of_unknown hne hc ▸ h)
    exact ⟨start, List.mem_cons_of_mem _ hmem, hpath⟩
  | case5 met name pending hne hmet c hc ih =>
    obtain ⟨start, hmem, hpath⟩ := ih (reaches_of_known hne hmet hc ▸ h)
    rcases List.mem_append.1 hmem with habove | hmem
    · have hedge : t.Below name start := (below_iff_mem_supertypes hc).2 habove
      exact ⟨name, List.mem_cons_self, .head hedge hpath⟩
    · exact ⟨start, List.mem_cons_of_mem _ hmem, hpath⟩

/-- What the search has passed is not the target, and what stands above it was passed as well or is
pending. -/
def Passed (t : ClassTable) (target : String) (pending : List String) (passed : String → Prop) :
    Prop :=
  ∀ name, passed name → name ≠ target ∧ ∀ above, t.Below name above → passed above ∨ above ∈ pending

/-- The search passes the next class when the classes above it are passed or made pending. -/
theorem Passed.advance {passed : String → Prop} {more : List String}
    (h : t.Passed target (name :: pending) passed) (hne : name ≠ target)
    (hname : ∀ above, t.Below name above → passed above ∨ above ∈ name :: (more ++ pending)) :
    t.Passed target (more ++ pending) fun n => passed n ∨ n = name := by
  have hstep : ∀ n above, passed n ∨ n = name → t.Below n above →
      passed above ∨ above ∈ name :: (more ++ pending) := by
    rintro n above (hn | rfl) habove
    · refine ((h n hn).2 above habove).imp_right fun hpending => ?_
      rcases List.mem_cons.1 hpending with rfl | hmem
      · exact List.mem_cons_self
      · exact List.mem_cons_of_mem _ (List.mem_append_right _ hmem)
    · exact hname above habove
  refine fun n hn => ⟨?_, fun above habove => ?_⟩
  · rcases hn with hn | rfl
    · exact (h n hn).1
    · exact hne
  · rcases hstep n above hn habove with hpassed | hmem
    · exact .inl (.inl hpassed)
    · exact (List.mem_cons.1 hmem).imp_left .inr

/-- The classes of a failed search, those passed before and the pending ones among them, are closed
under the edges and miss the target. -/
theorem exists_closed_of_not_reaches {passed : String → Prop}
    (h : t.reaches target met pending = false) (hmet : ∀ name ∈ met, passed name)
    (hpassed : t.Passed target pending passed) :
    ∃ closed : String → Prop, (∀ name, passed name ∨ name ∈ pending → closed name) ∧
      t.Passed target [] closed := by
  -- The next class joins those that are passed.  What stands above it is passed or pending already
  -- if it was met before, and becomes pending if it is met now.
  induction met, pending using reaches.induct t target generalizing passed with
  | case1 met => exact ⟨passed, by simp, hpassed⟩
  | case2 met pending => simp [reaches] at h
  | case3 met name pending hne hin ih =>
    have hname : passed name := hmet name (List.contains_iff_mem.1 hin)
    have hnext : t.Passed target ([] ++ pending) fun n => passed n ∨ n = name :=
      hpassed.advance hne (hpassed name hname).2
    obtain ⟨closed, hclosed, hpass⟩ := ih (reaches_of_met hne hin ▸ h)
      (fun n hn => .inl (hmet n hn)) hnext
    exact ⟨closed, fun n hn => hclosed n (by simpa [or_assoc] using hn), hpass⟩
  | case4 met name pending hne hin hc ih =>
    have hnext : t.Passed target ([] ++ pending) fun n => passed n ∨ n = name :=
      hpassed.advance hne fun above habove => absurd habove (not_below_of_unknown hc)
    obtain ⟨closed, hclosed, hpass⟩ := ih (reaches_of_unknown hne hc ▸ h)
      (fun n hn => .inl (hmet n hn)) hnext
    exact ⟨closed, fun n hn => hclosed n (by simpa [or_assoc] using hn), hpass⟩
  | case5 met name pending hne hin c hc ih =>
    have hnext : t.Passed target (supertypes c ++ pending) fun n => passed n ∨ n = name :=
      hpassed.advance hne fun above habove => .inr (List.mem_cons_of_mem _
        (List.mem_append_left _ ((below_iff_mem_supertypes hc).1 habove)))
    have hmet' : ∀ n ∈ name :: met, passed n ∨ n = name := fun n hn =>
      (List.mem_cons.1 hn).symm.imp_left (hmet n)
    obtain ⟨closed, hclosed, hpass⟩ := ih (reaches_of_known hne hin hc ▸ h) hmet' hnext
    refine ⟨closed, fun n hn => hclosed n ?_, hpass⟩
    rw [List.mem_append]
    simp only [List.mem_cons] at hn
    tauto

theorem Passed.of_path {closed : String → Prop} (h : t.Passed target [] closed)
    (hsub : closed sub) (hpath : ReflTransGen t.Below sub sup) : closed sup := by
  induction hpath with
  | refl => exact hsub
  | tail _ hedge ih => exact ((h _ ih).2 _ hedge).resolve_right List.not_mem_nil

/-- The search finds what is on a path, on every graph. -/
theorem reaches_eq_true_iff : t.reaches sup [] [sub] = true ↔ ReflTransGen t.Below sub sup := by
  constructor
  · intro h
    obtain ⟨start, hstart, hpath⟩ := exists_path_of_reaches h
    rwa [List.mem_singleton.1 hstart] at hpath
  · intro hpath
    by_contra hfail
    have hnone : t.Passed sup [sub] fun _ => False := nofun
    obtain ⟨closed, hclosed, hpass⟩ :=
      exists_closed_of_not_reaches (Bool.eq_false_iff.2 hfail) nofun hnone
    have hsup : closed sup := hpass.of_path (hclosed sub (.inr List.mem_cons_self)) hpath
    exact (hpass sup hsup).1 rfl

/-! ## The rules -/

/-- A type and one that it may stand for. -/
inductive Assignable (t : ClassTable) : String → String → Prop
  | refl (type : String) : Assignable t type type
  | root (sub : String) : Assignable t sub rootClass
  /-- Arrays of references, by the static types of their members. -/
  | members {sub sup subType supType : String} (hsub : Descriptor.ArrayOf sub subType)
      (hsup : Descriptor.ArrayOf sup supType) (h : Assignable t subType supType) :
      Assignable t sub sup
  /-- Arrays of all kinds, as what every array is. -/
  | array {sub sup : String} (hsub : Descriptor.IsArrayType sub)
      (hsup : sup = "java/lang/Cloneable" ∨ sup = "java/io/Serializable") : Assignable t sub sup
  /-- Types that are no arrays, along the edges. -/
  | above {sub sup : String} (hsub : ¬Descriptor.IsArrayType sub)
      (hsup : ¬Descriptor.IsArrayType sup) (h : ReflTransGen t.Below sub sup) : Assignable t sub sup

theorem isAssignable_of_eq (h : sub = sup ∨ sup = rootClass) : t.isAssignable sub sup = true := by
  rw [isAssignable, if_pos h]

theorem isAssignable_of_ne (h : ¬(sub = sup ∨ sup = rootClass)) :
    t.isAssignable sub sup =
      match Descriptor.member? sub, Descriptor.member? sup with
      | some subMember, some supMember =>
        if Descriptor.isPrimitive subMember || Descriptor.isPrimitive supMember then
          subMember == supMember
        else
          match Descriptor.staticType subMember, Descriptor.staticType supMember with
          | .ok subType, .ok supType => t.isAssignable subType supType
          | _, _ => false
      | some _, none => arrayInterfaces.contains sup
      | none, some _ => false
      | none, none => t.reaches sup [] [sub] := by
  rw [isAssignable, if_neg h]
  split
  · rename_i hsub hsup
    simp only [hsub, hsup]
    split
    · rfl
    · split
      · rename_i hsubType hsupType
        simp only [hsubType, hsupType]
      · rename_i hnone
        split
        · rename_i hsubType hsupType
          exact (hnone _ _ hsubType hsupType).elim
        · rfl
  · rename_i hsub hsup
    simp only [hsub, hsup]
  · rename_i hsub hsup
    simp only [hsub, hsup]
  · rename_i hsub hsup
    simp only [hsub, hsup]

theorem assignable_of_isAssignable (h : t.isAssignable sub sup = true) : t.Assignable sub sup := by
  induction sub, sup using isAssignable.induct with
  | case1 sub sup heq =>
    rcases heq with rfl | rfl
    · exact .refl sub
    · exact .root sub
  | case2 sub sup hne subMember supMember hsub hsup hprimitive =>
    rw [isAssignable_of_ne hne, hsub, hsup] at h
    simp only [hprimitive, if_true, beq_iff_eq] at h
    have heq : sub = sup := by
      rw [(Descriptor.member?_eq_some_iff.1 hsub).2, (Descriptor.member?_eq_some_iff.1 hsup).2, h]
    exact absurd (.inl heq) hne
  | case3 sub sup hne subMember supMember hsub hsup hprimitive subType supType hsubType hsupType
      ih =>
    rw [isAssignable_of_ne hne, hsub, hsup] at h
    simp only [hprimitive, Bool.false_eq_true, if_false, hsubType, hsupType] at h
    rw [Bool.not_eq_true, Bool.or_eq_false_iff] at hprimitive
    exact .members (Descriptor.arrayOf_iff.2 ⟨_, hsub, hprimitive.1, hsubType⟩)
      (Descriptor.arrayOf_iff.2 ⟨_, hsup, hprimitive.2, hsupType⟩) (ih h)
  | case4 sub sup hne subMember supMember hsub hsup hprimitive hnone =>
    rw [isAssignable_of_ne hne, hsub, hsup] at h
    simp only [hprimitive, Bool.false_eq_true, if_false] at h
  | case5 sub sup hne subMember hsub hsup =>
    rw [isAssignable_of_ne hne, hsub, hsup] at h
    simp only [arrayInterfaces, List.contains_cons, List.contains_nil, Bool.or_false,
      Bool.or_eq_true, beq_iff_eq] at h
    exact .array (Descriptor.isArrayType_iff.2 ⟨_, hsub⟩) h
  | case6 sub sup hne supMember hsub hsup =>
    rw [isAssignable_of_ne hne, hsub, hsup] at h
    cases h
  | case7 sub sup hne hsub hsup =>
    rw [isAssignable_of_ne hne, hsub, hsup] at h
    exact .above (Descriptor.member?_eq_none_iff.1 hsub) (Descriptor.member?_eq_none_iff.1 hsup)
      (reaches_eq_true_iff.1 h)

theorem Assignable.isAssignable (h : t.Assignable sub sup) : t.isAssignable sub sup = true := by
  induction h with
  | refl type => exact isAssignable_of_eq (.inl rfl)
  | root sub => exact isAssignable_of_eq (.inr rfl)
  | @members sub sup _ _ hsub hsup _ ih =>
    by_cases heq : sub = sup ∨ sup = rootClass
    · exact isAssignable_of_eq heq
    · obtain ⟨subMember, hsub, hsubPrimitive, hsubType⟩ := Descriptor.arrayOf_iff.1 hsub
      obtain ⟨supMember, hsup, hsupPrimitive, hsupType⟩ := Descriptor.arrayOf_iff.1 hsup
      rw [isAssignable_of_ne heq, hsub, hsup]
      simp only [hsubPrimitive, hsupPrimitive, Bool.or_false, Bool.false_eq_true, if_false,
        hsubType, hsupType, ih]
  | @array sub sup hsub hsup =>
    by_cases heq : sub = sup ∨ sup = rootClass
    · exact isAssignable_of_eq heq
    · obtain ⟨member, hmember⟩ := Descriptor.isArrayType_iff.1 hsub
      have hlisted : sup ∈ arrayInterfaces := by simpa [arrayInterfaces] using hsup
      have hnone := Descriptor.member?_eq_none_iff.2
        (Descriptor.not_isArrayType_of_arrayInterface hlisted)
      rw [isAssignable_of_ne heq, hmember, hnone]
      exact List.contains_iff_mem.2 hlisted
  | @above sub sup hsub hsup hpath =>
    by_cases heq : sub = sup ∨ sup = rootClass
    · exact isAssignable_of_eq heq
    · rw [isAssignable_of_ne heq, Descriptor.member?_eq_none_iff.2 hsub,
        Descriptor.member?_eq_none_iff.2 hsup]
      exact reaches_eq_true_iff.2 hpath

/-- The answers are those of the rules. -/
theorem isAssignable_iff : t.isAssignable sub sup = true ↔ t.Assignable sub sup :=
  ⟨assignable_of_isAssignable, Assignable.isAssignable⟩

/-! ## Chains of types -/

/-- What is above a type that is no array: the root, or what a path leads to. -/
theorem Assignable.of_not_isArrayType (h : t.Assignable sub sup)
    (hsub : ¬Descriptor.IsArrayType sub) :
    sup = rootClass ∨ ¬Descriptor.IsArrayType sup ∧ ReflTransGen t.Below sub sup := by
  cases h with
  | refl => exact .inr ⟨hsub, .refl⟩
  | root => exact .inl rfl
  | members harray => exact absurd harray.isArrayType hsub
  | array harray => exact absurd harray hsub
  | above _ hsup hpath => exact .inr ⟨hsup, hpath⟩

/-- Nothing stands above the root, and only the root above the interfaces of arrays. -/
structure Topped (t : ClassTable) : Prop where
  root : ∀ above, ¬t.Below rootClass above
  interfaces : ∀ name ∈ arrayInterfaces, ∀ above, t.Below name above → above = rootClass

theorem Topped.eq_root_of_path (ht : t.Topped) (h : ReflTransGen t.Below rootClass sup) :
    sup = rootClass := by
  rcases h.cases_head with heq | ⟨above, hedge, -⟩
  · exact heq.symm
  · exact absurd hedge (ht.root above)

theorem Topped.eq_or_root_of_path (ht : t.Topped) (hname : name ∈ arrayInterfaces)
    (h : ReflTransGen t.Below name sup) : sup = name ∨ sup = rootClass := by
  rcases h.cases_head with heq | ⟨above, hedge, hpath⟩
  · exact .inl heq.symm
  · rw [ht.interfaces name hname above hedge] at hpath
    exact .inr (ht.eq_root_of_path hpath)

theorem Assignable.trans (ht : t.Topped) {a b c : String} (h : t.Assignable a b)
    (h' : t.Assignable b c) : t.Assignable a c := by
  -- Along the first derivation, which goes down to the members of arrays.  Where both derivations
  -- do, the arrays in the middle have one static type of their members.
  induction h generalizing c with
  | refl a => exact h'
  | root a =>
    have hc : c = rootClass :=
      (h'.of_not_isArrayType Descriptor.not_isArrayType_rootClass).elim id fun hpath =>
        ht.eq_root_of_path hpath.2
    rw [hc]
    exact .root a
  | members hsub hsup h ih =>
    cases h' with
    | refl => exact .members hsub hsup h
    | root => exact .root _
    | members hsub' hsup' hmembers =>
      rw [← hsup.unique hsub'] at hmembers
      exact .members hsub hsup' (ih hmembers)
    | array _ hinterface => exact .array hsub.isArrayType hinterface
    | above hnot => exact absurd hsup.isArrayType hnot
  | @array a b hsub hinterface =>
    have hb : b ∈ arrayInterfaces := by simpa [arrayInterfaces] using hinterface
    have hc : c = b ∨ c = rootClass :=
      (h'.of_not_isArrayType (Descriptor.not_isArrayType_of_arrayInterface hb)).elim .inr
        fun hpath => ht.eq_or_root_of_path hb hpath.2
    rcases hc with rfl | rfl
    · exact .array hsub hinterface
    · exact .root a
  | above hsub hsup hpath =>
    rcases h'.of_not_isArrayType hsup with rfl | ⟨hc, hpath'⟩
    · exact .root _
    · exact .above hsub hc (hpath.trans hpath')

/-! ## The concrete classes below a class -/

/-- The names in ascending order of the concrete classes that are assignable to a type. -/
def IsExpansion (t : ClassTable) (type : String) (names : List String) : Prop :=
  names.Pairwise (· < ·) ∧ ∀ name, name ∈ names ↔
    ∃ c, t.classes.get? name = some c ∧ c.isConcrete = true ∧ t.isAssignable name type = true

/-- The expansion of a known class, when its name does not begin as an array type does. -/
theorem exists_isExpansion {type : String} {c : ClassInfo} (hc : t.classes.get? type = some c)
    (harray : Descriptor.isArray type = false) :
    ∃ names, t.expansionClasses type = .ok names ∧ t.IsExpansion type names := by
  have hfind : t.find type = .ok c := by rw [find, hc]
  rw [expansionClasses, harray, hfind]
  refine ⟨_, rfl, ?_, fun name => ?_⟩
  · exact List.pairwise_map.2 (t.classes.sorted.filter _)
  · simp only [List.mem_map, List.mem_filter, Bool.and_eq_true, Prod.exists,
      OrderedMap.mem_entries_iff]
    constructor
    · rintro ⟨name, c, ⟨hget, hfits⟩, rfl⟩
      exact ⟨c, hget, hfits⟩
    · rintro ⟨c, hget, hfits⟩
      exact ⟨name, c, ⟨hget, hfits⟩, rfl⟩

/-- Assignability follows the graph of the classes, cyclic or not, by the rules of `Assignable`.
Where the root and the interfaces of arrays stand at the top, it is transitive.  A known class
that neither is an array type nor is called by a bracket alone expands to the concrete classes
assignable to it. -/
theorem assignability_follows_hierarchy (t : ClassTable) :
    (∀ sub sup, t.isAssignable sub sup = true ↔ t.Assignable sub sup) ∧
    (t.Topped → ∀ a b c, t.isAssignable a b = true → t.isAssignable b c = true →
      t.isAssignable a c = true) ∧
    ∀ type c, t.classes.get? type = some c → ¬Descriptor.IsArrayType type → type ≠ "[" →
      ∃ names, t.expansionClasses type = .ok names ∧ t.IsExpansion type names := by
  refine ⟨fun _ _ => isAssignable_iff, ?_, ?_⟩
  · intro ht a b c hab hbc
    exact isAssignable_iff.2 ((isAssignable_iff.1 hab).trans ht (isAssignable_iff.1 hbc))
  · intro type c hc hnot hbracket
    have harray : Descriptor.isArray type = false :=
      Bool.eq_false_iff.2 fun h => (Descriptor.isArray_iff.1 h).elim hnot hbracket
    exact exists_isExpansion hc harray

/-- A class that inherits an interface of arrays stands for the interface, and the interface
expands to the concrete classes that have it. -/
theorem derived_fits_inherited_interface :
    let t := ofList [(ClassInfo.named "java/lang/Cloneable").asInterface,
      (ClassInfo.named "app/Base").asAbstract.implementing "java/lang/Cloneable",
      (ClassInfo.named "app/Derived").extending "app/Base"]
    t.Topped ∧ t.isAssignable "app/Derived" "java/lang/Cloneable" = true ∧
      ∃ names, t.expansionClasses "java/lang/Cloneable" = .ok names ∧ "app/Derived" ∈ names ∧
        "app/Base" ∉ names := by
  intro t
  obtain ⟨hrules, htrans, hexpansion⟩ := assignability_follows_hierarchy t
  have hinterface : t.classes.get? "java/lang/Cloneable" =
    some (ClassInfo.named "java/lang/Cloneable").asInterface := rfl
  have hbase : t.classes.get? "app/Base" =
    some ((ClassInfo.named "app/Base").asAbstract.implementing "java/lang/Cloneable") := rfl
  have hderived : t.classes.get? "app/Derived" =
    some ((ClassInfo.named "app/Derived").extending "app/Base") := rfl
  have hnot : ¬Descriptor.IsArrayType "java/lang/Cloneable" :=
    Descriptor.member?_eq_none_iff.1 (by decide)
  have htop : t.Topped := by
    refine ⟨?_, fun name hname above => ?_⟩
    · rintro above ⟨c, hc, habove⟩
      cases hc
      exact habove.elim nofun nofun
    · simp only [arrayInterfaces, List.mem_cons, List.not_mem_nil, or_false] at hname
      rintro ⟨c, hc, habove⟩
      rcases hname with rfl | rfl
      · cases hc
        exact habove.elim (fun h => (Option.some.inj h).symm) nofun
      · cases hc
  have hsub : t.isAssignable "app/Derived" "app/Base" = true :=
    (hrules _ _).2 (.above (Descriptor.member?_eq_none_iff.1 (by decide))
      (Descriptor.member?_eq_none_iff.1 (by decide)) (.single ⟨_, hderived, .inl rfl⟩))
  have hsup : t.isAssignable "app/Base" "java/lang/Cloneable" = true :=
    (hrules _ _).2 (.above (Descriptor.member?_eq_none_iff.1 (by decide)) hnot
      (.single ⟨_, hbase, .inr List.mem_cons_self⟩))
  have hfits : t.isAssignable "app/Derived" "java/lang/Cloneable" = true :=
    htrans htop _ _ _ hsub hsup
  obtain ⟨names, hnames, -, hmem⟩ := hexpansion _ _ hinterface hnot (by decide)
  refine ⟨htop, hfits, names, hnames, (hmem _).2 ⟨_, hderived, rfl, hfits⟩, fun h => ?_⟩
  obtain ⟨c, hc, hconcrete, -⟩ := (hmem _).1 h
  cases hbase.symm.trans hc
  exact absurd hconcrete (by decide)

/-- A class called by a bracket alone is no array type and yet expands to itself, also when it is
abstract. -/
theorem bracket_expands_to_itself :
    ¬∀ (t : ClassTable) (type : String) (c : ClassInfo), t.classes.get? type = some c →
      ¬Descriptor.IsArrayType type →
      ∃ names, t.expansionClasses type = .ok names ∧ t.IsExpansion type names := by
  intro h
  let bracket := (ClassInfo.named "[").asAbstract
  have hget : (initial.insert bracket).classes.get? "[" = some bracket :=
    OrderedMap.get?_insert_self ..
  obtain ⟨names, hnames, -, hmem⟩ := h (initial.insert bracket) "[" bracket hget
    (Descriptor.member?_eq_none_iff.1 (by decide))
  cases (expansionClasses_of_isArray (by decide)).symm.trans hnames
  obtain ⟨c, hc, hconcrete, -⟩ := (hmem "[").1 List.mem_cons_self
  cases hget.symm.trans hc
  exact absurd hconcrete (by decide)

end ClassTable

end SymbolicMachine
