import SymbolicMachine.OrderedMap
import SymbolicMachine.Types.ClassInfo
/-!
# The class hierarchy

The known classes by name, and the questions that are asked of them: which class a name means
to the class that uses it, which types are assignable to which, which concrete classes a
reference may point at, and which fields an instance has.  Superclass and interface names need
not be known and may form cycles; the searches count the known classes they have not met yet,
and so they end on every table.  Fields are collected up a chain of superclasses without a look
at the classes met before, so that a chain which comes back to one of them is followed for ever:
here that is an outcome of its own.
-/
namespace SymbolicMachine

/-- Why a class cannot be used. -/
inductive ClassError where
  /-- No class has the name. -/
  | notFound (className : String)
  /-- The class is not visible in the package of the class that uses it. -/
  | notAccessible (className accessor : String)
  /-- The class is above itself, so that its superclasses are followed for ever.  No caller sees
  this, because the call that follows them does not come back. -/
  | endless (className : String)
  deriving DecidableEq, Repr

def ClassError.message : ClassError → String
  | .notFound c => s!"Class {c} was not found"
  | .notAccessible c accessor => s!"Class {c} is not accessible from {accessor}"
  | .endless c => s!"Class {c} is above itself"

def ClassError.isEndless : ClassError → Bool
  | .endless _ => true
  | _ => false

/-- The known classes. -/
structure ClassTable where
  classes : OrderedMap String ClassInfo

namespace ClassTable

/-- The table that knows the root class only. -/
def initial : ClassTable := ⟨OrderedMap.empty.insert rootClass (.named rootClass)⟩

/-- Adds a class, in place of any class of the same name. -/
def insert (t : ClassTable) (c : ClassInfo) : ClassTable := ⟨t.classes.insert c.name c⟩

/-- The table of the root class and the classes of a list; of two classes of one name the later
counts. -/
def ofList (classes : List ClassInfo) : ClassTable := classes.foldl insert initial

/-- The number of known classes. -/
def size (t : ClassTable) : Nat := t.classes.size

/-- The names of the known classes in ascending order. -/
def names (t : ClassTable) : List String := t.classes.keys

def find (t : ClassTable) (name : String) : Except ClassError ClassInfo :=
  match t.classes.get? name with
  | some c => .ok c
  | none => .error (.notFound name)

/-- The class that a name means to another class.  A class that is not public is visible in its
own package only. -/
def resolve (t : ClassTable) (accessor name : String) : Except ClassError ClassInfo := do
  let c ← t.find name
  if c.isPublic || c.package == Descriptor.package accessor then .ok c
  else .error (.notAccessible name accessor)

/-! ## Walking the hierarchy -/

/-- The known classes that are not in a list. -/
def unmet (t : ClassTable) (met : List String) : List String :=
  t.names.filter fun name => !met.contains name

theorem length_filter_lt {α : Type} {p q : α → Bool} {l : List α} {x : α} (hx : x ∈ l)
    (hp : p x = true) (hq : q x = false) (hsub : ∀ y, q y = true → p y = true) :
    (l.filter q).length < (l.filter p).length := by
  induction l with
  | nil => simp at hx
  | cons y rest ih =>
    have hle : (rest.filter q).length ≤ (rest.filter p).length := by
      rw [← List.countP_eq_length_filter, ← List.countP_eq_length_filter]
      exact List.countP_mono_left fun z _ hz => hsub z hz
    rcases List.mem_cons.mp hx with rfl | hrest
    · simp only [List.filter_cons, hp, hq, if_true]
      simp only [Bool.false_eq_true, if_false, List.length_cons]
      omega
    · have hlt := ih hrest
      by_cases hqy : q y = true
      · simp only [List.filter_cons, hqy, hsub y hqy, if_true, List.length_cons]
        omega
      · by_cases hpy : p y = true
        · simp only [List.filter_cons, hqy, hpy, if_true, Bool.false_eq_true, if_false,
            List.length_cons]
          omega
        · simp only [List.filter_cons, hqy, hpy, Bool.false_eq_true, if_false]
          exact hlt

/-- Meeting a known class for the first time leaves fewer classes unmet. -/
theorem unmet_cons_lt {t : ClassTable} {met : List String} {name : String} {c : ClassInfo}
    (hc : t.classes.get? name = some c) (hm : met.contains name = false) :
    (t.unmet (name :: met)).length < (t.unmet met).length := by
  have hknown : name ∈ t.names := List.mem_map_of_mem (OrderedMap.mem_of_find hc)
  refine length_filter_lt hknown ?_ ?_ ?_
  · simp only [hm, Bool.not_false]
  · simp
  · intro y hy
    simp only [List.contains_cons, Bool.not_or, Bool.and_eq_true] at hy
    exact hy.2

/-- The classes directly above a class. -/
def supertypes (c : ClassInfo) : List String := c.superclass.toList ++ c.interfaces

/-- Whether a class is met when the supertypes of the pending classes are followed, not going
beyond the classes met before. -/
def reaches (t : ClassTable) (target : String) (met : List String) : List String → Bool
  | [] => false
  | name :: pending =>
    if name = target then true
    else
      match _hm : met.contains name with
      | true => reaches t target met pending
      | false =>
        match _hc : t.classes.get? name with
        | none => reaches t target met pending
        | some c => reaches t target (name :: met) (supertypes c ++ pending)
  termination_by pending => ((t.unmet met).length, pending.length)
  decreasing_by
    · exact Prod.Lex.right _ (Nat.lt_succ_self _)
    · exact Prod.Lex.right _ (Nat.lt_succ_self _)
    · exact Prod.Lex.left _ _ (unmet_cons_lt _hc _hm)

/-! ## Assignability -/

def arrayInterfaces : List String := ["java/lang/Cloneable", "java/io/Serializable"]

theorem length_of_member? {d m : String} (h : Descriptor.member? d = some m) :
    m.toList.length < d.toList.length := by
  unfold Descriptor.member? at h
  split at h
  · rename_i c cs hd
    cases h
    simp [hd]
  · cases h

theorem length_of_staticType {d s : String} (h : Descriptor.staticType d = .ok s) :
    s.toList.length ≤ d.toList.length := by
  unfold Descriptor.staticType at h
  split at h
  · cases h
    exact Nat.le_refl _
  · split at h
    · rename_i name hn
      cases h
      unfold Descriptor.className? at hn
      split at hn
      · rename_i cs hd
        split at hn
        · cases hn
          simp [hd]
          omega
        · cases hn
      · cases hn
    · cases h

/-- Whether a value of one type may be used as the other.  Types are class names and array
descriptors.  Arrays of primitives are assignable only if their members are the same, and
arrays of references if their members are. -/
def isAssignable (t : ClassTable) (sub sup : String) : Bool :=
  if sub = sup ∨ sup = rootClass then true
  else
    match _hm : Descriptor.member? sub, Descriptor.member? sup with
    | some subMember, some supMember =>
      if Descriptor.isPrimitive subMember || Descriptor.isPrimitive supMember then
        subMember == supMember
      else
        match _hs : Descriptor.staticType subMember, Descriptor.staticType supMember with
        | .ok subType, .ok supType => isAssignable t subType supType
        | _, _ => false
    | some _, none => arrayInterfaces.contains sup
    | none, some _ => false
    | none, none => t.reaches sup [] [sub]
  termination_by sub.toList.length
  decreasing_by
    exact Nat.lt_of_le_of_lt (length_of_staticType _hs) (length_of_member? _hm)

/-- The classes that a reference of a static type may be expanded to: the array type itself,
or the concrete classes assignable to a known class in ascending order. -/
def expansionClasses (t : ClassTable) (staticType : String) :
    Except ClassError (List String) :=
  if Descriptor.isArray staticType then .ok [staticType]
  else do
    let _ ← t.find staticType
    let concrete := t.classes.entries.filter fun (name, c) =>
      c.isConcrete && t.isAssignable name staticType
    .ok (concrete.map (·.1))

/-! ## Fields -/

/-- The instance fields of a class behind those that it inherits, after some classes below it.  A
class that was met before is above itself. -/
def fieldsFrom (t : ClassTable) (met : List String) (name : String) :
    Except ClassError (List FieldInfo) :=
  match _hm : met.contains name with
  | true => .error (.endless name)
  | false =>
    match _hc : t.classes.get? name with
    | none => .error (.notFound name)
    | some c =>
      match c.superclass with
      | none => .ok c.instanceFields
      | some superclass =>
        match fieldsFrom t (name :: met) superclass with
        | .ok inherited => .ok (inherited ++ c.instanceFields)
        | .error e => .error e
  termination_by (t.unmet met).length
  decreasing_by exact unmet_cons_lt _hc _hm

/-- The fields of an instance of a class, those of the root first.  All superclasses must be
known, and there must be a last one. -/
def instanceFields (t : ClassTable) (name : String) : Except ClassError (List FieldInfo) :=
  t.fieldsFrom [] name

/-- Whether the fields of a class are looked for without end. -/
def isEndless (t : ClassTable) (name : String) : Bool :=
  match t.instanceFields name with
  | .error cause => cause.isEndless
  | .ok _ => false

end ClassTable

end SymbolicMachine
