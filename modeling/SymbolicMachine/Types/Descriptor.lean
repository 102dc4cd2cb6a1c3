import SymbolicMachine.Types.PrimType
import SymbolicMachine.Types.ValueError
/-!
# Descriptors

The texts by which programs name types.  A field descriptor is a primitive letter, a class
name between `L` and `;`, or `[` before the descriptor of the members.  The static type of a
reference is a class name for objects and an array descriptor for arrays.  A method descriptor
lists the field descriptors of its parameters between parentheses, before the return type.

The tests on a whole descriptor look at its ends only, so they also classify texts that are
not well formed; `parameterTypes` scans the parameter list in full.
-/
namespace SymbolicMachine.Descriptor

def isArray (d : String) : Bool :=
  match d.toList with
  | '[' :: _ => true
  | _ => false

/-- The text between a leading `L` and a trailing `;`. -/
def className? : List Char → Option (List Char)
  | 'L' :: cs => if cs.getLast? = some ';' then some cs.dropLast else none
  | _ => none

def isReference (d : String) : Bool := isArray d || (className? d.toList).isSome

/-- Whether a descriptor denotes the absence of a result. -/
def isVoid (d : String) : Bool := d == "V"

/-- The primitive type that a whole descriptor denotes. -/
def primType? (d : String) : Option PrimType :=
  match d.toList with
  | [c] => PrimType.ofLetter? c
  | _ => none

def isPrimitive (d : String) : Bool := (primType? d).isSome

def member? (d : String) : Option String :=
  match d.toList with
  | '[' :: c :: cs => some (String.ofList (c :: cs))
  | _ => none

/-- The static type that a reference descriptor declares: the class name of an object type,
and the descriptor itself of an array type. -/
def staticType (d : String) : Except ValueError String :=
  if isArray d then .ok d
  else
    match className? d.toList with
    | some name => .ok (String.ofList name)
    | none => .error (.invalidDescriptor d)

/-- Splits a method descriptor at the first closing parenthesis, into the parameter list and
the return type. -/
def splitMethod? (d : String) : Option (List Char × List Char) :=
  match d.toList with
  | '(' :: cs =>
    match cs.dropWhile (· != ')') with
    | _ :: result => some (cs.takeWhile (· != ')'), result)
    | [] => none
  | _ => none

def returnType (d : String) : Except ValueError String :=
  match splitMethod? d with
  | some (_, c :: cs) => .ok (String.ofList (c :: cs))
  | _ => .error (.invalidDescriptor d)

/-- Scans one field descriptor, and returns it with the text behind it. -/
def scanField : List Char → Option (List Char × List Char)
  | [] => none
  | '[' :: cs => (scanField cs).map fun (member, rest) => ('[' :: member, rest)
  | 'L' :: cs =>
    match cs.dropWhile (· != ';') with
    | semicolon :: rest => some ('L' :: cs.takeWhile (· != ';') ++ [semicolon], rest)
    | [] => none
  | c :: cs => if (PrimType.ofLetter? c).isSome then some ([c], cs) else none

/-- Scanning splits the text: nothing is lost and nothing is added. -/
theorem scanField_append {cs field rest : List Char} (h : scanField cs = some (field, rest)) :
    field ++ rest = cs := by
  induction cs using scanField.induct generalizing field rest with
  | case1 => simp [scanField] at h
  | case2 cs ih =>
    simp only [scanField, Option.map_eq_some_iff] at h
    obtain ⟨⟨member, rest'⟩, hs, he⟩ := h
    simp only [Prod.mk.injEq] at he
    obtain ⟨rfl, rfl⟩ := he
    simp [ih hs]
  | case3 cs semicolon rest' hd =>
    simp only [scanField, hd, Option.some.injEq, Prod.mk.injEq] at h
    obtain ⟨rfl, rfl⟩ := h
    have hsplit : cs.takeWhile (· != ';') ++ cs.dropWhile (· != ';') = cs :=
      List.takeWhile_append_dropWhile
    rw [hd] at hsplit
    simpa using hsplit
  | case4 cs hd => simp [scanField, hd] at h
  | case5 c cs h1 h2 hc =>
    unfold scanField at h
    simp_all only [Option.some.injEq, Prod.mk.injEq, if_true]
    obtain ⟨rfl, rfl⟩ := h
    rfl
  | case6 c cs h1 h2 hc =>
    unfold scanField at h
    simp_all

theorem scanField_ne_nil {cs field rest : List Char} (h : scanField cs = some (field, rest)) :
    field ≠ [] := by
  unfold scanField at h
  split at h
  · simp at h
  · simp only [Option.map_eq_some_iff, Prod.mk.injEq] at h
    obtain ⟨_, _, rfl, _⟩ := h
    simp
  · split at h <;> simp_all
    rw [← h.1]; simp
  · split at h <;> simp_all
    rw [← h.1]; simp

/-- What is left after a field descriptor is shorter than the text. -/
theorem scanField_rest_length {cs field rest : List Char}
    (h : scanField cs = some (field, rest)) : rest.length < cs.length := by
  have happ := congrArg List.length (scanField_append h)
  have hne := List.length_pos_iff.mpr (scanField_ne_nil h)
  simp only [List.length_append] at happ
  omega

def scanFields (cs : List Char) : Option (List (List Char)) :=
  if cs = [] then some []
  else
    match _h : scanField cs with
    | none => none
    | some (field, rest) => (scanFields rest).map (field :: ·)
  termination_by cs.length
  decreasing_by exact scanField_rest_length _h

/-- The field descriptors of the parameters of a method, in declaration order. -/
def parameterTypes (d : String) : Except ValueError (List String) :=
  match (splitMethod? d).bind fun (parameters, _) => scanFields parameters with
  | some fields => .ok (fields.map String.ofList)
  | none => .error (.invalidDescriptor d)

/-- The package of a class name: what stands before its last slash. -/
def package (name : String) : String :=
  String.ofList ((name.toList.reverse.dropWhile (· != '/')).drop 1).reverse

end SymbolicMachine.Descriptor
