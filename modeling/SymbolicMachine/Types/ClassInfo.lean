import SymbolicMachine.Types.Descriptor
/-!
# Classes, fields and methods

What is known of a class: its name, its place in the hierarchy and its fields.  A class
extends the root class and is public and concrete unless it is said otherwise.
-/
namespace SymbolicMachine

def rootClass : String := "java/lang/Object"

/-- A method, by its class, name and descriptor. -/
structure MethodSignature where
  className : String
  name : String
  descriptor : String
  deriving DecidableEq, Repr

def MethodSignature.text (m : MethodSignature) : String := s!"{m.className}:{m.name}:{m.descriptor}"

/-- A field that a class declares. -/
structure FieldInfo where
  name : String
  descriptor : String
  /-- Whether the field belongs to the class rather than to its instances. -/
  isStatic : Bool
  deriving DecidableEq, Repr

/-- A class. -/
structure ClassInfo where
  name : String
  superclass : Option String
  interfaces : List String
  /-- Whether every package may use it. -/
  isPublic : Bool
  /-- Whether it has no instances of its own. -/
  isAbstract : Bool
  isInterface : Bool
  fields : List FieldInfo
  deriving DecidableEq, Repr

namespace ClassInfo

/-- A public concrete class without fields, that extends the root class unless it is it. -/
def named (name : String) : ClassInfo :=
  { name := name
    superclass := if name = rootClass then none else some rootClass
    interfaces := []
    isPublic := true
    isAbstract := false
    isInterface := false
    fields := [] }

def extending (c : ClassInfo) (superclass : String) : ClassInfo :=
  { c with superclass := some superclass }

def implementing (c : ClassInfo) (name : String) : ClassInfo :=
  { c with interfaces := c.interfaces ++ [name] }

def withField (c : ClassInfo) (name descriptor : String) : ClassInfo :=
  { c with fields := c.fields ++ [⟨name, descriptor, false⟩] }

/-- The class with one more field of its own. -/
def withStaticField (c : ClassInfo) (name descriptor : String) : ClassInfo :=
  { c with fields := c.fields ++ [⟨name, descriptor, true⟩] }

/-- The class made an interface, which has no instances of its own. -/
def asInterface (c : ClassInfo) : ClassInfo := { c with isInterface := true, isAbstract := true }

def asAbstract (c : ClassInfo) : ClassInfo := { c with isAbstract := true }

/-- The class made visible in its own package only. -/
def packagePrivate (c : ClassInfo) : ClassInfo := { c with isPublic := false }

def package (c : ClassInfo) : String := Descriptor.package c.name

/-- Whether the class has instances of its own. -/
def isConcrete (c : ClassInfo) : Bool := !c.isAbstract && !c.isInterface

/-- The fields that each instance has because of this class. -/
def instanceFields (c : ClassInfo) : List FieldInfo := c.fields.filter (!·.isStatic)

end ClassInfo

end SymbolicMachine
