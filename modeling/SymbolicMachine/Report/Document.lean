import SymbolicMachine.Text.Quoted
/-!
# Structured text

A tree of flags, numbers, texts, lists and named members, and its layout over several lines: members
and elements stand on lines of their own, indented by two spaces for each level, and an empty
list or group stands on one line.
-/
namespace SymbolicMachine

/-- A structured text. -/
inductive Document where
  | null
  | flag (value : Bool)
  | number (value : Nat)
  | text (value : String)
  | list (elements : List Document)
  /-- Named members, in order. -/
  | group (members : List (String × Document))

namespace Document

def fourDigits (n : Nat) : List Char :=
  let digits := Text.hexDigits n
  List.replicate (4 - digits.length) '0' ++ digits

def escape (c : Char) : List Char :=
  if c = '"' then ['\\', '"']
  else if c = '\\' then ['\\', '\\']
  else if c = '\n' then ['\\', 'n']
  else if c = '\r' then ['\\', 'r']
  else if c = '\t' then ['\\', 't']
  else if c = '\x08' then ['\\', 'b']
  else if c = '\x0c' then ['\\', 'f']
  else if c.toNat < 32 then ['\\', 'u'] ++ fourDigits c.toNat
  else [c]

def quote (s : String) : List Char := '"' :: s.toList.flatMap escape ++ ['"']

def newline (level : Nat) : List Char := '\n' :: List.replicate (2 * level) ' '

/-- Elements that are laid out already, one a line between two brackets. -/
def bracketed (level : Nat) (left right : Char) (elements : List (List Char)) : List Char :=
  if elements.isEmpty then [left, right]
  else
    let lines := elements.map fun e => newline (level + 1) ++ e
    left :: List.intercalate [','] lines ++ newline level ++ [right]

mutual

def layout (level : Nat) : Document → List Char
  | null => ['n', 'u', 'l', 'l']
  | flag b => if b then ['t', 'r', 'u', 'e'] else ['f', 'a', 'l', 's', 'e']
  | number n => Nat.toDigits 10 n
  | text s => quote s
  | list elements => bracketed level '[' ']' (layoutElements (level + 1) elements)
  | group members => bracketed level '\x7b' '\x7d' (layoutMembers (level + 1) members)

def layoutElements (level : Nat) : List Document → List (List Char)
  | [] => []
  | d :: rest => layout level d :: layoutElements level rest

def layoutMembers (level : Nat) : List (String × Document) → List (List Char)
  | [] => []
  | (name, d) :: rest => (quote name ++ [':', ' '] ++ layout level d) :: layoutMembers level rest

end

def pretty (d : Document) : String := String.ofList (layout 0 d)

def ofText? : Option String → Document
  | some s => text s
  | none => null

def ofTexts (texts : List String) : Document := list (texts.map text)

end Document

end SymbolicMachine
