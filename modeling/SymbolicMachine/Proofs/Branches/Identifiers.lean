import SymbolicMachine.State
/-!
# Identifiers of branches

The identifier of a state writes the numbers of its branches one after another, each behind a dot.
A numeral has no dot in it, so the numbers can be read off again: states with one identifier are
on the same branches, and an identifier that goes on behind a dot belongs to a branch further on.
-/
namespace SymbolicMachine

/-- The text of an identifier. -/
def dotted (branches : List Nat) : List Char :=
  branches.flatMap fun n => '.' :: Nat.toDigits 10 n

theorem State.identifier_eq (s : State) : s.identifier = String.ofList (dotted s.branches) := rfl

@[simp] theorem dotted_nil : dotted [] = [] := rfl

@[simp] theorem dotted_cons (n : Nat) (branches : List Nat) :
    dotted (n :: branches) = '.' :: (Nat.toDigits 10 n ++ dotted branches) := rfl

@[simp] theorem dotted_append (left right : List Nat) :
    dotted (left ++ right) = dotted left ++ dotted right := List.flatMap_append

theorem toDigits_injective {m n : Nat} (h : Nat.toDigits 10 m = Nat.toDigits 10 n) : m = n := by
  rw [← Nat.ofDigitChars_ten_toDigits (n := m), h, Nat.ofDigitChars_ten_toDigits]

theorem dot_not_mem_toDigits (n : Nat) : '.' ∉ Nat.toDigits 10 n := by
  intro h
  have hdigit : '.'.isDigit = true :=
    Nat.isDigit_of_mem_toDigits (b := 10) (n := n) (by decide) (by decide) h
  cases hdigit

/-- What a text starts with that has no dot in it ends where the text ends or goes on with a
dot. -/
theorem append_inj_of_no_dot {a b u v : List Char} (ha : '.' ∉ a) (hb : '.' ∉ b)
    (hu : ∀ c ∈ u.head?, c = '.') (hv : ∀ c ∈ v.head?, c = '.') (h : a ++ u = b ++ v) :
    a = b ∧ u = v := by
  have hread : ∀ {a u : List Char}, '.' ∉ a → (∀ c ∈ u.head?, c = '.') →
      (a ++ u).takeWhile (· != '.') = a := by
    intro a u ha hu
    have hplain : ∀ c ∈ a, (c != '.') = true := by
      intro c hc
      refine bne_iff_ne.2 ?_
      rintro rfl
      exact ha hc
    rw [List.takeWhile_append_of_pos hplain]
    cases u with
    | nil => rw [List.takeWhile_nil, List.append_nil]
    | cons c rest =>
      rw [hu c rfl]
      exact List.append_nil a
  have hsame : a = b := by rw [← hread ha hu, h, hread hb hv]
  subst hsame
  exact ⟨rfl, List.append_cancel_left h⟩

theorem head?_dotted (branches : List Nat) : ∀ c ∈ (dotted branches).head?, c = '.' := by
  cases branches with
  | nil => exact nofun
  | cons n rest =>
    intro c hc
    cases hc
    rfl

theorem head?_dotted_append (branches : List Nat) (rest : List Char) :
    ∀ c ∈ (dotted branches ++ '.' :: rest).head?, c = '.' := by
  cases branches with
  | nil =>
    intro c hc
    cases hc
    rfl
  | cons n others => exact head?_dotted (n :: others)

theorem dotted_injective {left right : List Nat} (h : dotted left = dotted right) :
    left = right := by
  induction left generalizing right with
  | nil =>
    cases right with
    | nil => rfl
    | cons n rest => cases h
  | cons m rest ih =>
    cases right with
    | nil => cases h
    | cons n rest' =>
      simp only [dotted_cons, List.cons.injEq, true_and] at h
      obtain ⟨hdigits, htail⟩ := append_inj_of_no_dot (dot_not_mem_toDigits m)
        (dot_not_mem_toDigits n) (head?_dotted rest) (head?_dotted rest') h
      rw [toDigits_injective hdigits, ih htail]

/-- A text that goes on behind a dot belongs to branches further on. -/
theorem exists_branch_of_dotted {left right : List Nat} {rest : List Char}
    (h : dotted right = dotted left ++ '.' :: rest) :
    ∃ n further, right = left ++ n :: further := by
  induction left generalizing right with
  | nil =>
    cases right with
    | nil => cases h
    | cons n further => exact ⟨n, further, rfl⟩
  | cons m left ih =>
    cases right with
    | nil => cases h
    | cons n right =>
      simp only [dotted_cons, List.cons_append, List.append_assoc, List.cons.injEq,
        true_and] at h
      obtain ⟨hdigits, htail⟩ := append_inj_of_no_dot (dot_not_mem_toDigits n)
        (dot_not_mem_toDigits m) (head?_dotted right) (head?_dotted_append left rest) h
      obtain ⟨k, further, rfl⟩ := ih htail
      exact ⟨k, further, by rw [toDigits_injective hdigits, List.cons_append]⟩

namespace State

variable {s t : State}

theorem branches_eq_of_identifier_eq (h : s.identifier = t.identifier) :
    s.branches = t.branches :=
  dotted_injective (String.ofList_injective h)

/-- An identifier that extends another one by a dot and more belongs to branches further on. -/
theorem exists_branch_of_identifier {rest : String}
    (h : t.identifier = s.identifier ++ "." ++ rest) :
    ∃ n further, t.branches = s.branches ++ n :: further := by
  have htext : dotted t.branches = dotted s.branches ++ '.' :: rest.toList := by
    simpa [identifier_eq] using congrArg String.toList h
  exact exists_branch_of_dotted htext

theorem identifier_eq_of_branches (h : t.branches = s.branches) : t.identifier = s.identifier := by
  rw [identifier_eq, h, identifier_eq]

theorem identifier_of_branches {n : Nat} (h : t.branches = s.branches ++ [n]) :
    t.identifier = s.identifier ++ "." ++ toString n := by
  rw [identifier_eq, h, identifier_eq, dotted_append, Nat.toString_eq_ofList_toDigits]
  apply String.toList_injective
  simp

end State

end SymbolicMachine
