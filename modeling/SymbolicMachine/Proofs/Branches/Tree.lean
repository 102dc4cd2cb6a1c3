import SymbolicMachine.Proofs.Branches.Identifiers
import SymbolicMachine.Proofs.Effects.Steps
import Mathlib.Data.List.Infix
/-!
# Exploration trees

In an exploration tree every state is stepped at most once, by a call that comes back, and has the
successors of that step as children.  Along a path of the tree places only move on: a state goes on
in its branch, under the next number, or starts a branch off it.  Two paths that part do so at a
state with several children, which are on different branches for good.  So no two states of a tree
have the same place, and a branch is only entered below the state at which it starts.
-/
namespace SymbolicMachine

open SymbolicMachine.Action

variable {ω τ : Type}

/-! ## Numbers of successors -/

namespace Engine

theorem getElem?_numbered (branching : Bool) (number : Nat) (forks : List State) (k : Nat) :
    (numbered branching number forks)[k]? =
      forks[k]?.map fun t => successorOf t branching (number + k) := by
  induction forks generalizing number k with
  | nil => rfl
  | cons t rest ih =>
    cases k with
    | zero => rfl
    | succ k =>
      have hnext := ih (number + 1) k
      rw [Nat.add_assoc, Nat.add_comm 1 k] at hnext
      exact hnext

/-- The successor with a number has the place that belongs to the number. -/
theorem place_of_step {e : Engine ω τ} (htriggers : e.triggers = .absent τ) {i : Instruction}
    {s : State} {ses after : Session ω τ} {successors : List State}
    (hstep : (e.step i s).run ses = (.ok successors, after)) {k : Nat} {t : State}
    (ht : successors[k]? = some t) :
    t.place = nextPlace s.place (decide (1 < successors.length)) (k + 1) := by
  obtain ⟨forks, hnumbered, hforks⟩ := (step_branched htriggers i s ses).of_ok hstep
  rw [hnumbered, getElem?_numbered, Option.map_eq_some_iff] at ht
  obtain ⟨fork, hfork, rfl⟩ := ht
  have hplace := (hforks fork (List.mem_of_getElem? hfork)).place
  rw [successorOf_eq, hplace, Nat.add_comm 1 k]
  rfl

end Engine

/-! ## The order of places -/

/-- The second place comes later on the same branch, or lies on a branch that starts off it. -/
def Precedes (a b : List Nat × Nat) : Prop :=
  (b.1 = a.1 ∧ a.2 < b.2) ∨ ∃ n further, b.1 = a.1 ++ n :: further

theorem Precedes.trans {a b c : List Nat × Nat} (h : Precedes a b) (h' : Precedes b c) :
    Precedes a c := by
  rcases h with ⟨hab, hlt⟩ | ⟨n, further, hab⟩ <;> rcases h' with ⟨hbc, hlt'⟩ | ⟨m, more, hbc⟩
  · exact .inl ⟨hbc.trans hab, Nat.lt_trans hlt hlt'⟩
  · exact .inr ⟨m, more, by rw [hbc, hab]⟩
  · exact .inr ⟨n, further, by rw [hbc, hab]⟩
  · exact .inr ⟨n, further ++ m :: more, by rw [hbc, hab, List.append_assoc, List.cons_append]⟩

theorem Precedes.isPrefix {a b : List Nat × Nat} (h : Precedes a b) : a.1 <+: b.1 := by
  rcases h with ⟨hab, -⟩ | ⟨n, further, hab⟩
  · exact ⟨[], by rw [hab, List.append_nil]⟩
  · exact ⟨n :: further, hab.symm⟩

theorem Precedes.ne {a b : List Nat × Nat} (h : Precedes a b) : a ≠ b := by
  rintro rfl
  rcases h with ⟨-, hlt⟩ | ⟨n, further, hab⟩
  · exact Nat.lt_irrefl _ hlt
  · have hlength := congrArg List.length hab
    simp at hlength

theorem precedes_nextPlace (place : List Nat × Nat) (branching : Bool) (number : Nat) :
    Precedes place (Engine.nextPlace place branching number) := by
  cases branching with
  | false => exact .inl ⟨rfl, Nat.lt_succ_self _⟩
  | true => exact .inr ⟨number, [], rfl⟩

/-! ## Trees -/

/-- Two positions in a tree are the same, or one is above the other, or their paths part. -/
theorem positions_cases (p q : List Nat) :
    p = q ∨ (∃ k r, q = p ++ k :: r) ∨ (∃ k r, p = q ++ k :: r) ∨
      ∃ c k l r r', k ≠ l ∧ p = c ++ k :: r ∧ q = c ++ l :: r' := by
  induction p generalizing q with
  | nil =>
    cases q with
    | nil => exact .inl rfl
    | cons l q => exact .inr (.inl ⟨l, q, rfl⟩)
  | cons k p ih =>
    cases q with
    | nil => exact .inr (.inr (.inl ⟨k, p, rfl⟩))
    | cons l q =>
      by_cases hkl : k = l
      · subst hkl
        rcases ih q with rfl | ⟨m, r, rfl⟩ | ⟨m, r, rfl⟩ | ⟨c, m, n, r, r', hmn, rfl, rfl⟩
        · exact .inl rfl
        · exact .inr (.inl ⟨m, r, rfl⟩)
        · exact .inr (.inr (.inl ⟨m, r, rfl⟩))
        · exact .inr (.inr (.inr ⟨k :: c, m, n, r, r', hmn, rfl, rfl⟩))
      · exact .inr (.inr (.inr ⟨[], k, l, p, q, hkl, rfl, rfl⟩))

namespace Engine

/-- A tree of states by position, the numbers of the children from the root down.  Each state has
no children, or those that one call of a step from it gives back, by whatever instruction and in
whatever session. -/
structure Grows (e : Engine ω τ) (root : State) (tree : List Nat → Option State) : Prop where
  root : tree [] = some root
  parent : ∀ p k, tree p = none → tree (p ++ [k]) = none
  stepped : ∀ p s, tree p = some s → (∀ k, tree (p ++ [k]) = none) ∨
    ∃ i ses successors after, (e.call i s).run ses = (.ok successors, after) ∧
      ∀ k, tree (p ++ [k]) = successors[k]?

section Trees

variable {e : Engine ω τ} {root : State} {tree : List Nat → Option State} {s t : State}
  {p q : List Nat}

/-- Every position above a state has a state. -/
theorem Grows.exists_above (h : e.Grows root tree) {r : List Nat} (ht : tree (p ++ r) = some t) :
    ∃ s, tree p = some s := by
  induction r using List.reverseRecOn generalizing t with
  | nil => exact ⟨t, by rwa [List.append_nil] at ht⟩
  | append_singleton r k ih =>
    rw [← List.append_assoc] at ht
    cases hparent : tree (p ++ r) with
    | none => cases (h.parent _ k hparent).symm.trans ht
    | some u => exact ih hparent

/-- If the counters of the root are words, so are those of all states. -/
theorem Grows.inRange (h : e.Grows root tree) (hroot : root.InRange) (hs : tree p = some s) :
    s.InRange := by
  rcases List.eq_nil_or_concat p with rfl | ⟨above, k, hp⟩
  · cases h.root.symm.trans hs
    exact hroot
  · rw [hp, List.concat_eq_append] at hs
    obtain ⟨parent, hparent⟩ := h.exists_above hs
    rcases h.stepped above parent hparent with hleaf | ⟨_, _, successors, _, hcall, hchildren⟩
    · cases (hleaf k).symm.trans hs
    · exact (step_of_call hcall).2 s (List.mem_of_getElem? ((hchildren k).symm.trans hs))

variable (htriggers : e.triggers = .absent τ) (h : e.Grows root tree)

include htriggers h

theorem place_of_child {k : Nat} (hs : tree p = some s) (ht : tree (p ++ [k]) = some t) :
    ∃ count, k < count ∧ t.place = nextPlace s.place (decide (1 < count)) (k + 1) := by
  rcases h.stepped p s hs with hleaf | ⟨i, ses, successors, after, hcall, hchildren⟩
  · cases (hleaf k).symm.trans ht
  · have hk : successors[k]? = some t := (hchildren k).symm.trans ht
    exact ⟨successors.length, (List.getElem?_eq_some_iff.1 hk).1,
      place_of_step htriggers (step_of_call hcall).1 hk⟩

theorem precedes_of_below {k : Nat} {r : List Nat} (hs : tree p = some s)
    (ht : tree (p ++ k :: r) = some t) : Precedes s.place t.place := by
  induction r using List.reverseRecOn generalizing t with
  | nil =>
    obtain ⟨count, -, hplace⟩ := place_of_child htriggers h hs ht
    exact hplace ▸ precedes_nextPlace _ _ _
  | append_singleton r l ih =>
    have hlast : tree (p ++ k :: r ++ [l]) = some t := by
      rwa [List.append_assoc]
    obtain ⟨u, hu⟩ := h.exists_above hlast
    obtain ⟨count, -, hplace⟩ := place_of_child htriggers h hu hlast
    exact (ih hu).trans (hplace ▸ precedes_nextPlace _ _ _)

/-- A child that has siblings starts a branch, and everything below it is on that branch. -/
theorem branch_of_sibling {k l : Nat} {r : List Nat} (hkl : k ≠ l) {u v : State}
    (hs : tree p = some s) (hu : tree (p ++ k :: r) = some u) (hv : tree (p ++ [l]) = some v) :
    s.branches ++ [k + 1] <+: u.branches := by
  have hu' : tree (p ++ [k] ++ r) = some u := by
    rwa [List.append_assoc]
  obtain ⟨w, hw⟩ := h.exists_above hu'
  have hsiblings : w.branches = s.branches ++ [k + 1] := by
    rcases h.stepped p s hs with hleaf | ⟨i, ses, successors, after, hcall, hchildren⟩
    · cases (hleaf k).symm.trans hw
    · have hk : successors[k]? = some w := (hchildren k).symm.trans hw
      have hl : successors[l]? = some v := (hchildren l).symm.trans hv
      have hseveral : 1 < successors.length := by
        have hk' := (List.getElem?_eq_some_iff.1 hk).1
        have hl' := (List.getElem?_eq_some_iff.1 hl).1
        omega
      have hplace := place_of_step htriggers (step_of_call hcall).1 hk
      rw [decide_eq_true hseveral] at hplace
      exact congrArg Prod.fst hplace
  rw [← hsiblings]
  cases r with
  | nil =>
    cases hw.symm.trans hu
    exact List.prefix_rfl
  | cons m r => exact (precedes_of_below htriggers h hw hu').isPrefix

/-- States at positions whose paths part are on different branches for good. -/
theorem not_isPrefix_of_parting {c r r' : List Nat} {k l : Nat} (hkl : k ≠ l)
    (hs : tree (c ++ k :: r) = some s) (ht : tree (c ++ l :: r') = some t) :
    ¬s.branches <+: t.branches := by
  intro hst
  obtain ⟨u, hu⟩ := h.exists_above hs
  have hfirst : ∀ {m : Nat} {r : List Nat} {v : State}, tree (c ++ m :: r) = some v →
      ∃ w, tree (c ++ [m]) = some w := by
    intro m r v hv
    refine h.exists_above (r := r) (t := v) ?_
    rwa [List.append_assoc]
  obtain ⟨v, hv⟩ := hfirst hs
  obtain ⟨w, hw⟩ := hfirst ht
  have hleft := (branch_of_sibling htriggers h hkl hu hs hw).trans hst
  have hright := branch_of_sibling htriggers h hkl.symm hu ht hv
  have hsame : u.branches ++ [k + 1] = u.branches ++ [l + 1] := by
    refine (List.prefix_of_prefix_length_le hleft hright ?_).eq_of_length ?_ <;> simp
  have hnumbers := List.append_cancel_left hsame
  simp only [List.cons.injEq, Nat.add_right_cancel_iff, and_true] at hnumbers
  exact hkl hnumbers

/-- No two states of a tree have the same place. -/
theorem position_eq_of_place_eq (hs : tree p = some s) (ht : tree q = some t)
    (hplace : s.place = t.place) : p = q := by
  have hbranches : s.branches = t.branches := congrArg Prod.fst hplace
  rcases positions_cases p q with heq | ⟨k, r, rfl⟩ | ⟨k, r, rfl⟩ | ⟨c, k, l, r, r', hkl, rfl, rfl⟩
  · exact heq
  · exact absurd hplace (precedes_of_below htriggers h hs ht).ne
  · exact absurd hplace.symm (precedes_of_below htriggers h ht hs).ne
  · exact absurd (hbranches ▸ List.prefix_rfl) (not_isPrefix_of_parting htriggers h hkl hs ht)

/-- A branch is only entered below the state at which it starts. -/
theorem above_of_branches {n : Nat} {further : List Nat} (hs : tree p = some s)
    (ht : tree q = some t) (hbranches : t.branches = s.branches ++ n :: further) :
    ∃ k r, q = p ++ k :: r := by
  have hlonger : s.branches.length < t.branches.length := by
    rw [hbranches]
    simp
  rcases positions_cases p q with rfl | habove | ⟨k, r, rfl⟩ | ⟨c, k, l, r, r', hkl, rfl, rfl⟩
  · cases hs.symm.trans ht
    exact absurd hlonger (Nat.lt_irrefl _)
  · exact habove
  · have hshorter := (precedes_of_below htriggers h ht hs).isPrefix.length_le
    exact absurd hlonger (Nat.not_lt.2 hshorter)
  · exact absurd ⟨_, hbranches.symm⟩ (not_isPrefix_of_parting htriggers h hkl hs ht)

omit h in
/-- The only successor goes on in the branch of its parent, and several ones start branches that
are numbered in order, whatever the instruction was and however it came out. -/
theorem identifiers_of_step {i : Instruction} {ses after : Session ω τ} {successors : List State}
    (hstep : (e.step i s).run ses = (.ok successors, after)) :
    (∀ t, successors = [t] → t.identifier = s.identifier ∧ t.sequence = s.sequence + 1) ∧
      (1 < successors.length → ∀ k t, successors[k]? = some t →
        t.identifier = s.identifier ++ "." ++ toString (k + 1) ∧ t.sequence = 0) := by
  constructor
  · rintro t rfl
    have hplace := place_of_step htriggers hstep (k := 0) rfl
    obtain ⟨hbranches, hsequence⟩ := Prod.ext_iff.1 hplace
    exact ⟨State.identifier_eq_of_branches hbranches, hsequence⟩
  · intro hseveral k t ht
    have hplace := place_of_step htriggers hstep ht
    rw [decide_eq_true hseveral] at hplace
    obtain ⟨hbranches, hsequence⟩ := Prod.ext_iff.1 hplace
    exact ⟨State.identifier_of_branches hbranches, hsequence⟩

/-- In a tree of explored states no two of them have the same identifier and number, and a state
whose identifier extends that of another one lies below it.  The numbers are words, from a root on
where they are.  The children that a call gives back carry the identifier of their parent, each
with its number if there are several of them. -/
theorem identifiers_name_states :
    (∀ p q s t, tree p = some s → tree q = some t → s.identifier = t.identifier →
      s.sequence = t.sequence → p = q) ∧
    (∀ p q s t rest, tree p = some s → tree q = some t →
      t.identifier = s.identifier ++ "." ++ rest → ∃ k r, q = p ++ k :: r) ∧
    (root.InRange → ∀ p s, tree p = some s → s.InRange) ∧
    ∀ i s ses successors after, (e.call i s).run ses = (.ok successors, after) →
      (∀ t, successors = [t] → t.identifier = s.identifier ∧ t.sequence = s.sequence + 1) ∧
      (1 < successors.length → ∀ k t, successors[k]? = some t →
        t.identifier = s.identifier ++ "." ++ toString (k + 1) ∧ t.sequence = 0) := by
  refine ⟨fun p q s t hs ht hidentifier hsequence => ?_, fun p q s t rest hs ht hextends => ?_,
    fun hroot p s hs => h.inRange hroot hs,
    fun i s ses successors after hcall => identifiers_of_step htriggers (step_of_call hcall).1⟩
  · have hbranches := State.branches_eq_of_identifier_eq hidentifier
    exact position_eq_of_place_eq htriggers h hs ht (Prod.ext hbranches hsequence)
  · obtain ⟨n, further, hbranches⟩ := State.exists_branch_of_identifier hextends
    exact above_of_branches htriggers h hs ht hbranches

end Trees

/-- The tree in which only the root was stepped. -/
def familyTree (root : State) (children : List State) : List Nat → Option State
  | [] => some root
  | [k] => children[k]?
  | _ => none

theorem grows_familyTree {e : Engine ω τ} {root : State} {i : Instruction}
    {ses after : Session ω τ} {children : List State}
    (hcall : (e.call i root).run ses = (.ok children, after)) :
    e.Grows root (familyTree root children) where
  root := rfl
  parent p k hp := by
    rcases p with _ | ⟨j, _ | ⟨l, r⟩⟩
    · cases hp
    · rfl
    · rfl
  stepped p s hs := by
    rcases p with _ | ⟨j, _ | ⟨l, r⟩⟩
    · cases hs
      exact .inr ⟨i, ses, children, after, hcall, fun _ => rfl⟩
    · exact .inl fun _ => rfl
    · cases hs

/-- A loaded array is null in one child and not in the other, and their names tell them apart. -/
theorem load_names_children :
    let e := permissive .initial
    ∃ s t, e.Grows arrayRoot (familyTree arrayRoot [s, t]) ∧
      ¬(s.identifier = t.identifier ∧ s.sequence = t.sequence) ∧
        t.identifier = arrayRoot.identifier ++ "." ++ toString 2 := by
  intro e
  have hpair : ((e.call (.loadLocal 0 1) arrayRoot).run (.start [] ())).1.toOption.map
      List.length = some 2 := by decide +kernel
  rcases hrun : (e.call (.loadLocal 0 1) arrayRoot).run (.start [] ()) with
    ⟨_ | _ | ⟨s, _ | ⟨t, _ | ⟨u, rest⟩⟩⟩, after⟩ <;> rw [hrun] at hpair <;>
    cases hpair
  have hgrows := grows_familyTree hrun
  obtain ⟨hunique, -, -, hcalls⟩ := identifiers_name_states rfl hgrows
  refine ⟨s, t, hgrows, ?_, ?_⟩
  · rintro ⟨hidentifier, hsequence⟩
    have hsame : [0] = [1] := hunique [0] [1] s t rfl rfl hidentifier hsequence
    cases hsame
  · exact ((hcalls _ _ _ _ _ hrun).2 Nat.one_lt_two 1 t rfl).1

end Engine

end SymbolicMachine
