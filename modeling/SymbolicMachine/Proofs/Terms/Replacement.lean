import Mathlib.Data.List.Forall2
import SymbolicMachine.Proofs.Terms.Normal
import SymbolicMachine.Proofs.Terms.Substitution
/-!
# Replacing symbols

A term is built once more with other terms in the places of its symbols.  This succeeds for every
well-typed term, and keeps its type and its value where the new terms have the types and the
values of the symbols.  With constants for all symbols a constant is left, unless the term applies
a function or divides an integer by zero.
-/
namespace SymbolicMachine

namespace Term

mutual

/-- Builds a term with other terms for its symbols. -/
def replace (leaf : Symbol → Term) : Term → Except ValueError Term
  | constant c => .ok (constant c)
  | symbol s => .ok (leaf s)
  | unary op _ a => do
    let x ← a.replace leaf
    applyUnary (.unary op) x
  | binary op _ a b => do
    let x ← a.replace leaf
    let y ← b.replace leaf
    applyBinary (.binary op) x y
  | application t name args => do
    let xs ← replaceAll leaf args
    .ok (application t name xs)
  | conversion t a => do
    let x ← a.replace leaf
    x.convert t

def replaceAll (leaf : Symbol → Term) : List Term → Except ValueError (List Term)
  | [] => .ok []
  | a :: rest => do
    let x ← a.replace leaf
    let xs ← replaceAll leaf rest
    .ok (x :: xs)

end

theorem replaceAll_eq_ok_iff {leaf : Symbol → Term} {args us : List Term} :
    replaceAll leaf args = .ok us ↔
      List.Forall₂ (fun a u => a.replace leaf = .ok u) args us := by
  induction args generalizing us with
  | nil =>
    rw [replaceAll, List.forall₂_nil_left_iff]
    exact ⟨fun h => by cases h; rfl, fun h => by rw [h]⟩
  | cons a rest ih =>
    rw [List.forall₂_cons_left_iff]
    constructor
    · intro h
      obtain ⟨x, hx, h⟩ := bind_eq_ok.1 h
      obtain ⟨xs, hxs, h⟩ := bind_eq_ok.1 h
      cases h
      exact ⟨x, xs, hx, ih.1 hxs, rfl⟩
    · rintro ⟨x, xs, hx, hxs, rfl⟩
      exact bind_eq_ok.2 ⟨x, hx, bind_eq_ok.2 ⟨xs, ih.2 hxs, rfl⟩⟩

variable {I : Interpretation} {leaf : Symbol → Term}

mutual

/-- Replacing symbols keeps the type and the value of a well-typed term. -/
theorem exists_replace (h : Expression.Represents I leaf) : ∀ {t : Term}, t.WellTyped →
    ∃ u, t.replace leaf = .ok u ∧ u.WellTyped ∧ u.type = t.type ∧ u.eval I = t.eval I
  | constant c, _ => ⟨_, rfl, trivial, rfl, rfl⟩
  | symbol s, _ => ⟨_, rfl, h.wellTyped s, h.type_eq s, h.eval_eq s⟩
  | unary op t a, ht => by
    obtain ⟨hwell, haccepts, rfl⟩ := ht
    obtain ⟨x, hx, hwellx, htype, heval⟩ := exists_replace h hwell
    rw [← htype] at haccepts
    obtain ⟨hwellu, htypeu, hevalu⟩ := foldUnary_spec hwellx haccepts
    refine ⟨foldUnary op x, bind_eq_ok.2 ⟨x, hx, if_pos haccepts⟩, hwellu, htypeu.trans htype, ?_⟩
    rw [hevalu, heval, eval]
  | binary op t a b, ht => by
    obtain ⟨hwella, hwellb, hpair, hresult⟩ := ht
    obtain ⟨x, hx, hwellx, htypex, hevalx⟩ := exists_replace h hwella
    obtain ⟨y, hy, hwelly, htypey, hevaly⟩ := exists_replace h hwellb
    rw [← htypey, ← htypex] at hpair
    rw [← htypex] at hresult
    obtain ⟨hwellu, htypeu, hevalu⟩ := foldBinary_spec hwellx hwelly hpair hresult
    have happly : applyBinary (.binary op) x y = .ok (foldBinary op t x y) := by
      simp only [applyBinary, if_pos hpair, hresult]
    refine ⟨_, bind_eq_ok.2 ⟨x, hx, bind_eq_ok.2 ⟨y, hy, happly⟩⟩, hwellu, htypeu, ?_⟩
    rw [hevalu, hevalx, hevaly, eval]
  | application t name args, ht => by
    obtain ⟨us, hus, hwell, heval⟩ := exists_replaceAll h ht
    exact ⟨_, bind_eq_ok.2 ⟨us, hus, rfl⟩, hwell, rfl, by rw [eval, heval, eval]⟩
  | conversion t a, ht => by
    obtain ⟨hwell, hconverts⟩ := ht
    obtain ⟨x, hx, hwellx, htype, heval⟩ := exists_replace h hwell
    rw [← htype] at hconverts
    obtain ⟨u, hu⟩ := exists_convert_of_converts hconverts
    obtain ⟨hwellu, htypeu, hevalu⟩ := convert_spec hwellx hu
    exact ⟨u, bind_eq_ok.2 ⟨x, hx, hu⟩, hwellu, htypeu, by rw [hevalu, heval, eval]⟩

theorem exists_replaceAll (h : Expression.Represents I leaf) : ∀ {args : List Term},
    AllWellTyped args →
      ∃ us, replaceAll leaf args = .ok us ∧ AllWellTyped us ∧ evalAll I us = evalAll I args
  | [], _ => ⟨[], rfl, trivial, rfl⟩
  | a :: rest, ht => by
    obtain ⟨x, hx, hwellx, -, hevalx⟩ := exists_replace h ht.1
    obtain ⟨xs, hxs, hwellxs, hevalxs⟩ := exists_replaceAll h ht.2
    exact ⟨x :: xs, bind_eq_ok.2 ⟨x, hx, bind_eq_ok.2 ⟨xs, hxs, rfl⟩⟩, ⟨hwellx, hwellxs⟩,
      by rw [evalAll, hevalx, hevalxs, evalAll]⟩

end

/-- Whether a node stays when the terms below it become constants: it applies a function, or
divides an integer by zero. -/
def Resists (I : Interpretation) : Term → Prop
  | application _ _ _ => True
  | binary op _ _ b => op.divides = true ∧ (b.eval I).toInt? = some 0
  | _ => False

theorem exists_replace_literal : ∀ {t u : Term}, t.WellTyped → (∀ n ∈ t.nodes, ¬ n.Resists I) →
    t.replace I.literal = .ok u → ∃ c, u = constant c
  | constant c, u, _, _, hu => by
    cases hu
    exact ⟨c, rfl⟩
  | symbol s, u, _, _, hu => by
    cases hu
    exact ⟨_, rfl⟩
  | unary op t a, u, ht, hn, hu => by
    obtain ⟨x, hx, hu⟩ := bind_eq_ok.1 hu
    obtain ⟨c, rfl⟩ := exists_replace_literal ht.1 (List.forall_mem_cons.1 hn).2 hx
    exact Expression.applyUnary_constant hu
  | binary op t a b, u, ht, hn, hu => by
    obtain ⟨x, hx, hu⟩ := bind_eq_ok.1 hu
    obtain ⟨y, hy, hu⟩ := bind_eq_ok.1 hu
    obtain ⟨hroot, hbelow⟩ := List.forall_mem_cons.1 hn
    obtain ⟨hna, hnb⟩ := List.forall_mem_append.1 hbelow
    obtain ⟨c, rfl⟩ := exists_replace_literal ht.1 hna hx
    obtain ⟨d, rfl⟩ := exists_replace_literal ht.2.1 hnb hy
    obtain ⟨d', hd', -, -, heval⟩ := exists_replace (Expression.represents_literal I) ht.2.1
    cases hy.symm.trans hd'
    refine Expression.applyBinary_constant (fun hzero => hroot ?_) hu
    rw [Resists, ← heval]
    exact hzero
  | application _ _ _, _, _, hn, _ => absurd trivial (hn _ List.mem_cons_self)
  | conversion t a, u, ht, hn, hu => by
    obtain ⟨x, hx, hu⟩ := bind_eq_ok.1 hu
    obtain ⟨c, rfl⟩ := exists_replace_literal ht.1 (List.forall_mem_cons.1 hn).2 hx
    exact Expression.convert_constant hu

/-- With constants for the symbols a term becomes its value, if none of its nodes stays. -/
theorem replace_literal {t : Term} (ht : t.WellTyped) (hn : ∀ n ∈ t.nodes, ¬ n.Resists I) :
    t.replace I.literal = .ok (constant (t.eval I)) := by
  obtain ⟨u, hu, -, -, heval⟩ := exists_replace (Expression.represents_literal I) ht
  obtain ⟨c, rfl⟩ := exists_replace_literal ht hn hu
  rw [hu, ← heval, eval]

theorem replaceAll_literal {args : List Term} (hargs : AllWellTyped args)
    (hn : ∀ a ∈ args, ∀ n ∈ a.nodes, ¬ n.Resists I) :
    replaceAll I.literal args = .ok ((evalAll I args).map constant) := by
  induction args with
  | nil => rfl
  | cons a rest ih =>
    have ha := replace_literal hargs.1 (hn a List.mem_cons_self)
    have hrest := ih hargs.2 fun b hb => hn b (List.mem_cons_of_mem _ hb)
    exact bind_eq_ok.2 ⟨_, ha, bind_eq_ok.2 ⟨_, hrest, rfl⟩⟩

end Term

end SymbolicMachine
