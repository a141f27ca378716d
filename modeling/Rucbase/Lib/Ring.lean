import Mathlib.Data.List.Chain
import Mathlib.Data.List.Nodup
import Mathlib.Logic.Function.Basic

/-!
# Circular chains

Nodes are linked by a partial function. In a circuit the links lead from a sentinel through a list
of nodes and back to it (`IsCircuit`), and a ring has two, one in each direction (`IsRing`). A node
is taken out of a circuit by changing one link, that of the node before it (`IsCircuit.remove`), and
out of a ring by changing one link for each direction (`IsRing.remove`). The neighbours of the node
may be the sentinel, both of them even.
-/

namespace Rucbase.Lib

variable {α : Type}

/-- The links lead from `s` through the nodes `xs` and back to `s`. -/
structure IsCircuit (link : α → Option α) (s : α) (xs : List α) : Prop where
  nodup : (s :: xs).Nodup
  linked : (s :: xs ++ [s]).IsChain fun a b => link a = some b

/-- The links in one direction lead through the nodes, those in the other back through them. -/
structure IsRing (next prev : α → Option α) (s : α) (xs : List α) : Prop where
  forth : IsCircuit next s xs
  back : IsCircuit prev s xs.reverse

section Remove

variable {link next prev : α → Option α} {s x p n : α} {xs ys : List α}

/-- A node is not its own successor. -/
theorem IsCircuit.succ_ne (h : IsCircuit link s (xs ++ x :: ys)) (hn : n ∈ (ys ++ [s]).head?) :
    n ≠ x := by
  rintro rfl
  have hnodup := h.nodup
  rw [← List.cons_append, List.nodup_middle, List.nodup_cons] at hnodup
  apply hnodup.1
  rcases List.mem_append.mp (List.mem_of_mem_head? hn) with hmem | hmem
  · exact List.mem_append_right _ hmem
  · rw [List.mem_singleton.mp hmem]
    exact List.mem_cons_self

variable [DecidableEq α]

/-- A chain has no use for the link of its last node, nor for those of other nodes. -/
theorem isChain_update {l : List α} (h : l.IsChain fun a b => link a = some b)
    (hp : p ∉ l.dropLast) (v : Option α) :
    l.IsChain fun a b => Function.update link p v a = some b := by
  induction h with
  | nil => exact .nil
  | singleton a => exact .singleton a
  | @cons_cons a b l hab _ ih =>
    rw [List.dropLast_cons_cons, List.mem_cons, not_or] at hp
    refine .cons_cons ?_ (ih hp.2)
    rwa [Function.update_of_ne (Ne.symm hp.1)]

theorem IsCircuit.remove (h : IsCircuit link s (xs ++ x :: ys)) (hp : p ∈ (s :: xs).getLast?)
    (hn : n ∈ (ys ++ [s]).head?) :
    link p = some x ∧ link x = some n ∧
      IsCircuit (Function.update link p (some n)) s (xs ++ ys) := by
  obtain ⟨hnodup, hlinked⟩ := h
  rw [← List.cons_append, List.nodup_middle, List.nodup_cons] at hnodup
  obtain ⟨-, hnodup⟩ := hnodup
  obtain ⟨hfront, -, hdisjoint⟩ := List.nodup_append'.mp hnodup
  -- The nodes before the removed one end with `p`, those behind it begin with `n`.
  obtain ⟨front, hfrontp⟩ := List.getLast?_eq_some_iff.mp hp
  obtain ⟨back, hbackn⟩ := List.head?_eq_some_iff.mp hn
  have hsplit (zs : List α) : s :: xs ++ zs = front ++ p :: zs := by
    rw [hfrontp, List.append_assoc, List.singleton_append]
  have hlist : s :: (xs ++ x :: ys) ++ [s] = front ++ p :: x :: n :: back := by
    calc s :: (xs ++ x :: ys) ++ [s] = s :: xs ++ x :: (ys ++ [s]) := by simp
      _ = front ++ p :: x :: n :: back := by rw [hsplit, hbackn]
  rw [hlist] at hlinked
  obtain ⟨hbefore, hpx, hbehind⟩ := List.isChain_append_cons_cons.mp hlinked
  obtain ⟨hxn, hbehind⟩ := List.isChain_cons_cons.mp hbehind
  refine ⟨hpx, hxn, by simpa using hnodup, ?_⟩
  have hlist' : s :: (xs ++ ys) ++ [s] = front ++ p :: n :: back := by
    calc s :: (xs ++ ys) ++ [s] = s :: xs ++ (ys ++ [s]) := by simp
      _ = front ++ p :: n :: back := by rw [hsplit, hbackn]
  rw [hlist']
  refine List.isChain_append_cons_cons.mpr
    ⟨isChain_update hbefore ?_ _, Function.update_self .., isChain_update hbehind ?_ _⟩
  · rw [List.dropLast_concat]
    rw [hfrontp] at hfront
    exact fun hmem => List.disjoint_of_nodup_append hfront hmem (List.mem_singleton_self p)
  · rw [← hbackn, List.dropLast_concat]
    exact hdisjoint (List.mem_of_getLast? hp)

/-- The neighbours of a node, and the ring without it. -/
theorem IsRing.remove (h : IsRing next prev s (xs ++ x :: ys)) :
    ∃ p n, n ≠ x ∧ prev x = some p ∧ next x = some n ∧ next p = some x ∧ prev n = some x ∧
      IsRing (Function.update next p (some n)) (Function.update prev n (some p)) s (xs ++ ys) := by
  obtain ⟨hforth, hback⟩ := h
  obtain ⟨p, hp⟩ : ∃ p, p ∈ (s :: xs).getLast? := Option.isSome_iff_exists.mp (by simp)
  obtain ⟨n, hn⟩ : ∃ n, n ∈ (ys ++ [s]).head? := Option.isSome_iff_exists.mp (by simp)
  have hne := hforth.succ_ne hn
  obtain ⟨hnext, hnextx, hforth⟩ := hforth.remove hp hn
  -- Backwards, the nodes before and behind change places.
  have hreverse : (xs ++ x :: ys).reverse = ys.reverse ++ x :: xs.reverse := by simp
  rw [hreverse] at hback
  have hn' : n ∈ (s :: ys.reverse).getLast? := by
    rwa [← List.head?_reverse, List.reverse_cons, List.reverse_reverse]
  have hp' : p ∈ (xs.reverse ++ [s]).head? := by
    rwa [← List.reverse_cons, List.head?_reverse]
  obtain ⟨hprev, hprevx, hback⟩ := hback.remove hn' hp'
  exact ⟨p, n, hne, hprevx, hnextx, hnext, hprev, hforth, by rwa [List.reverse_append]⟩

end Remove

end Rucbase.Lib
