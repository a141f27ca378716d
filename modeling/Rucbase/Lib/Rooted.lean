import Mathlib.Data.Fintype.Order
import Mathlib.Data.Set.Finite.Basic
import Mathlib.Logic.Relation
import Mathlib.Order.WellFounded

/-!
# Rooted trees

A tree given by its relation of children: what the root reaches has one parent each, and the root
has none. Then nothing is below itself (`IsRooted.acyclic`), and when the root reaches finitely many
nodes, a property of nodes may be proved from the children up (`IsRooted.induction`).
-/

namespace Rucbase.Lib

open Relation

/-- What the root reaches has one parent each, and the root has none. -/
structure IsRooted {α : Type} (child : α → α → Prop) (root : α) : Prop where
  parent_unique : ∀ {p q c}, ReflTransGen child root p → ReflTransGen child root q → child p c →
    child q c → p = q
  root_orphan : ∀ {p}, ReflTransGen child root p → ¬child p root

namespace IsRooted

variable {α : Type} {child : α → α → Prop} {root : α}

/-- Nothing is below itself. -/
theorem acyclic (h : IsRooted child root) {p : α} (hp : ReflTransGen child root p) :
    ¬TransGen child p p := by
  -- A cycle through a node goes through its parent, so it would climb to the root.
  induction hp with
  | refl =>
    intro hcycle
    obtain ⟨q, hq, hlast⟩ := TransGen.tail'_iff.mp hcycle
    exact h.root_orphan hq hlast
  | @tail q p hq hstep ih =>
    intro hcycle
    obtain ⟨r, hr, hlast⟩ := TransGen.tail'_iff.mp hcycle
    have hreach : ReflTransGen child root r := (hq.tail hstep).trans hr
    obtain rfl := h.parent_unique hreach hq hlast hstep
    exact ih (TransGen.head' hstep hr)

/-- Induction from the children up. -/
theorem induction (h : IsRooted child root) (hfinite : {p | ReflTransGen child root p}.Finite)
    {motive : α → Prop}
    (hstep : ∀ p, ReflTransGen child root p → (∀ c, child p c → motive c) → motive p) {p : α}
    (hp : ReflTransGen child root p) : motive p := by
  let below : {p // ReflTransGen child root p} → {p // ReflTransGen child root p} → Prop :=
    fun c p => TransGen child p.1 c.1
  have : Finite {p // ReflTransGen child root p} := hfinite
  have : IsTrans _ below := ⟨fun _ _ _ hab hbc => hbc.trans hab⟩
  have : Std.Irrefl below := ⟨fun p => h.acyclic p.2⟩
  have hwf : WellFounded below := Finite.wellFounded_of_trans_of_irrefl below
  have hall : ∀ p : {p // ReflTransGen child root p}, motive p.1 := by
    intro p
    induction p using hwf.induction with
    | _ p ih =>
      exact hstep p.1 p.2 fun c hc => ih ⟨c, p.2.tail hc⟩ (TransGen.single hc)
  exact hall ⟨p, hp⟩

end IsRooted

end Rucbase.Lib
