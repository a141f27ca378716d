import Mathlib.Data.Multiset.Bind
import Mathlib.Data.Set.BooleanAlgebra
import Mathlib.Data.Set.Disjoint
import Mathlib.Logic.Function.DependsOn
import Mathlib.Order.CompletePartialOrder

/-!
# Relations as multisets of partial assignments

A row is a partial assignment of values to columns, and a relation is a multiset of rows, so that
what a query denotes does not depend on the order in which its columns or its rows come. Two rows
are merged column by column, the left one first, and the product of two relations merges each pair.

A product is associative, and commutative when the two sides have no column in common. A selection
that reads the columns of one side only is pushed into that side (`filter_product_left`,
`filter_product_right`); the product of a family of relations with one set of columns each does not
depend on the order of the list (`crossProduct_perm`).
-/

namespace Rucbase.Lib

/-- A row: a value for some of the columns. -/
abbrev Row (κ ν : Type*) := κ → Option ν

variable {κ ν τ : Type*}

namespace Row

/-- The columns of both rows, those of the left one first. -/
def merge (a b : Row κ ν) : Row κ ν := fun k => (a k).or (b k)

/-- The row has no columns outside of `s`. -/
def SupportedOn (a : Row κ ν) (s : Set κ) : Prop := ∀ k, k ∉ s → a k = none

theorem merge_assoc (a b c : Row κ ν) : (a.merge b).merge c = a.merge (b.merge c) := by
  funext k
  exact Option.or_assoc

@[simp]
theorem merge_none (a : Row κ ν) : a.merge (fun _ => none) = a := by
  funext k
  exact Option.or_none

variable {a b : Row κ ν}

/-- Where the right row has no column, the merge is the left row. -/
theorem merge_apply_left {k : κ} (h : b k = none) : a.merge b k = a k := by
  rw [merge, h, Option.or_none]

/-- Where the left row has no column, the merge is the right row. -/
theorem merge_apply_right {k : κ} (h : a k = none) : a.merge b k = b k := by
  rw [merge, h, Option.none_or]

theorem merge_comm {s t : Set κ} (hst : Disjoint s t) (ha : a.SupportedOn s)
    (hb : b.SupportedOn t) : a.merge b = b.merge a := by
  funext k
  by_cases hk : k ∈ s
  · have hbk : b k = none := hb k (Set.disjoint_left.mp hst hk)
    rw [merge_apply_left hbk, merge_apply_right hbk]
  · rw [merge_apply_right (ha k hk), merge_apply_left (ha k hk)]

theorem SupportedOn.merge {s t : Set κ} (ha : a.SupportedOn s) (hb : b.SupportedOn t) :
    (a.merge b).SupportedOn (s ∪ t) := by
  intro k hk
  rw [Set.mem_union, not_or] at hk
  rw [merge_apply_left (hb k hk.2), ha k hk.1]

end Row

/-! ## Products -/

/-- The merges of the pairs of a row on the left and a row on the right. -/
def product (r s : Multiset (Row κ ν)) : Multiset (Row κ ν) := r.bind fun a => s.map a.merge

/-- The rows of the relation have no columns outside of `s`. -/
def SupportedOn (r : Multiset (Row κ ν)) (s : Set κ) : Prop := ∀ a ∈ r, a.SupportedOn s

variable {r s : Multiset (Row κ ν)} {u v : Set κ}

theorem mem_product {c : Row κ ν} : c ∈ product r s ↔ ∃ a ∈ r, ∃ b ∈ s, a.merge b = c := by
  simp [product]

theorem SupportedOn.product (hr : SupportedOn r u) (hs : SupportedOn s v) :
    SupportedOn (product r s) (u ∪ v) := by
  intro c hc
  obtain ⟨a, ha, b, hb, rfl⟩ := mem_product.mp hc
  exact (hr a ha).merge (hs b hb)

theorem SupportedOn.mono (h : SupportedOn r u) (huv : u ⊆ v) : SupportedOn r v :=
  fun a ha k hk => h a ha k fun hku => hk (huv hku)

@[simp]
theorem product_none (r : Multiset (Row κ ν)) : product r {fun _ => none} = r := by
  unfold product
  simp only [Multiset.map_singleton, Row.merge_none]
  exact Multiset.bind_singleton r id |>.trans (Multiset.map_id r)

@[simp]
theorem none_product (r : Multiset (Row κ ν)) : product {fun _ => none} r = r := by
  unfold product
  rw [Multiset.singleton_bind]
  exact Multiset.map_id r

theorem product_assoc (r s t : Multiset (Row κ ν)) :
    product (product r s) t = product r (product s t) := by
  simp only [product, Multiset.bind_assoc, Multiset.bind_map, Multiset.map_bind,
    Multiset.map_map, Function.comp_apply, Row.merge_assoc]

theorem product_comm (huv : Disjoint u v) (hr : SupportedOn r u) (hs : SupportedOn s v) :
    product r s = product s r := by
  unfold product
  rw [Multiset.bind_map_comm]
  refine Multiset.bind_congr fun b hb => ?_
  exact Multiset.map_congr rfl fun a ha => Row.merge_comm huv (hr a ha) (hs b hb)

/-! ## Selections -/

/-- A selection that splits over each merge selects on the two sides of a product. -/
theorem filter_product {p q₁ q₂ : Row κ ν → Bool}
    (h : ∀ a ∈ r, ∀ b ∈ s, p (a.merge b) = (q₁ a && q₂ b)) :
    (product r s).filter (p ·) = product (r.filter (q₁ ·)) (s.filter (q₂ ·)) := by
  unfold product
  rw [Multiset.filter_bind, Multiset.bind_filter]
  refine Multiset.bind_congr fun a ha => ?_
  rw [Multiset.filter_map]
  -- A row that fails the left selection has no partner; the others keep those that pass the right.
  split_ifs with hq
  · congr 1
    refine Multiset.filter_congr fun b hb => ?_
    simp only [Function.comp_apply, h a ha b hb, hq, Bool.true_and]
  · rw [Multiset.filter_eq_nil.mpr fun b hb => ?_, Multiset.map_zero]
    simp [h a ha b hb, hq]

/-- What reads the columns of the left side only has the same value on the merge as on the left
row. -/
theorem apply_merge_left {β : Type*} {f : Row κ ν → β} (hf : DependsOn f u) (huv : Disjoint u v)
    {a b : Row κ ν} (hb : b.SupportedOn v) : f (a.merge b) = f a :=
  hf fun k hk => Row.merge_apply_left (hb k (Set.disjoint_left.mp huv hk))

/-- What reads the columns of the right side only has the same value on the merge as on the right
row. -/
theorem apply_merge_right {β : Type*} {f : Row κ ν → β} (hf : DependsOn f v) (huv : Disjoint u v)
    {a b : Row κ ν} (ha : a.SupportedOn u) : f (a.merge b) = f b :=
  hf fun k hk => Row.merge_apply_right (ha k (Set.disjoint_right.mp huv hk))

/-- A selection on the product of two selected sides, each selection reading the columns of its
side, is one selection on the product. -/
theorem filter_product_filter (huv : Disjoint u v) (hr : SupportedOn r u) (hs : SupportedOn s v)
    {p q₁ q₂ : Row κ ν → Bool} (h₁ : DependsOn q₁ u) (h₂ : DependsOn q₂ v) :
    (product (r.filter (q₁ ·)) (s.filter (q₂ ·))).filter (p ·) =
      (product r s).filter fun c => p c && (q₁ c && q₂ c) := by
  have hsplit : (product r s).filter (fun c => q₁ c && q₂ c) =
      product (r.filter (q₁ ·)) (s.filter (q₂ ·)) :=
    filter_product fun a ha b hb => by
      rw [apply_merge_left h₁ huv (hs b hb), apply_merge_right h₂ huv (hr a ha)]
  rw [← hsplit, Multiset.filter_filter]
  exact Multiset.filter_congr fun c _ => by simp only [Bool.and_eq_true]

/-! ## Products of families -/

/-- The product of the relations of a list of names. -/
def crossProduct (rel : τ → Multiset (Row κ ν)) (ts : List τ) : Multiset (Row κ ν) :=
  ts.foldr (fun t => product (rel t)) {fun _ => none}

variable (rel : τ → Multiset (Row κ ν))

@[simp]
theorem crossProduct_nil : crossProduct rel [] = {fun _ => none} := rfl

@[simp]
theorem crossProduct_cons (t : τ) (ts : List τ) :
    crossProduct rel (t :: ts) = product (rel t) (crossProduct rel ts) := rfl

theorem crossProduct_singleton (t : τ) : crossProduct rel [t] = rel t := by
  rw [crossProduct_cons, crossProduct_nil, product_none]

theorem crossProduct_append (ts us : List τ) :
    crossProduct rel (ts ++ us) = product (crossProduct rel ts) (crossProduct rel us) := by
  induction ts with
  | nil => rw [List.nil_append, crossProduct_nil, none_product]
  | cons t ts ih => rw [List.cons_append, crossProduct_cons, crossProduct_cons, ih, product_assoc]

section Owned

-- The columns of the relation named `t` are those whose owner is `t`.
variable {rel : τ → Multiset (Row κ ν)} {owner : κ → τ}
  (howned : ∀ t, SupportedOn (rel t) {k | owner k = t})

include howned

theorem supportedOn_crossProduct (ts : List τ) :
    SupportedOn (crossProduct rel ts) {k | owner k ∈ ts} := by
  induction ts with
  | nil =>
    intro a ha k _
    rw [crossProduct_nil, Multiset.mem_singleton] at ha
    rw [ha]
  | cons t ts ih =>
    refine ((howned t).product ih).mono fun k hk => ?_
    exact List.mem_cons.mpr hk

/-- The order in which the relations are multiplied does not matter. -/
theorem crossProduct_perm {ts us : List τ} (h : ts.Perm us) :
    crossProduct rel ts = crossProduct rel us := by
  have hcomm : LeftCommutative fun t => product (rel t) := ⟨fun t u r => by
    -- A relation commutes with itself; two different ones have no column in common.
    by_cases htu : t = u
    · rw [htu]
    have hdisj : Disjoint {k | owner k = t} {k | owner k = u} :=
      Set.disjoint_left.mpr fun k hkt hku => htu (hkt.symm.trans hku)
    rw [← product_assoc, product_comm hdisj (howned t) (howned u), product_assoc]⟩
  exact h.foldr_eq _

end Owned

end Rucbase.Lib
