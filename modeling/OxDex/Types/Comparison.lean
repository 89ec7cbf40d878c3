import OxDex.Types.Price

/-!
# Types — Comparison

Whether prices compare as the rationals they stand for.

`Ord::cmp` and `ge_rational` compare cross products that saturate at `u128::MAX`, so two products
beyond it look equal.  A comparison is that of the rationals if and only if the two products are
not both at or beyond `u128::MAX`, unless they are equal (`cmp_exact_iff`).  Products of `u64` parts
stay below it, so limit prices are always told apart (`Price.IsU64.distinct`); clearing prices
are not.  Beyond it the order is not even transitive (`order_saturates`).
-/

namespace OxDex
open Support

namespace Price

variable {p q r : Price}

/-- The cross products are not both saturated, unless they are equal. -/
def Distinct (p q : Price) : Prop :=
  p.num * q.den < u128Max ∨ q.num * p.den < u128Max ∨ p.num * q.den = q.num * p.den

instance (p q : Price) : Decidable (Distinct p q) := inferInstanceAs (Decidable (_ ∨ _ ∨ _))

theorem Distinct.refl (p : Price) : p.Distinct p := .inr (.inr rfl)

theorem Distinct.symm (h : p.Distinct q) : q.Distinct p := by
  rcases h with h | h | h
  · exact .inr (.inl h)
  · exact .inl h
  · exact .inr (.inr h.symm)

/-- `u64` prices are always told apart. -/
theorem IsU64.distinct (hp : p.IsU64) (hq : q.IsU64) : p.Distinct q := by
  have h : u64Max * u64Max < u128Max := by decide
  exact .inl ((Nat.mul_le_mul hp.1 hq.2).trans_lt h)

/-- The order of the rationals, by cross products. -/
theorem compare_toRat (p q : Price) :
    compare p.toRat q.toRat = compare (p.num * q.den) (q.num * p.den) := by
  rcases lt_trichotomy (p.num * q.den) (q.num * p.den) with h | h | h
  · rw [compare_lt_iff_lt.mpr h, compare_lt_iff_lt, ← not_le, toRat_le_iff]
    exact not_le.mpr h
  · rw [compare_eq_iff_eq.mpr h, compare_eq_iff_eq]
    exact le_antisymm ((toRat_le_iff p q).mpr h.le) ((toRat_le_iff q p).mpr h.ge)
  · rw [compare_gt_iff_gt.mpr h, compare_gt_iff_gt, ← not_le, toRat_le_iff]
    exact not_le.mpr h

/-- **When `cmp` is exact.** -/
theorem cmp_exact_iff : p.cmp q = compare p.toRat q.toRat ↔ p.Distinct q := by
  rw [compare_toRat, cmp, satMul, satMul, capMul, capMul, Distinct]
  generalize p.num * q.den = x
  generalize q.num * p.den = y
  rcases lt_trichotomy x y with h | h | h
  · rw [compare_lt_iff_lt.mpr h, compare_lt_iff_lt]
    omega
  · rw [compare_eq_iff_eq.mpr h, compare_eq_iff_eq]
    omega
  · rw [compare_gt_iff_gt.mpr h, compare_gt_iff_gt]
    omega

/-- **`ge_rational` agrees with `cmp`**, saturated or not. -/
theorem geRational_iff : p.geRational q = true ↔ p.cmp q ≠ .lt := by
  rw [geRational, decide_eq_true_eq, cmp, Ne, compare_lt_iff_lt, not_lt]

/-- Prices that are told apart compare as their rationals. -/
theorem le_iff_toRat (h : p.Distinct q) : p ≤ q ↔ p.toRat ≤ q.toRat := by
  show p.cmp q ≠ .gt ↔ _
  rw [cmp_exact_iff.mpr h, Ne, compare_gt_iff_gt, not_lt]

end Price

/-- **The order of three prices is that of their rationals**: `cmp` is exact on any two of them,
`ge_rational` agrees with it, and it is total and transitive. -/
structure ExactOrder (p q r : Price) : Prop where
  exact : ∀ x ∈ [p, q, r], ∀ y ∈ [p, q, r], x.cmp y = compare x.toRat y.toRat
  agrees : ∀ x ∈ [p, q, r], ∀ y ∈ [p, q, r], x.geRational y = true ↔ x.cmp y ≠ .lt
  total : ∀ x ∈ [p, q, r], ∀ y ∈ [p, q, r], x ≤ y ∨ y ≤ x
  trans : ∀ x ∈ [p, q, r], ∀ y ∈ [p, q, r], ∀ z ∈ [p, q, r], x ≤ y → y ≤ z → x ≤ z

/-- **Exact if and only if told apart**: three prices compare as their rationals exactly if no two
of them have different cross products of which neither is below `u128::MAX`. -/
theorem exactOrder_iff (p q r : Price) :
    ExactOrder p q r ↔ p.Distinct q ∧ q.Distinct r ∧ p.Distinct r := by
  constructor
  · intro h
    exact ⟨Price.cmp_exact_iff.mp (h.exact p (by simp) q (by simp)),
      Price.cmp_exact_iff.mp (h.exact q (by simp) r (by simp)),
      Price.cmp_exact_iff.mp (h.exact p (by simp) r (by simp))⟩
  · rintro ⟨hpq, hqr, hpr⟩
    have key : ∀ x ∈ [p, q, r], ∀ y ∈ [p, q, r], x.Distinct y := by
      simp only [List.forall_mem_cons, List.not_mem_nil, false_implies, implies_true, and_true]
      exact ⟨⟨.refl p, hpq, hpr⟩, ⟨hpq.symm, .refl q, hqr⟩, hpr.symm, hqr.symm, .refl r⟩
    refine ⟨fun x hx y hy => Price.cmp_exact_iff.mpr (key x hx y hy),
      fun _ _ _ _ => Price.geRational_iff, fun x _ y _ => Price.le_total x y,
      fun x hx y hy z hz hxy hyz => ?_⟩
    rw [Price.le_iff_toRat (key x hx y hy)] at hxy
    rw [Price.le_iff_toRat (key y hy z hz)] at hyz
    exact (Price.le_iff_toRat (key x hx z hz)).mpr (hxy.trans hyz)

namespace Sample

/-- 3/2. -/
def threeHalves : Price := ⟨3, 2, by decide, by decide, by decide⟩

/-- 2/3. -/
def twoThirds : Price := ⟨2, 3, by decide, by decide, by decide⟩

/-- 1, written with the largest parts. -/
def largestOne : Price := ⟨u128Max, u128Max, le_rfl, le_rfl, by decide⟩

end Sample

open Sample in
/-- **The order saturates**: 1, written with the largest parts, compares equal to 3/2 and to 2/3,
which are told apart. -/
theorem order_saturates : threeHalves.cmp largestOne = .eq ∧ largestOne.cmp twoThirds = .eq ∧
    threeHalves.cmp twoThirds = .gt ∧ ¬ ExactOrder threeHalves largestOne twoThirds := by
  refine ⟨by decide, by decide, by decide, fun h => ?_⟩
  exact absurd (Price.cmp_exact_iff.mp (h.exact threeHalves (by simp) largestOne (by simp)))
    (by decide)

end OxDex
