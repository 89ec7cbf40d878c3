import OxDex.Support.Arithmetic
import OxDex.Types.Primitives

/-!
# Types — Price

`u128` arithmetic as the standard library computes it on `Nat`, and the rational `Price`
(`oxdex-types`: `price.rs`).

`Price`'s order saturates its cross products.  On prices whose parts are `u64` the products fit, so
the order is the order of the rationals (`le_iff_cross`), total and transitive; and `apply` rounds
the exact product down unless it leaves `u128`, where it is `u128::MAX` (`apply_eq`,
`apply_of_overflow`).
-/

namespace OxDex
open Support

/-- `u64::MAX`. -/
def u64Max : Nat := 2 ^ 64 - 1

/-- `u128::MAX`. -/
def u128Max : Nat := 2 ^ 128 - 1

/-- `u128::saturating_add`. -/
def satAdd (a b : Nat) : Nat := capAdd u128Max a b

/-- `u128::saturating_mul`. -/
def satMul (a b : Nat) : Nat := capMul u128Max a b

/-- `u128::checked_mul`. -/
def checkedMul (a b : Nat) : Option Nat := if a * b ≤ u128Max then some (a * b) else none

theorem u64Max_sq_le : u64Max * u64Max ≤ u128Max := by decide

theorem u64Max_le_u128Max : u64Max ≤ u128Max := by decide

theorem toNat_le_u64Max (x : UInt64) : x.toNat ≤ u64Max := by
  have := x.toNat_lt
  simp only [u64Max]
  omega

/-- The product of two `u64` values is a `u128` value. -/
theorem mul_le_u128Max {a b : Nat} (ha : a ≤ u64Max) (hb : b ≤ u64Max) : a * b ≤ u128Max :=
  (Nat.mul_le_mul ha hb).trans u64Max_sq_le

theorem satMul_eq {a b : Nat} (h : a * b ≤ u128Max) : satMul a b = a * b := capMul_eq h

theorem satMul_u64 {a b : Nat} (ha : a ≤ u64Max) (hb : b ≤ u64Max) : satMul a b = a * b :=
  satMul_eq (mul_le_u128Max ha hb)

theorem satAdd_eq {a b : Nat} (h : a + b ≤ u128Max) : satAdd a b = a + b := capAdd_eq h

/-- A rational price `num / den`.  The parts are `u128` values and the denominator is positive. -/
structure Price where
  num : Nat
  den : Nat
  num_le : num ≤ u128Max
  den_le : den ≤ u128Max
  den_pos : 0 < den
  deriving DecidableEq

namespace Price

/-- `Price::new`. -/
def new (num den : Nat) (hn : num ≤ u128Max) (hd : den ≤ u128Max) : Except OxDexError Price :=
  if h : den = 0 then .error (.invalidOrder "price denominator is zero")
  else .ok ⟨num, den, hn, hd, Nat.pos_of_ne_zero h⟩

/-- `Price::apply`: the amount bought for `sellAmount`, rounded down; `u128::MAX` where the product
leaves `u128`. -/
def apply (p : Price) (sellAmount : Nat) : Nat :=
  ((checkedMul sellAmount p.num).map fun v => v / p.den).getD u128Max

/-- `Price::ge_rational`. -/
def geRational (p q : Price) : Bool := satMul p.num q.den ≥ satMul q.num p.den

/-- `Ord::cmp`. -/
def cmp (p q : Price) : Ordering := compare (satMul p.num q.den) (satMul q.num p.den)

instance : LE Price := ⟨fun p q => p.cmp q ≠ .gt⟩

instance (p q : Price) : Decidable (p ≤ q) := inferInstanceAs (Decidable (p.cmp q ≠ .gt))

theorem le_iff (p q : Price) : p ≤ q ↔ satMul p.num q.den ≤ satMul q.num p.den := by
  show compare _ _ ≠ Ordering.gt ↔ _
  rw [Ne, Nat.compare_eq_gt]
  exact not_lt

theorem le_total (p q : Price) : p ≤ q ∨ q ≤ p := by
  rw [le_iff, le_iff]
  exact Nat.le_total _ _

/-- The rational a price stands for. -/
def toRat (p : Price) : ℚ := p.num / p.den

/-- Rationals are compared by cross-multiplication. -/
theorem toRat_le_iff (p q : Price) : p.toRat ≤ q.toRat ↔ p.num * q.den ≤ q.num * p.den := by
  rw [toRat, toRat, div_le_div_iff₀ (Nat.cast_pos.mpr p.den_pos) (Nat.cast_pos.mpr q.den_pos)]
  exact_mod_cast Iff.rfl

/-- A price whose parts are `u64` values. -/
def IsU64 (p : Price) : Prop := p.num ≤ u64Max ∧ p.den ≤ u64Max

/-- **The order of `u64` prices is the order of the rationals.** -/
theorem le_iff_cross {p q : Price} (hp : p.IsU64) (hq : q.IsU64) :
    p ≤ q ↔ p.num * q.den ≤ q.num * p.den := by
  rw [le_iff, satMul_u64 hp.1 hq.2, satMul_u64 hq.1 hp.2]

theorem le_trans {p q r : Price} (hp : p.IsU64) (hq : q.IsU64) (hr : r.IsU64) (h₁ : p ≤ q)
    (h₂ : q ≤ r) : p ≤ r := by
  rw [le_iff_cross hp hq] at h₁
  rw [le_iff_cross hq hr] at h₂
  exact (le_iff_cross hp hr).mpr (cross_trans q.den_pos h₁ h₂)

theorem apply_eq {p : Price} {x : Nat} (h : x * p.num ≤ u128Max) :
    p.apply x = x * p.num / p.den := by
  simp [apply, checkedMul, h]

theorem apply_of_overflow {p : Price} {x : Nat} (h : u128Max < x * p.num) :
    p.apply x = u128Max := by
  simp [apply, checkedMul, not_le.mpr h]

/-- Without overflow or with it, `apply` is at least the exact product rounded down, capped at
`u128::MAX`. -/
theorem apply_ge {p : Price} {x b : Nat} (hb : b ≤ x * p.num / p.den) (hc : b ≤ u128Max) :
    b ≤ p.apply x := by
  rcases Nat.lt_or_ge u128Max (x * p.num) with h | h
  · rw [apply_of_overflow h]; exact hc
  · rw [apply_eq h]; exact hb

end Price

end OxDex
