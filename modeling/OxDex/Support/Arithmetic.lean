import Mathlib.Tactic

/-!
# Support — Arithmetic

Two pieces of natural-number arithmetic.

* Addition and multiplication capped at a bound, as fixed-width saturating operations compute them.
* Fractions with positive denominators, compared by cross-multiplication: `a / b ≤ c / d` is
  `a * d ≤ c * b`.  The comparison is transitive (`cross_trans`), scaling a number by a larger
  fraction and rounding down gives no less (`scaled_mono`), and the midpoint of `p = a / b` and of
  the reciprocal of `q = c / d` lies between them when `p * q ≤ 1` (`midpoint_ge`, `midpoint_le`).
-/

namespace Support

/-- `a + b`, at most `c`. -/
def capAdd (c a b : Nat) : Nat := min (a + b) c

/-- `a * b`, at most `c`. -/
def capMul (c a b : Nat) : Nat := min (a * b) c

theorem capAdd_eq {c a b : Nat} (h : a + b ≤ c) : capAdd c a b = a + b := Nat.min_eq_left h

theorem capMul_eq {c a b : Nat} (h : a * b ≤ c) : capMul c a b = a * b := Nat.min_eq_left h

theorem capAdd_le (c a b : Nat) : capAdd c a b ≤ c := Nat.min_le_right _ _

theorem capMul_le (c a b : Nat) : capMul c a b ≤ c := Nat.min_le_right _ _

/-- **A capped sum** is the sum, capped: capping on the way loses nothing. -/
theorem foldl_capAdd {c : Nat} : ∀ (l : List Nat) {a : Nat}, a ≤ c →
    l.foldl (capAdd c) a = capAdd c a l.sum
  | [], a, h => (capAdd_eq (b := 0) h).symm
  | b :: l, a, h => by
      rw [List.foldl_cons, foldl_capAdd l (capAdd_le _ _ _), List.sum_cons]
      simp only [capAdd]
      omega

/-- Capping the numbers does not change the capped sum. -/
theorem min_sum_min {α : Type*} (c : Nat) (f : α → Nat) (l : List α) :
    min (l.map fun a => min (f a) c).sum c = min (l.map f).sum c := by
  induction l with
  | nil => rfl
  | cons a l ih => simp only [List.map_cons, List.sum_cons]; omega

/-- Replacing one number of a list changes the sum by the difference. -/
theorem sum_set_add {i x : Nat} :
    ∀ {l : List Nat} (h : i < l.length), (l.set i x).sum + l[i] = l.sum + x
  | [], h => absurd h (Nat.not_lt_zero _)
  | a :: l, h => by
      cases i with
      | zero => simp only [List.set_cons_zero, List.sum_cons, List.getElem_cons_zero]; omega
      | succ i =>
          have ih := sum_set_add (x := x) (Nat.lt_of_succ_lt_succ h)
          simp only [List.set_cons_succ, List.sum_cons, List.getElem_cons_succ]
          omega

/-! ### Fractions -/

/-- `a / b ≤ c / d ≤ e / f` gives `a / b ≤ e / f`. -/
theorem cross_trans {a b c d e f : Nat} (hd : 0 < d) (h₁ : a * d ≤ c * b) (h₂ : c * f ≤ e * d) :
    a * f ≤ e * b := by
  refine Nat.le_of_mul_le_mul_right ?_ hd
  calc a * f * d = a * d * f := by ring
    _ ≤ c * b * f := Nat.mul_le_mul_right f h₁
    _ = c * f * b := by ring
    _ ≤ e * d * b := Nat.mul_le_mul_right b h₂
    _ = e * b * d := by ring

/-- **Scaling is monotone.**  If `a / b ≤ c / d` then `⌊x * a / b⌋ ≤ ⌊x * c / d⌋`. -/
theorem scaled_mono {a b c d : Nat} (hb : 0 < b) (hd : 0 < d) (h : a * d ≤ c * b) (x : Nat) :
    x * a / b ≤ x * c / d := by
  rw [Nat.le_div_iff_mul_le hd]
  refine Nat.le_of_mul_le_mul_right ?_ hb
  calc x * a / b * d * b = x * a / b * b * d := by ring
    _ ≤ x * a * d := Nat.mul_le_mul_right d (Nat.div_mul_le_self _ _)
    _ = x * (a * d) := by ring
    _ ≤ x * (c * b) := Nat.mul_le_mul_left x h
    _ = x * c * b := by ring

/-- Equal fractions scale a number to the same result. -/
theorem scaled_eq {a b c d : Nat} (hb : 0 < b) (hd : 0 < d) (h : a * d = c * b) (x : Nat) :
    x * a / b = x * c / d :=
  Nat.le_antisymm (scaled_mono hb hd h.le x) (scaled_mono hd hb h.ge x)

/-- **Scaling without rounding.**  If `a / b = c / d` and `d` divides `x * c`, then scaling `x` by
`a / b` is exact. -/
theorem scaled_exact {a b c d x : Nat} (hb : 0 < b) (hd : 0 < d) (h : a * d = c * b)
    (hx : d ∣ x * c) : x * a / b * d = x * c := by
  rw [scaled_eq hb hd h, Nat.div_mul_cancel hx]

/-- A number scaled by `b / s`, rounded down, and back by `s / b`, rounded down, is no more than it
was. -/
theorem scaled_back_le (x b s : Nat) : x * b / s * s / b ≤ x := by
  rcases Nat.eq_zero_or_pos b with rfl | hb
  · simp
  · calc x * b / s * s / b ≤ x * b / b := Nat.div_le_div_right (Nat.div_mul_le_self _ _)
      _ = x := Nat.mul_div_cancel x hb

/-- The midpoint of `a / b` and `d / c` is at least `a / b` when `a / b ≤ d / c`. -/
theorem midpoint_ge {a b c d : Nat} (h : a * c ≤ b * d) :
    a * (2 * (b * c)) ≤ (a * c + b * d) * b := by
  calc a * (2 * (b * c)) = (a * c + a * c) * b := by ring
    _ ≤ (a * c + b * d) * b := Nat.mul_le_mul_right b (by omega)

/-- The reciprocal of that midpoint is at least `c / d`. -/
theorem midpoint_le {a b c d : Nat} (h : a * c ≤ b * d) :
    c * (a * c + b * d) ≤ 2 * (b * c) * d := by
  calc c * (a * c + b * d) ≤ c * (b * d + b * d) := Nat.mul_le_mul_left c (by omega)
    _ = 2 * (b * c) * d := by ring

end Support
