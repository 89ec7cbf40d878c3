import OxDex.Matching.Clearing

/-!
# Matching — Walk

Which pairs trade, read off the orders alone.

Until the first fill is recorded nothing has been sold, so the two-pointer loop only walks down the
two sorted sides, past heads that forbid partial fills and would be filled partially.  `Trades xs
ys` is that walk: it reaches two crossing heads that can be filled.  `fillLoop_trades`: the loop
leaves a fill if and only if the walk does.
-/

namespace OxDex
open Support

/-- The walk down the two sides `xs` and `ys` reaches a pair of heads that is filled. -/
inductive Trades : List Order → List Order → Prop where
  /-- The heads cross, and each may be filled partially or is filled to the end. -/
  | here {x y : Order} {xs ys : List Order} (hc : Crosses x y)
      (hx : x.partialFill = false → x.sellAmount.toNat ≤ y.buyAmount.toNat)
      (hy : y.partialFill = false → y.buyAmount.toNat ≤ x.sellAmount.toNat) :
      Trades (x :: xs) (y :: ys)
  /-- The first head must be filled to the end, and the second buys less. -/
  | killX {x y : Order} {xs ys : List Order} (hc : Crosses x y) (hx : x.partialFill = false)
      (hlt : y.buyAmount.toNat < x.sellAmount.toNat) (h : Trades xs (y :: ys)) :
      Trades (x :: xs) (y :: ys)
  /-- The second head must be filled to the end, and the first sells less. -/
  | killY {x y : Order} {xs ys : List Order} (hc : Crosses x y) (hy : y.partialFill = false)
      (hlt : x.sellAmount.toNat < y.buyAmount.toNat) (h : Trades (x :: xs) ys) :
      Trades (x :: xs) (y :: ys)

namespace Trades

variable {x y : Order} {xs ys : List Order}

theorem ne_nil (h : Trades xs ys) : xs ≠ [] ∧ ys ≠ [] := by
  cases h <;> exact ⟨List.cons_ne_nil _ _, List.cons_ne_nil _ _⟩

theorem crosses (h : Trades (x :: xs) (y :: ys)) : Crosses x y := by
  cases h <;> assumption

theorem killX_iff (hc : Crosses x y) (hx : x.partialFill = false)
    (hlt : y.buyAmount.toNat < x.sellAmount.toNat) :
    Trades xs (y :: ys) ↔ Trades (x :: xs) (y :: ys) := by
  refine ⟨.killX hc hx hlt, fun h => ?_⟩
  cases h with
  | here _ hx' _ => exact absurd (hx' hx) (by omega)
  | killX _ _ _ h => exact h
  | killY _ _ hlt' _ => omega

theorem killY_iff (hc : Crosses x y) (hy : y.partialFill = false)
    (hlt : x.sellAmount.toNat < y.buyAmount.toNat) :
    Trades (x :: xs) ys ↔ Trades (x :: xs) (y :: ys) := by
  refine ⟨.killY hc hy hlt, fun h => ?_⟩
  cases h with
  | here _ _ hy' => exact absurd (hy' hy) (by omega)
  | killX _ _ hlt' _ => omega
  | killY _ _ _ h => exact h

end Trades

variable {aToB bToA : List Order}

/-! ### Before the first fill -/

namespace Ledger

variable {s : MatchState aToB bToA}

theorem fillsBa_eq_nil (hs : Ledger s) (h : s.fillsAb = []) : s.fillsBa = [] := by
  have := hs.booked.length_eq
  rw [h] at this
  exact List.length_eq_zero_iff.mp this.symm

/-- Without fills, every order still has all it offers. -/
theorem a_full (hs : Ledger s) (h : s.fillsAb = []) (k : Fin aToB.length) :
    s.aRemaining.get k = (aToB.get k).sellAmount.toNat := by
  have := hs.a_sum k
  rwa [h, soldOf_nil, Nat.add_zero] at this

theorem b_full (hs : Ledger s) (h : s.fillsAb = []) (k : Fin bToA.length) :
    s.bRemaining.get k = (bToA.get k).sellAmount.toNat := by
  have := hs.b_sum k
  rwa [hs.fillsBa_eq_nil h, soldOf_nil, Nat.add_zero] at this

end Ledger

/-- A full order buys its buy amount. -/
theorem aCapacity_full {o : Order} (ho : o.WellFormed) :
    aCapacity o o.sellAmount.toNat = o.buyAmount.toNat := by
  rw [aCapacity_eq (toNat_le_u64Max _), max_eq_left ho.sell_pos,
    Nat.mul_div_cancel_left _ ho.sell_pos]

/-- An order is booked for all it sells once it buys its buy amount, and not before. -/
theorem bookedB_lt_iff {o : Order} (ho : o.WellFormed) {t : Nat} (ht : t ≤ u64Max) :
    bookedB o t < o.sellAmount.toNat ↔ t < o.buyAmount.toNat := by
  rw [bookedB_eq ht, max_eq_left ho.buy_pos, Nat.div_lt_iff_lt_mul ho.buy_pos, Nat.mul_comm,
    Nat.mul_lt_mul_left ho.sell_pos]

/-- Two full heads that trade end the walk. -/
theorem Trades.of_fill {x y : Order} {xs ys : List Order} {t : Nat} (hy : y.WellFormed)
    (hc : Crosses x y) (ht : t = min x.sellAmount.toNat y.buyAmount.toNat)
    (hkA : x.partialFill = false → t = x.sellAmount.toNat)
    (hkB : y.partialFill = false → bookedB y t = y.sellAmount.toNat) :
    Trades (x :: xs) (y :: ys) := by
  have hbook := bookedB_lt_iff hy (ht ▸ (min_le_left _ _).trans (toNat_le_u64Max _) : t ≤ u64Max)
  refine .here hc (fun hp => ?_) fun hp => ?_
  · have := hkA hp
    omega
  · -- the second head is sold out, so it bought its buy amount
    have : ¬ t < y.buyAmount.toNat := fun hlt =>
      absurd (hbook.mpr hlt) (by rw [hkB hp]; exact lt_irrefl _)
    omega

/-- The invariant of the walk: no fill is left that the walk does not explain, and before the first
one the walk from the heads is the whole walk. -/
structure Walking (s : MatchState aToB bToA) : Prop where
  ledger : Ledger s
  filled : s.fillsAb ≠ [] → Trades aToB bToA
  ahead : s.fillsAb = [] → (Trades (aToB.drop s.i) (bToA.drop s.j) ↔ Trades aToB bToA)

theorem walking_init (aToB bToA : List Order) : Walking (.init aToB bToA) :=
  ⟨ledger_init aToB bToA, fun h => absurd rfl h, fun _ => Iff.rfl⟩

variable (hA : ∀ o ∈ aToB, o.WellFormed) (hB : ∀ o ∈ bToA, o.WellFormed)

include hA hB

/-- **Every iteration keeps the walk.** -/
theorem walking_turn {s s' : MatchState aToB bToA} (hs : Walking s)
    (h : turn aToB bToA s = some s') : Walking s' := by
  have hl := ledger_turn hs.ledger h
  obtain ⟨i, j, hi, hj, hc, hm⟩ := turn_met hs.ledger h
  have hx : (aToB.get i).WellFormed := hA _ (List.get_mem _ i)
  have hy : (bToA.get j).WellFormed := hB _ (List.get_mem _ j)
  have dropA : aToB.drop s.i = aToB.get i :: aToB.drop (i.1 + 1) := by
    rw [hi]; exact List.drop_eq_getElem_cons i.2
  have dropB : bToA.drop s.j = bToA.get j :: bToA.drop (j.1 + 1) := by
    rw [hj]; exact List.drop_eq_getElem_cons j.2
  by_cases he : s.fillsAb = []
  · have fullA : s.aRemaining.get i = (aToB.get i).sellAmount.toNat := hs.ledger.a_full he i
    have fullB : s.bRemaining.get j = (bToA.get j).sellAmount.toNat := hs.ledger.b_full he j
    have cap : aCapacity (bToA.get j) (s.bRemaining.get j) = (bToA.get j).buyAmount.toNat := by
      rw [fullB]; exact aCapacity_full hy
    have ahead := hs.ahead he
    rw [dropA, dropB] at ahead
    cases hm with
    | spent ha => exact absurd (fullA.symm.trans ha) hx.sell_pos.ne'
    | dust _ hd => exact absurd (cap.symm.trans hd) hy.buy_pos.ne'
    | killA _ hp hlt =>
        replace hlt : aCapacity (bToA.get j) (s.bRemaining.get j) < s.aRemaining.get i := hlt
        rw [cap, fullA] at hlt
        refine ⟨hl, fun hne => absurd he hne, fun _ => ?_⟩
        show Trades (aToB.drop (s.i + 1)) (bToA.drop s.j) ↔ _
        rw [dropB, hi, Trades.killX_iff hc hp hlt, ahead]
    | killB t ht _ hp hlt =>
        replace ht : t = min (s.aRemaining.get i)
          (aCapacity (bToA.get j) (s.bRemaining.get j)) := ht
        replace hlt : bookedB (bToA.get j) t < s.bRemaining.get j := hlt
        rw [cap, fullA] at ht
        rw [fullB, bookedB_lt_iff hy (ht ▸ (min_le_left _ _).trans (toNat_le_u64Max _))] at hlt
        refine ⟨hl, fun hne => absurd he hne, fun _ => ?_⟩
        show Trades (aToB.drop s.i) (bToA.drop (s.j + 1)) ↔ _
        rw [dropA, hj, Trades.killY_iff hc hp (by omega), ahead]
    | filled t u ht _ hu hkA hkB =>
        replace ht : t = min (s.aRemaining.get i)
          (aCapacity (bToA.get j) (s.bRemaining.get j)) := ht
        replace hkA : (aToB.get i).partialFill = false → t = s.aRemaining.get i := hkA
        replace hkB : (bToA.get j).partialFill = false → u = s.bRemaining.get j := hkB
        rw [cap, fullA] at ht
        rw [fullA] at hkA
        rw [fullB] at hkB
        rw [hu] at hkB
        have htr := ahead.mp (.of_fill hy hc ht hkA hkB)
        exact ⟨hl, fun _ => htr, fun hn => absurd hn (by simp [MatchState.fill])⟩
  · have htr := hs.filled he
    refine ⟨hl, fun _ => htr, fun hn => absurd hn ?_⟩
    cases hm with
    | filled => simp [MatchState.fill]
    | _ => exact he

/-- **The loop leaves a fill if and only if the walk reaches one.** -/
theorem fillLoop_trades : (fillLoop aToB bToA).fillsAb ≠ [] ↔ Trades aToB bToA := by
  have hw : Walking (fillLoop aToB bToA) :=
    Loop.run_inv (fun _ _ hs h => walking_turn hA hB hs h) _ _ (walking_init aToB bToA)
  refine ⟨hw.filled, fun ht he => ?_⟩
  -- the loop was left, so the heads are exhausted or do not cross
  have hn := fillLoop_left aToB bToA
  have ht := (hw.ahead he).mpr ht
  generalize fillLoop aToB bToA = s at hn ht
  have hi : s.i < aToB.length := by
    by_contra h
    exact ht.ne_nil.1 (List.drop_eq_nil_of_le (not_lt.mp h))
  have hj : s.j < bToA.length := by
    by_contra h
    exact ht.ne_nil.2 (List.drop_eq_nil_of_le (not_lt.mp h))
  rw [List.drop_eq_getElem_cons hi, List.drop_eq_getElem_cons hj] at ht
  rw [turn, dif_pos ⟨hi, hj⟩, if_pos ht.crosses] at hn
  cases hn

end OxDex
