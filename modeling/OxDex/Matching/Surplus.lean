import OxDex.Matching.Repricing

/-!
# Matching — Surplus

The uniform price and the score of a batch in which nothing saturates.

The price of a pair is the midpoint of the limits of its last crossing pair.  Both pointers only
move forward along sorted sides, so no filled order comes after that pair, and since the pair
crosses, its midpoint is at least as good as every filled order's limit, on both sides
(`price_ge_limit`, `price_le_limit`).  Rounding down is monotone, so no payout is below what the
limit gives, the guards of the surplus never drop a trade, and the score is what the trades give
above the limits (`exact_score`).
-/

namespace OxDex
open Support

/-- **Priced between the limits.**  Each pair's published price is at least every filled limit of
its A→B side and at most the reciprocal of every filled limit of its B→A side; no payout is below
its order's limit; and the score is the sum over the trades of what each gives above the limit of
its order. -/
structure PricedBetween (P : Primitives) (orders : List SignedOrder) (sol : Solution) : Prop where
  published : ∀ m (h : (pairFills orders m).fillsAb ≠ []),
    ⟨m.2, (pairFills orders m).price h⟩ ∈ sol.clearingPrices
  ab : ∀ m (h : (pairFills orders m).fillsAb ≠ []), ∀ f ∈ (pairFills orders m).fillsAb,
    ((abSide orders m).get f.idx).limitPrice.toRat ≤ ((pairFills orders m).price h).toRat
  ba : ∀ m (h : (pairFills orders m).fillsAb ≠ []), ∀ g ∈ (pairFills orders m).fillsBa,
    ((baSide orders m).get g.idx).limitPrice.toRat ≤ 1 / ((pairFills orders m).price h).toRat
  guardAb : ∀ m (h : (pairFills orders m).fillsAb ≠ []), ∀ f ∈ (pairFills orders m).fillsAb,
    ((pairFills orders m).price h).apply (soldOf (pairFills orders m).fillsAb f.idx) ≥
      ((abSide orders m).get f.idx).limitPrice.apply (soldOf (pairFills orders m).fillsAb f.idx)
  guardBa : ∀ m (h : (pairFills orders m).fillsAb ≠ []), ∀ g ∈ (pairFills orders m).fillsBa,
    (reciprocal ((pairFills orders m).price h)).apply
        (soldOf (pairFills orders m).fillsBa g.idx) ≥
      ((baSide orders m).get g.idx).limitPrice.apply (soldOf (pairFills orders m).fillsBa g.idx)
  trades : ((payments P orders).map Prod.snd).Perm sol.trades
  named : ∀ e ∈ payments P orders, (∃ s ∈ orders, s.order = e.1) ∧ e.2.orderId = e.1.id P
  score : (sol.score : Int) = ((payments P orders).map fun e => (e.2.executedBuy.toNat : Int) -
    (e.1.buyAmount.toNat * e.2.executedSell.toNat / e.1.sellAmount.toNat : Nat)).sum

/-- Rounding down is monotone in the price. -/
theorem Price.apply_mono {p r : Price} (h : p.num * r.den ≤ r.num * p.den) {x : Nat}
    (hp : x * p.num ≤ u128Max) (hr : x * r.num ≤ u128Max) : p.apply x ≤ r.apply x := by
  rw [apply_eq hp, apply_eq hr]
  exact scaled_mono p.den_pos r.den_pos h x

section
variable {orders : List SignedOrder} {m : Address × Address} {p q : Price}

/-- The last crossing pair crosses, and no filled order has a limit above its own side's. -/
theorem lastCross_bounds (hl : (pairFills orders m).lastCross = some (p, q)) :
    p.num * q.num ≤ p.den * q.den ∧
      (∀ f ∈ (pairFills orders m).fillsAb, ((abSide orders m).get f.idx).limitPrice.num * p.den ≤
        p.num * ((abSide orders m).get f.idx).limitPrice.den) ∧
      ∀ g ∈ (pairFills orders m).fillsBa, ((baSide orders m).get g.idx).limitPrice.num * q.den ≤
        q.num * ((baSide orders m).get g.idx).limitPrice.den := by
  obtain ⟨i, j, rfl, rfl, hc, hi, hj⟩ := (ledger orders m).last p q hl
  have hp := ((abSide orders m).get i).limitPrice_isU64
  have hq := ((baSide orders m).get j).limitPrice_isU64
  refine ⟨?_, fun f hf => ?_, fun g hg => ?_⟩
  · rwa [Crosses, satMul_u64 hp.1 hq.1, satMul_u64 hp.2 hq.2] at hc
  · exact (Price.le_iff_cross (Order.limitPrice_isU64 _) hp).mp (limit_mono (hi f hf))
  · exact (Price.le_iff_cross (Order.limitPrice_isU64 _) hq).mp (limit_mono (hj g hg))

section
variable (hv : Validated orders) (hu : Unclipped orders) (h : (pairFills orders m).fillsAb ≠ [])
include hv hu

/-- **The price is at least the limit of every filled A→B order.** -/
theorem price_ge_limit {f : Fill (abSide orders m).length}
    (hfm : f ∈ (pairFills orders m).fillsAb) :
    ((abSide orders m).get f.idx).limitPrice.num * ((pairFills orders m).price h).den ≤
      ((pairFills orders m).price h).num * ((abSide orders m).get f.idx).limitPrice.den := by
  obtain ⟨p, q, hl⟩ := lastCross_isSome h
  have hf := hu.fits m p q h hl
  obtain ⟨hc, ha, -⟩ := lastCross_bounds hl
  obtain ⟨hn, hd, -⟩ := price_parts hv hl h hf.num hf.den
  rw [hn, hd]
  exact cross_trans p.den_pos (ha f hfm) (midpoint_ge hc)

/-- **The price is at most the reciprocal of the limit of every filled B→A order.** -/
theorem price_le_limit {g : Fill (baSide orders m).length}
    (hgm : g ∈ (pairFills orders m).fillsBa) :
    ((baSide orders m).get g.idx).limitPrice.num *
        (reciprocal ((pairFills orders m).price h)).den ≤
      (reciprocal ((pairFills orders m).price h)).num *
        ((baSide orders m).get g.idx).limitPrice.den := by
  obtain ⟨p, q, hl⟩ := lastCross_isSome h
  have hf := hu.fits m p q h hl
  obtain ⟨hc, -, hb⟩ := lastCross_bounds hl
  obtain ⟨hn, hd, hpos⟩ := price_parts hv hl h hf.num hf.den
  rw [reciprocal_den (hn ▸ hpos), reciprocal_num, hn, hd]
  exact cross_trans q.den_pos (hb g hgm) (midpoint_le hc)

/-- So no A→B payout is below its limit. -/
theorem guard_ab {f : Fill (abSide orders m).length} (hfm : f ∈ (pairFills orders m).fillsAb) :
    ((abSide orders m).get f.idx).limitPrice.apply (soldOf (pairFills orders m).fillsAb f.idx) ≤
      ((pairFills orders m).price h).apply (soldOf (pairFills orders m).fillsAb f.idx) :=
  Price.apply_mono (price_ge_limit hv hu h hfm)
    (mul_le_u128Max (soldOf_ab_u64 _) (Order.limitPrice_isU64 _).1)
    ((hu.fitsPrice hv h).ab f hfm).1

/-- And no B→A payout. -/
theorem guard_ba {g : Fill (baSide orders m).length} (hgm : g ∈ (pairFills orders m).fillsBa) :
    ((baSide orders m).get g.idx).limitPrice.apply (soldOf (pairFills orders m).fillsBa g.idx) ≤
      (reciprocal ((pairFills orders m).price h)).apply
        (soldOf (pairFills orders m).fillsBa g.idx) :=
  Price.apply_mono (price_le_limit hv hu h hgm)
    (mul_le_u128Max (soldOf_ba_u64 _) (Order.limitPrice_isU64 _).1)
    ((hu.fitsPrice hv h).ba g hgm).1

end

/-- A payout no worse than the limit gives a non-negative surplus. -/
theorem paymentGain_cast (P : Primitives) {o : Order} (ho : o.WellFormed) {r : Price} {x : Nat}
    (hx : x ≤ u64Max) (hr : x * r.num ≤ u128Max ∧ x * r.num / r.den ≤ u64Max)
    (hg : o.limitPrice.apply x ≤ r.apply x) :
    (paymentGain (o, execution P r o x) : Int) =
      ((execution P r o x).executedBuy.toNat : Int) -
        (o.buyAmount.toNat * (execution P r o x).executedSell.toNat /
          o.sellAmount.toNat : Nat) := by
  simp only [paymentGain, execution]
  rw [limit_apply ho hx] at hg
  rw [(payout_exact hr.1 hr.2).2, clampU64_eq hx, Nat.mul_comm o.buyAmount.toNat]
  exact Nat.cast_sub ((payout_exact hr.1 hr.2).1 ▸ hg)

variable (P : Primitives) (env : HashOrders) (cfg : MatcherConfig) (id : BatchId)
  (solver : Address)

/-- **The exact score.**  Where nothing saturates, overflows or is clamped, the price of each pair
lies between its filled limits and the score is the sum of the surpluses. -/
theorem exact_score (hv : Validated orders) (hu : Unclipped orders) :
    PricedBetween P orders (matchBatch P env cfg id solver orders) where
  published := fun m h => price_published P env cfg id solver h
  ab := fun m h f hf => (Price.toRat_le_iff _ _).mpr (price_ge_limit hv hu h hf)
  ba := fun m h g hg => by
    rw [one_div, ← Price.toRat_reciprocal (hu.fitsPrice hv h).num_pos]
    exact (Price.toRat_le_iff _ _).mpr (price_le_limit hv hu h hg)
  guardAb := fun m h f hf => guard_ab hv hu h hf
  guardBa := fun m h g hg => guard_ba hv hu h hg
  trades := payments_perm P env cfg id solver orders
  named := fun e he => mem_payments_order he
  score := by
    obtain ⟨hs, hp⟩ := score_payments P env cfg id solver hv hu.fits
    rw [hs, min_eq_left hu.score, ← hp, Nat.cast_list_sum, List.map_map]
    refine congrArg List.sum (List.map_congr_left fun e he => ?_)
    obtain ⟨m, -, he⟩ := List.mem_flatMap.mp he
    rw [pairPayments] at he
    split at he
    · cases he
    · next h =>
        rcases List.mem_append.mp he with he | he
        · obtain ⟨f, hf, rfl⟩ := mem_sidePayments.mp he
          exact paymentGain_cast P (hv.wellFormed (mem_abSide (List.get_mem _ _)).1)
            (soldOf_ab_u64 _) ((hu.fitsPrice hv h).ab f hf) (guard_ab hv hu h hf)
        · obtain ⟨g, hg, rfl⟩ := mem_sidePayments.mp he
          exact paymentGain_cast P (hv.wellFormed (mem_baSide (List.get_mem _ _)).1)
            (soldOf_ba_u64 _) ((hu.fitsPrice hv h).ba g hg) (guard_ba hv hu h hg)

end

section
open Sample

/-- alice's 150 and bob's 200 are priced at 7/4 and score 25 and 14. -/
theorem exact_score_two :
    PricedBetween primitives [sign alice150, sign bob200]
      (matchBatch primitives .insertion ⟨true⟩ ⟨.replicate 16 0⟩ .zero
        [sign alice150, sign bob200]) :=
  exact_score primitives .insertion ⟨true⟩ ⟨.replicate 16 0⟩ .zero
    (fun s hs => ⟨0, by revert s; decide +kernel⟩) (by decide +kernel)

end

end OxDex
