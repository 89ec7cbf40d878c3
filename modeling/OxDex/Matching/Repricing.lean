import Mathlib.Algebra.Order.Floor.Semifield
import Mathlib.Data.Rat.Floor
import OxDex.Matching.Limits
import OxDex.Matching.Score

/-!
# Matching — Repricing

Whether the uniform price and the amounts paid at it are the exact ones.

A price is never reduced: the midpoint of two limits has products of two `u64` amounts for its
parts, and paying an order out multiplies one of these by a third amount.  What leaves `u128`
saturates, and what leaves `u64` is clamped.  So a batch is repriced exactly if and only if all of
these fit (`repricedExactly_iff`): `Fits` for the parts of each pair's midpoint and the products and
quotients of its orders, and the surpluses add up to a `u128`.

They do not fit at everyday amounts.  In `repricing_overflows` 20 000 SOL, in lamports, meet 3
million USDC, in micro-units, at one and the same limit, and either side is paid `u64::MAX`.
-/

namespace OxDex
open Support

/-- The numerator of the midpoint of `p` and `1 / q`. -/
def midNum (p q : Price) : Nat := p.num * q.num + p.den * q.den

/-- Its denominator. -/
def midDen (p q : Price) : Nat := 2 * (p.den * q.num)

/-- Repricing at the midpoint of `p` and `1 / q` stays in range: the midpoint's parts, and the
product and the quotient of every order's payout. -/
structure Fits {aToB bToA : List Order} (s : MatchState aToB bToA) (p q : Price) : Prop where
  num : midNum p q ≤ u128Max
  den : midDen p q ≤ u128Max
  ab : ∀ f ∈ s.fillsAb, soldOf s.fillsAb f.idx * midNum p q ≤ u128Max ∧
    soldOf s.fillsAb f.idx * midNum p q / midDen p q ≤ u64Max
  ba : ∀ g ∈ s.fillsBa, soldOf s.fillsBa g.idx * midDen p q ≤ u128Max ∧
    soldOf s.fillsBa g.idx * midDen p q / midNum p q ≤ u64Max

instance {aToB bToA : List Order} (s : MatchState aToB bToA) (p q : Price) :
    Decidable (Fits s p q) :=
  decidable_of_iff (midNum p q ≤ u128Max ∧ midDen p q ≤ u128Max ∧
    (∀ f ∈ s.fillsAb, soldOf s.fillsAb f.idx * midNum p q ≤ u128Max ∧
      soldOf s.fillsAb f.idx * midNum p q / midDen p q ≤ u64Max) ∧
    ∀ g ∈ s.fillsBa, soldOf s.fillsBa g.idx * midDen p q ≤ u128Max ∧
      soldOf s.fillsBa g.idx * midDen p q / midNum p q ≤ u64Max)
    ⟨fun h => ⟨h.1, h.2.1, h.2.2.1, h.2.2.2⟩, fun h => ⟨h.num, h.den, h.ab, h.ba⟩⟩

/-- What an order got above its limit, read off its trade. -/
def paymentGain (e : Order × TradeExecution) : Nat :=
  e.2.executedBuy.toNat -
    e.2.executedSell.toNat * e.1.buyAmount.toNat / e.1.sellAmount.toNat

/-- The exact surplus of a side in which every unit sold is paid `num / den`. -/
def exactSideGain (num den : Nat) (side : List Order) (fills : List (Fill side.length)) : Nat :=
  ((soldPerOrder fills).map fun e => e.2 * num / den -
    e.2 * (side.get e.1).buyAmount.toNat / (side.get e.1).sellAmount.toNat).sum

section
variable (orders : List SignedOrder)

/-- The exact surplus of a pair. -/
def exactGain (m : Address × Address) : Nat :=
  match (pairFills orders m).lastCross with
  | none => 0
  | some (p, q) =>
      exactSideGain (midNum p q) (midDen p q) _ (pairFills orders m).fillsAb +
        exactSideGain (midDen p q) (midNum p q) _ (pairFills orders m).fillsBa

/-- Nothing in the repricing of a batch saturates, overflows or is clamped. -/
structure Unclipped : Prop where
  fits : ∀ m p q, (pairFills orders m).fillsAb ≠ [] →
    (pairFills orders m).lastCross = some (p, q) → Fits (pairFills orders m) p q
  score : ((markets orders).map (exactGain orders)).sum ≤ u128Max

/-- The pairs of the batch are all there is to check. -/
theorem unclipped_iff : Unclipped orders ↔
    (∀ m ∈ markets orders, ∀ c ∈ (pairFills orders m).lastCross,
      (pairFills orders m).fillsAb ≠ [] → Fits (pairFills orders m) c.1 c.2) ∧
    ((markets orders).map (exactGain orders)).sum ≤ u128Max := by
  constructor
  · intro h
    exact ⟨fun m _ c hc hf => h.fits m c.1 c.2 hf hc, h.score⟩
  · rintro ⟨hf, hs⟩
    exact ⟨fun m p q h hl => hf m (mem_markets_of_fills h) (p, q) hl h, hs⟩

instance : Decidable (Unclipped orders) := decidable_of_iff _ (unclipped_iff orders).symm

/-- **Repriced exactly.**  The published price of each pair is the midpoint of the last crossing
limits, each order is paid the floor of what it sold at that price, and no saturating or clamping
operation on the way changes what it computes. -/
structure RepricedExactly (P : Primitives) (sol : Solution) : Prop where
  price : ∀ m (h : (pairFills orders m).fillsAb ≠ []) p q,
    (pairFills orders m).lastCross = some (p, q) →
      ⟨m.2, (pairFills orders m).price h⟩ ∈ sol.clearingPrices ∧
      ((pairFills orders m).price h).toRat = (p.toRat + q.toRat⁻¹) / 2
  ab : ∀ m (h : (pairFills orders m).fillsAb ≠ []), ∀ f ∈ (pairFills orders m).fillsAb, ∀ t,
    t = execution P ((pairFills orders m).price h) ((abSide orders m).get f.idx)
      (soldOf (pairFills orders m).fillsAb f.idx) →
    t ∈ sol.trades ∧ t.executedBuy.toNat =
      ⌊(t.executedSell.toNat : ℚ) * ((pairFills orders m).price h).toRat⌋₊
  ba : ∀ m (h : (pairFills orders m).fillsAb ≠ []), ∀ g ∈ (pairFills orders m).fillsBa, ∀ t,
    t = execution P (reciprocal ((pairFills orders m).price h)) ((baSide orders m).get g.idx)
      (soldOf (pairFills orders m).fillsBa g.idx) →
    t ∈ sol.trades ∧ t.executedBuy.toNat =
      ⌊(t.executedSell.toNat : ℚ) * ((pairFills orders m).price h).toRat⁻¹⌋₊
  parts : ∀ m (h : (pairFills orders m).fillsAb ≠ []) p q,
    (pairFills orders m).lastCross = some (p, q) →
      ((pairFills orders m).price h).num = midNum p q ∧
      ((pairFills orders m).price h).den = midDen p q
  payAb : ∀ m (h : (pairFills orders m).fillsAb ≠ []), ∀ f ∈ (pairFills orders m).fillsAb,
    (clampU64 (((pairFills orders m).price h).apply
      (soldOf (pairFills orders m).fillsAb f.idx))).toNat =
      ((pairFills orders m).price h).apply (soldOf (pairFills orders m).fillsAb f.idx)
  payBa : ∀ m (h : (pairFills orders m).fillsAb ≠ []), ∀ g ∈ (pairFills orders m).fillsBa,
    (clampU64 ((reciprocal ((pairFills orders m).price h)).apply
      (soldOf (pairFills orders m).fillsBa g.idx))).toNat =
      (reciprocal ((pairFills orders m).price h)).apply (soldOf (pairFills orders m).fillsBa g.idx)
  score : sol.score = ((payments P orders).map paymentGain).sum

end

/-! ### Rationals -/

/-- A floor, computed on natural numbers. -/
theorem Price.floor_mul (p : Price) (x : Nat) : ⌊(x : ℚ) * p.toRat⌋₊ = x * p.num / p.den := by
  have : (x : ℚ) * p.toRat = ((x * p.num : Nat) : ℚ) / (p.den : Nat) := by
    rw [toRat, Nat.cast_mul, mul_div_assoc]
  rw [this]
  exact Nat.floor_div_eq_div _ _

theorem Price.toRat_reciprocal {p : Price} (h : 0 < p.num) :
    (reciprocal p).toRat = p.toRat⁻¹ := by
  show (p.den : ℚ) / (max p.num 1 : Nat) = _
  rw [max_eq_left h, toRat, inv_div]

/-- **The midpoint.** -/
theorem midpoint_toRat {p q : Price} (hq : 0 < q.num) :
    (midNum p q : ℚ) / midDen p q = (p.toRat + q.toRat⁻¹) / 2 := by
  have hp := p.den_pos
  rw [Price.toRat, Price.toRat, inv_div, midNum, midDen]
  push_cast
  field_simp

/-! ### The price of a pair -/

section
variable {orders : List SignedOrder} {m : Address × Address} {p q : Price}

theorem price_of_lastCross (hl : (pairFills orders m).lastCross = some (p, q))
    (h : (pairFills orders m).fillsAb ≠ []) : (pairFills orders m).price h = clearingPrice p q := by
  simp only [MatchState.price, hl, Option.get_some]

/-- The last crossing pair are the limits of two orders. -/
theorem lastCross_orders (hv : Validated orders)
    (hl : (pairFills orders m).lastCross = some (p, q)) :
    ∃ x y : Order, x.WellFormed ∧ y.WellFormed ∧ p = x.limitPrice ∧ q = y.limitPrice ∧
      midNum p q = midpointNum x y ∧ midDen p q = midpointDen x y := by
  obtain ⟨i, j, rfl, rfl, -, -, -⟩ := (ledger orders m).last p q hl
  have hx := hv.wellFormed (mem_abSide (List.get_mem (abSide orders m) i)).1
  have hy := hv.wellFormed (mem_baSide (List.get_mem (baSide orders m) j)).1
  refine ⟨_, _, hx, hy, rfl, rfl, ?_, ?_⟩
  · rw [midNum, hx.limitPrice_den, hy.limitPrice_den]
    rfl
  · rw [midDen, hx.limitPrice_den]
    rfl

theorem lastCross_isSome (h : (pairFills orders m).fillsAb ≠ []) :
    ∃ p q, (pairFills orders m).lastCross = some (p, q) := by
  obtain ⟨⟨p, q⟩, hc⟩ := Option.isSome_iff_exists.mp ((pairFills orders m).crossed h)
  exact ⟨p, q, hc⟩

/-- **A midpoint that fits** is the price. -/
theorem price_parts (hv : Validated orders) (hl : (pairFills orders m).lastCross = some (p, q))
    (h : (pairFills orders m).fillsAb ≠ []) (hn : midNum p q ≤ u128Max)
    (hd : midDen p q ≤ u128Max) :
    ((pairFills orders m).price h).num = midNum p q ∧
      ((pairFills orders m).price h).den = midDen p q ∧ 0 < midNum p q := by
  rw [price_of_lastCross hl]
  obtain ⟨x, y, hx, hy, rfl, rfl, hnum, hden⟩ := lastCross_orders hv hl
  rw [hnum] at hn
  rw [hden] at hd
  rw [hnum, hden]
  exact ⟨clearing_num_eq_midpoint hx hy hn, clearing_den_eq_midpoint hx hy hd,
    midpointNum_pos hx hy⟩

/-- The published price of a pair with fills. -/
theorem price_published (P : Primitives) (env : HashOrders) (cfg : MatcherConfig) (id : BatchId)
    (solver : Address) (h : (pairFills orders m).fillsAb ≠ []) :
    ⟨m.2, (pairFills orders m).price h⟩ ∈
      (matchBatch P env cfg id solver orders).clearingPrices := by
  rw [(clearingPrices_perm P env cfg id solver orders).mem_iff, List.mem_flatMap]
  refine ⟨m, mem_markets_of_fills h, ?_⟩
  rw [matchPair_eq, dif_neg h]
  exact List.mem_cons_of_mem _ List.mem_cons_self

/-! ### The payouts -/

/-- A payout whose product and quotient fit is the floor. -/
theorem payout_exact {r : Price} {x : Nat} (hm : x * r.num ≤ u128Max)
    (hq : x * r.num / r.den ≤ u64Max) :
    r.apply x = x * r.num / r.den ∧ (clampU64 (r.apply x)).toNat = x * r.num / r.den := by
  rw [Price.apply_eq hm]
  exact ⟨rfl, clampU64_eq hq⟩

/-- A payout that fits is left alone by the clamp. -/
theorem payout_unclamped {r : Price} {x : Nat}
    (hr : x * r.num ≤ u128Max ∧ x * r.num / r.den ≤ u64Max) :
    (clampU64 (r.apply x)).toNat = r.apply x := by
  obtain ⟨happ, hclamp⟩ := payout_exact hr.1 hr.2
  rw [hclamp, happ]

/-- A payout the clamp leaves alone fits. -/
theorem payout_fits {r : Price} {x : Nat} (h : (clampU64 (r.apply x)).toNat = r.apply x) :
    x * r.num ≤ u128Max ∧ x * r.num / r.den ≤ u64Max := by
  have hle : r.apply x ≤ u64Max := h ▸ toNat_le_u64Max _
  have hm : x * r.num ≤ u128Max := by
    by_contra hbig
    rw [Price.apply_of_overflow (not_le.mp hbig)] at hle
    exact absurd hle (by decide)
  rw [Price.apply_eq hm] at hle
  exact ⟨hm, hle⟩

/-- What the limit of an order gives for no more than it offers never overflows. -/
theorem limit_apply {o : Order} (ho : o.WellFormed) {x : Nat} (hx : x ≤ u64Max) :
    o.limitPrice.apply x = x * o.buyAmount.toNat / o.sellAmount.toNat := by
  rw [Price.apply_eq (mul_le_u128Max hx o.limitPrice_isU64.1), ho.limitPrice_den]
  rfl

/-- The surplus of a side whose payouts fit. -/
theorem sideGain_exact {side : List Order} {fills : List (Fill side.length)} {r : Price}
    (hw : ∀ o ∈ side, o.WellFormed) (hs : ∀ k, soldOf fills k ≤ u64Max)
    (hf : ∀ f ∈ fills, soldOf fills f.idx * r.num ≤ u128Max) :
    sideGain r side (soldPerOrder fills) = exactSideGain r.num r.den side fills := by
  refine congrArg List.sum (List.map_congr_left ?_)
  rintro ⟨k, v⟩ hk
  obtain ⟨⟨f, hfm, rfl⟩, rfl⟩ := mem_soldPerOrder.mp hk
  rw [gain, Price.apply_eq (hf f hfm), limit_apply (hw _ (List.get_mem _ _)) (hs _)]

/-- The same surplus, read off the trades. -/
theorem paymentGain_exact (P : Primitives) {side : List Order} {fills : List (Fill side.length)}
    {r : Price} (hs : ∀ k, soldOf fills k ≤ u64Max)
    (hf : ∀ f ∈ fills, soldOf fills f.idx * r.num ≤ u128Max ∧
      soldOf fills f.idx * r.num / r.den ≤ u64Max) :
    ((sidePayments P r side fills).map paymentGain).sum = exactSideGain r.num r.den side fills := by
  rw [sidePayments, List.map_map]
  refine congrArg List.sum (List.map_congr_left ?_)
  rintro ⟨k, v⟩ hk
  obtain ⟨⟨f, hfm, rfl⟩, rfl⟩ := mem_soldPerOrder.mp hk
  simp only [Function.comp_apply, paymentGain, execution]
  rw [(payout_exact (hf f hfm).1 (hf f hfm).2).2, clampU64_eq (hs _)]

/-- What is in range, in terms of the price and its reciprocal. -/
structure FitsPrice (orders : List SignedOrder) (m : Address × Address) (r : Price) : Prop where
  num_pos : 0 < r.num
  ab : ∀ f ∈ (pairFills orders m).fillsAb,
    soldOf (pairFills orders m).fillsAb f.idx * r.num ≤ u128Max ∧
    soldOf (pairFills orders m).fillsAb f.idx * r.num / r.den ≤ u64Max
  ba : ∀ g ∈ (pairFills orders m).fillsBa,
    soldOf (pairFills orders m).fillsBa g.idx * (reciprocal r).num ≤ u128Max ∧
    soldOf (pairFills orders m).fillsBa g.idx * (reciprocal r).num / (reciprocal r).den ≤ u64Max

theorem reciprocal_num (r : Price) : (reciprocal r).num = r.den := rfl

theorem reciprocal_den {r : Price} (h : 0 < r.num) : (reciprocal r).den = r.num := max_eq_left h

theorem Fits.fitsPrice (hf : Fits (pairFills orders m) p q) (hv : Validated orders)
    (hl : (pairFills orders m).lastCross = some (p, q)) (h : (pairFills orders m).fillsAb ≠ []) :
    FitsPrice orders m ((pairFills orders m).price h) := by
  obtain ⟨hn, hd, hpos⟩ := price_parts hv hl h hf.num hf.den
  refine ⟨hn ▸ hpos, fun f hfm => ?_, fun g hgm => ?_⟩
  · rw [hn, hd]
    exact hf.ab f hfm
  · rw [reciprocal_den (hn ▸ hpos), reciprocal_num, hn, hd]
    exact hf.ba g hgm

/-- Nothing is sold by a pair without fills. -/
theorem exactGain_of_nil (h : (pairFills orders m).fillsAb = []) : exactGain orders m = 0 := by
  have hb : (pairFills orders m).fillsBa = [] := by
    have := (ledger orders m).booked.length_eq
    rw [h] at this
    exact List.length_eq_zero_iff.mp this.symm
  rw [exactGain]
  split
  · rfl
  · rw [h, hb]
    rfl

/-- The exact surplus, in terms of the price. -/
theorem exactGain_of_fits (hv : Validated orders)
    (hl : (pairFills orders m).lastCross = some (p, q)) (h : (pairFills orders m).fillsAb ≠ [])
    (hf : Fits (pairFills orders m) p q) : exactGain orders m =
      exactSideGain ((pairFills orders m).price h).num ((pairFills orders m).price h).den _
          (pairFills orders m).fillsAb +
        exactSideGain (reciprocal ((pairFills orders m).price h)).num
          (reciprocal ((pairFills orders m).price h)).den _ (pairFills orders m).fillsBa := by
  obtain ⟨hn, hd, -⟩ := price_parts hv hl h hf.num hf.den
  rw [reciprocal_den (hf.fitsPrice hv hl h).num_pos, reciprocal_num, hn, hd, exactGain, hl]

/-- **The surplus of a pair in range** is the exact one, also read off its trades. -/
theorem pairGain_exact (P : Primitives) (hv : Validated orders) (m : Address × Address)
    (hf : ∀ p q, (pairFills orders m).fillsAb ≠ [] →
      (pairFills orders m).lastCross = some (p, q) → Fits (pairFills orders m) p q) :
    pairGain orders m = exactGain orders m ∧
      ((pairPayments P orders m).map paymentGain).sum = exactGain orders m := by
  by_cases h : (pairFills orders m).fillsAb = []
  · rw [pairGain, dif_pos h, pairPayments, dif_pos h, exactGain_of_nil h]
    exact ⟨rfl, rfl⟩
  · obtain ⟨p, q, hl⟩ := lastCross_isSome h
    have hf := hf p q h hl
    have hr := hf.fitsPrice hv hl h
    rw [exactGain_of_fits hv hl h hf]
    constructor
    · rw [pairGain, dif_neg h, fillsGain,
        sideGain_exact (fun o ho => hv.wellFormed (mem_abSide ho).1) soldOf_ab_u64
          fun f hfm => (hr.ab f hfm).1,
        sideGain_exact (fun o ho => hv.wellFormed (mem_baSide ho).1) soldOf_ba_u64
          fun g hgm => (hr.ba g hgm).1]
    · rw [pairPayments, dif_neg h, List.map_append, List.sum_append,
        paymentGain_exact P soldOf_ab_u64 hr.ab, paymentGain_exact P soldOf_ba_u64 hr.ba]

/-- **The score of a batch**, where the pairs are in range: the sum over the trades, capped. -/
theorem score_payments (P : Primitives) (env : HashOrders) (cfg : MatcherConfig) (id : BatchId)
    (solver : Address) (hv : Validated orders)
    (hf : ∀ m p q, (pairFills orders m).fillsAb ≠ [] →
      (pairFills orders m).lastCross = some (p, q) → Fits (pairFills orders m) p q) :
    (matchBatch P env cfg id solver orders).score =
      min ((markets orders).map (exactGain orders)).sum u128Max ∧
    ((payments P orders).map paymentGain).sum = ((markets orders).map (exactGain orders)).sum := by
  constructor
  · rw [score_eq P env env, ← min_sum_min u128Max (exactGain orders)]
    refine congrArg (fun l : List Nat => min l.sum u128Max) (List.map_congr_left fun m _ => ?_)
    rw [matchPair_surplus, (pairGain_exact P hv m (hf m)).1]
  · rw [payments, sum_map_flatMap]
    exact congrArg List.sum (List.map_congr_left fun m _ => (pairGain_exact P hv m (hf m)).2)

end

/-! ### Exact if and only if in range -/

section
variable {orders : List SignedOrder} (P : Primitives) (env : HashOrders) (cfg : MatcherConfig)
  (id : BatchId) (solver : Address)

/-- A batch in range has every price in range. -/
theorem Unclipped.fitsPrice (hv : Validated orders) (hu : Unclipped orders) {m : Address × Address}
    (h : (pairFills orders m).fillsAb ≠ []) :
    FitsPrice orders m ((pairFills orders m).price h) := by
  obtain ⟨p, q, hl⟩ := lastCross_isSome h
  exact (hu.fits m p q h hl).fitsPrice hv hl h

/-- A trade whose payout fits gets the floor. -/
theorem execution_floor {r : Price} (o : Order) {x : Nat} (hx : x ≤ u64Max)
    (hr : x * r.num ≤ u128Max ∧ x * r.num / r.den ≤ u64Max) :
    (execution P r o x).executedBuy.toNat =
      ⌊((execution P r o x).executedSell.toNat : ℚ) * r.toRat⌋₊ := by
  rw [Price.floor_mul]
  simp only [execution]
  rw [clampU64_eq hx, (payout_exact hr.1 hr.2).2]

/-- **A batch in range is repriced exactly.** -/
theorem Unclipped.repricedExactly (hv : Validated orders) (hu : Unclipped orders) :
    RepricedExactly orders P (matchBatch P env cfg id solver orders) := by
  have parts : ∀ m (h : (pairFills orders m).fillsAb ≠ []) p q,
      (pairFills orders m).lastCross = some (p, q) →
        ((pairFills orders m).price h).num = midNum p q ∧
        ((pairFills orders m).price h).den = midDen p q := by
    intro m h p q hl
    have hf := hu.fits m p q h hl
    obtain ⟨hn, hd, -⟩ := price_parts hv hl h hf.num hf.den
    exact ⟨hn, hd⟩
  refine {
    price := fun m h p q hl => ⟨price_published P env cfg id solver h, ?_⟩
    ab := fun m h f hf t ht => ⟨(mem_trades P env cfg id solver).mpr ⟨m, h, .inl ⟨f, hf, ht⟩⟩, ?_⟩
    ba := fun m h g hg t ht => ⟨(mem_trades P env cfg id solver).mpr ⟨m, h, .inr ⟨g, hg, ht⟩⟩, ?_⟩
    parts := parts
    payAb := fun m h f hf => payout_unclamped ((hu.fitsPrice hv h).ab f hf)
    payBa := fun m h g hg => payout_unclamped ((hu.fitsPrice hv h).ba g hg)
    score := ?_ }
  · obtain ⟨x, y, -, hy, -, rfl, -, -⟩ := lastCross_orders hv hl
    rw [← midpoint_toRat hy.buy_pos, Price.toRat, (parts m h _ _ hl).1, (parts m h _ _ hl).2]
  · rw [ht]
    exact execution_floor P _ (soldOf_ab_u64 _) ((hu.fitsPrice hv h).ab f hf)
  · have hr := hu.fitsPrice hv h
    rw [ht, ← Price.toRat_reciprocal hr.num_pos]
    exact execution_floor P _ (soldOf_ba_u64 _) (hr.ba g hg)
  · obtain ⟨hs, hp⟩ := score_payments P env cfg id solver hv hu.fits
    rw [hs, hp, min_eq_left hu.score]

/-- **A batch repriced exactly is in range.** -/
theorem RepricedExactly.unclipped (hv : Validated orders)
    (hr : RepricedExactly orders P (matchBatch P env cfg id solver orders)) :
    Unclipped orders := by
  have fits : ∀ m p q, (pairFills orders m).fillsAb ≠ [] →
      (pairFills orders m).lastCross = some (p, q) → Fits (pairFills orders m) p q := by
    intro m p q h hl
    obtain ⟨hn, hd⟩ := hr.parts m h p q hl
    have hnum : midNum p q ≤ u128Max := hn ▸ ((pairFills orders m).price h).num_le
    have hden : midDen p q ≤ u128Max := hd ▸ ((pairFills orders m).price h).den_le
    have hpos := (price_parts hv hl h hnum hden).2.2
    refine ⟨hnum, hden, fun f hf => ?_, fun g hg => ?_⟩
    · have := payout_fits (hr.payAb m h f hf)
      rwa [hn, hd] at this
    · have := payout_fits (hr.payBa m h g hg)
      rwa [reciprocal_den (hn ▸ hpos), reciprocal_num, hn, hd] at this
  refine ⟨fits, ?_⟩
  obtain ⟨hs, hp⟩ := score_payments P env cfg id solver hv fits
  rw [← hp, ← hr.score, hs]
  exact min_le_right _ _

/-- **Exact if and only if in range.** -/
theorem repricedExactly_iff (hv : Validated orders) :
    RepricedExactly orders P (matchBatch P env cfg id solver orders) ↔ Unclipped orders :=
  ⟨fun h => h.unclipped P env cfg id solver hv, fun h => h.repricedExactly P env cfg id solver hv⟩

end

section
open Sample

/-- For alice's 150 and bob's 200. -/
theorem repricedExactly_two :
    RepricedExactly [sign alice150, sign bob200] primitives
        (matchBatch primitives .insertion ⟨true⟩ ⟨.replicate 16 0⟩ .zero
          [sign alice150, sign bob200]) ↔
      Unclipped [sign alice150, sign bob200] :=
  repricedExactly_iff primitives .insertion ⟨true⟩ ⟨.replicate 16 0⟩ .zero
    fun s hs => ⟨0, by revert s; decide +kernel⟩

/-- 20 000 SOL, in lamports, for 3 million USDC, in micro-units, and the same the other way. -/
def large : List SignedOrder :=
  [sign (order alice mintA mintB 20000000000000 3000000000000 Int64.maxValue),
    sign (order bob mintB mintA 3000000000000 20000000000000 Int64.maxValue)]

/-- **Repricing overflows**: either order sells all it offers and is paid `u64::MAX`. -/
theorem repricing_overflows :
    (∀ s ∈ large, s.order.validate 0 = .ok ()) ∧
      ((matchBatch primitives .insertion ⟨true⟩ ⟨.replicate 16 0⟩ .zero large).trades.map
        fun t => (t.executedSell.toNat, t.executedBuy.toNat)) =
        [(20000000000000, u64Max), (3000000000000, u64Max)] ∧
      ¬ RepricedExactly large primitives
        (matchBatch primitives .insertion ⟨true⟩ ⟨.replicate 16 0⟩ .zero large) := by
  refine ⟨by decide +kernel, by decide +kernel, fun hr => ?_⟩
  have h : (pairFills large (mintA, mintB)).fillsAb ≠ [] := by decide +kernel
  -- the payout of the seller of A is clamped
  have hpay := hr.payAb (mintA, mintB) h _ (List.head_mem h)
  revert hpay h
  decide +kernel

end

end OxDex
