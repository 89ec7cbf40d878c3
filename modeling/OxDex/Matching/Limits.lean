import OxDex.Matching.Clearing

/-!
# Matching — Limits

What the uniform price gives an order, against the limit its owner signed.

The clearing price is the midpoint of the limits of the last crossing pair, so it lies between them
(`midpoint_ge`, `midpoint_le`); every fill lies at or before that pair on both sides, and the sides
are sorted, so the price is at least as good as every filled order's limit.  `Price::apply` rounds
down: an order gets its limit up to less than one unit (`limit_respected`), and not always exactly
(`limit_not_exact`).

Where the midpoint leaves `u128` its parts saturate.  On the A→B side this does no harm
(`apply_clearingPrice_ge`).  On the B→A side it can cost an order that sold a single unit
(`apply_reciprocal_ge` excludes that case).
-/

namespace OxDex
open Support

/-! ### The parts of the clearing price -/

section
variable {p q : Price} (hp : p.IsU64) (hq : q.IsU64)

theorem clearingPrice_num (p q : Price) : (clearingPrice p q).num =
    max (satAdd (satMul p.num q.num) (satMul p.den q.den)) 1 := by
  have h : ∀ x : Nat, ¬ max x 1 = 0 := fun x => by omega
  simp [clearingPrice, Price.new, h]

theorem clearingPrice_den (p q : Price) : (clearingPrice p q).den =
    max (satMul (satMul p.den q.num) 2) 1 := by
  have h : ∀ x : Nat, ¬ max x 1 = 0 := fun x => by omega
  simp [clearingPrice, Price.new, h]

include hp hq

theorem crossSum_eq : satAdd (satMul p.num q.num) (satMul p.den q.den) =
    min (p.num * q.num + p.den * q.den) u128Max := by
  rw [satMul_u64 hp.1 hq.1, satMul_u64 hp.2 hq.2]
  rfl

theorem crossDouble_eq : satMul (satMul p.den q.num) 2 = min (2 * (p.den * q.num)) u128Max := by
  rw [satMul_u64 hp.2 hq.1, Nat.mul_comm 2]
  rfl

end

/-! ### The price against a limit -/

/-- What a fraction of at most `u64` parts gives for no more than its denominator is a `u64`. -/
theorem limit_le_u64Max {o : Order} (ho : o.WellFormed) {sold : Nat}
    (hs : sold ≤ o.sellAmount.toNat) :
    sold * o.buyAmount.toNat / o.sellAmount.toNat ≤ u64Max :=
  calc sold * o.buyAmount.toNat / o.sellAmount.toNat
      ≤ o.sellAmount.toNat * o.buyAmount.toNat / o.sellAmount.toNat :=
        Nat.div_le_div_right (Nat.mul_le_mul_right _ hs)
    _ = o.buyAmount.toNat := Nat.mul_div_cancel_left _ ho.sell_pos
    _ ≤ u64Max := toNat_le_u64Max _

/-- A product with a saturated numerator overflows, and `apply` gives `u128::MAX`. -/
theorem apply_saturated {p : Price} (h : p.num = u128Max) {x : Nat} (hx : 2 ≤ x) :
    p.apply x = u128Max := by
  refine Price.apply_of_overflow ?_
  rw [h]
  calc u128Max < 2 * u128Max := by decide
    _ ≤ x * u128Max := Nat.mul_le_mul_right _ hx

/-- The numerator of the midpoint of the limits of `x` and `y`, where it fits into `u128`. -/
def midpointNum (x y : Order) : Nat :=
  x.buyAmount.toNat * y.buyAmount.toNat + x.sellAmount.toNat * y.sellAmount.toNat

/-- Its denominator, where it fits. -/
def midpointDen (x y : Order) : Nat := 2 * (x.sellAmount.toNat * y.buyAmount.toNat)

section
variable {x y o : Order} (hx : x.WellFormed) (hy : y.WellFormed) (ho : o.WellFormed)
  (hc : Crosses x y) {sold : Nat} (hs : sold ≤ o.sellAmount.toNat)

include hx hy

theorem crosses_iff : Crosses x y ↔
    x.buyAmount.toNat * y.buyAmount.toNat ≤ x.sellAmount.toNat * y.sellAmount.toNat := by
  rw [Crosses, satMul_u64 x.limitPrice_isU64.1 y.limitPrice_isU64.1,
    satMul_u64 x.limitPrice_isU64.2 y.limitPrice_isU64.2, hx.limitPrice_den, hy.limitPrice_den]
  rfl

theorem crosses_of_le_left {z : Order} (hz : z.WellFormed) (h : z.limitPrice ≤ x.limitPrice)
    (hc : Crosses x y) : Crosses z y := by
  rw [Price.le_iff_cross z.limitPrice_isU64 x.limitPrice_isU64, hz.limitPrice_den,
    hx.limitPrice_den] at h
  rw [crosses_iff hx hy] at hc
  rw [crosses_iff hz hy]
  refine Nat.le_of_mul_le_mul_right ?_ hx.sell_pos
  calc z.buyAmount.toNat * y.buyAmount.toNat * x.sellAmount.toNat
      = z.buyAmount.toNat * x.sellAmount.toNat * y.buyAmount.toNat := by ring
    _ ≤ x.buyAmount.toNat * z.sellAmount.toNat * y.buyAmount.toNat := Nat.mul_le_mul_right _ h
    _ = x.buyAmount.toNat * y.buyAmount.toNat * z.sellAmount.toNat := by ring
    _ ≤ x.sellAmount.toNat * y.sellAmount.toNat * z.sellAmount.toNat := Nat.mul_le_mul_right _ hc
    _ = z.sellAmount.toNat * y.sellAmount.toNat * x.sellAmount.toNat := by ring

theorem crosses_of_le_right {z : Order} (hz : z.WellFormed) (h : z.limitPrice ≤ y.limitPrice)
    (hc : Crosses x y) : Crosses x z := by
  rw [Price.le_iff_cross z.limitPrice_isU64 y.limitPrice_isU64, hz.limitPrice_den,
    hy.limitPrice_den] at h
  rw [crosses_iff hx hy] at hc
  rw [crosses_iff hx hz]
  refine Nat.le_of_mul_le_mul_right ?_ hy.sell_pos
  calc x.buyAmount.toNat * z.buyAmount.toNat * y.sellAmount.toNat
      = x.buyAmount.toNat * (z.buyAmount.toNat * y.sellAmount.toNat) := by ring
    _ ≤ x.buyAmount.toNat * (y.buyAmount.toNat * z.sellAmount.toNat) := Nat.mul_le_mul_left _ h
    _ = x.buyAmount.toNat * y.buyAmount.toNat * z.sellAmount.toNat := by ring
    _ ≤ x.sellAmount.toNat * y.sellAmount.toNat * z.sellAmount.toNat := Nat.mul_le_mul_right _ hc
    _ = x.sellAmount.toNat * z.sellAmount.toNat * y.sellAmount.toNat := by ring

theorem clearing_num_eq : (clearingPrice x.limitPrice y.limitPrice).num =
    min (x.buyAmount.toNat * y.buyAmount.toNat + x.sellAmount.toNat * y.sellAmount.toNat)
      u128Max := by
  have := Nat.mul_pos hx.sell_pos hy.sell_pos
  rw [clearingPrice_num, crossSum_eq x.limitPrice_isU64 y.limitPrice_isU64, hx.limitPrice_den,
    hy.limitPrice_den]
  exact max_eq_left (le_min (by omega) (by decide))

theorem clearing_den_eq : (clearingPrice x.limitPrice y.limitPrice).den =
    min (2 * (x.sellAmount.toNat * y.buyAmount.toNat)) u128Max := by
  have := Nat.mul_pos hx.sell_pos hy.buy_pos
  rw [clearingPrice_den, crossDouble_eq x.limitPrice_isU64 y.limitPrice_isU64, hx.limitPrice_den]
  exact max_eq_left (le_min (by simp only [Order.limitPrice_num]; omega) (by decide))

theorem midpointNum_pos : 0 < midpointNum x y :=
  Nat.add_pos_left (Nat.mul_pos hx.buy_pos hy.buy_pos) _

theorem clearing_num_eq_midpoint (h : midpointNum x y ≤ u128Max) :
    (clearingPrice x.limitPrice y.limitPrice).num = midpointNum x y := by
  rw [clearing_num_eq hx hy]
  exact min_eq_left h

theorem clearing_den_eq_midpoint (h : midpointDen x y ≤ u128Max) :
    (clearingPrice x.limitPrice y.limitPrice).den = midpointDen x y := by
  rw [clearing_den_eq hx hy]
  exact min_eq_left h

theorem reciprocal_den_eq_midpoint (h : midpointNum x y ≤ u128Max) :
    (reciprocal (clearingPrice x.limitPrice y.limitPrice)).den = midpointNum x y := by
  show max (clearingPrice x.limitPrice y.limitPrice).num 1 = _
  rw [clearing_num_eq_midpoint hx hy h, max_eq_left (midpointNum_pos hx hy)]

theorem reciprocal_num_eq_midpoint (h : midpointDen x y ≤ u128Max) :
    (reciprocal (clearingPrice x.limitPrice y.limitPrice)).num = midpointDen x y :=
  clearing_den_eq_midpoint hx hy h

include ho hc hs

/-- **The A→B side.**  An order whose limit is at most `x`'s gets at least its limit, rounded
down. -/
theorem apply_clearingPrice_ge (hl : o.limitPrice ≤ x.limitPrice) :
    sold * o.buyAmount.toNat / o.sellAmount.toNat ≤
      (clearingPrice x.limitPrice y.limitPrice).apply sold := by
  have hcap := limit_le_u64Max ho hs
  rw [Price.le_iff_cross o.limitPrice_isU64 x.limitPrice_isU64, ho.limitPrice_den,
    hx.limitPrice_den] at hl
  rw [crosses_iff hx hy] at hc
  simp only [Order.limitPrice_num] at hl
  set p := clearingPrice x.limitPrice y.limitPrice with hp
  have hnum := clearing_num_eq hx hy
  have hden := clearing_den_eq hx hy
  rw [← hp] at hnum hden
  rcases Nat.lt_or_ge u128Max (x.buyAmount.toNat * y.buyAmount.toNat +
      x.sellAmount.toNat * y.sellAmount.toNat) with hbig | hfit
  · -- the numerator saturates: `apply` overflows, unless a single unit was sold
    rw [min_eq_right hbig.le] at hnum
    rcases Nat.lt_or_ge sold 2 with h1 | h2
    · have hlt : x.buyAmount.toNat < 2 * x.sellAmount.toNat := by
        by_contra hge
        have h₁ : x.sellAmount.toNat * y.sellAmount.toNat ≤ 2 ^ 63 * u64Max :=
          Nat.mul_le_mul (by have := toNat_le_u64Max x.buyAmount; simp only [u64Max] at this; omega)
            (toNat_le_u64Max _)
        simp only [u128Max, u64Max] at hbig h₁
        omega
      have hlim : o.buyAmount.toNat < 2 * o.sellAmount.toNat := by
        refine Nat.lt_of_mul_lt_mul_right (a := x.sellAmount.toNat) (hl.trans_lt ?_)
        calc x.buyAmount.toNat * o.sellAmount.toNat
            < 2 * x.sellAmount.toNat * o.sellAmount.toNat :=
              Nat.mul_lt_mul_of_pos_right hlt ho.sell_pos
          _ = 2 * o.sellAmount.toNat * x.sellAmount.toNat := by ring
      have hle : sold * o.buyAmount.toNat / o.sellAmount.toNat ≤ sold := by
        refine Nat.lt_succ_iff.mp (Nat.div_lt_of_lt_mul ?_)
        interval_cases sold
        · simpa using ho.sell_pos
        · omega
      refine Price.apply_ge (hle.trans ?_) (hcap.trans u64Max_le_u128Max)
      rw [hnum, Nat.le_div_iff_mul_le p.den_pos]
      exact Nat.mul_le_mul_left _ p.den_le
    · rw [apply_saturated hnum h2]
      exact hcap.trans u64Max_le_u128Max
  · rw [min_eq_left hfit] at hnum
    refine Price.apply_ge ?_ (hcap.trans u64Max_le_u128Max)
    refine scaled_mono ho.sell_pos p.den_pos (cross_trans hx.sell_pos hl ?_) sold
    rw [hnum]
    refine le_trans (Nat.mul_le_mul_left _ (hden.le.trans (min_le_left _ _))) ?_
    exact midpoint_ge hc

/-- **The B→A side.**  An order whose limit is at most `y`'s gets at least its limit, rounded down,
unless the denominator of the midpoint saturates and the order sold a single unit. -/
theorem apply_reciprocal_ge (hl : o.limitPrice ≤ y.limitPrice)
    (hfit : sold = 1 → 2 * (x.sellAmount.toNat * y.buyAmount.toNat) ≤ u128Max) :
    sold * o.buyAmount.toNat / o.sellAmount.toNat ≤
      (reciprocal (clearingPrice x.limitPrice y.limitPrice)).apply sold := by
  have hcap := limit_le_u64Max ho hs
  rw [Price.le_iff_cross o.limitPrice_isU64 y.limitPrice_isU64, ho.limitPrice_den,
    hy.limitPrice_den] at hl
  rw [crosses_iff hx hy] at hc
  simp only [Order.limitPrice_num] at hl
  have hnum := clearing_num_eq hx hy
  have hden := clearing_den_eq hx hy
  set p := clearingPrice x.limitPrice y.limitPrice with hp
  rcases Nat.lt_or_ge u128Max (2 * (x.sellAmount.toNat * y.buyAmount.toNat)) with hbig | hfit'
  · rw [min_eq_right hbig.le] at hden
    rcases Nat.lt_or_ge sold 2 with h1 | h2
    · have h0 : sold = 0 := by
        by_contra hne
        exact absurd (hfit (by omega)) (by omega)
      rw [h0, Nat.zero_mul, Nat.zero_div]
      exact Nat.zero_le _
    · rw [apply_saturated (p := reciprocal p) hden h2]
      exact hcap.trans u64Max_le_u128Max
  · rw [min_eq_left hfit'] at hden
    refine Price.apply_ge ?_ (hcap.trans u64Max_le_u128Max)
    refine scaled_mono ho.sell_pos (reciprocal p).den_pos (cross_trans hy.sell_pos hl ?_) sold
    show y.buyAmount.toNat * max p.num 1 ≤ p.den * y.sellAmount.toNat
    rw [hden]
    have := Nat.mul_pos hx.sell_pos hy.sell_pos
    have hle : max p.num 1 ≤ x.buyAmount.toNat * y.buyAmount.toNat +
        x.sellAmount.toNat * y.sellAmount.toNat :=
      max_le (hnum.le.trans (min_le_left _ _)) (by omega)
    exact (Nat.mul_le_mul_left _ hle).trans (midpoint_le hc)

end

/-! ### Every trade of a batch -/

/-- Every order of a batch passes `validate` at some time. -/
def Validated (orders : List SignedOrder) : Prop :=
  ∀ s ∈ orders, ∃ now, s.order.validate now = .ok ()

theorem Validated.wellFormed {orders : List SignedOrder} (h : Validated orders) {o : Order}
    (ho : ∃ s ∈ orders, s.order = o) : o.WellFormed := by
  obtain ⟨s, hs, rfl⟩ := ho
  obtain ⟨now, hv⟩ := h s hs
  exact (Order.validate_eq_ok_iff.mp hv).1

/-- Two sorted sides of well-formed orders. -/
structure SortedBook (xs ys : List Order) : Prop where
  a_wf : ∀ o ∈ xs, o.WellFormed
  b_wf : ∀ o ∈ ys, o.WellFormed
  a_sorted : xs.Pairwise fun x y => x.limitPrice ≤ y.limitPrice
  b_sorted : ys.Pairwise fun x y => x.limitPrice ≤ y.limitPrice

/-- Orders further up the sides cross, if these do. -/
theorem SortedBook.crosses {xs ys : List Order} (h : SortedBook xs ys) {i i' : Fin xs.length}
    {j j' : Fin ys.length} (hi : i ≤ i') (hj : j ≤ j') (hc : Crosses (xs.get i') (ys.get j')) :
    Crosses (xs.get i) (ys.get j) := by
  have wa : ∀ k, (xs.get k).WellFormed := fun k => h.a_wf _ (List.get_mem xs k)
  have wb : ∀ k, (ys.get k).WellFormed := fun k => h.b_wf _ (List.get_mem ys k)
  have hc := crosses_of_le_left (wa i') (wb j') (wa i) (limit_le h.a_sorted hi) hc
  exact crosses_of_le_right (wa i) (wb j') (wb j) (limit_le h.b_sorted hj) hc

/-- The sides of a validated batch. -/
theorem sortedBook {orders : List SignedOrder} (hv : Validated orders) (m : Address × Address) :
    SortedBook (abSide orders m) (baSide orders m) where
  a_wf := fun _ ho => hv.wellFormed (mem_abSide ho).1
  b_wf := fun _ ho => hv.wellFormed (mem_baSide ho).1
  a_sorted := sortByLimit_pairwise _
  b_sorted := sortByLimit_pairwise _

/-- Every trade gives its order at least the signed limit, in exact integers. -/
def LimitExact (P : Primitives) (orders : List SignedOrder) (sol : Solution) : Prop :=
  ∀ s ∈ orders, ∀ t ∈ sol.trades, t.orderId = s.order.id P →
    s.order.buyAmount.toNat * t.executedSell.toNat ≤
      t.executedBuy.toNat * s.order.sellAmount.toNat

instance (P : Primitives) (orders : List SignedOrder) (sol : Solution) :
    Decidable (LimitExact P orders sol) :=
  inferInstanceAs (Decidable (∀ s ∈ orders, ∀ t ∈ sol.trades, _ → _))

/-- `o` sells the larger mint of its pair, and for some orders `x` against it and `y` beside it the
denominator of the midpoint leaves `u128`. -/
def MidpointOverflows (orders : List SignedOrder) (o : Order) : Prop :=
  o.buyMint < o.sellMint ∧ ∃ x ∈ orders, ∃ y ∈ orders, x.order.Opposite o ∧
    (y.order.sellMint = o.sellMint ∧ y.order.buyMint = o.buyMint) ∧
    u128Max < 2 * (x.order.sellAmount.toNat * y.order.buyAmount.toNat)

instance (orders : List SignedOrder) (o : Order) : Decidable (MidpointOverflows orders o) :=
  inferInstanceAs (Decidable (_ ∧ ∃ x ∈ orders, ∃ y ∈ orders, _))

section
variable (P : Primitives)

/-- A limit the price respects survives the clamp to `u64`. -/
theorem execution_ge {o : Order} (ho : o.WellFormed) {sold : Nat}
    (hs : sold ≤ o.sellAmount.toNat) {p : Price}
    (h : sold * o.buyAmount.toNat / o.sellAmount.toNat ≤ p.apply sold) :
    (execution P p o sold).executedSell.toNat * o.buyAmount.toNat / o.sellAmount.toNat ≤
      (execution P p o sold).executedBuy.toNat := by
  show (clampU64 sold).toNat * _ / _ ≤ (clampU64 (p.apply sold)).toNat
  rw [clampU64_eq (hs.trans (toNat_le_u64Max _)), clampU64_toNat]
  exact le_min h (limit_le_u64Max ho hs)

variable (env : HashOrders) (cfg : MatcherConfig) (id : BatchId) (solver : Address)
  {orders : List SignedOrder}

/-- **Every trade is an order's, and at its limit, rounded down**, unless it sells a single unit. -/
theorem mem_trades_limit (hv : Validated orders) {t : TradeExecution}
    (ht : t ∈ (matchBatch P env cfg id solver orders).trades) :
    ∃ s ∈ orders, s.order.id P = t.orderId ∧ (t.executedSell ≠ 1 →
      t.executedSell.toNat * s.order.buyAmount.toNat / s.order.sellAmount.toNat ≤
        t.executedBuy.toNat) := by
  obtain ⟨m, h, hside⟩ := (mem_trades P env cfg id solver).mp ht
  obtain ⟨i, j, hp, hc, hi, hj⟩ := price_eq h
  have hx := hv.wellFormed (mem_abSide (List.get_mem (abSide orders m) i)).1
  have hy := hv.wellFormed (mem_baSide (List.get_mem (baSide orders m) j)).1
  rw [hp] at hside
  rcases hside with ⟨f, hfm, rfl⟩ | ⟨g, hgm, rfl⟩
  · obtain ⟨⟨s, hs, hso⟩, -⟩ := mem_abSide (List.get_mem (abSide orders m) f.idx)
    rw [← hso]
    have ho := hv.wellFormed ⟨s, hs, rfl⟩
    have hle : soldOf (pairFills orders m).fillsAb f.idx ≤ s.order.sellAmount.toNat :=
      hso ▸ soldOf_ab_le _
    exact ⟨s, hs, rfl, fun _ => execution_ge P ho hle
      (apply_clearingPrice_ge hx hy ho hc hle (hso ▸ limit_mono (hi f hfm)))⟩
  · obtain ⟨⟨s, hs, hso⟩, -⟩ := mem_baSide (List.get_mem (baSide orders m) g.idx)
    rw [← hso]
    have ho := hv.wellFormed ⟨s, hs, rfl⟩
    have hle : soldOf (pairFills orders m).fillsBa g.idx ≤ s.order.sellAmount.toNat :=
      hso ▸ soldOf_ba_le _
    refine ⟨s, hs, rfl, fun hne => execution_ge P ho hle
      (apply_reciprocal_ge hx hy ho hc hle (hso ▸ limit_mono (hj g hgm)) fun h1 => ?_)⟩
    exact absurd (show clampU64 _ = 1 by rw [h1]; rfl) hne

/-- **The signed limit, rounded down.**  Every trade gives its order `buy_amount * executed_sell /
sell_amount`, up to less than one unit, unless a single unit was sold against a saturated
midpoint. -/
theorem limit_respected (hv : Validated orders) (hn : NoCollision P orders) {s : SignedOrder}
    (hs : s ∈ orders) {t : TradeExecution}
    (ht : t ∈ (matchBatch P env cfg id solver orders).trades) (hid : t.orderId = s.order.id P)
    (hf : ¬ (t.executedSell = 1 ∧ MidpointOverflows orders s.order)) :
    t.executedSell.toNat * s.order.buyAmount.toNat / s.order.sellAmount.toNat ≤
      t.executedBuy.toNat := by
  obtain ⟨m, h, hside⟩ := (mem_trades P env cfg id solver).mp ht
  obtain ⟨i, j, hp, hc, hi, hj⟩ := price_eq h
  have hx := mem_abSide (List.get_mem (abSide orders m) i)
  have hy := mem_baSide (List.get_mem (baSide orders m) j)
  rw [hp] at hside
  rcases hside with ⟨f, hfm, rfl⟩ | ⟨g, hgm, rfl⟩
  · have ho := mem_abSide (List.get_mem (abSide orders m) f.idx)
    have hso : s.order = (abSide orders m).get f.idx := hn.order_eq hs ho.1 hid.symm
    rw [hso]
    exact execution_ge P (hv.wellFormed ho.1) (soldOf_ab_le _)
      (apply_clearingPrice_ge (hv.wellFormed hx.1) (hv.wellFormed hy.1) (hv.wellFormed ho.1) hc
        (soldOf_ab_le _) (limit_mono (hi f hfm)))
  · have ho := mem_baSide (List.get_mem (baSide orders m) g.idx)
    have hso : s.order = (baSide orders m).get g.idx := hn.order_eq hs ho.1 hid.symm
    rw [hso] at hf ⊢
    refine execution_ge P (hv.wellFormed ho.1) (soldOf_ba_le _)
      (apply_reciprocal_ge (hv.wellFormed hx.1) (hv.wellFormed hy.1) (hv.wellFormed ho.1) hc
        (soldOf_ba_le _) (limit_mono (hj g hgm)) fun h1 => ?_)
    by_contra hbig
    refine hf ⟨?_, ?_, ?_⟩
    · show clampU64 _ = 1
      rw [h1]
      rfl
    · rw [ho.2.2.1, ho.2.2.2]
      refine lt_of_le_of_ne (ho.2.1 ▸ Order.pair_le _) fun e => (hv.wellFormed ho.1).mints ?_
      rw [ho.2.2.1, ho.2.2.2, e]
    · obtain ⟨⟨x, hxm, hxo⟩, -, hx₁, hx₂⟩ := hx
      obtain ⟨⟨y, hym, hyo⟩, -, hy₁, hy₂⟩ := hy
      refine ⟨x, hxm, y, hym, ⟨?_, ?_⟩, ⟨?_, ?_⟩, ?_⟩
      · rw [hxo, hx₁]; exact ho.2.2.2.symm
      · rw [hxo, hx₂]; exact ho.2.2.1.symm
      · rw [hyo, hy₁]; exact ho.2.2.1.symm
      · rw [hyo, hy₂]; exact ho.2.2.2.symm
      · rw [hxo, hyo]; exact not_le.mp hbig

end

section
open Sample

/-- The price of 100 A for 150 B and 2 B for 1 A is 7/4 B per A, and the seller of A gets one unit
of B for one unit of A. -/
theorem limit_respected_dust :
    1 * alice150.buyAmount.toNat / alice150.sellAmount.toNat ≤ (1 : UInt64).toNat :=
  limit_respected primitives .insertion ⟨true⟩ ⟨.replicate 16 0⟩ .zero
    (show Validated [sign alice150, sign bob2] from
      fun s hs => ⟨0, by revert s; decide +kernel⟩)
    (by unfold NoCollision; decide +kernel) (s := sign alice150) List.mem_cons_self
    (t := ⟨alice150.id primitives, 1, 1⟩) (by decide +kernel) rfl (by decide +kernel)

/-- **The limit is not exact**: of 100 A offered for at least 150 B, 1 A is sold, for 1 B. -/
theorem limit_not_exact :
    (∀ s ∈ [sign alice150, sign bob2], s.order.validate 0 = .ok ()) ∧
      ¬ LimitExact primitives [sign alice150, sign bob2]
        (matchBatch primitives .insertion ⟨true⟩ ⟨.replicate 16 0⟩ .zero
          [sign alice150, sign bob2]) := by
  decide +kernel

end

end OxDex
