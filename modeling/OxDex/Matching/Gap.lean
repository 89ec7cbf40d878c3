import OxDex.Matching.Conservation

/-!
# Matching — Gap

What a gap between two limits does to a pair with one order a side.

Two orders that can be filled against each other are met once, and one of them is filled to the end
(`turn_one`), so each gets one trade (`settle_one`).  The A→B order is paid no more than was booked
for it; the B→A order is paid the booked B at the midpoint, which is more A than was sold as soon as
the gap is worth a unit of A (`conserves_pair_iff`).
-/

namespace OxDex
open Support

/-- The A that orders `x` and `y` exchange, alone with each other. -/
def exchangedA (x y : Order) : Nat := min x.sellAmount.toNat y.buyAmount.toNat

/-- The B they exchange, as it is booked. -/
def exchangedB (x y : Order) : Nat := exchangedA x y * y.sellAmount.toNat / y.buyAmount.toNat

/-! ### The fill -/

section
variable {x y : Order} (hx : x.WellFormed) (hy : y.WellFormed)

theorem exchangedA_le_u64Max : exchangedA x y ≤ u64Max :=
  (min_le_left _ _).trans (toNat_le_u64Max _)

theorem exchangedB_le : exchangedB x y ≤ y.sellAmount.toNat :=
  Nat.div_le_of_le_mul (Nat.mul_le_mul_right _ (min_le_right _ _))

include hx hy

/-- **Two orders that can be filled against each other** are met once: one of them is filled to the
end, and it was the only one of its side. -/
theorem turn_one (hc : Crosses x y)
    (hkX : x.partialFill = false → x.sellAmount.toNat ≤ y.buyAmount.toNat)
    (hkY : y.partialFill = false → y.buyAmount.toNat ≤ x.sellAmount.toNat) :
    ∃ s, turn [x] [y] (.init [x] [y]) = some s ∧ turn [x] [y] s = none ∧
      s.fillsAb = [⟨0, exchangedA x y, exchangedB x y⟩] ∧
      s.fillsBa = [⟨0, exchangedB x y, exchangedA x y⟩] ∧
      s.lastCross = some (x.limitPrice, y.limitPrice) := by
  have hle : exchangedA x y = min x.sellAmount.toNat y.buyAmount.toNat := rfl
  have hcap : min x.sellAmount.toNat (aCapacity y y.sellAmount.toNat) = exchangedA x y := by
    rw [aCapacity_full hy, exchangedA]
  have hbook : bookedB y (exchangedA x y) = exchangedB x y := by
    rw [bookedB_eq exchangedA_le_u64Max, max_eq_left hy.buy_pos, exchangedB]
  have hsold := bookedB_lt_iff hy (t := exchangedA x y) exchangedA_le_u64Max
  have hturn : ∃ s, turn [x] [y] (.init [x] [y]) = some s := by
    rw [turn, dif_pos ⟨Nat.one_pos, Nat.one_pos⟩]
    exact ⟨_, if_pos hc⟩
  obtain ⟨s, hs⟩ := hturn
  refine ⟨s, hs, ?_⟩
  obtain ⟨i, j, -, -, -, hm⟩ := turn_met (ledger_init [x] [y]) hs
  obtain rfl : i = 0 := Subsingleton.elim (α := Fin 1) _ _
  obtain rfl : j = 0 := Subsingleton.elim (α := Fin 1) _ _
  cases hm with
  | spent ha => exact absurd ha hx.sell_pos.ne'
  | dust _ hd => exact absurd ((aCapacity_full hy).symm.trans hd) hy.buy_pos.ne'
  | killA _ hp hlt =>
      replace hlt : aCapacity y y.sellAmount.toNat < x.sellAmount.toNat := hlt
      rw [aCapacity_full hy] at hlt
      exact absurd (hkX hp) (by omega)
  | killB t ht _ hp hlt =>
      obtain rfl : t = exchangedA x y := ht.trans hcap
      have := hsold.mp hlt
      exact absurd (hkY hp) (by omega)
  | filled t u ht _ hu _ _ =>
      obtain rfl : t = exchangedA x y := ht.trans hcap
      obtain rfl : u = exchangedB x y := hu.trans hbook
      refine ⟨?_, rfl, rfl, rfl⟩
      rw [turn, dif_neg]
      rintro ⟨hi, hj⟩
      replace hi : (if x.sellAmount.toNat - exchangedA x y = 0 then 1 else 0) < 1 := hi
      replace hj : (if y.sellAmount.toNat - exchangedB x y = 0 then 1 else 0) < 1 := hj
      split at hi <;> split at hj <;> omega

theorem fillLoop_one (h : Trades [x] [y]) :
    (fillLoop [x] [y]).fillsAb = [⟨0, exchangedA x y, exchangedB x y⟩] ∧
      (fillLoop [x] [y]).fillsBa = [⟨0, exchangedB x y, exchangedA x y⟩] ∧
        (fillLoop [x] [y]).lastCross = some (x.limitPrice, y.limitPrice) := by
  cases h with
  | killX _ _ _ h => exact absurd rfl h.ne_nil.1
  | killY _ _ _ h => exact absurd rfl h.ne_nil.2
  | here hc hkX hkY =>
    obtain ⟨s, hs, hn, hfills⟩ := turn_one hx hy hc hkX hkY
    have hb : fillBound [x] [y] = x.sellAmount.toNat + 1 + 1 := by
      simp [fillBound]
      omega
    rw [fillLoop, hb, Loop.run_of_some hs, Loop.run_of_none hn]
    exact hfills

omit hx hy in
/-- A map with one entry has one iteration order. -/
theorem iter_soldPerOrder_one {n : Nat} (o : IterOrder (Fin n × Nat)) (f : Fill n) :
    o.iter (soldPerOrder [f]) = [(f.idx, f.sold)] := by
  have h : soldPerOrder [f] = [(f.idx, f.sold)] := by
    show [(f.idx, 0 + f.sold)] = _
    rw [Nat.zero_add]
  rw [← List.perm_singleton, ← h]
  exact o.perm _

/-- Each of the two orders gets one trade. -/
theorem settle_one (P : Primitives) (env : HashOrders) (a b : Address) {aToB bToA : List Order}
    (ha : aToB = [x]) (hb : bToA = [y]) (h : (fillLoop aToB bToA).fillsAb ≠ [])
    (ht : Trades [x] [y]) :
    (settle P env a b (fillLoop aToB bToA) h).trades =
      [execution P (clearingPrice x.limitPrice y.limitPrice) x (exchangedA x y),
        execution P (reciprocal (clearingPrice x.limitPrice y.limitPrice)) y (exchangedB x y)] := by
  subst ha hb
  obtain ⟨hfa, hfb, hl⟩ := fillLoop_one hx hy ht
  rw [settle_trades, hfa, hfb, iter_soldPerOrder_one, iter_soldPerOrder_one]
  simp only [MatchState.price, hl, Option.get_some]
  rfl

/-! ### The price -/

/-- At the midpoint the first order gets no more than was booked for it. -/
theorem apply_le_exchangedB (hc : Crosses x y)
    (hnum : x.sellAmount.toNat * midpointNum x y ≤ u128Max) (hden : midpointDen x y ≤ u128Max) :
    (clearingPrice x.limitPrice y.limitPrice).apply (exchangedA x y) ≤ exchangedB x y := by
  have hn := clearing_num_eq_midpoint hx hy ((Nat.le_mul_of_pos_left _ hx.sell_pos).trans hnum)
  have hd := clearing_den_eq_midpoint hx hy hden
  rw [Price.apply_eq (by rw [hn]; exact (Nat.mul_le_mul_right _ (min_le_left _ _)).trans hnum)]
  refine scaled_mono (Price.den_pos _) hy.buy_pos ?_ _
  rw [crosses_iff hx hy] at hc
  rw [hn, hd, Nat.mul_comm, Nat.mul_comm y.sellAmount.toNat]
  exact midpoint_le hc

/-- The second order gets the booked B at the reciprocal of the midpoint. -/
theorem apply_exchangedB (hnum : midpointNum x y ≤ u128Max)
    (hden : y.sellAmount.toNat * midpointDen x y ≤ u128Max) :
    (reciprocal (clearingPrice x.limitPrice y.limitPrice)).apply (exchangedB x y) =
      exchangedB x y * midpointDen x y / midpointNum x y := by
  have hn := reciprocal_num_eq_midpoint hx hy
    ((Nat.le_mul_of_pos_left _ hy.sell_pos).trans hden)
  have hd := reciprocal_den_eq_midpoint hx hy hnum
  have hle := (Nat.mul_le_mul_right (midpointDen x y) (exchangedB_le (x := x))).trans hden
  rw [Price.apply_eq (by rwa [hn]), hn, hd]

omit hx hy in
/-- Where the denominator fits, less than `u64::MAX` of A is exchanged, so no amount is clamped. -/
theorem exchangedA_lt_u64Max (h : midpointDen x y ≤ u128Max) : exchangedA x y < u64Max := by
  by_contra hge
  have hxA : u64Max ≤ x.sellAmount.toNat := (not_lt.mp hge).trans (min_le_left _ _)
  have hyA : u64Max ≤ y.buyAmount.toNat := (not_lt.mp hge).trans (min_le_right _ _)
  exact absurd ((Nat.mul_le_mul_left 2 (Nat.mul_le_mul hxA hyA)).trans h) (by decide)

end

/-! ### The batch -/

section
variable (P : Primitives) (env : HashOrders) {orders : List SignedOrder} {m : Address × Address}

/-- A batch of one pair has that pair only. -/
theorem markets_eq_singleton (hm : ∀ s ∈ orders, s.order.pair = m) (hne : orders ≠ []) :
    markets orders = [m] := by
  obtain ⟨s, hs⟩ := List.exists_mem_of_ne_nil _ hne
  rw [← List.perm_singleton,
    List.perm_ext_iff_of_nodup (markets_nodup orders) (List.nodup_singleton _)]
  intro m'
  rw [mem_markets, List.mem_singleton]
  constructor
  · rintro ⟨t, ht, rfl⟩
    exact hm t ht
  · rintro rfl
    exact ⟨s, hs, hm s hs⟩

/-- **One trade a side** conserves if each side is paid no more than the other sells. -/
theorem conserves_iff_of_perm (hn : NoCollision P orders) {x y : Order} {p q : Price} {a b : Nat}
    (hx : ∃ s ∈ orders, s.order = x) (hy : ∃ s ∈ orders, s.order = y) (hop : x.Opposite y)
    (hne : x.sellMint ≠ x.buyMint) {sol : Solution}
    (hp : sol.trades.Perm [execution P p x a, execution P q y b]) :
    Conserves P orders sol ↔
      (execution P p x a).executedBuy.toNat ≤ (execution P q y b).executedSell.toNat ∧
        (execution P q y b).executedBuy.toNat ≤ (execution P p x a).executedSell.toNat := by
  have hdel : ∀ mint, delivered P orders sol.trades mint =
      (if x.buyMint = mint then (execution P p x a).executedBuy.toNat else 0) +
        if x.sellMint = mint then (execution P q y b).executedBuy.toNat else 0 := by
    intro mint
    rw [delivered, (hp.map _).sum_eq, List.map_cons, List.map_singleton, List.sum_cons,
      List.sum_singleton, if_congr (buysFor_execution P hn hx) rfl rfl,
      if_congr (buysFor_execution P hn hy) rfl rfl, hop.1]
  have hput : ∀ mint, putIn P orders sol.trades mint =
      (if x.sellMint = mint then (execution P p x a).executedSell.toNat else 0) +
        if x.buyMint = mint then (execution P q y b).executedSell.toNat else 0 := by
    intro mint
    rw [putIn, (hp.map _).sum_eq, List.map_cons, List.map_singleton, List.sum_cons,
      List.sum_singleton, if_congr (sellsFor_execution P hn hx) rfl rfl,
      if_congr (sellsFor_execution P hn hy) rfl rfl, hop.2]
  constructor
  · intro h
    have hB := h x.buyMint
    have hA := h x.sellMint
    rw [hdel, hput] at hA hB
    rw [if_pos rfl, if_neg hne, if_neg hne, if_pos rfl] at hB
    rw [if_neg hne.symm, if_pos rfl, if_pos rfl, if_neg hne.symm] at hA
    omega
  · rintro ⟨hB, hA⟩ mint
    rw [hdel, hput]
    split <;> split <;> omega

variable (cfg : MatcherConfig) (id : BatchId) (solver : Address)

/-- **Two orders alone.**  A batch of one pair with one order a side conserves both mints if and
only if nothing trades, or the booked B buys, at the midpoint, less than one unit of A beyond the A
that was sold. -/
theorem conserves_pair_iff (hv : Validated orders) (hn : NoCollision P orders) {x y : Order}
    (hm : ∀ s ∈ orders, s.order.pair = m) (ha : abSide orders m = [x]) (hb : baSide orders m = [y])
    (hnum : x.sellAmount.toNat * midpointNum x y ≤ u128Max)
    (hden : y.sellAmount.toNat * midpointDen x y ≤ u128Max) :
    Conserves P orders (matchBatch P env cfg id solver orders) ↔
      (PairTrades orders m →
        exchangedB x y * midpointDen x y < (exchangedA x y + 1) * midpointNum x y) := by
  obtain ⟨hxo, -, hxs, hxb⟩ :=
    mem_abSide (ha.symm ▸ List.mem_singleton_self x : x ∈ abSide orders m)
  obtain ⟨hyo, -, hys, hyb⟩ :=
    mem_baSide (hb.symm ▸ List.mem_singleton_self y : y ∈ baSide orders m)
  have hx := hv.wellFormed hxo
  have hy := hv.wellFormed hyo
  have hp := trades_perm P env cfg id solver orders
  rw [markets_eq_singleton hm (List.ne_nil_of_mem hxo.choose_spec.1), List.flatMap_singleton,
    matchPair_eq] at hp
  by_cases h : (pairFills orders m).fillsAb = []
  · rw [dif_pos h] at hp
    refine ⟨fun _ ht => absurd h ((pairFills_iff hv).mpr ht), fun _ mint => ?_⟩
    rw [delivered, hp.eq_nil]
    exact Nat.zero_le _
  · rw [dif_neg h] at hp
    have hpt := (pairFills_iff hv).mp h
    have ht : Trades [x] [y] := by rwa [PairTrades, ha, hb] at hpt
    have hnum' := (Nat.le_mul_of_pos_left _ hx.sell_pos).trans hnum
    have hden' := (Nat.le_mul_of_pos_left _ hy.sell_pos).trans hden
    have hlt := exchangedA_lt_u64Max hden'
    have hbought := apply_le_exchangedB hx hy ht.crosses hnum hden'
    rw [conserves_iff_of_perm P hn hxo hyo ⟨hxs.trans hyb.symm, hxb.trans hys.symm⟩ hx.mints
      (hp.trans (.of_eq (settle_one hx hy P env m.1 m.2 ha hb h ht)))]
    simp only [execution]
    rw [clampU64_eq hlt.le, clampU64_eq (exchangedB_le.trans (toNat_le_u64Max _)), clampU64_toNat,
      clampU64_toNat, apply_exchangedB hx hy hnum' hden,
      ← Nat.div_lt_iff_lt_mul (midpointNum_pos hx hy)]
    constructor
    · rintro ⟨-, hle⟩ -
      omega
    · intro h'
      have := h' hpt
      exact ⟨(min_le_left _ _).trans hbought, by omega⟩

end

end OxDex
