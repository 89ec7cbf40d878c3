import OxDex.Matching.Conservation
import OxDex.Matching.Surplus

/-!
# Matching — Backing

How much more of a mint a solution can deliver than its sellers put in.

Every payout is backed by the bookings of its order's fills, up to what it gives above the order's
limit: bookings are at the limit of the B→A order of a fill, which is no worse than that of the A→B
order (`booked_ab`, `booked_ba`).  Bookings are rounded down, so an A→B order filled more than once
may be booked a few units less than its fills together are worth.

* `backed`: of no mint more is delivered than is put in, the surplus of those who buy it, and one
  unit for every fill of an A→B order beyond its first.
* Where the repricing stays in range, no A→B order is paid above its bookings, so of the larger mint
  of a pair nothing but these units is delivered on top.

So what the midpoint creates (`conservation_fails`) is at most what the score reports.
-/

namespace OxDex
open Support

/-- What the orders that buy `mint` get above their limits. -/
def gained (P : Primitives) (orders : List SignedOrder) (mint : Address) : Nat :=
  ((payments P orders).map fun e => if e.1.buyMint = mint then paymentGain e else 0).sum

/-- The fills of A→B orders beyond the first of each. -/
def roundings (orders : List SignedOrder) (m : Address × Address) : Nat :=
  (pairFills orders m).fillsAb.length - (soldPerOrder (pairFills orders m).fillsAb).length

/-- Those of the pairs whose larger mint it is. -/
def roundedOf (orders : List SignedOrder) (mint : Address) : Nat :=
  ((markets orders).map fun m => if m.2 = mint then roundings orders m else 0).sum

/-- **What backs a solution.** -/
structure Backed (P : Primitives) (orders : List SignedOrder) (sol : Solution) : Prop where
  surplus : ∀ mint, delivered P orders sol.trades mint ≤
    putIn P orders sol.trades mint + gained P orders mint + roundedOf orders mint
  larger : Unclipped orders → ∀ mint, (∀ s ∈ orders, s.order.buyMint = mint →
    s.order.sellMint < mint) → delivered P orders sol.trades mint ≤
      putIn P orders sol.trades mint + roundedOf orders mint

/-! ### Fills and bookings -/

section
variable {α : Type*} {sold bought : α → Nat} {n d : Nat} {l : List α}

/-- Amounts each worth no more than their bookings are worth no more together. -/
theorem floor_le_booked (h : ∀ f ∈ l, sold f * n ≤ bought f * d) :
    (l.map sold).sum * n / d ≤ (l.map bought).sum := by
  refine Nat.div_le_of_le_mul ?_
  rw [Nat.mul_comm d, ← List.sum_map_mul_right, ← List.sum_map_mul_right]
  exact List.sum_le_sum h

/-- Bookings that are rounded down lose less than a unit each. -/
theorem floor_lt_booked (hd : 0 < d) (hl : l ≠ [])
    (h : ∀ f ∈ l, sold f * n < (bought f + 1) * d) :
    (l.map sold).sum * n / d + 1 ≤ (l.map fun f => bought f + 1).sum := by
  refine (Nat.div_lt_iff_lt_mul hd).mpr ?_
  rw [← List.sum_map_mul_right, ← List.sum_map_mul_right]
  exact List.sum_lt_sum_of_ne_nil hl _ _ h

end

/-- What is rounded down at a rate is worth less than a unit more at a rate no higher. -/
theorem share_lt {t n d n' d' : Nat} (hn' : 0 < n') (hd : 0 < d) (h : n * n' ≤ d * d') :
    t * n < (t * d' / n' + 1) * d := by
  have hlt : t * d' < (t * d' / n' + 1) * n' := Nat.lt_mul_of_div_lt (Nat.lt_succ_self _) hn'
  refine Nat.lt_of_mul_lt_mul_right (a := n') ?_
  calc t * n * n' = t * (n * n') := Nat.mul_assoc ..
    _ ≤ t * (d * d') := Nat.mul_le_mul_left _ h
    _ = t * d' * d := by ring
    _ < (t * d' / n' + 1) * n' * d := Nat.mul_lt_mul_of_pos_right hlt hd
    _ = (t * d' / n' + 1) * d * n' := by ring

section
variable (P : Primitives)

/-- A payout is within bookings that cover the order's limit, and what it gives above that. -/
theorem paid_le {p : Price} {o : Order} {sold b c : Nat} (hs : sold ≤ u64Max)
    (h : sold * o.buyAmount.toNat / o.sellAmount.toNat + c ≤ b) :
    (execution P p o sold).executedBuy.toNat + c ≤
      b + paymentGain (o, execution P p o sold) := by
  have hsold : (execution P p o sold).executedSell.toNat = sold := clampU64_eq hs
  dsimp only [paymentGain]
  rw [hsold]
  omega

/-- A payout at a price in range is what the price makes of what was sold. -/
theorem executedBuy_le_floor {p : Price} {o : Order} {sold : Nat} (h : sold * p.num ≤ u128Max) :
    (execution P p o sold).executedBuy.toNat ≤ sold * p.num / p.den := by
  show (clampU64 (p.apply sold)).toNat ≤ _
  rw [clampU64_toNat, Price.apply_eq h]
  exact min_le_left _ _

/-- **The payouts of a side**, if each is within its order's bookings, `c` more for each fill, and
`g` besides. -/
theorem side_paid_le {side : List Order} (fills : List (Fill side.length)) {p : Price} {c : Nat}
    {g : Order × TradeExecution → Nat}
    (h : ∀ f ∈ fills, (execution P p (side.get f.idx) (soldOf fills f.idx)).executedBuy.toNat + c ≤
      ((fills.filter fun f' => f'.idx = f.idx).map fun f => f.bought + c).sum +
        g (side.get f.idx, execution P p (side.get f.idx) (soldOf fills f.idx))) :
    ((sidePayments P p side fills).map fun e => e.2.executedBuy.toNat).sum +
        c * (soldPerOrder fills).length ≤
      (fills.map Fill.bought).sum + c * fills.length +
        ((sidePayments P p side fills).map g).sum := by
  have hsum := sum_entries (.id _) fills fun f => f.bought + c
  have hright : (fills.map fun f => f.bought + c).sum =
      (fills.map Fill.bought).sum + c * fills.length := by
    rw [List.sum_map_add, List.map_const', List.sum_replicate, smul_eq_mul, Nat.mul_comm]
  have hleft : ((soldPerOrder fills).map fun _ => c).sum = c * (soldPerOrder fills).length := by
    rw [List.map_const', List.sum_replicate, smul_eq_mul, Nat.mul_comm]
  rw [← hright, ← hsum, ← hleft, sidePayments, List.map_map, List.map_map, ← List.sum_map_add]
  show _ ≤ ((soldPerOrder fills).map _).sum + _
  rw [← List.sum_map_add]
  refine List.sum_le_sum fun e he => ?_
  obtain ⟨k, v⟩ := e
  obtain ⟨⟨f, hf, rfl⟩, rfl⟩ := mem_soldPerOrder.mp he
  exact h f hf

end

/-! ### The bookings of a pair -/

section
variable {orders : List SignedOrder} {m : Address × Address} (hv : Validated orders)
include hv

/-- A B→A order is booked at its own limit, which what it sells was rounded down from. -/
theorem booked_ba {g : Fill (baSide orders m).length} (hg : g ∈ (pairFills orders m).fillsBa) :
    g.sold * ((baSide orders m).get g.idx).buyAmount.toNat ≤
      g.bought * ((baSide orders m).get g.idx).sellAmount.toNat := by
  obtain ⟨f, hf, hb⟩ := partner_left (ledger orders m).booked.flip hg
  have hy := hv.wellFormed (mem_baSide (List.get_mem (baSide orders m) g.idx)).1
  have ht : f.sold ≤ u64Max := (le_soldOf hf).trans (soldOf_ab_u64 _)
  rw [hb.sold_eq, hb.bought_eq, hb.price, bookedB_eq ht, max_eq_left hy.buy_pos]
  exact Nat.div_mul_le_self _ _

/-- An A→B order is booked at a rate that is no worse than `n / d`, if no limit of a filled B→A
order is. -/
theorem booked_ab {n d : Nat} (hd : 0 < d) {f : Fill (abSide orders m).length}
    (hf : f ∈ (pairFills orders m).fillsAb)
    (h : ∀ g ∈ (pairFills orders m).fillsBa, Booked f g →
      n * ((baSide orders m).get g.idx).buyAmount.toNat ≤
        d * ((baSide orders m).get g.idx).sellAmount.toNat) :
    f.sold * n < (f.bought + 1) * d := by
  obtain ⟨g, hg, hb⟩ := partner_left (ledger orders m).booked hf
  have hy := hv.wellFormed (mem_baSide (List.get_mem (baSide orders m) g.idx)).1
  have ht : f.sold ≤ u64Max := (le_soldOf hf).trans (soldOf_ab_u64 _)
  rw [hb.price, bookedB_eq ht, max_eq_left hy.buy_pos]
  exact share_lt hy.buy_pos hd (h g hg hb)

/-- The bookings of an A→B order cover its limit, but for the rounding. -/
theorem limit_booked {f : Fill (abSide orders m).length} (hf : f ∈ (pairFills orders m).fillsAb) :
    f.sold * ((abSide orders m).get f.idx).buyAmount.toNat <
      (f.bought + 1) * ((abSide orders m).get f.idx).sellAmount.toNat := by
  have hx := hv.wellFormed (mem_abSide (List.get_mem (abSide orders m) f.idx)).1
  refine booked_ab hv hx.sell_pos hf fun g _ hb => ?_
  have hy := hv.wellFormed (mem_baSide (List.get_mem (baSide orders m) g.idx)).1
  exact (crosses_iff hx hy).mp hb.crosses

/-- Where the repricing stays in range, they cover the price. -/
theorem price_booked (hu : Unclipped orders) (h : (pairFills orders m).fillsAb ≠ [])
    {f : Fill (abSide orders m).length} (hf : f ∈ (pairFills orders m).fillsAb) :
    f.sold * ((pairFills orders m).price h).num <
      (f.bought + 1) * ((pairFills orders m).price h).den := by
  refine booked_ab hv ((pairFills orders m).price h).den_pos hf fun g hg _ => ?_
  have hy := hv.wellFormed (mem_baSide (List.get_mem (baSide orders m) g.idx)).1
  have hle := price_le_limit hv hu h hg
  rw [reciprocal_den (hu.fitsPrice hv h).num_pos, reciprocal_num, Order.limitPrice_num,
    hy.limitPrice_den] at hle
  rwa [Nat.mul_comm]

variable (P : Primitives) (h : (pairFills orders m).fillsAb ≠ [])

/-- **The A→B payouts of a pair**, against the bookings. -/
theorem paid_ab : ((sidePayments P ((pairFills orders m).price h) _
      (pairFills orders m).fillsAb).map fun e => e.2.executedBuy.toNat).sum ≤
    ((pairFills orders m).fillsAb.map Fill.bought).sum + roundings orders m +
      ((sidePayments P ((pairFills orders m).price h) _ (pairFills orders m).fillsAb).map
        paymentGain).sum := by
  have hside := side_paid_le P (pairFills orders m).fillsAb (c := 1) (g := paymentGain)
    (p := (pairFills orders m).price h) fun f hf => by
      have hx := hv.wellFormed (mem_abSide (List.get_mem (abSide orders m) f.idx)).1
      refine paid_le P (soldOf_ab_u64 _) (floor_lt_booked hx.sell_pos
        (List.ne_nil_of_mem (List.mem_filter.mpr ⟨hf, decide_eq_true rfl⟩)) fun f' hf' => ?_)
      obtain ⟨hf', hk⟩ := List.mem_filter.mp hf'
      have hlim := limit_booked hv hf'
      rwa [of_decide_eq_true hk] at hlim
  rw [roundings]
  omega

/-- Where the repricing stays in range, without the surplus. -/
theorem paid_ab_exact (hu : Unclipped orders) : ((sidePayments P ((pairFills orders m).price h) _
      (pairFills orders m).fillsAb).map fun e => e.2.executedBuy.toNat).sum ≤
    ((pairFills orders m).fillsAb.map Fill.bought).sum + roundings orders m := by
  have hside := side_paid_le P (pairFills orders m).fillsAb (c := 1) (g := fun _ => 0)
    (p := (pairFills orders m).price h) fun f hf => by
      refine (Nat.add_le_add_right (executedBuy_le_floor P
        ((hu.fitsPrice hv h).ab f hf).1) 1).trans ?_
      exact floor_lt_booked ((pairFills orders m).price h).den_pos
        (List.ne_nil_of_mem (List.mem_filter.mpr ⟨hf, decide_eq_true rfl⟩)) fun f' hf' =>
          price_booked hv hu h (List.mem_filter.mp hf').1
  rw [List.map_const', List.sum_replicate, smul_zero] at hside
  rw [roundings]
  omega

/-- **The B→A payouts of a pair**, against the bookings. -/
theorem paid_ba : ((sidePayments P (reciprocal ((pairFills orders m).price h)) _
      (pairFills orders m).fillsBa).map fun e => e.2.executedBuy.toNat).sum ≤
    ((pairFills orders m).fillsBa.map Fill.bought).sum +
      ((sidePayments P (reciprocal ((pairFills orders m).price h)) _
        (pairFills orders m).fillsBa).map paymentGain).sum := by
  have hside := side_paid_le P (pairFills orders m).fillsBa (c := 0) (g := paymentGain)
    (p := reciprocal ((pairFills orders m).price h)) fun g hg => by
      refine paid_le P (soldOf_ba_u64 _) (floor_le_booked fun g' hg' => ?_)
      obtain ⟨hg', hk⟩ := List.mem_filter.mp hg'
      have hlim := booked_ba hv hg'
      rwa [of_decide_eq_true hk] at hlim
  omega

end

/-! ### The payments of a batch -/

section
variable {P : Primitives} {orders : List SignedOrder} (env : HashOrders) (cfg : MatcherConfig)
  (id : BatchId) (solver : Address) (hn : NoCollision P orders)
include hn

/-- What a payment's trade buys. -/
theorem buysFor_payment {e : Order × TradeExecution} (he : e ∈ payments P orders)
    {mint : Address} : BuysFor P orders mint e.2 ↔ e.1.buyMint = mint := by
  obtain ⟨⟨s, hs, hso⟩, hid⟩ := mem_payments_order he
  constructor
  · rintro ⟨t, ht, hto, rfl⟩
    rw [hn.order_eq ht ⟨s, hs, hso⟩ (hto.symm.trans hid)]
  · exact fun h => ⟨s, hs, by rw [hid, hso], by rw [hso, h]⟩

/-- What it sells. -/
theorem sellsFor_payment {e : Order × TradeExecution} (he : e ∈ payments P orders)
    {mint : Address} : SellsFor P orders mint e.2 ↔ e.1.sellMint = mint := by
  obtain ⟨⟨s, hs, hso⟩, hid⟩ := mem_payments_order he
  constructor
  · rintro ⟨t, ht, hto, rfl⟩
    rw [hn.order_eq ht ⟨s, hs, hso⟩ (hto.symm.trans hid)]
  · exact fun h => ⟨s, hs, by rw [hid, hso], by rw [hso, h]⟩

/-- What a batch delivers, payment by payment. -/
theorem delivered_eq (mint : Address) :
    delivered P orders (matchBatch P env cfg id solver orders).trades mint =
      ((payments P orders).map fun e =>
        if e.1.buyMint = mint then e.2.executedBuy.toNat else 0).sum := by
  rw [delivered, ← ((payments_perm P env cfg id solver orders).map _).sum_eq, List.map_map]
  refine congrArg List.sum (List.map_congr_left fun e he => ?_)
  exact if_congr (buysFor_payment hn he) rfl rfl

/-- What is put in. -/
theorem putIn_eq (mint : Address) :
    putIn P orders (matchBatch P env cfg id solver orders).trades mint =
      ((payments P orders).map fun e =>
        if e.1.sellMint = mint then e.2.executedSell.toNat else 0).sum := by
  rw [putIn, ← ((payments_perm P env cfg id solver orders).map _).sum_eq, List.map_map]
  refine congrArg List.sum (List.map_congr_left fun e he => ?_)
  exact if_congr (sellsFor_payment hn he) rfl rfl

end

section
variable (P : Primitives) {orders : List SignedOrder} {m : Address × Address} {mint : Address}

/-- A sum over the payments of a side, all of which count or none. -/
theorem sum_side_if {side : List Order} {fills : List (Fill side.length)} {p : Price}
    {q : Order → Prop} [DecidablePred q] {c : Prop} [Decidable c]
    (h : ∀ k : Fin side.length, q (side.get k) ↔ c) (w : Order × TradeExecution → Nat) :
    ((sidePayments P p side fills).map fun e => if q e.1 then w e else 0).sum =
      if c then ((sidePayments P p side fills).map w).sum else 0 := by
  have hl : ((sidePayments P p side fills).map fun e => if q e.1 then w e else 0) =
      (sidePayments P p side fills).map fun e => if c then w e else 0 := by
    refine List.map_congr_left fun e he => ?_
    obtain ⟨f, -, rfl⟩ := mem_sidePayments.mp he
    exact if_congr (h f.idx) rfl rfl
  rw [hl]
  by_cases hc : c <;> simp [hc]

/-- A sum over the payments of a pair, by what their orders buy. -/
theorem sum_pair_buys (h : (pairFills orders m).fillsAb ≠ []) (w : Order × TradeExecution → Nat) :
    ((pairPayments P orders m).map fun e => if e.1.buyMint = mint then w e else 0).sum =
      (if m.2 = mint then ((sidePayments P ((pairFills orders m).price h) _
        (pairFills orders m).fillsAb).map w).sum else 0) +
      if m.1 = mint then ((sidePayments P (reciprocal ((pairFills orders m).price h)) _
        (pairFills orders m).fillsBa).map w).sum else 0 := by
  rw [pairPayments, dif_neg h, List.map_append, List.sum_append,
    sum_side_if P (q := fun o => o.buyMint = mint) (c := m.2 = mint) fun k => by
      rw [(mem_abSide (List.get_mem (abSide orders m) k)).2.2.2],
    sum_side_if P (q := fun o => o.buyMint = mint) (c := m.1 = mint) fun k => by
      rw [(mem_baSide (List.get_mem (baSide orders m) k)).2.2.2]]

/-- By what they sell. -/
theorem sum_pair_sells (h : (pairFills orders m).fillsAb ≠ []) (w : Order × TradeExecution → Nat) :
    ((pairPayments P orders m).map fun e => if e.1.sellMint = mint then w e else 0).sum =
      (if m.1 = mint then ((sidePayments P ((pairFills orders m).price h) _
        (pairFills orders m).fillsAb).map w).sum else 0) +
      if m.2 = mint then ((sidePayments P (reciprocal ((pairFills orders m).price h)) _
        (pairFills orders m).fillsBa).map w).sum else 0 := by
  rw [pairPayments, dif_neg h, List.map_append, List.sum_append,
    sum_side_if P (q := fun o => o.sellMint = mint) (c := m.1 = mint) fun k => by
      rw [(mem_abSide (List.get_mem (abSide orders m) k)).2.2.1],
    sum_side_if P (q := fun o => o.sellMint = mint) (c := m.2 = mint) fun k => by
      rw [(mem_baSide (List.get_mem (baSide orders m) k)).2.2.1]]

/-- What a side puts in is what its fills sold. -/
theorem sold_side {side : List Order} {fills : List (Fill side.length)} {p : Price}
    (hle : ∀ k, soldOf fills k ≤ (side.get k).sellAmount.toNat) :
    ((sidePayments P p side fills).map fun e => e.2.executedSell.toNat).sum =
      (fills.map Fill.sold).sum := by
  rw [sidePayments, List.map_map]
  exact sum_executedSell P (.id _) hle

/-- What one side was booked to buy the other sold. -/
theorem bought_eq_sold (orders : List SignedOrder) (m : Address × Address) :
    (pairFills orders m).fillsAb.map Fill.bought = (pairFills orders m).fillsBa.map Fill.sold ∧
      (pairFills orders m).fillsBa.map Fill.bought =
        (pairFills orders m).fillsAb.map Fill.sold := by
  have booked := (ledger orders m).booked
  constructor
  · rw [← List.forall₂_eq_eq_eq, List.forall₂_map_left_iff, List.forall₂_map_right_iff]
    exact booked.imp fun _ _ hfg => hfg.sold_eq.symm
  · rw [← List.forall₂_eq_eq_eq, List.forall₂_map_left_iff, List.forall₂_map_right_iff]
    exact booked.flip.imp fun _ _ hfg => hfg.bought_eq

/-- **A pair**, against what is put in. -/
theorem pair_backed (hv : Validated orders) (m : Address × Address) (mint : Address) :
    ((pairPayments P orders m).map fun e =>
        if e.1.buyMint = mint then e.2.executedBuy.toNat else 0).sum ≤
      ((pairPayments P orders m).map fun e =>
        if e.1.sellMint = mint then e.2.executedSell.toNat else 0).sum +
      ((pairPayments P orders m).map fun e => if e.1.buyMint = mint then paymentGain e else 0).sum +
      if m.2 = mint then roundings orders m else 0 := by
  by_cases h : (pairFills orders m).fillsAb = []
  · rw [pairPayments, dif_pos h]
    exact Nat.zero_le _
  · rw [sum_pair_buys P h, sum_pair_buys P h, sum_pair_sells P h, sold_side P soldOf_ab_le,
      sold_side P soldOf_ba_le]
    have ha := paid_ab hv P h
    have hb := paid_ba hv P h
    rw [(bought_eq_sold orders m).1] at ha
    rw [(bought_eq_sold orders m).2] at hb
    split <;> split <;> omega

/-- **A pair and its larger mint**, where the repricing stays in range. -/
theorem pair_larger (hv : Validated orders) (hu : Unclipped orders) (hne : m.1 ≠ mint) :
    ((pairPayments P orders m).map fun e =>
        if e.1.buyMint = mint then e.2.executedBuy.toNat else 0).sum ≤
      ((pairPayments P orders m).map fun e =>
        if e.1.sellMint = mint then e.2.executedSell.toNat else 0).sum +
      if m.2 = mint then roundings orders m else 0 := by
  by_cases h : (pairFills orders m).fillsAb = []
  · rw [pairPayments, dif_pos h]
    exact Nat.zero_le _
  · rw [sum_pair_buys P h, sum_pair_sells P h, sold_side P soldOf_ab_le,
      sold_side P soldOf_ba_le, if_neg hne, if_neg hne]
    have ha := paid_ab_exact hv P h hu
    rw [(bought_eq_sold orders m).1] at ha
    split <;> omega

end

section
variable {P : Primitives} {orders : List SignedOrder} (env : HashOrders) (cfg : MatcherConfig)
  (id : BatchId) (solver : Address)

/-- A mint that is bought only with smaller ones is not the smaller of a pair that trades. -/
theorem ne_of_larger {mint : Address}
    (hl : ∀ s ∈ orders, s.order.buyMint = mint → s.order.sellMint < mint)
    {m : Address × Address} (h : (pairFills orders m).fillsAb ≠ []) : m.1 ≠ mint := by
  rintro rfl
  obtain ⟨f, hf⟩ := List.exists_mem_of_ne_nil _ h
  obtain ⟨g, -, -⟩ := partner_left (ledger orders m).booked hf
  obtain ⟨⟨s, hs, hso⟩, hm, hy⟩ := mem_baSide (List.get_mem (baSide orders m) g.idx)
  rw [← hso] at hm hy
  have hlt := hl s hs hy.2
  rw [hy.1] at hlt
  exact absurd (hm ▸ Order.pair_le s.order) hlt.not_ge

/-- **What backs a batch.**  Of no mint more is delivered than is put in, the surplus of those who
buy it, and the roundings of the pairs whose larger mint it is; and where the repricing stays in
range, of a mint that is only bought with smaller ones no surplus is delivered on top. -/
theorem backed (hv : Validated orders) (hn : NoCollision P orders) :
    Backed P orders (matchBatch P env cfg id solver orders) where
  surplus := fun mint => by
    rw [delivered_eq env cfg id solver hn, putIn_eq env cfg id solver hn, gained, roundedOf,
      payments, sum_map_flatMap, sum_map_flatMap, sum_map_flatMap, ← List.sum_map_add,
      ← List.sum_map_add]
    exact List.sum_le_sum fun m _ => pair_backed P hv m mint
  larger := fun hu mint hl => by
    rw [delivered_eq env cfg id solver hn, putIn_eq env cfg id solver hn, roundedOf, payments,
      sum_map_flatMap, sum_map_flatMap, ← List.sum_map_add]
    refine List.sum_le_sum fun m _ => ?_
    by_cases h : (pairFills orders m).fillsAb = []
    · rw [pairPayments, dif_pos h]
      exact Nat.zero_le _
    · exact pair_larger P hv hu (ne_of_larger hl h)

end

section
open Sample

/-- Of alice's 100 A and bob's 200 B, 114 A and 175 B are delivered: 14 A too many, which is bob's
surplus, and no B. -/
theorem backed_two : Backed primitives [sign alice150, sign bob200]
      (matchBatch primitives .insertion ⟨true⟩ ⟨.replicate 16 0⟩ .zero
        [sign alice150, sign bob200]) ∧
    gained primitives [sign alice150, sign bob200] mintA = 14 ∧
    delivered primitives [sign alice150, sign bob200]
      (matchBatch primitives .insertion ⟨true⟩ ⟨.replicate 16 0⟩ .zero
        [sign alice150, sign bob200]).trades mintB ≤
      putIn primitives [sign alice150, sign bob200]
        (matchBatch primitives .insertion ⟨true⟩ ⟨.replicate 16 0⟩ .zero
          [sign alice150, sign bob200]).trades mintB + 0 := by
  have hb : Backed primitives [sign alice150, sign bob200] _ :=
    backed .insertion ⟨true⟩ ⟨.replicate 16 0⟩ .zero
      (fun s hs => ⟨0, by revert s; decide +kernel⟩) (by unfold NoCollision; decide +kernel)
  have h0 : roundedOf [sign alice150, sign bob200] mintB = 0 := by decide +kernel
  exact ⟨hb, by decide +kernel, h0 ▸ hb.larger (by decide +kernel) mintB (by decide +kernel)⟩

end

end OxDex
