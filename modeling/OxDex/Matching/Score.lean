import OxDex.Matching.Clearing

/-!
# Matching — Score

What the surplus of a pair and the score of a batch are, whatever order the hash maps and the thread
pool produce.

An order that sold `sold` at `price` adds `gain price o sold` to the surplus.  Saturating additions
in any order give the sum, capped at `u128::MAX` (`payOut_snd`), so a pair's surplus is
`pairGain`, capped (`matchPair_surplus`), and the score is the capped sum of the surpluses
(`score_eq`).

`sales` lists what the orders of a side sold.  Loops that sell the same and stop at the same
midpoint (`SameFills`) have the same outcome up to the order of trades (`SameFills.same`), and so
have two runs over the same orders (`matchPair_same`).

`payments` lists the trades of a batch with the orders they are for (`payments_perm`).  Under
distinct identifiers the sales of a pair can be read off the trades (`mem_sales_ab`,
`mem_sales_ba`).
-/

namespace OxDex
open Support

/-- What an order got above its limit. -/
def gain (price : Price) (o : Order) (sold : Nat) : Nat :=
  price.apply sold - o.limitPrice.apply sold

theorem addSurplus_eq (price : Price) (o : Order) (sold : Nat) {surplus : Nat}
    (h : surplus ≤ u128Max) :
    addSurplus price o sold surplus = satAdd surplus (gain price o sold) := by
  rw [addSurplus]
  split
  · rfl
  · next hlt =>
      rw [gain, Nat.sub_eq_zero_of_le (by omega), satAdd_eq (by omega), Nat.add_zero]

/-- What the orders of a side got above their limits, altogether. -/
def sideGain (price : Price) (side : List Order) (sums : List (Fin side.length × Nat)) : Nat :=
  (sums.map fun e => gain price (side.get e.1) e.2).sum

theorem sideGain_perm (price : Price) (side : List Order)
    {sums sums' : List (Fin side.length × Nat)} (h : sums.Perm sums') :
    sideGain price side sums = sideGain price side sums' :=
  (h.map _).sum_eq

section
variable (P : Primitives)

/-- **Paying a side out** adds what its orders got above their limits, capped. -/
theorem payOut_snd (price : Price) (side : List Order) (sums : List (Fin side.length × Nat))
    {acc : List TradeExecution × Nat} (h : acc.2 ≤ u128Max) :
    (payOut P price side sums acc).2 = satAdd acc.2 (sideGain price side sums) := by
  have key : ∀ (sums : List (Fin side.length × Nat)) (acc : List TradeExecution × Nat),
      acc.2 ≤ u128Max → (payOut P price side sums acc).2 =
        (sums.map fun e => gain price (side.get e.1) e.2).foldl (capAdd u128Max) acc.2 := by
    intro sums
    induction sums with
    | nil => exact fun _ _ => rfl
    | cons e es ih =>
        intro acc h
        simp only [payOut, List.foldl_cons, List.map_cons] at ih ⊢
        rw [addSurplus_eq price _ _ h]
        exact ih _ (capAdd_le _ _ _)
  rw [key sums acc h, foldl_capAdd _ h]
  rfl

/-- The exact surplus of a loop that ended with fills. -/
def fillsGain {aToB bToA : List Order} (s : MatchState aToB bToA) (h : s.fillsAb ≠ []) : Nat :=
  sideGain (s.price h) aToB (soldPerOrder s.fillsAb) +
    sideGain (reciprocal (s.price h)) bToA (soldPerOrder s.fillsBa)

variable (env : HashOrders)

theorem settle_surplus (a b : Address) {aToB bToA : List Order} (s : MatchState aToB bToA)
    (h : s.fillsAb ≠ []) : (settle P env a b s h).surplus = min (fillsGain s h) u128Max := by
  simp only [settle]
  rw [payOut_snd P _ _ _ ((payOut_snd P _ _ _ (Nat.zero_le _)).trans_le (capAdd_le _ _ _)),
    payOut_snd P _ _ _ (Nat.zero_le _), sideGain_perm _ _ ((env.sumsAb (a, b) _).perm _),
    sideGain_perm _ _ ((env.sumsBa (a, b) _).perm _)]
  simp only [satAdd, capAdd, fillsGain, MatchState.price]
  omega

/-- The surplus of a pair, before the last cap. -/
def pairGain (orders : List SignedOrder) (m : Address × Address) : Nat :=
  if h : (pairFills orders m).fillsAb = [] then 0 else fillsGain (pairFills orders m) h

theorem matchPair_surplus (orders : List SignedOrder) (m : Address × Address) :
    (matchPair P env m.1 m.2 (pairOrders orders m)).surplus =
      min (pairGain orders m) u128Max := by
  rw [matchPair_eq, pairGain]
  split
  · rfl
  · exact settle_surplus P env _ _ _ _

/-- **The score** is the capped sum of the surpluses, which any iteration orders give. -/
theorem score_eq (env' : HashOrders) (cfg : MatcherConfig) (id : BatchId) (solver : Address)
    (orders : List SignedOrder) : (matchBatch P env cfg id solver orders).score =
      min ((markets orders).map fun m =>
        (matchPair P env' m.1 m.2 (pairOrders orders m)).surplus).sum u128Max := by
  have fold : ∀ (l : List PairOutcome) (a : Nat),
      l.foldl (fun score p => satAdd score p.surplus) a =
        (l.map PairOutcome.surplus).foldl (capAdd u128Max) a :=
    fun l a => (List.foldl_map).symm
  simp only [matchBatch]
  rw [fold, foldl_capAdd _ (Nat.zero_le _), ((perPair_perm P env cfg orders).map _).sum_eq,
    List.map_map, capAdd, Nat.zero_add]
  refine congrArg (fun l : List Nat => min l.sum u128Max) (List.map_congr_left fun m _ => ?_)
  exact (matchPair_surplus P env orders m).trans (matchPair_surplus P env' orders m).symm

end

/-! ### What a loop sells -/

/-- What the orders of a side with a fill sold. -/
def sales (side : List Order) (fills : List (Fill side.length)) : List (Order × Nat) :=
  (soldPerOrder fills).map fun e => (side.get e.1, e.2)

section
variable {side : List Order} {fills : List (Fill side.length)}

theorem mem_sales {o : Order} {v : Nat} :
    (o, v) ∈ sales side fills ↔ ∃ f ∈ fills, o = side.get f.idx ∧ v = soldOf fills f.idx := by
  simp only [sales, List.mem_map, Prod.exists, mem_soldPerOrder, Prod.mk.injEq]
  constructor
  · rintro ⟨k, w, ⟨⟨f, hf, rfl⟩, rfl⟩, rfl, rfl⟩
    exact ⟨f, hf, rfl, rfl⟩
  · rintro ⟨f, hf, rfl, rfl⟩
    exact ⟨_, _, ⟨⟨f, hf, rfl⟩, rfl⟩, rfl, rfl⟩

theorem mem_of_sale {o : Order} {v : Nat} (h : (o, v) ∈ sales side fills) : o ∈ side := by
  obtain ⟨f, -, rfl, -⟩ := mem_sales.mp h
  exact List.get_mem _ _

theorem sales_eq_nil_iff : sales side fills = [] ↔ fills = [] := by
  constructor
  · intro h
    cases fills with
    | nil => rfl
    | cons f fills =>
        have hm : (side.get f.idx, soldOf (f :: fills) f.idx) ∈ sales side (f :: fills) :=
          mem_sales.mpr ⟨f, List.mem_cons_self, rfl, rfl⟩
        rw [h] at hm
        cases hm
  · rintro rfl
    rfl

/-- What is read off the map of a side, in any order, is read off its sales. -/
theorem map_soldPerOrder {β : Type} (it : IterOrder (Fin side.length × Nat))
    (g : Order → Nat → β) : ((it.iter (soldPerOrder fills)).map fun e => g (side.get e.1) e.2).Perm
      ((sales side fills).map fun e => g e.1 e.2) := by
  refine ((it.perm _).map _).trans (.of_eq ?_)
  rw [sales, List.map_map]
  rfl

theorem sideGain_eq (price : Price) : sideGain price side (soldPerOrder fills) =
    ((sales side fills).map fun e => gain price e.1 e.2).sum :=
  (map_soldPerOrder (.id _) (gain price)).sum_eq

end

/-- Two loops that sell the same of every order, and stop at the same midpoint. -/
structure SameFills {xs ys xs' ys' : List Order} (s : MatchState xs ys) (s' : MatchState xs' ys') :
    Prop where
  ab : (sales xs' s'.fillsAb).Perm (sales xs s.fillsAb)
  ba : (sales ys' s'.fillsBa).Perm (sales ys s.fillsBa)
  price : ∀ h h', s'.price h' = s.price h

theorem SameFills.refl {xs ys : List Order} (s : MatchState xs ys) : SameFills s s :=
  ⟨.refl _, .refl _, fun _ _ => rfl⟩

theorem SameFills.symm {xs ys xs' ys' : List Order} {s : MatchState xs ys}
    {s' : MatchState xs' ys'} (h : SameFills s s') : SameFills s' s :=
  ⟨h.ab.symm, h.ba.symm, fun hf hf' => (h.price hf' hf).symm⟩

/-! ### Outcomes that are the same -/

/-- Outcomes that differ in the order of the trades at most. -/
structure PairOutcome.Same (x y : PairOutcome) : Prop where
  clearing : x.clearing = y.clearing
  trades : x.trades.Perm y.trades
  surplus : x.surplus = y.surplus

section
variable (P : Primitives) (env env' : HashOrders)

/-- Two loops that sell the same are settled the same. -/
theorem SameFills.settle {xs ys xs' ys' : List Order} {s : MatchState xs ys}
    {s' : MatchState xs' ys'} (h : SameFills s s') (m : Address × Address) (hf : s.fillsAb ≠ [])
    (hf' : s'.fillsAb ≠ []) :
    (OxDex.settle P env m.1 m.2 s hf).Same (OxDex.settle P env' m.1 m.2 s' hf') where
  clearing := by
    show [ClearingPrice.mk m.1 (reciprocal (s.price hf)), ⟨m.2, s.price hf⟩] =
      [⟨m.1, reciprocal (s'.price hf')⟩, ⟨m.2, s'.price hf'⟩]
    rw [h.price hf hf']
  trades := by
    rw [settle_trades, settle_trades, h.price hf hf']
    refine List.Perm.append ?_ ?_
    · refine (map_soldPerOrder _ (execution P _)).trans (.trans ?_
        (map_soldPerOrder _ (execution P _)).symm)
      exact h.ab.symm.map _
    · refine (map_soldPerOrder _ (execution P _)).trans (.trans ?_
        (map_soldPerOrder _ (execution P _)).symm)
      exact h.ba.symm.map _
  surplus := by
    rw [settle_surplus, settle_surplus, fillsGain, fillsGain, h.price hf hf', sideGain_eq,
      sideGain_eq, sideGain_eq, sideGain_eq, (h.ab.map _).sum_eq, (h.ba.map _).sum_eq]

/-- **The outcome of a pair** is a matter of what its loop sells and where it stops. -/
theorem SameFills.same {orders orders' : List SignedOrder} {m : Address × Address}
    (h : SameFills (pairFills orders m) (pairFills orders' m)) :
    (matchPair P env m.1 m.2 (pairOrders orders m)).Same
      (matchPair P env' m.1 m.2 (pairOrders orders' m)) := by
  have hnil : (pairFills orders m).fillsAb = [] ↔ (pairFills orders' m).fillsAb = [] := by
    rw [← sales_eq_nil_iff, ← sales_eq_nil_iff]
    exact ⟨fun e => List.Perm.eq_nil (e ▸ h.ab), fun e => List.Perm.eq_nil (e ▸ h.ab.symm)⟩
  rw [matchPair_eq, matchPair_eq]
  by_cases hf : (pairFills orders m).fillsAb = []
  · rw [dif_pos hf, dif_pos (hnil.mp hf)]
    exact ⟨rfl, .refl _, rfl⟩
  · rw [dif_neg hf, dif_neg (mt hnil.mpr hf)]
    exact h.settle P env env' m _ _

/-- It does not depend on the iteration orders, but for the order of its trades. -/
theorem matchPair_same (orders : List SignedOrder) (m : Address × Address) :
    (matchPair P env m.1 m.2 (pairOrders orders m)).Same
      (matchPair P env' m.1 m.2 (pairOrders orders m)) :=
  (SameFills.refl _).same P env env'

section
variable (cfg : MatcherConfig) (id : BatchId) (solver : Address) (orders : List SignedOrder)

/-- The trades of a batch, pair by pair, whatever the iteration orders. -/
theorem trades_perm_any : (matchBatch P env cfg id solver orders).trades.Perm
    ((markets orders).flatMap fun m =>
      (matchPair P env' m.1 m.2 (pairOrders orders m)).trades) :=
  (trades_perm P env cfg id solver orders).trans
    (.flatMap_left _ fun m _ => (matchPair_same P env env' orders m).trades)

/-- The clearing prices of a batch, pair by pair, whatever the iteration orders. -/
theorem clearingPrices_perm_any : (matchBatch P env cfg id solver orders).clearingPrices.Perm
    ((markets orders).flatMap fun m =>
      (matchPair P env' m.1 m.2 (pairOrders orders m)).clearing) :=
  (clearingPrices_perm P env cfg id solver orders).trans
    (.flatMap_left _ fun m _ => .of_eq (matchPair_same P env env' orders m).clearing)

end

/-! ### Trades and the orders they are for -/

/-- The trades of a side, each with its order. -/
def sidePayments (price : Price) (side : List Order) (fills : List (Fill side.length)) :
    List (Order × TradeExecution) :=
  (soldPerOrder fills).map fun e =>
    (side.get e.1, execution P price (side.get e.1) e.2)

/-- The trades of a pair. -/
def pairPayments (orders : List SignedOrder) (m : Address × Address) :
    List (Order × TradeExecution) :=
  if h : (pairFills orders m).fillsAb = [] then []
  else sidePayments P ((pairFills orders m).price h) _ (pairFills orders m).fillsAb ++
    sidePayments P (reciprocal ((pairFills orders m).price h)) _ (pairFills orders m).fillsBa

/-- The trades of a batch. -/
def payments (orders : List SignedOrder) : List (Order × TradeExecution) :=
  (markets orders).flatMap (pairPayments P orders)

variable {P} in
theorem mem_sidePayments {price : Price} {side : List Order} {fills : List (Fill side.length)}
    {e : Order × TradeExecution} : e ∈ sidePayments P price side fills ↔
      ∃ f ∈ fills,
        e = (side.get f.idx, execution P price (side.get f.idx) (soldOf fills f.idx)) := by
  simp only [sidePayments, List.mem_map, Prod.exists, mem_soldPerOrder]
  constructor
  · rintro ⟨k, v, ⟨⟨f, hf, rfl⟩, rfl⟩, rfl⟩
    exact ⟨f, hf, rfl⟩
  · rintro ⟨f, hf, rfl⟩
    exact ⟨_, _, ⟨⟨f, hf, rfl⟩, rfl⟩, rfl⟩

/-- **The trades of a solution** are the payments, in some order. -/
theorem payments_perm (cfg : MatcherConfig) (id : BatchId) (solver : Address)
    (orders : List SignedOrder) :
    ((payments P orders).map Prod.snd).Perm (matchBatch P env cfg id solver orders).trades := by
  refine .trans ?_ (trades_perm P env cfg id solver orders).symm
  rw [payments, List.map_flatMap]
  refine .flatMap_left _ fun m _ => ?_
  rw [matchPair_eq, pairPayments]
  split
  · exact .refl _
  · rw [settle_trades, List.map_append, sidePayments, sidePayments, List.map_map, List.map_map]
    exact (((env.sumsAb m _).perm _).symm.map _).append (((env.sumsBa m _).perm _).symm.map _)

variable {P} in
/-- A payment is for an order of the batch, under its identifier. -/
theorem mem_payments_order {orders : List SignedOrder} {e : Order × TradeExecution}
    (he : e ∈ payments P orders) : (∃ s ∈ orders, s.order = e.1) ∧ e.2.orderId = e.1.id P := by
  obtain ⟨m, -, he⟩ := List.mem_flatMap.mp he
  rw [pairPayments] at he
  split at he
  · cases he
  · rcases List.mem_append.mp he with he | he
    · obtain ⟨f, -, rfl⟩ := mem_sidePayments.mp he
      exact ⟨(mem_abSide (List.get_mem _ _)).1, rfl⟩
    · obtain ⟨g, -, rfl⟩ := mem_sidePayments.mp he
      exact ⟨(mem_baSide (List.get_mem _ _)).1, rfl⟩

end

/-! ### What the trades tell of the loops -/

section
variable {P : Primitives} {orders : List SignedOrder} {m : Address × Address} (env : HashOrders)
  (cfg : MatcherConfig) (id : BatchId) (solver : Address)
  (hid : (orders.map fun s => s.order.id P).Nodup)
include hid

theorem abSide_ids_nodup : ((abSide orders m).map (Order.id P)).Nodup :=
  sortByLimit_ids_nodup hid m _

theorem baSide_ids_nodup : ((baSide orders m).map (Order.id P)).Nodup :=
  sortByLimit_ids_nodup hid m _

/-- An order of the batch is determined by its identifier. -/
theorem order_eq_of_id {x y : Order} (hx : ∃ s ∈ orders, s.order = x)
    (hy : ∃ s ∈ orders, s.order = y) (h : x.id P = y.id P) : x = y := by
  obtain ⟨s, hs, rfl⟩ := hx
  exact (noCollision_of_nodup hid).order_eq hs hy h

/-- A trade named by an order of the batch is a sale of the order's side. -/
theorem sale_of_trade {t : TradeExecution}
    (ht : t ∈ (matchBatch P env cfg id solver orders).trades) {o : Order}
    (ho : ∃ s ∈ orders, s.order = o) (hto : t.orderId = o.id P) :
    (o, t.executedSell.toNat) ∈ sales (abSide orders o.pair) (pairFills orders o.pair).fillsAb ∨
      (o, t.executedSell.toNat) ∈
        sales (baSide orders o.pair) (pairFills orders o.pair).fillsBa := by
  obtain ⟨m, _, ⟨f, hf, rfl⟩ | ⟨g, hg, rfl⟩⟩ := (mem_trades P env cfg id solver).mp ht
  · obtain ⟨hs, hm, -⟩ := mem_abSide (List.get_mem (abSide orders m) f.idx)
    obtain rfl := order_eq_of_id hid hs ho hto
    rw [hm]
    exact .inl (mem_sales.mpr ⟨f, hf, rfl, clampU64_eq (soldOf_ab_u64 _)⟩)
  · obtain ⟨hs, hm, -⟩ := mem_baSide (List.get_mem (baSide orders m) g.idx)
    obtain rfl := order_eq_of_id hid hs ho hto
    rw [hm]
    exact .inr (mem_sales.mpr ⟨g, hg, rfl, clampU64_eq (soldOf_ba_u64 _)⟩)

/-- **The sales of an A→B side**, read off the trades. -/
theorem mem_sales_ab {o : Order} (ho : o ∈ abSide orders m) {v : Nat} :
    (o, v) ∈ sales (abSide orders m) (pairFills orders m).fillsAb ↔
      ∃ t ∈ (matchBatch P env cfg id solver orders).trades,
        t.orderId = o.id P ∧ t.executedSell.toNat = v := by
  constructor
  · intro hs
    obtain ⟨f, hf, rfl, rfl⟩ := mem_sales.mp hs
    exact ⟨_, (mem_trades P env cfg id solver).mpr ⟨m, List.ne_nil_of_mem hf, .inl ⟨f, hf, rfl⟩⟩,
      rfl, clampU64_eq (soldOf_ab_u64 _)⟩
  · rintro ⟨t, ht, hto, rfl⟩
    obtain ⟨hs, rfl, -⟩ := mem_abSide ho
    refine (sale_of_trade env cfg id solver hid ht hs hto).resolve_right fun hb => ?_
    exact not_mem_baSide ho (mem_of_sale hb)

/-- **The sales of a B→A side**, read off the trades. -/
theorem mem_sales_ba {o : Order} (ho : o ∈ baSide orders m) {v : Nat} :
    (o, v) ∈ sales (baSide orders m) (pairFills orders m).fillsBa ↔
      ∃ t ∈ (matchBatch P env cfg id solver orders).trades,
        t.orderId = o.id P ∧ t.executedSell.toNat = v := by
  constructor
  · intro hs
    obtain ⟨g, hg, rfl, rfl⟩ := mem_sales.mp hs
    obtain ⟨f, hf, -⟩ := partner_left (ledger orders m).booked.flip hg
    exact ⟨_, (mem_trades P env cfg id solver).mpr ⟨m, List.ne_nil_of_mem hf, .inr ⟨g, hg, rfl⟩⟩,
      rfl, clampU64_eq (soldOf_ba_u64 _)⟩
  · rintro ⟨t, ht, hto, rfl⟩
    obtain ⟨hs, rfl, -⟩ := mem_baSide ho
    refine (sale_of_trade env cfg id solver hid ht hs hto).resolve_left fun ha => ?_
    exact not_mem_baSide (mem_of_sale ha) ho

end

end OxDex
