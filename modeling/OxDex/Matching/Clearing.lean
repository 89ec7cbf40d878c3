import OxDex.Matching.Fills

/-!
# Matching — Clearing

What the engine returns, in terms of what the fill loops of the pairs leave behind.

* `markets orders` are the mint pairs of a batch; `abSide` and `baSide` are the two sorted sides of
  one, `pairFills` its fill loop.
* `mem_trades`: a trade of the returned solution belongs to one side of one pair in which
  something was filled; it sells what its order sold over all its fills, at the pair's price.
* `clearingPrices_perm`: the clearing prices are those of the pairs with fills, two each.
* `mem_trades_order`: a trade names an order of the batch, sells no more than the order offers, and
  all of it where partial fills are forbidden.
* `orderIds_nodup`: no order is named twice.

The iteration orders of the hash maps and the thread pool only rearrange the lists.
-/

namespace OxDex
open Support

/-! ### The sides of a pair -/

/-- The key an order is grouped under. -/
def Order.pair (o : Order) : Address × Address := canonicalPair o.sellMint o.buyMint

theorem canonicalPair_comm (a b : Address) : canonicalPair a b = canonicalPair b a := by
  unfold canonicalPair
  rcases lt_trichotomy a b with h | rfl | h
  · rw [if_pos h.le, if_neg h.not_ge]
  · rfl
  · rw [if_neg h.not_ge, if_pos h.le]

theorem Order.pair_le (o : Order) : o.pair.1 ≤ o.pair.2 := by
  rw [Order.pair, canonicalPair]
  split
  · next h => exact h
  · next h => exact (not_le.mp h).le

section
variable (orders : List SignedOrder) (m : Address × Address)

/-- The mint pairs of a batch, in order of first occurrence. -/
def markets : List (Address × Address) := (groupByPair orders).map Prod.fst

/-- The orders of a pair. -/
def pairOrders : List Order :=
  (orders.filter fun s => s.order.pair = m).map SignedOrder.order

/-- The orders of a pair that sell its first mint, sorted. -/
def abSide : List Order := sortByLimit ((pairOrders orders m).filter (sellsAForB m.1 m.2))

/-- The orders of a pair that sell its second mint, sorted. -/
def baSide : List Order :=
  sortByLimit ((pairOrders orders m).filter fun o =>
    !sellsAForB m.1 m.2 o && sellsAForB m.2 m.1 o)

/-- Where the fill loop of a pair ends. -/
def pairFills : MatchState (abSide orders m) (baSide orders m) :=
  fillLoop (abSide orders m) (baSide orders m)

end

variable {orders : List SignedOrder} {m : Address × Address}

theorem mem_pairOrders {o : Order} :
    o ∈ pairOrders orders m ↔ (∃ s ∈ orders, s.order = o) ∧ o.pair = m := by
  simp only [pairOrders, List.mem_map, List.mem_filter, decide_eq_true_eq]
  constructor
  · rintro ⟨s, ⟨hs, hm⟩, rfl⟩
    exact ⟨⟨s, hs, rfl⟩, hm⟩
  · rintro ⟨⟨s, hs, rfl⟩, hm⟩
    exact ⟨s, ⟨hs, hm⟩, rfl⟩

theorem mem_sortByLimit {side : List Order} {o : Order} : o ∈ sortByLimit side ↔ o ∈ side :=
  List.mem_insertionSort _

theorem sellsAForB_iff {a b : Address} {o : Order} :
    sellsAForB a b o = true ↔ o.sellMint = a ∧ o.buyMint = b := by
  simp [sellsAForB]

theorem mem_abSide {o : Order} (h : o ∈ abSide orders m) :
    (∃ s ∈ orders, s.order = o) ∧ o.pair = m ∧ o.sellMint = m.1 ∧ o.buyMint = m.2 := by
  obtain ⟨ho, hs⟩ := List.mem_filter.mp (mem_sortByLimit.mp h)
  exact ⟨(mem_pairOrders.mp ho).1, (mem_pairOrders.mp ho).2, sellsAForB_iff.mp hs⟩

theorem mem_baSide {o : Order} (h : o ∈ baSide orders m) :
    (∃ s ∈ orders, s.order = o) ∧ o.pair = m ∧ o.sellMint = m.2 ∧ o.buyMint = m.1 := by
  obtain ⟨ho, hs⟩ := List.mem_filter.mp (mem_sortByLimit.mp h)
  exact ⟨(mem_pairOrders.mp ho).1, (mem_pairOrders.mp ho).2,
    sellsAForB_iff.mp (Bool.and_eq_true_iff.mp hs).2⟩

theorem not_mem_baSide {o : Order} (h : o ∈ abSide orders m) : o ∉ baSide orders m := by
  intro h'
  have ha := (List.mem_filter.mp (mem_sortByLimit.mp h)).2
  have hb := (List.mem_filter.mp (mem_sortByLimit.mp h')).2
  simp [ha] at hb

/-- **A sorted side is sorted**: the order of prices is total and transitive on the limit prices of
orders, which are `u64` fractions. -/
theorem sortByLimit_pairwise (side : List Order) :
    (sortByLimit side).Pairwise fun x y => x.limitPrice ≤ y.limitPrice :=
  have : Std.Total fun x y : Order => x.limitPrice ≤ y.limitPrice :=
    ⟨fun x y => Price.le_total x.limitPrice y.limitPrice⟩
  have : IsTrans Order fun x y => x.limitPrice ≤ y.limitPrice :=
    ⟨fun x y z => Price.le_trans x.limitPrice_isU64 y.limitPrice_isU64 z.limitPrice_isU64⟩
  List.pairwise_insertionSort _ _

/-- An order further down a side sorted by limit has the higher limit. -/
theorem limit_le {side : List Order} (hs : side.Pairwise fun x y => x.limitPrice ≤ y.limitPrice)
    {i j : Fin side.length} (h : i ≤ j) : (side.get i).limitPrice ≤ (side.get j).limitPrice := by
  rcases h.lt_or_eq with h | rfl
  · exact List.pairwise_iff_getElem.mp hs i j i.2 j.2 h
  · rw [Price.le_iff]

theorem limit_mono {side : List Order} {i j : Fin (sortByLimit side).length} (h : i ≤ j) :
    ((sortByLimit side).get i).limitPrice ≤ ((sortByLimit side).get j).limitPrice :=
  limit_le (sortByLimit_pairwise side) h

/-! ### One pair -/

/-- The price of a state with fills. -/
def MatchState.price {aToB bToA : List Order} (s : MatchState aToB bToA) (h : s.fillsAb ≠ []) :
    Price :=
  clearingPrice (s.lastCross.get (s.crossed h)).1 (s.lastCross.get (s.crossed h)).2

section
variable (P : Primitives)

/-- **Paying a side out** pushes one trade for each entry of its map. -/
theorem payOut_fst (price : Price) (side : List Order) (sums : List (Fin side.length × Nat))
    (acc : List TradeExecution × Nat) :
    (payOut P price side sums acc).1 =
      acc.1 ++ sums.map fun e => execution P price (side.get e.1) e.2 := by
  induction sums generalizing acc with
  | nil => simp [payOut]
  | cons e es ih =>
      simp only [payOut, List.foldl_cons] at ih ⊢
      rw [ih]
      simp

variable (env : HashOrders)

theorem settle_trades (a b : Address) {aToB bToA : List Order} (s : MatchState aToB bToA)
    (h : s.fillsAb ≠ []) : (settle P env a b s h).trades =
      (((env.sumsAb (a, b) _).iter (soldPerOrder s.fillsAb)).map fun e =>
        execution P (s.price h) (aToB.get e.1) e.2) ++
      ((env.sumsBa (a, b) _).iter (soldPerOrder s.fillsBa)).map fun e =>
        execution P (reciprocal (s.price h)) (bToA.get e.1) e.2 := by
  simp only [settle, payOut_fst, List.nil_append, MatchState.price]

/-- The trades of a pair, side by side. -/
theorem mem_settle_trades {a b : Address} {aToB bToA : List Order} {s : MatchState aToB bToA}
    {h : s.fillsAb ≠ []} {t : TradeExecution} : t ∈ (settle P env a b s h).trades ↔
      (∃ f ∈ s.fillsAb, t = execution P (s.price h) (aToB.get f.idx) (soldOf s.fillsAb f.idx)) ∨
      ∃ g ∈ s.fillsBa,
        t = execution P (reciprocal (s.price h)) (bToA.get g.idx) (soldOf s.fillsBa g.idx) := by
  simp only [settle_trades, List.mem_append, List.mem_map, IterOrder.mem_iter, Prod.exists,
    mem_soldPerOrder]
  refine or_congr ⟨?_, ?_⟩ ⟨?_, ?_⟩
  · rintro ⟨k, v, ⟨⟨f, hf, rfl⟩, rfl⟩, rfl⟩; exact ⟨f, hf, rfl⟩
  · rintro ⟨f, hf, rfl⟩; exact ⟨f.idx, _, ⟨⟨f, hf, rfl⟩, rfl⟩, rfl⟩
  · rintro ⟨k, v, ⟨⟨g, hg, rfl⟩, rfl⟩, rfl⟩; exact ⟨g, hg, rfl⟩
  · rintro ⟨g, hg, rfl⟩; exact ⟨g.idx, _, ⟨⟨g, hg, rfl⟩, rfl⟩, rfl⟩

/-- A side without orders has no fills. -/
theorem fillLoop_isEmpty {aToB bToA : List Order} (h : aToB = [] ∨ bToA = []) :
    (fillLoop aToB bToA).fillsAb = [] := by
  have hn : turn aToB bToA (.init aToB bToA) = none := by
    rw [turn, dif_neg]
    rcases h with rfl | rfl <;> simp [MatchState.init]
  rw [fillLoop, Loop.run_of_none hn]
  rfl

/-- **The outcome of a pair**: nothing if the loop leaves no fill, its settlement otherwise. -/
theorem matchPair_eq (orders : List SignedOrder) (m : Address × Address) :
    matchPair P env m.1 m.2 (pairOrders orders m) =
      if h : (pairFills orders m).fillsAb = [] then .nothing
      else settle P env m.1 m.2 (pairFills orders m) h := by
  simp only [matchPair]
  split
  · next he =>
      have : (pairFills orders m).fillsAb = [] := by
        rcases Bool.or_eq_true_iff.mp he with he | he
        · exact fillLoop_isEmpty (.inl (by rw [abSide, List.isEmpty_iff.mp he]; rfl))
        · exact fillLoop_isEmpty (.inr (by rw [baSide, List.isEmpty_iff.mp he]; rfl))
      rw [dif_pos this]
  · rfl

/-! ### The batch -/

theorem groupByPair_eq (orders : List SignedOrder) :
    groupByPair orders = (markets orders).map fun m => (m, pairOrders orders m) := by
  have key : ∀ e ∈ groupByPair orders, e = (e.1, pairOrders orders e.1) := by
    rintro ⟨m, os⟩ he
    obtain ⟨-, rfl⟩ := mem_tally_iff.mp he
    have fold : ∀ (l : List SignedOrder) (acc : List Order),
        l.foldl (fun os s => os ++ [s.order]) acc = acc ++ l.map SignedOrder.order := by
      intro l
      induction l with
      | nil => simp
      | cons s l ih => intro acc; simp [ih]
    rw [fold, List.nil_append]
    rfl
  rw [markets, List.map_map]
  exact (List.map_id _).symm.trans (List.map_congr_left key)

theorem mem_markets : m ∈ markets orders ↔ ∃ s ∈ orders, s.order.pair = m := mem_tally_keys

theorem markets_nodup (orders : List SignedOrder) : (markets orders).Nodup :=
  tally_keys_nodup orders

/-- **The outcomes of the pairs**, in some order. -/
theorem perPair_perm (cfg : MatcherConfig) (orders : List SignedOrder) :
    (perPair P env cfg (env.groups.iter (groupByPair orders))).Perm
      ((markets orders).map fun m => matchPair P env m.1 m.2 (pairOrders orders m)) := by
  have h : ((env.groups.iter (groupByPair orders)).map fun p =>
      matchPair P env p.1.1 p.1.2 p.2).Perm
      ((markets orders).map fun m => matchPair P env m.1 m.2 (pairOrders orders m)) := by
    refine ((env.groups.perm _).map _).trans (.of_eq ?_)
    rw [groupByPair_eq, List.map_map]
    rfl
  unfold perPair
  split
  · exact (env.collect.perm _).trans h
  · exact h

variable (cfg : MatcherConfig) (id : BatchId) (solver : Address)

theorem trades_perm (orders : List SignedOrder) :
    (matchBatch P env cfg id solver orders).trades.Perm
      ((markets orders).flatMap fun m =>
        (matchPair P env m.1 m.2 (pairOrders orders m)).trades) := by
  refine ((perPair_perm P env cfg orders).flatMap_right _).trans (.of_eq ?_)
  rw [List.flatMap_map]

theorem clearingPrices_perm (orders : List SignedOrder) :
    (matchBatch P env cfg id solver orders).clearingPrices.Perm
      ((markets orders).flatMap fun m =>
        (matchPair P env m.1 m.2 (pairOrders orders m)).clearing) := by
  refine ((perPair_perm P env cfg orders).flatMap_right _).trans (.of_eq ?_)
  rw [List.flatMap_map]

/-- A pair with fills is a pair of the batch. -/
theorem mem_markets_of_fills (h : (pairFills orders m).fillsAb ≠ []) : m ∈ markets orders := by
  have hne : abSide orders m ≠ [] := fun he => h (fillLoop_isEmpty (.inl he))
  obtain ⟨o, ho⟩ := List.exists_mem_of_ne_nil _ hne
  obtain ⟨⟨s, hs, rfl⟩, hm, -⟩ := mem_abSide ho
  exact mem_markets.mpr ⟨s, hs, hm⟩

/-- **The trades of a solution.** -/
theorem mem_trades {t : TradeExecution} :
    t ∈ (matchBatch P env cfg id solver orders).trades ↔
      ∃ (m : Address × Address) (h : (pairFills orders m).fillsAb ≠ []),
        (∃ f ∈ (pairFills orders m).fillsAb,
          t = execution P ((pairFills orders m).price h) ((abSide orders m).get f.idx)
            (soldOf (pairFills orders m).fillsAb f.idx)) ∨
        ∃ g ∈ (pairFills orders m).fillsBa,
          t = execution P (reciprocal ((pairFills orders m).price h)) ((baSide orders m).get g.idx)
            (soldOf (pairFills orders m).fillsBa g.idx) := by
  rw [(trades_perm P env cfg id solver orders).mem_iff, List.mem_flatMap]
  constructor
  · rintro ⟨m, -, ht⟩
    rw [matchPair_eq] at ht
    split at ht
    · cases ht
    · next h => exact ⟨m, h, (mem_settle_trades P env).mp ht⟩
  · rintro ⟨m, h, ht⟩
    refine ⟨m, mem_markets_of_fills h, ?_⟩
    rw [matchPair_eq, dif_neg h]
    exact (mem_settle_trades P env).mpr ht

/-! ### A trade and its order -/

theorem clampU64_eq {v : Nat} (h : v ≤ u64Max) : (clampU64 v).toNat = v := by
  rw [clampU64, if_neg (by omega)]
  refine UInt64.toNat_ofNat_of_lt' ?_
  simp only [u64Max] at h
  show v < 2 ^ 64
  omega

theorem clampU64_toNat (v : Nat) : (clampU64 v).toNat = min v u64Max := by
  by_cases h : v ≤ u64Max
  · rw [clampU64_eq h, min_eq_left h]
  · rw [clampU64, if_pos (by omega), min_eq_right (by omega)]
    rfl

theorem ledger (orders : List SignedOrder) (m : Address × Address) : Ledger (pairFills orders m) :=
  ledger_fillLoop _ _

theorem soldOf_ab_le (k : Fin (abSide orders m).length) :
    soldOf (pairFills orders m).fillsAb k ≤ ((abSide orders m).get k).sellAmount.toNat :=
  (Nat.le_add_left _ _).trans ((ledger orders m).a_sum k).le

theorem soldOf_ba_le (k : Fin (baSide orders m).length) :
    soldOf (pairFills orders m).fillsBa k ≤ ((baSide orders m).get k).sellAmount.toNat :=
  (Nat.le_add_left _ _).trans ((ledger orders m).b_sum k).le

theorem soldOf_ab_u64 (k : Fin (abSide orders m).length) :
    soldOf (pairFills orders m).fillsAb k ≤ u64Max :=
  (soldOf_ab_le k).trans (toNat_le_u64Max _)

theorem soldOf_ba_u64 (k : Fin (baSide orders m).length) :
    soldOf (pairFills orders m).fillsBa k ≤ u64Max :=
  (soldOf_ba_le k).trans (toNat_le_u64Max _)

/-- **The price of a pair** is the midpoint of two crossing limits, which no filled order comes
after. -/
theorem price_eq (h : (pairFills orders m).fillsAb ≠ []) :
    ∃ (i : Fin (abSide orders m).length) (j : Fin (baSide orders m).length),
      (pairFills orders m).price h =
        clearingPrice ((abSide orders m).get i).limitPrice ((baSide orders m).get j).limitPrice ∧
      Crosses ((abSide orders m).get i) ((baSide orders m).get j) ∧
      (∀ f ∈ (pairFills orders m).fillsAb, f.idx ≤ i) ∧
      ∀ g ∈ (pairFills orders m).fillsBa, g.idx ≤ j := by
  obtain ⟨⟨p, q⟩, hc⟩ := Option.isSome_iff_exists.mp ((pairFills orders m).crossed h)
  obtain ⟨i, j, rfl, rfl, hx, hi, hj⟩ := (ledger orders m).last p q hc
  refine ⟨i, j, ?_, hx, hi, hj⟩
  simp only [MatchState.price, hc, Option.get_some]

/-- The limits of `x` and `y` are those that crossed last in the loop of their pair. -/
def CrossedLast (orders : List SignedOrder) (m : Address × Address) (x y : Order) : Prop :=
  x ∈ abSide orders m ∧ y ∈ baSide orders m ∧
    (pairFills orders m).lastCross = some (x.limitPrice, y.limitPrice)

instance (orders : List SignedOrder) (m : Address × Address) (x y : Order) :
    Decidable (CrossedLast orders m x y) :=
  inferInstanceAs (Decidable (_ ∧ _ ∧ _))

/-- The price is the midpoint of their limits. -/
theorem CrossedLast.price_eq {x y : Order} (hc : CrossedLast orders m x y)
    (h : (pairFills orders m).fillsAb ≠ []) :
    (pairFills orders m).price h = clearingPrice x.limitPrice y.limitPrice := by
  simp only [MatchState.price, hc.2.2, Option.get_some]

/-- **A pair with fills has a couple that crossed last**, and no filled order comes after it. -/
theorem exists_crossedLast (h : (pairFills orders m).fillsAb ≠ []) :
    ∃ x y, CrossedLast orders m x y ∧ Crosses x y ∧
      (∀ f ∈ (pairFills orders m).fillsAb,
        ((abSide orders m).get f.idx).limitPrice ≤ x.limitPrice) ∧
      ∀ g ∈ (pairFills orders m).fillsBa,
        ((baSide orders m).get g.idx).limitPrice ≤ y.limitPrice := by
  obtain ⟨⟨p, q⟩, hl⟩ := Option.isSome_iff_exists.mp ((pairFills orders m).crossed h)
  obtain ⟨i, j, rfl, rfl, hc, hi, hj⟩ := (ledger orders m).last p q hl
  exact ⟨_, _, ⟨List.get_mem _ i, List.get_mem _ j, hl⟩, hc, fun f hf => limit_mono (hi f hf),
    fun g hg => limit_mono (hj g hg)⟩

/-- An A→B order with a fill that forbids partial fills is sold out. -/
theorem soldOf_ab_kill {f : Fill (abSide orders m).length} (hf : f ∈ (pairFills orders m).fillsAb)
    (hk : ((abSide orders m).get f.idx).partialFill = false) :
    soldOf (pairFills orders m).fillsAb f.idx = ((abSide orders m).get f.idx).sellAmount.toNat := by
  obtain ⟨g, -, hb⟩ := partner_left (ledger orders m).booked hf
  have hpos := hb.pos.trans_le (le_soldOf hf)
  have hsum := (ledger orders m).a_sum f.idx
  rcases (ledger orders m).a_kill f.idx hk with h | h <;> omega

/-- A B→A order with a fill that forbids partial fills is sold out. -/
theorem soldOf_ba_kill {g : Fill (baSide orders m).length} (hg : g ∈ (pairFills orders m).fillsBa)
    (hk : ((baSide orders m).get g.idx).partialFill = false) :
    soldOf (pairFills orders m).fillsBa g.idx = ((baSide orders m).get g.idx).sellAmount.toNat := by
  obtain ⟨f, -, hb⟩ := partner_left (ledger orders m).booked.flip hg
  have hpos := (hb.kill_pos hk).trans_le (le_soldOf hg)
  have hsum := (ledger orders m).b_sum g.idx
  rcases (ledger orders m).b_kill g.idx hk with h | h <;> omega

/-- **A trade and its order.**  The trade sells no more than the order offers, and all of it where
the order forbids partial fills. -/
theorem mem_trades_order {t : TradeExecution}
    (ht : t ∈ (matchBatch P env cfg id solver orders).trades) :
    ∃ s ∈ orders, s.order.id P = t.orderId ∧ t.executedSell.toNat ≤ s.order.sellAmount.toNat ∧
      (s.order.partialFill = false → t.executedSell = s.order.sellAmount) := by
  have assemble : ∀ {o : Order} {p : Price} {sold : Nat}, (∃ s ∈ orders, s.order = o) →
      sold ≤ o.sellAmount.toNat → (o.partialFill = false → sold = o.sellAmount.toNat) →
      ∃ s ∈ orders, s.order.id P = (execution P p o sold).orderId ∧
        (execution P p o sold).executedSell.toNat ≤ s.order.sellAmount.toNat ∧
        (s.order.partialFill = false →
          (execution P p o sold).executedSell = s.order.sellAmount) := by
    rintro o p sold ⟨s, hs, rfl⟩ hle hk
    have hc : (clampU64 sold).toNat = sold := clampU64_eq (hle.trans (toNat_le_u64Max _))
    exact ⟨s, hs, rfl, hc.le.trans hle, fun h => UInt64.toNat_inj.mp (hc.trans (hk h))⟩
  obtain ⟨m, h, ⟨f, hf, rfl⟩ | ⟨g, hg, rfl⟩⟩ := (mem_trades P env cfg id solver).mp ht
  · exact assemble (mem_abSide (List.get_mem _ _)).1 (soldOf_ab_le _) (soldOf_ab_kill hf)
  · exact assemble (mem_baSide (List.get_mem _ _)).1 (soldOf_ba_le _) (soldOf_ba_kill hg)

/-! ### No order is named twice -/

section
variable {P}

/-- A batch whose identifiers are distinct has no collisions. -/
theorem noCollision_of_nodup (h : (orders.map fun s => s.order.id P).Nodup) :
    NoCollision P orders :=
  fun _ hs _ ht e => congrArg SignedOrder.order (List.inj_on_of_nodup_map h hs ht e)

theorem pairOrders_ids_nodup (h : (orders.map fun s => s.order.id P).Nodup)
    (m : Address × Address) : ((pairOrders orders m).map (Order.id P)).Nodup := by
  rw [pairOrders, List.map_map]
  exact h.sublist (List.filter_sublist.map _)

theorem sortByLimit_ids_nodup (h : (orders.map fun s => s.order.id P).Nodup)
    (m : Address × Address) (q : Order → Bool) :
    ((sortByLimit ((pairOrders orders m).filter q)).map (Order.id P)).Nodup :=
  ((List.perm_insertionSort _ _).map _).nodup_iff.mpr
    ((pairOrders_ids_nodup h m).sublist (List.filter_sublist.map _))

/-- The map of a side has one entry an order, and different orders have different identifiers. -/
theorem sums_ids_nodup {side : List Order} (h : (side.map (Order.id P)).Nodup)
    {fills : List (Fill side.length)} (o : IterOrder (Fin side.length × Nat)) :
    ((o.iter (soldPerOrder fills)).map fun e => (side.get e.1).id P).Nodup := by
  have hk : ((o.iter (soldPerOrder fills)).map Prod.fst).Nodup :=
    ((o.perm _).map _).nodup_iff.mpr (tally_keys_nodup fills)
  have hp := List.pairwise_iff_getElem.mp (List.pairwise_map.mp h)
  have inj : Function.Injective fun k : Fin side.length => (side.get k).id P := by
    intro i j e
    rcases lt_trichotomy i j with hlt | rfl | hlt
    · exact absurd e (hp i j i.2 j.2 hlt)
    · rfl
    · exact absurd e.symm (hp j i j.2 i.2 hlt)
  have := hk.map inj
  rwa [List.map_map] at this

end

/-- **No order is named twice** by a solution, if the batch has no order twice. -/
theorem orderIds_nodup (h : (orders.map fun s => s.order.id P).Nodup) :
    (matchBatch P env cfg id solver orders).orderIds.Nodup := by
  -- an order is determined by its identifier
  have same : ∀ {x y : Order}, (∃ s ∈ orders, s.order = x) → (∃ s ∈ orders, s.order = y) →
      x.id P = y.id P → x = y := by
    rintro x y ⟨s, hs, rfl⟩ ⟨t, ht, rfl⟩ e
    exact noCollision_of_nodup h s hs t ht e
  have src : ∀ {m : Address × Address} {i : OrderId},
      i ∈ (matchPair P env m.1 m.2 (pairOrders orders m)).trades.map TradeExecution.orderId →
      ∃ o, (∃ s ∈ orders, s.order = o) ∧ o.pair = m ∧ o.id P = i := by
    intro m i hi
    obtain ⟨t, ht, rfl⟩ := List.mem_map.mp hi
    rw [matchPair_eq] at ht
    split at ht
    · cases ht
    rcases (mem_settle_trades P env).mp ht with ⟨f, -, rfl⟩ | ⟨g, -, rfl⟩
    · have := mem_abSide (List.get_mem (abSide orders m) f.idx)
      exact ⟨_, this.1, this.2.1, rfl⟩
    · have := mem_baSide (List.get_mem (baSide orders m) g.idx)
      exact ⟨_, this.1, this.2.1, rfl⟩
  rw [Solution.orderIds, ((trades_perm P env cfg id solver orders).map _).nodup_iff,
    List.map_flatMap, List.nodup_flatMap]
  refine ⟨fun m _ => ?_, (markets_nodup orders).imp fun {m m'} hne => ?_⟩
  · rw [matchPair_eq]
    split
    · exact List.nodup_nil
    rw [settle_trades, List.map_append, List.map_map, List.map_map]
    refine List.Nodup.append (sums_ids_nodup (sortByLimit_ids_nodup h m _) _)
      (sums_ids_nodup (sortByLimit_ids_nodup h m _) _) fun i hi hi' => ?_
    obtain ⟨e, -, rfl⟩ := List.mem_map.mp hi
    obtain ⟨e', -, he⟩ := List.mem_map.mp hi'
    have ha := List.get_mem (abSide orders m) e.1
    have hb := List.get_mem (baSide orders m) e'.1
    have := same (mem_baSide hb).1 (mem_abSide ha).1 he
    exact not_mem_baSide ha (this ▸ hb)
  · intro i hi hi'
    obtain ⟨o, ho, hp, rfl⟩ := src hi
    obtain ⟨o', ho', hp', he⟩ := src hi'
    exact hne (by rw [← hp, ← hp', same ho ho' he.symm])

end

end OxDex
