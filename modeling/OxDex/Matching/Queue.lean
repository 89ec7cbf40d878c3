import OxDex.Matching.Priority

/-!
# Matching — Queue

Who is served first among the orders of one direction of a pair.

A side is sorted by limit, and the sort keeps the order of the batch among equal limits
(`before_of_sublist`).  So the orders of a direction form a queue: the lower limit first, and of
equal limits the one that stands first in the batch (`Ahead`).  The pointers go through it from the
front.

* `price_time_priority`: where an order trades, every order ahead of it that allows partial fills is
  exhausted, so of the orders of a direction that trade all but one are.

That is so whatever the iteration orders of the hash maps are.
-/

namespace OxDex
open Support

/-! ### The place of an order on its side -/

/-- Of two members of a list, one comes before the other. -/
theorem sublist_or_sublist {α : Type*} {a b : α} {l : List α} (ha : a ∈ l) (hb : b ∈ l)
    (hne : a ≠ b) : [a, b].Sublist l ∨ [b, a].Sublist l := by
  induction l with
  | nil => cases ha
  | cons x l ih =>
      rcases List.mem_cons.mp ha with rfl | ha'
      · have hb' : b ∈ l := (List.mem_cons.mp hb).resolve_left (Ne.symm hne)
        exact .inl ((List.singleton_sublist.mpr hb').cons_cons a)
      · rcases List.mem_cons.mp hb with rfl | hb'
        · exact .inr ((List.singleton_sublist.mpr ha').cons_cons b)
        · exact (ih ha' hb').imp (.cons x) (.cons x)

/-- What comes before has the lower index. -/
theorem exists_lt_of_sublist {α : Type*} {a b : α} {l : List α} (h : [a, b].Sublist l) :
    ∃ k j : Fin l.length, k < j ∧ l.get k = a ∧ l.get j = b := by
  obtain ⟨f, hf⟩ := List.sublist_iff_exists_fin_orderEmbedding_get_eq.mp h
  have h01 : (⟨0, Nat.zero_lt_two⟩ : Fin [a, b].length) < ⟨1, Nat.one_lt_two⟩ := Nat.zero_lt_one
  exact ⟨f _, f _, f.lt_iff_lt.mpr h01, (hf _).symm, (hf _).symm⟩

/-- **The sort is stable**: of two orders with limits in order, the one that comes first stays
first. -/
theorem before_of_sublist {side : List Order} {x y : Order} (h : [x, y].Sublist side)
    (hle : x.limitPrice ≤ y.limitPrice) :
    ∃ k l : Fin (sortByLimit side).length,
      k < l ∧ (sortByLimit side).get k = x ∧ (sortByLimit side).get l = y :=
  exists_lt_of_sublist (List.pair_sublist_insertionSort (r := fun x y : Order =>
    x.limitPrice ≤ y.limitPrice) hle h)

/-- The order of the batch is that of the orders picked from a pair. -/
theorem picked_sublist {orders : List SignedOrder} {s t : SignedOrder} (h : [s, t].Sublist orders)
    {m : Address × Address} {p : Order → Bool} (hs : s.order.pair = m) (ht : t.order.pair = m)
    (hps : p s.order = true) (hpt : p t.order = true) :
    [s.order, t.order].Sublist ((pairOrders orders m).filter p) := by
  have hpair := ((h.filter fun s : SignedOrder => s.order.pair = m).map
    SignedOrder.order).filter p
  simpa only [pairOrders, List.filter_cons, List.filter_nil, List.map_cons, List.map_nil, hs, ht,
    hps, hpt, decide_true, if_true] using hpair

/-- `s` is ahead of `t` in the queue of their direction: its limit is lower, or the same and it
comes first in the batch. -/
structure Ahead (orders : List SignedOrder) (s t : SignedOrder) : Prop where
  sell : s.order.sellMint = t.order.sellMint
  buy : s.order.buyMint = t.order.buyMint
  place : s.order.limitPrice.toRat < t.order.limitPrice.toRat ∨
    s.order.limitPrice.toRat = t.order.limitPrice.toRat ∧ [s, t].Sublist orders

/-- Limits are compared as the fractions they are. -/
theorem limit_le_iff {x y : Order} :
    x.limitPrice ≤ y.limitPrice ↔ x.limitPrice.toRat ≤ y.limitPrice.toRat := by
  rw [Price.le_iff_cross x.limitPrice_isU64 y.limitPrice_isU64, Price.toRat_le_iff]

section
variable {orders : List SignedOrder} {s t : SignedOrder}

/-- Of two orders of one direction, one is ahead. -/
theorem ahead_or_ahead (hs : s ∈ orders) (ht : t ∈ orders) (hne : s ≠ t)
    (hsell : s.order.sellMint = t.order.sellMint) (hbuy : s.order.buyMint = t.order.buyMint) :
    Ahead orders s t ∨ Ahead orders t s := by
  rcases lt_trichotomy s.order.limitPrice.toRat t.order.limitPrice.toRat with h | h | h
  · exact .inl ⟨hsell, hbuy, .inl h⟩
  · rcases sublist_or_sublist hs ht hne with h' | h'
    · exact .inl ⟨hsell, hbuy, .inr ⟨h, h'⟩⟩
    · exact .inr ⟨hsell.symm, hbuy.symm, .inr ⟨h.symm, h'⟩⟩
  · exact .inr ⟨hsell.symm, hbuy.symm, .inl h⟩

/-- **Who is ahead in the queue stands ahead on the sorted side.** -/
theorem Ahead.before (h : Ahead orders s t) (hs : s ∈ orders) (ht : t ∈ orders)
    {m : Address × Address} {p : Order → Bool} (hsm : s.order.pair = m) (htm : t.order.pair = m)
    (hps : p s.order = true) (hpt : p t.order = true) :
    ∃ k l : Fin (sortByLimit ((pairOrders orders m).filter p)).length, k < l ∧
      (sortByLimit ((pairOrders orders m).filter p)).get k = s.order ∧
      (sortByLimit ((pairOrders orders m).filter p)).get l = t.order := by
  rcases h.place with hlt | ⟨heq, hsub⟩
  · have mem : ∀ u ∈ orders, u.order.pair = m → p u.order = true →
        u.order ∈ sortByLimit ((pairOrders orders m).filter p) := fun u hu hum hpu =>
      mem_sortByLimit.mpr (List.mem_filter.mpr ⟨mem_pairOrders.mpr ⟨⟨u, hu, rfl⟩, hum⟩, hpu⟩)
    obtain ⟨k, hk⟩ := List.get_of_mem (mem s hs hsm hps)
    obtain ⟨l, hl⟩ := List.get_of_mem (mem t ht htm hpt)
    exact ⟨k, l, idx_lt_of_limit_lt (by rwa [hk, hl]), hk, hl⟩
  · exact before_of_sublist (picked_sublist hsub hsm htm hps hpt) (limit_le_iff.mpr heq.le)

end

/-! ### Served from the front -/

/-- The solution has a trade for the order. -/
def Solution.Serves (P : Primitives) (sol : Solution) (o : Order) : Prop :=
  ∃ e ∈ sol.trades, e.orderId = o.id P

/-- The order is sold out if it sells the smaller mint, and what is left of it buys no unit at its
limit if it sells the larger. -/
structure Solution.Exhausts (P : Primitives) (sol : Solution) (o : Order) : Prop where
  smaller : o.sellMint < o.buyMint → sol.unsold P o = 0
  larger : o.buyMint < o.sellMint → sol.unsold P o * o.buyAmount.toNat / o.sellAmount.toNat = 0

/-- **The queue of every direction is served from the front.** -/
structure ServesInTurn (P : Primitives) (orders : List SignedOrder) (sol : Solution) : Prop where
  /-- What trades has nothing ahead of it that still might. -/
  ahead : ∀ s ∈ orders, ∀ t ∈ orders, Ahead orders s t → s.order.partialFill = true →
    sol.Serves P t.order → sol.Exhausts P s.order
  /-- Of the orders of a direction that trade, at most one is left over. -/
  marginal : ∀ s ∈ orders, ∀ t ∈ orders, s ≠ t → s.order.sellMint = t.order.sellMint →
    s.order.buyMint = t.order.buyMint → s.order.partialFill = true → t.order.partialFill = true →
    sol.Serves P s.order → sol.Serves P t.order → sol.Exhausts P s.order ∨ sol.Exhausts P t.order

section
variable {P : Primitives} {orders : List SignedOrder} {m : Address × Address} (env : HashOrders)
  (cfg : MatcherConfig) (id : BatchId) (solver : Address) (hv : Validated orders)
  (hid : (orders.map fun s => s.order.id P).Nodup)
include hid

/-- The pointer stands at an A→B order that trades, or past it. -/
theorem served_ab {l : Fin (abSide orders m).length}
    (h : (matchBatch P env cfg id solver orders).Serves P ((abSide orders m).get l)) :
    l.val ≤ (pairFills orders m).i := by
  obtain ⟨e, he, hto⟩ := h
  obtain ⟨f, hf, hof, -⟩ := mem_sales.mp
    ((mem_sales_ab env cfg id solver hid (List.get_mem _ l)).mpr ⟨e, he, hto, rfl⟩)
  rw [idx_eq_of_get (abSide_ids_nodup hid) hof]
  exact (ledger orders m).a_idx f hf

/-- The pointer stands at a B→A order that trades, or past it. -/
theorem served_ba {l : Fin (baSide orders m).length}
    (h : (matchBatch P env cfg id solver orders).Serves P ((baSide orders m).get l)) :
    l.val ≤ (pairFills orders m).j := by
  obtain ⟨e, he, hto⟩ := h
  obtain ⟨g, hg, hog, -⟩ := mem_sales.mp
    ((mem_sales_ba env cfg id solver hid (List.get_mem _ l)).mpr ⟨e, he, hto, rfl⟩)
  rw [idx_eq_of_get (baSide_ids_nodup hid) hog]
  exact (ledger orders m).b_idx g hg

include hv

/-- **What is ahead of a trade is exhausted.** -/
theorem exhausts_ahead {s t : SignedOrder} (hs : s ∈ orders) (ht : t ∈ orders)
    (ha : Ahead orders s t) (hp : s.order.partialFill = true)
    (htr : (matchBatch P env cfg id solver orders).Serves P t.order) :
    (matchBatch P env cfg id solver orders).Exhausts P s.order := by
  have hpair : t.order.pair = s.order.pair := by rw [Order.pair, Order.pair, ha.sell, ha.buy]
  constructor
  · intro hm
    have hsm : s.order.pair = (s.order.sellMint, s.order.buyMint) := by
      rw [Order.pair, canonicalPair, if_pos hm.le]
    obtain ⟨k, l, hkl, hk, hl⟩ :
        ∃ k l : Fin (abSide orders (s.order.sellMint, s.order.buyMint)).length,
          k < l ∧ (abSide orders _).get k = s.order ∧ (abSide orders _).get l = t.order :=
      ha.before hs ht hsm (hpair.trans hsm) (sellsAForB_iff.mpr ⟨rfl, rfl⟩)
        (sellsAForB_iff.mpr ⟨ha.sell.symm, ha.buy.symm⟩)
    have hli := served_ab env cfg id solver hid (l := l) (by rwa [hl])
    rw [← hk, unsold_ab env cfg id solver hid]
    exact (passed orders _).a k (lt_of_lt_of_le hkl hli) (by rwa [hk])
  · intro hm
    have hsm : s.order.pair = (s.order.buyMint, s.order.sellMint) := by
      rw [Order.pair, canonicalPair, if_neg hm.not_ge]
    -- an order that sells the larger mint does not sell the smaller
    have picks : ∀ o : Order, o.sellMint = s.order.sellMint → o.buyMint = s.order.buyMint →
        (!sellsAForB s.order.buyMint s.order.sellMint o &&
          sellsAForB s.order.sellMint s.order.buyMint o) = true := by
      intro o ho ho'
      have hno : sellsAForB s.order.buyMint s.order.sellMint o = false :=
        Bool.eq_false_of_not_eq_true fun h => hm.ne' (ho.symm.trans (sellsAForB_iff.mp h).1)
      rw [hno]
      exact sellsAForB_iff.mpr ⟨ho, ho'⟩
    obtain ⟨k, l, hkl, hk, hl⟩ :
        ∃ k l : Fin (baSide orders (s.order.buyMint, s.order.sellMint)).length,
          k < l ∧ (baSide orders _).get k = s.order ∧ (baSide orders _).get l = t.order :=
      ha.before hs ht hsm (hpair.trans hsm) (picks _ rfl rfl)
        (picks _ ha.sell.symm ha.buy.symm)
    have hlj := served_ba env cfg id solver hid (l := l) (by rwa [hl])
    have h0 := (passed orders _).b k (lt_of_lt_of_le hkl hlj) (by rwa [hk])
    rw [← unsold_ba env cfg id solver hid, hk,
      aCapacity_eq ((Solution.unsold_le _ _ _).trans (toNat_le_u64Max _)),
      max_eq_left (hv.wellFormed ⟨s, hs, rfl⟩).sell_pos] at h0
    exact h0

/-- **Price-time priority.** -/
theorem price_time_priority : ServesInTurn P orders (matchBatch P env cfg id solver orders) where
  ahead := fun _ hs _ ht ha hp htr => exhausts_ahead env cfg id solver hv hid hs ht ha hp htr
  marginal := by
    intro s hs t ht hne hsell hbuy hps hpt hss hts
    rcases ahead_or_ahead hs ht hne hsell hbuy with h | h
    · exact .inl (exhausts_ahead env cfg id solver hv hid hs ht h hps hts)
    · exact .inr (exhausts_ahead env cfg id solver hv hid ht hs h hpt hss)

end

namespace Sample

/-- The same as `alice150` again. -/
def aliceAgain : Order := { alice150 with nonce := 1 }

/-- Sells 300 B for at least 150 A. -/
def bob300 : Order := order bob mintB mintA 300 150 Int64.maxValue

/-- The traders' data and the digests of these orders. -/
def primitivesQueue : Primitives :=
  primitivesWith
    [(aliceAgain, .ofNat 32 0x5877e32d8361321074ae9374a6929779c2adb411ef4853664b590086c9b6fe02),
      (bob300, .ofNat 32 0xfe35d51c0d01b7bec3704ba93c02b61951cbc6c41bb193e7c240ca5241e61020)]

end Sample

section
open Sample

/-- alice's second order is served in part, so her first is sold out. -/
theorem price_time_priority_two : (matchBatch primitivesQueue .insertion ⟨true⟩ ⟨.replicate 16 0⟩
      .zero [sign alice150, sign aliceAgain, sign bob300]).Exhausts primitivesQueue alice150 ∧
    (matchBatch primitivesQueue .insertion ⟨true⟩ ⟨.replicate 16 0⟩
      .zero [sign alice150, sign aliceAgain, sign bob300]).unsold primitivesQueue aliceAgain =
        50 :=
  ⟨(price_time_priority .insertion ⟨true⟩ ⟨.replicate 16 0⟩ .zero
      (show Validated [sign alice150, sign aliceAgain, sign bob300] from
        fun s hs => ⟨0, by revert s; decide +kernel⟩)
      (by decide +kernel)).ahead (sign alice150) (by simp) (sign aliceAgain) (by simp)
      ⟨rfl, rfl, .inr ⟨rfl, List.sublist_append_left _ [sign bob300]⟩⟩ rfl
      ⟨⟨aliceAgain.id primitivesQueue, 50, 87⟩, by decide +kernel, rfl⟩,
    by decide +kernel⟩

end

end OxDex
