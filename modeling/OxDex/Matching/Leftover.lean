import OxDex.Matching.Queue

/-!
# Matching — Leftover

What a batch leaves without a trade.

Two orders that allow partial fills and whose limits cross are both ahead of the pointers as long as
neither has traded, and the loop is not left there.  So of two such orders one trades
(`leftover_apart`).  A trade has an order on its other side that trades as well, and the limits of
the two cross (`trade_counterpart`).

So what a batch leaves over does not trade among itself, unless an order forbids partial fills: one
that was skipped may yet find what it needs in another batch.
-/

namespace OxDex
open Support

/-- `x` sells the smaller mint for what `y` sells, their limits cross, and both allow partial
fills. -/
structure Order.Meets (x y : Order) : Prop where
  mints : x.sellMint < x.buyMint
  opposite : x.Opposite y
  crosses : x.buyAmount.toNat * y.buyAmount.toNat ≤ x.sellAmount.toNat * y.sellAmount.toNat
  x_partial : x.partialFill = true
  y_partial : y.partialFill = true

/-- No two of the orders meet. -/
def KeepApart (orders : List SignedOrder) : Prop :=
  ∀ s ∈ orders, ∀ u ∈ orders, ¬ s.order.Meets u.order

/-- An order without a trade is unsold as a whole. -/
theorem Solution.unsold_of_not_serves {P : Primitives} {sol : Solution} {o : Order}
    (h : ¬ sol.Serves P o) : sol.unsold P o = o.sellAmount.toNat := by
  refine Solution.unsold_eq (fun t ht hto => absurd ⟨t, ht, hto⟩ h) (fun _ => rfl)

section
variable {P : Primitives} {orders : List SignedOrder} (env : HashOrders) (cfg : MatcherConfig)
  (id : BatchId) (solver : Address) (hw : ∀ s ∈ orders, s.order.WellFormed)
include hw

/-- The sides of a batch of well-formed orders. -/
theorem sortedSides (m : Address × Address) : SortedBook (abSide orders m) (baSide orders m) where
  a_wf := fun o ho => by
    obtain ⟨⟨s, hs, rfl⟩, -⟩ := mem_abSide ho
    exact hw s hs
  b_wf := fun o ho => by
    obtain ⟨⟨s, hs, rfl⟩, -⟩ := mem_baSide ho
    exact hw s hs
  a_sorted := sortByLimit_pairwise _
  b_sorted := sortByLimit_pairwise _

/-- **Of two orders that meet, one trades.** -/
theorem leftover_apart (hid : (orders.map fun s => s.order.id P).Nodup) {s u : SignedOrder}
    (hs : s ∈ orders) (hu : u ∈ orders)
    (hns : ¬ (matchBatch P env cfg id solver orders).Serves P s.order)
    (hnu : ¬ (matchBatch P env cfg id solver orders).Serves P u.order) :
    ¬ s.order.Meets u.order := by
  intro h
  have hx := mem_abSide_of_lt hs h.mints
  have hy : u.order ∈ baSide orders (s.order.sellMint, s.order.buyMint) := by
    have := mem_baSide_of_lt hu (by rw [← h.opposite.1, ← h.opposite.2]; exact h.mints)
    rwa [← h.opposite.1, ← h.opposite.2] at this
  obtain ⟨k, hk⟩ := List.get_of_mem hx
  obtain ⟨l, hl⟩ := List.get_of_mem hy
  have hp := passed orders (s.order.sellMint, s.order.buyMint)
  -- the pointers are not past them, for what is passed has nothing left
  have hki : (pairFills orders (s.order.sellMint, s.order.buyMint)).i ≤ k := by
    by_contra hlt
    have h0 := hp.a k (not_le.mp hlt) (by rw [hk]; exact h.x_partial)
    rw [← unsold_ab env cfg id solver hid, hk, Solution.unsold_of_not_serves hns] at h0
    exact (hw s hs).sell_pos.ne' h0
  have hlj : (pairFills orders (s.order.sellMint, s.order.buyMint)).j ≤ l := by
    by_contra hlt
    have h0 := hp.b l (not_le.mp hlt) (by rw [hl]; exact h.y_partial)
    rw [← unsold_ba env cfg id solver hid, hl, Solution.unsold_of_not_serves hnu,
      aCapacity_eq (toNat_le_u64Max _), max_eq_left (hw u hu).sell_pos,
      Nat.mul_div_cancel_left _ (hw u hu).sell_pos] at h0
    exact (hw u hu).buy_pos.ne' h0
  have hc : Crosses ((abSide orders _).get k) ((baSide orders _).get l) := by
    rw [hk, hl]
    exact (crosses_iff (hw s hs) (hw u hu)).mpr h.crosses
  -- so the heads cross as well, and there the loop is not left
  exact heads_apart (i := ⟨_, hki.trans_lt k.2⟩) (j := ⟨_, hlj.trans_lt l.2⟩) rfl rfl
    ((sortedSides hw _).crosses (Fin.le_def.mpr hki) (Fin.le_def.mpr hlj) hc)

/-- Two orders of a batch that have traded with each other. -/
structure Traded (P : Primitives) (orders : List SignedOrder) (sol : Solution)
    (s u : SignedOrder) : Prop where
  left : s ∈ orders
  right : u ∈ orders
  left_serves : sol.Serves P s.order
  right_serves : sol.Serves P u.order
  mints : s.order.sellMint < s.order.buyMint
  opposite : s.order.Opposite u.order
  crosses : s.order.buyAmount.toNat * u.order.buyAmount.toNat ≤
    s.order.sellAmount.toNat * u.order.sellAmount.toNat

/-- The orders of a fill have traded with each other. -/
theorem traded_of_booked {m : Address × Address} {f : Fill (abSide orders m).length}
    {g : Fill (baSide orders m).length} (hf : f ∈ (pairFills orders m).fillsAb)
    (hg : g ∈ (pairFills orders m).fillsBa) (hb : Booked f g) :
    ∃ s u, s.order = (abSide orders m).get f.idx ∧ u.order = (baSide orders m).get g.idx ∧
      Traded P orders (matchBatch P env cfg id solver orders) s u := by
  have hne := List.ne_nil_of_mem hf
  obtain ⟨⟨s, hs, hsf⟩, hm, hx⟩ := mem_abSide (List.get_mem (abSide orders m) f.idx)
  obtain ⟨⟨u, hu, hug⟩, -, hy⟩ := mem_baSide (List.get_mem (baSide orders m) g.idx)
  refine ⟨s, u, hsf, hug, hs, hu, ?_, ?_, ?_, ?_, ?_⟩
  · exact ⟨_, (mem_trades P env cfg id solver).mpr ⟨m, hne, .inl ⟨f, hf, rfl⟩⟩,
      congrArg (Order.id P) hsf.symm⟩
  · exact ⟨_, (mem_trades P env cfg id solver).mpr ⟨m, hne, .inr ⟨g, hg, rfl⟩⟩,
      congrArg (Order.id P) hug.symm⟩
  · have hle : m.1 ≤ m.2 := hm ▸ Order.pair_le _
    refine lt_of_le_of_ne ?_ (hw s hs).mints
    rwa [hsf, hx.1, hx.2]
  · rw [hsf, hug]
    exact ⟨hx.1.trans hy.2.symm, hx.2.trans hy.1.symm⟩
  · have hc := hb.crosses
    rwa [← hsf, ← hug, crosses_iff (hw s hs) (hw u hu)] at hc

/-- **Every trade is one of two orders that have traded with each other.** -/
theorem trade_counterpart {t : TradeExecution}
    (ht : t ∈ (matchBatch P env cfg id solver orders).trades) :
    ∃ s u, Traded P orders (matchBatch P env cfg id solver orders) s u ∧
      (t.orderId = s.order.id P ∨ t.orderId = u.order.id P) := by
  obtain ⟨m, h, hside⟩ := (mem_trades P env cfg id solver).mp ht
  rcases hside with ⟨f, hf, rfl⟩ | ⟨g, hg, rfl⟩
  · obtain ⟨g, hg, hb⟩ := partner_left (ledger orders m).booked hf
    obtain ⟨s, u, hs, -, htr⟩ := traded_of_booked (P := P) env cfg id solver hw hf hg hb
    exact ⟨s, u, htr, .inl (congrArg (Order.id P) hs.symm)⟩
  · obtain ⟨f, hf, hb⟩ := partner_left (ledger orders m).booked.flip hg
    obtain ⟨s, u, -, hu, htr⟩ := traded_of_booked (P := P) env cfg id solver hw hf hg hb
    exact ⟨s, u, htr, .inr (congrArg (Order.id P) hu.symm)⟩

end

end OxDex
