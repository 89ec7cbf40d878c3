import OxDex.Matching.Limits
import OxDex.Matching.Score

/-!
# Matching — Priority

What the two pointers leave behind.

A pointer passes an order that allows partial fills only once it has nothing more to trade: an A→B
order is sold out, and what a B→A order has left buys no unit of A (`Passed`).  Every iteration
keeps this (`passed_turn`).  When the loop is left the heads do not cross, and the sides are sorted,
so no order ahead of the pointers crosses one of the other side.

So the batch leaves no tradable cross (`no_tradable_cross`), and where an order trades, every better
priced one of its direction is exhausted (`price_priority`).
-/

namespace OxDex
open Support

variable {aToB bToA : List Order}

/-! ### Behind the pointers -/

/-- The orders behind the pointers that allow partial fills have nothing more to trade. -/
structure Passed (s : MatchState aToB bToA) : Prop where
  a : ∀ k, k.val < s.i → (aToB.get k).partialFill = true → s.aRemaining.get k = 0
  b : ∀ k, k.val < s.j → (bToA.get k).partialFill = true →
    aCapacity (bToA.get k) (s.bRemaining.get k) = 0

namespace Passed

variable {s : MatchState aToB bToA}

/-- Nothing is behind the pointers at the start. -/
theorem init : Passed (.init aToB bToA) :=
  ⟨fun _ h => absurd h (Nat.not_lt_zero _), fun _ h => absurd h (Nat.not_lt_zero _)⟩

/-- Recording a crossing. -/
theorem cross (h : Passed s) (p q : Price) : Passed (s.cross p q) := ⟨h.a, h.b⟩

/-- Passing an A→B head. -/
theorem skipA (h : Passed s) {i : Fin aToB.length} (hi : s.i = i)
    (hp : (aToB.get i).partialFill = true → s.aRemaining.get i = 0) :
    Passed { s with i := s.i + 1 } := by
  refine ⟨fun k hk hkp => ?_, h.b⟩
  have hk : k.val < s.i + 1 := hk
  by_cases e : k.val < s.i
  · exact h.a k e hkp
  · obtain rfl : k = i := Fin.ext (by omega)
    exact hp hkp

/-- Passing a B→A head. -/
theorem skipB (h : Passed s) {j : Fin bToA.length} (hj : s.j = j)
    (hp : (bToA.get j).partialFill = true →
      aCapacity (bToA.get j) (s.bRemaining.get j) = 0) :
    Passed { s with j := s.j + 1 } := by
  refine ⟨h.a, fun k hk hkp => ?_⟩
  have hk : k.val < s.j + 1 := hk
  by_cases e : k.val < s.j
  · exact h.b k e hkp
  · obtain rfl : k = j := Fin.ext (by omega)
    exact hp hkp

/-- A fill debits the heads, which are not behind the pointers. -/
theorem fill (h : Passed s) (hc : s.lastCross.isSome = true) {i : Fin aToB.length}
    {j : Fin bToA.length} (hi : s.i = i) (hj : s.j = j) (t u : Nat) :
    Passed (s.fill hc i j t u) := by
  refine ⟨fun k hk hkp => ?_, fun k hk hkp => ?_⟩
  · have hk : k.val < s.i := hk
    rw [MatchState.fill, get_set, if_neg (fun e => by subst e; omega)]
    exact h.a k hk hkp
  · have hk : k.val < s.j := hk
    rw [MatchState.fill, get_set, if_neg (fun e => by subst e; omega)]
    exact h.b k hk hkp

/-- The pointers pass the heads that are sold out. -/
theorem sold (h : Passed s) {i : Fin aToB.length} {j : Fin bToA.length} (hi : s.i = i)
    (hj : s.j = j) {cA cB : Prop} [Decidable cA] [Decidable cB]
    (hA : cA → s.aRemaining.get i = 0) (hB : cB → s.bRemaining.get j = 0) :
    Passed { s with i := if cA then s.i + 1 else s.i, j := if cB then s.j + 1 else s.j } := by
  refine ⟨fun k hk hkp => ?_, fun k hk hkp => ?_⟩
  · dsimp only at hk ⊢
    split at hk
    · next hc => exact (h.skipA hi fun _ => hA hc).a k hk hkp
    · exact h.a k hk hkp
  · dsimp only at hk ⊢
    split at hk
    · next hc =>
        refine (h.skipB hj fun _ => ?_).b k hk hkp
        rw [hB hc, aCapacity_zero]
    · exact h.b k hk hkp

end Passed

/-- **Every iteration keeps it.** -/
theorem passed_turn {s s' : MatchState aToB bToA} (hs : Ledger s) (hp : Passed s)
    (h : turn aToB bToA s = some s') : Passed s' := by
  obtain ⟨i, j, hi, hj, -, hm⟩ := turn_met hs h
  have hp := hp.cross (aToB.get i).limitPrice (bToA.get j).limitPrice
  cases hm with
  | spent ha => exact hp.skipA hi fun _ => ha
  | dust _ hc => exact hp.skipB hj fun _ => hc
  | killA _ hk _ => exact hp.skipA hi fun hk' => absurd (hk.symm.trans hk') (by decide)
  | killB _ _ _ hk _ => exact hp.skipB hj fun hk' => absurd (hk.symm.trans hk') (by decide)
  | filled t u _ _ _ _ _ =>
      exact (hp.fill rfl hi hj t u).sold hi hj (by simp [MatchState.fill])
        (by simp [MatchState.fill])

/-- **So it holds after the loop.** -/
theorem passed_fillLoop (aToB bToA : List Order) : Passed (fillLoop aToB bToA) :=
  (Loop.run_inv (P := fun s => Ledger s ∧ Passed s)
    (fun _ _ hs h => ⟨ledger_turn hs.1 h, passed_turn hs.1 hs.2 h⟩) _ _
    ⟨ledger_init aToB bToA, .init⟩).2

/-- The heads at which the loop is left do not cross. -/
theorem heads_apart {i : Fin aToB.length} {j : Fin bToA.length}
    (hi : (fillLoop aToB bToA).i = i) (hj : (fillLoop aToB bToA).j = j) :
    ¬ Crosses (aToB.get i) (bToA.get j) := by
  intro hc
  have := turn_of_crosses hi hj hc
  rw [fillLoop_left] at this
  cases this

/-- And so after the loop of every pair. -/
theorem passed (orders : List SignedOrder) (m : Address × Address) : Passed (pairFills orders m) :=
  passed_fillLoop _ _

/-! ### What a batch leaves unsold -/

/-- What the trades leave of an order: all it sells, if none of them is for it. -/
def Solution.unsold (P : Primitives) (sol : Solution) (o : Order) : Nat :=
  o.sellAmount.toNat -
    ((sol.trades.find? fun t => t.orderId = o.id P).map fun t => t.executedSell.toNat).getD 0

theorem Solution.unsold_le (P : Primitives) (sol : Solution) (o : Order) :
    sol.unsold P o ≤ o.sellAmount.toNat :=
  Nat.sub_le _ _

/-- An order is unsold by what its trade sells, if the trades that name it all sell that. -/
theorem Solution.unsold_eq {P : Primitives} {sol : Solution} {o : Order} {v : Nat}
    (h : ∀ t ∈ sol.trades, t.orderId = o.id P → t.executedSell.toNat = v)
    (h0 : (∀ t ∈ sol.trades, t.orderId ≠ o.id P) → v = 0) :
    sol.unsold P o = o.sellAmount.toNat - v := by
  rw [Solution.unsold]
  cases hf : sol.trades.find? fun t => t.orderId = o.id P with
  | some t =>
      have ht := List.find?_some hf
      rw [Option.map_some, Option.getD_some,
        h t (List.mem_of_find?_eq_some hf) (of_decide_eq_true ht)]
  | none =>
      rw [Option.map_none, Option.getD_none, h0 fun t ht e => ?_]
      exact List.find?_eq_none.mp hf t ht (decide_eq_true e)

section
variable {P : Primitives} {orders : List SignedOrder} {m : Address × Address} (env : HashOrders)
  (cfg : MatcherConfig) (id : BatchId) (solver : Address)
  (hid : (orders.map fun s => s.order.id P).Nodup)

/-- Different indices of a side have different orders. -/
theorem idx_eq_of_get {side : List Order} (h : (side.map (Order.id P)).Nodup)
    {i j : Fin side.length} (e : side.get i = side.get j) : i = j :=
  List.nodup_iff_injective_get.mp (h.of_map _) e

/-- An order that sold something has a fill. -/
theorem exists_fill {n : Nat} {fills : List (Fill n)} {k : Fin n} (h : soldOf fills k ≠ 0) :
    ∃ f ∈ fills, f.idx = k := by
  by_contra hno
  have hnil : fills.filter (fun f => f.idx = k) = [] :=
    List.filter_eq_nil_iff.mpr fun f hf hd => hno ⟨f, hf, of_decide_eq_true hd⟩
  exact h (by rw [soldOf, hnil]; rfl)

/-- What is left of an order whose sales can be read off the trades. -/
theorem unsold_of_sales {sol : Solution} {side : List Order} {fills : List (Fill side.length)}
    (hn : (side.map (Order.id P)).Nodup) (k : Fin side.length)
    (hs : ∀ v, (side.get k, v) ∈ sales side fills ↔
      ∃ t ∈ sol.trades, t.orderId = (side.get k).id P ∧ t.executedSell.toNat = v) :
    sol.unsold P (side.get k) = (side.get k).sellAmount.toNat - soldOf fills k := by
  refine Solution.unsold_eq (fun t ht hto => ?_) fun hno => ?_
  · obtain ⟨f, -, hof, hv⟩ := mem_sales.mp ((hs _).mpr ⟨t, ht, hto, rfl⟩)
    rwa [← idx_eq_of_get hn hof] at hv
  · by_contra h0
    obtain ⟨f, hf, rfl⟩ := exists_fill h0
    obtain ⟨t, ht, hto, -⟩ := (hs _).mp (mem_sales.mpr ⟨f, hf, rfl, rfl⟩)
    exact hno t ht hto

include hid

/-- **What is left of an A→B order** is what the loop leaves of it. -/
theorem unsold_ab (k : Fin (abSide orders m).length) :
    (matchBatch P env cfg id solver orders).unsold P ((abSide orders m).get k) =
      (pairFills orders m).aRemaining.get k := by
  have hsum := (ledger orders m).a_sum k
  rw [unsold_of_sales (abSide_ids_nodup hid) k fun v =>
    mem_sales_ab env cfg id solver hid (List.get_mem (abSide orders m) k)]
  omega

/-- **What is left of a B→A order** is what the loop leaves of it. -/
theorem unsold_ba (k : Fin (baSide orders m).length) :
    (matchBatch P env cfg id solver orders).unsold P ((baSide orders m).get k) =
      (pairFills orders m).bRemaining.get k := by
  have hsum := (ledger orders m).b_sum k
  rw [unsold_of_sales (baSide_ids_nodup hid) k fun v =>
    mem_sales_ba env cfg id solver hid (List.get_mem (baSide orders m) k)]
  omega

end

/-- An order that sells the smaller of its mints is on the A→B side of its pair. -/
theorem mem_abSide_of_lt {orders : List SignedOrder} {s : SignedOrder} (hs : s ∈ orders)
    (h : s.order.sellMint < s.order.buyMint) :
    s.order ∈ abSide orders (s.order.sellMint, s.order.buyMint) := by
  refine mem_sortByLimit.mpr (List.mem_filter.mpr ⟨mem_pairOrders.mpr ⟨⟨s, hs, rfl⟩, ?_⟩, ?_⟩)
  · rw [Order.pair, canonicalPair, if_pos h.le]
  · exact sellsAForB_iff.mpr ⟨rfl, rfl⟩

/-- One that sells the larger is on the B→A side. -/
theorem mem_baSide_of_lt {orders : List SignedOrder} {s : SignedOrder} (hs : s ∈ orders)
    (h : s.order.buyMint < s.order.sellMint) :
    s.order ∈ baSide orders (s.order.buyMint, s.order.sellMint) := by
  refine mem_sortByLimit.mpr (List.mem_filter.mpr ⟨mem_pairOrders.mpr ⟨⟨s, hs, rfl⟩, ?_⟩, ?_⟩)
  · rw [Order.pair, canonicalPair, if_neg h.not_ge]
  · have hno : sellsAForB s.order.buyMint s.order.sellMint s.order = false :=
      Bool.eq_false_of_not_eq_true fun hs => h.ne' (sellsAForB_iff.mp hs).1
    rw [hno]
    exact sellsAForB_iff.mpr ⟨rfl, rfl⟩

/-! ### No tradable cross -/

/-- `x` sells A for the B that `y` sells, both allow partial fills, their limits cross, and the
trades leave something of `x`, and enough of `y` to buy a unit of A at its limit. -/
structure TradableCross (P : Primitives) (sol : Solution) (x y : Order) : Prop where
  mints : x.sellMint < x.buyMint
  opposite : x.Opposite y
  x_partial : x.partialFill = true
  y_partial : y.partialFill = true
  crosses : x.buyAmount.toNat * y.buyAmount.toNat ≤ x.sellAmount.toNat * y.sellAmount.toNat
  x_left : 0 < sol.unsold P x
  y_left : 1 ≤ sol.unsold P y * y.buyAmount.toNat / y.sellAmount.toNat

section
variable {P : Primitives} {orders : List SignedOrder} (env : HashOrders) (cfg : MatcherConfig)
  (id : BatchId) (solver : Address) (hv : Validated orders)
  (hid : (orders.map fun s => s.order.id P).Nodup)
include hv

/-- Orders at or ahead of both pointers do not cross. -/
theorem not_crosses_ahead {m : Address × Address} {k : Fin (abSide orders m).length}
    {l : Fin (baSide orders m).length} (hk : (pairFills orders m).i ≤ k)
    (hl : (pairFills orders m).j ≤ l) :
    ¬ Crosses ((abSide orders m).get k) ((baSide orders m).get l) := by
  obtain ⟨i, hi⟩ : ∃ i : Fin (abSide orders m).length, (pairFills orders m).i = i :=
    ⟨⟨_, hk.trans_lt k.2⟩, rfl⟩
  obtain ⟨j, hj⟩ : ∃ j : Fin (baSide orders m).length, (pairFills orders m).j = j :=
    ⟨⟨_, hl.trans_lt l.2⟩, rfl⟩
  intro hc
  -- the heads cross as well, since their limits are no higher
  exact heads_apart hi hj ((sortedBook hv m).crosses (Fin.le_def.mpr (hi ▸ hk))
    (Fin.le_def.mpr (hj ▸ hl)) hc)

include hid

/-- **The batch leaves no tradable cross.** -/
theorem no_tradable_cross : ∀ s ∈ orders, ∀ t ∈ orders,
    ¬ TradableCross P (matchBatch P env cfg id solver orders) s.order t.order := by
  intro s hs t ht h
  have hx := mem_abSide_of_lt hs h.mints
  have hy : t.order ∈ baSide orders (s.order.sellMint, s.order.buyMint) := by
    have := mem_baSide_of_lt ht (by rw [← h.opposite.1, ← h.opposite.2]; exact h.mints)
    rwa [← h.opposite.1, ← h.opposite.2] at this
  have wx := hv.wellFormed (mem_abSide hx).1
  have wy := hv.wellFormed (mem_baSide hy).1
  obtain ⟨k, hk⟩ := List.get_of_mem hx
  obtain ⟨l, hl⟩ := List.get_of_mem hy
  have hxl := h.x_left
  have hyl := h.y_left
  rw [← hk, unsold_ab env cfg id solver hid] at hxl
  rw [← hl, unsold_ba env cfg id solver hid, hl] at hyl
  have hp := passed orders (s.order.sellMint, s.order.buyMint)
  -- neither order is behind its pointer
  have hki : (pairFills orders (s.order.sellMint, s.order.buyMint)).i ≤ k := by
    by_contra hlt
    exact hxl.ne' (hp.a k (not_le.mp hlt) (by rw [hk]; exact h.x_partial))
  have hlj : (pairFills orders (s.order.sellMint, s.order.buyMint)).j ≤ l := by
    by_contra hlt
    have hcap := hp.b l (not_le.mp hlt) (by rw [hl]; exact h.y_partial)
    rw [aCapacity_eq ((ledger orders _).b_le l), hl, max_eq_left wy.sell_pos] at hcap
    exact absurd hyl (by rw [hcap]; decide)
  have hno := not_crosses_ahead hv hki hlj
  rw [hk, hl, crosses_iff wx wy] at hno
  exact hno h.crosses

end

section
open Sample

/-- alice sells 100 A and bob the B she asks for, so nothing of hers is left to cross him. -/
theorem no_tradable_cross_two : ¬ TradableCross primitives
    (matchBatch primitives .insertion ⟨true⟩ ⟨.replicate 16 0⟩ .zero [sign alice150, sign bob200])
    alice150 bob200 :=
  no_tradable_cross .insertion ⟨true⟩ ⟨.replicate 16 0⟩ .zero
    (show Validated [sign alice150, sign bob200] from
      fun s hs => ⟨0, by revert s; decide +kernel⟩)
    (by decide +kernel) (sign alice150) (by simp) (sign bob200) (by simp)

end

/-! ### Price priority -/

section
variable {P : Primitives} {orders : List SignedOrder} (env : HashOrders) (cfg : MatcherConfig)
  (id : BatchId) (solver : Address) (hv : Validated orders)
  (hid : (orders.map fun s => s.order.id P).Nodup)

/-- The lower limit stands before the higher on a sorted side. -/
theorem idx_lt_of_limit_lt {side : List Order} {k l : Fin (sortByLimit side).length}
    (h : ((sortByLimit side).get k).limitPrice.toRat <
      ((sortByLimit side).get l).limitPrice.toRat) : k < l := by
  by_contra hle
  have hle := limit_mono (not_lt.mp hle)
  rw [Price.le_iff_cross (Order.limitPrice_isU64 _) (Order.limitPrice_isU64 _),
    ← Price.toRat_le_iff] at hle
  exact absurd h (not_lt.mpr hle)

include hid

/-- An A→B order with a lower limit than one that trades is sold out. -/
theorem sold_out_of_lt {m : Address × Address} {k l : Fin (abSide orders m).length}
    (hlt : ((abSide orders m).get k).limitPrice.toRat < ((abSide orders m).get l).limitPrice.toRat)
    (hp : ((abSide orders m).get k).partialFill = true)
    (ht : ∃ e ∈ (matchBatch P env cfg id solver orders).trades,
      e.orderId = ((abSide orders m).get l).id P) : (pairFills orders m).aRemaining.get k = 0 := by
  obtain ⟨e, he, hto⟩ := ht
  obtain ⟨f, hf, hof, -⟩ := mem_sales.mp
    ((mem_sales_ab env cfg id solver hid (List.get_mem _ l)).mpr ⟨e, he, hto, rfl⟩)
  have hfl : l = f.idx := idx_eq_of_get (abSide_ids_nodup hid) hof
  have hkl : k.val < f.idx.val := hfl ▸ idx_lt_of_limit_lt hlt
  exact (passed orders m).a k (hkl.trans_le ((ledger orders m).a_idx f hf)) hp

/-- What is left of a B→A order with a lower limit than one that trades buys no unit. -/
theorem dust_of_lt {m : Address × Address} {k l : Fin (baSide orders m).length}
    (hlt : ((baSide orders m).get k).limitPrice.toRat < ((baSide orders m).get l).limitPrice.toRat)
    (hp : ((baSide orders m).get k).partialFill = true)
    (ht : ∃ e ∈ (matchBatch P env cfg id solver orders).trades,
      e.orderId = ((baSide orders m).get l).id P) :
    aCapacity ((baSide orders m).get k) ((pairFills orders m).bRemaining.get k) = 0 := by
  obtain ⟨e, he, hto⟩ := ht
  obtain ⟨g, hg, hog, -⟩ := mem_sales.mp
    ((mem_sales_ba env cfg id solver hid (List.get_mem _ l)).mpr ⟨e, he, hto, rfl⟩)
  have hgl : l = g.idx := idx_eq_of_get (baSide_ids_nodup hid) hog
  have hkl : k.val < g.idx.val := hgl ▸ idx_lt_of_limit_lt hlt
  exact (passed orders m).b k (hkl.trans_le ((ledger orders m).b_idx g hg)) hp

include hv

/-- **Price priority.**  Where an order trades, an order of its direction with a lower limit that
allows partial fills is exhausted: it is sold out if it sells the smaller mint, and what is left of
it buys no unit at its limit if it sells the larger. -/
theorem price_priority : ∀ s ∈ orders, ∀ t ∈ orders, s.order.sellMint = t.order.sellMint →
    s.order.buyMint = t.order.buyMint → s.order.limitPrice.toRat < t.order.limitPrice.toRat →
    s.order.partialFill = true →
    (∃ e ∈ (matchBatch P env cfg id solver orders).trades, e.orderId = t.order.id P) →
    (s.order.sellMint < s.order.buyMint → ∃ e ∈ (matchBatch P env cfg id solver orders).trades,
      e.orderId = s.order.id P ∧ e.executedSell = s.order.sellAmount) ∧
    (s.order.buyMint < s.order.sellMint →
      (matchBatch P env cfg id solver orders).unsold P s.order * s.order.buyAmount.toNat /
        s.order.sellAmount.toNat = 0) := by
  intro s hs t ht hsell hbuy hlt hp htr
  refine ⟨fun hm => ?_, fun hm => ?_⟩
  · have hx := mem_abSide_of_lt hs hm
    have hy := mem_abSide_of_lt ht (by rwa [← hsell, ← hbuy])
    rw [← hsell, ← hbuy] at hy
    obtain ⟨k, hk⟩ := List.get_of_mem hx
    obtain ⟨l, hl⟩ := List.get_of_mem hy
    have h0 := sold_out_of_lt env cfg id solver hid (k := k) (l := l) (by rwa [hk, hl])
      (by rwa [hk]) (by rwa [hl])
    have hsum := (ledger orders _).a_sum k
    rw [h0, Nat.zero_add, hk] at hsum
    -- it sells something, so it has a fill, and the fill a trade
    have hpos := (hv.wellFormed (mem_abSide hx).1).sell_pos
    obtain ⟨f, hf, rfl⟩ := exists_fill (by rw [hsum]; exact hpos.ne')
    obtain ⟨e, he, hto, hv⟩ := (mem_sales_ab env cfg id solver hid hx).mp
      (mem_sales.mpr ⟨f, hf, hk.symm, rfl⟩)
    exact ⟨e, he, hto, UInt64.toNat_inj.mp (hv.trans hsum)⟩
  · have hx := mem_baSide_of_lt hs hm
    have hy := mem_baSide_of_lt ht (by rwa [← hsell, ← hbuy])
    rw [← hsell, ← hbuy] at hy
    obtain ⟨k, hk⟩ := List.get_of_mem hx
    obtain ⟨l, hl⟩ := List.get_of_mem hy
    have h0 := dust_of_lt env cfg id solver hid (k := k) (l := l) (by rwa [hk, hl])
      (by rwa [hk]) (by rwa [hl])
    rw [← unsold_ba env cfg id solver hid, hk] at h0
    rw [aCapacity_eq ((Solution.unsold_le _ _ _).trans (toNat_le_u64Max _)),
      max_eq_left (hv.wellFormed (mem_baSide hx).1).sell_pos] at h0
    exact h0

end

namespace Sample

/-- The traders' data and the digest of `bob500`. -/
def primitives500 : Primitives :=
  primitivesWith
    [(bob500, .ofNat 32 0xba9d5692f3c1a225aaf07c5d6e0ed643702b64d18b4cd689a0544f9c0cf49c85)]

end Sample

section
open Sample

/-- alice's 100 A at 2 B are traded, so her 100 A at 1.5 B are sold out. -/
theorem price_priority_three : ∃ e ∈ (matchBatch primitives500 .insertion ⟨true⟩ ⟨.replicate 16 0⟩
    .zero [sign alice150, sign alice200, sign bob500]).trades,
      e.orderId = alice150.id primitives500 ∧ e.executedSell = alice150.sellAmount :=
  have hlt : alice150.limitPrice.toRat < alice200.limitPrice.toRat := by
    rw [← not_le, Price.toRat_le_iff]
    decide
  (price_priority .insertion ⟨true⟩ ⟨.replicate 16 0⟩ .zero
    (show Validated [sign alice150, sign alice200, sign bob500] from
      fun s hs => ⟨0, by revert s; decide +kernel⟩)
    (by decide +kernel) (sign alice150) (by simp) (sign alice200) (by simp) rfl rfl hlt rfl
    ⟨⟨alice200.id primitives500, 100, 225⟩, by decide +kernel, rfl⟩).1 (by decide)

end

end OxDex
