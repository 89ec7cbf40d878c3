import OxDex.Matching.Limits
import OxDex.Matching.Walk

/-!
# Matching — Uniform

Whether a solution has one price a mint.

Each pair that trades contributes a price for either of its mints, and the lists are concatenated.
A mint of two trading pairs then has two prices, and `price_of` finds the first.  So the prices are
uniform over the batch exactly when no mint belongs to two trading pairs (`uniformPrices_iff`);
`uniform_fails` is a batch of four orders where they are not.
-/

namespace OxDex
open Support

/-- A trade of `sol` is for an order that sells or buys `mint`. -/
def References (P : Primitives) (orders : List SignedOrder) (sol : Solution) (mint : Address) :
    Prop :=
  ∃ s ∈ orders, ∃ t ∈ sol.trades, t.orderId = s.order.id P ∧
    (s.order.sellMint = mint ∨ s.order.buyMint = mint)

/-- **Uniform clearing prices over the batch**: one price for every mint a trade references, and
every trade is paid out at the price `price_of` finds. -/
structure UniformPrices (P : Primitives) (orders : List SignedOrder) (sol : Solution) : Prop where
  nodup : (sol.clearingPrices.map ClearingPrice.mint).Nodup
  mints : ∀ mint, mint ∈ sol.clearingPrices.map ClearingPrice.mint ↔ References P orders sol mint
  paid : ∀ s ∈ orders, ∀ t ∈ sol.trades, t.orderId = s.order.id P →
    ∃ p, sol.priceOf s.order.buyMint = some p ∧
      t.executedBuy = clampU64 (p.apply t.executedSell.toNat)

/-- A pair of a batch trades. -/
def PairTrades (orders : List SignedOrder) (m : Address × Address) : Prop :=
  Trades (abSide orders m) (baSide orders m)

/-- Two pairs have a mint in common. -/
def SharesMint (m m' : Address × Address) : Prop :=
  m.1 = m'.1 ∨ m.1 = m'.2 ∨ m.2 = m'.1 ∨ m.2 = m'.2

/-- No mint belongs to two pairs that trade. -/
def TradingPairsDisjoint (orders : List SignedOrder) : Prop :=
  ∀ m m', PairTrades orders m → PairTrades orders m' → SharesMint m m' → m = m'

/-- With one price a mint, `price_of` finds every price. -/
theorem priceOf_of_mem {sol : Solution} (h : (sol.clearingPrices.map ClearingPrice.mint).Nodup)
    {c : ClearingPrice} (hc : c ∈ sol.clearingPrices) : sol.priceOf c.mint = some c.price := by
  unfold Solution.priceOf
  cases hf : sol.clearingPrices.find? fun d => d.mint = c.mint with
  | none => exact absurd (List.find?_eq_none.mp hf c hc) (by simp)
  | some d =>
      have hm : d.mint = c.mint := by simpa using List.find?_some hf
      rw [List.inj_on_of_nodup_map h (List.mem_of_find?_eq_some hf) hc hm]
      rfl

section
variable {orders : List SignedOrder} {m : Address × Address}

/-- **A pair has fills if and only if it trades.** -/
theorem pairFills_iff (hv : Validated orders) :
    (pairFills orders m).fillsAb ≠ [] ↔ PairTrades orders m :=
  fillLoop_trades (fun _ ho => hv.wellFormed (mem_abSide ho).1)
    fun _ ho => hv.wellFormed (mem_baSide ho).1

/-- A pair that trades has an order that sells its first mint and buys its second. -/
theorem PairTrades.exists_order (h : PairTrades orders m) :
    ∃ s ∈ orders, s.order ∈ abSide orders m ∧ s.order.sellMint = m.1 ∧ s.order.buyMint = m.2 := by
  obtain ⟨o, ho⟩ := List.exists_mem_of_ne_nil _ h.ne_nil.1
  obtain ⟨⟨s, hs, rfl⟩, -, hm⟩ := mem_abSide ho
  exact ⟨s, hs, ho, hm⟩

/-- A batch of a single pair has no mint in two pairs. -/
theorem tradingPairsDisjoint_of_pair (h : ∀ s ∈ orders, s.order.pair = m) :
    TradingPairsDisjoint orders := by
  have key : ∀ {m'}, PairTrades orders m' → m' = m := by
    intro m' ht
    obtain ⟨s, hs, ho, -⟩ := ht.exists_order
    exact (mem_abSide ho).2.1.symm.trans (h s hs)
  exact fun m₁ m₂ h₁ h₂ _ => (key h₁).trans (key h₂).symm

variable (P : Primitives) (env : HashOrders) (cfg : MatcherConfig) (id : BatchId)
  (solver : Address)

/-- The clearing prices of a pair. -/
theorem mem_clearing {c : ClearingPrice} :
    c ∈ (matchPair P env m.1 m.2 (pairOrders orders m)).clearing ↔
      ∃ h : (pairFills orders m).fillsAb ≠ [],
        c = ⟨m.1, reciprocal ((pairFills orders m).price h)⟩ ∨
        c = ⟨m.2, (pairFills orders m).price h⟩ := by
  rw [matchPair_eq]
  by_cases h : (pairFills orders m).fillsAb = []
  · simp [h, PairOutcome.nothing]
  · rw [dif_neg h, settle, List.mem_cons, List.mem_singleton]
    constructor
    · exact fun hc => ⟨h, hc⟩
    · rintro ⟨_, hc⟩
      exact hc

theorem mem_clearingPrices {c : ClearingPrice} :
    c ∈ (matchBatch P env cfg id solver orders).clearingPrices ↔
      ∃ (m : Address × Address) (h : (pairFills orders m).fillsAb ≠ []),
        c = ⟨m.1, reciprocal ((pairFills orders m).price h)⟩ ∨
        c = ⟨m.2, (pairFills orders m).price h⟩ := by
  rw [(clearingPrices_perm P env cfg id solver orders).mem_iff, List.mem_flatMap]
  constructor
  · rintro ⟨m, -, hc⟩
    exact ⟨m, (mem_clearing P env).mp hc⟩
  · rintro ⟨m, h, hc⟩
    exact ⟨m, mem_markets_of_fills h, (mem_clearing P env).mpr ⟨h, hc⟩⟩

/-- The mints a pair prices. -/
theorem clearing_mints (hv : Validated orders) (a : Address) :
    a ∈ (matchPair P env m.1 m.2 (pairOrders orders m)).clearing.map ClearingPrice.mint ↔
      PairTrades orders m ∧ (a = m.1 ∨ a = m.2) := by
  rw [List.mem_map, ← pairFills_iff hv]
  constructor
  · rintro ⟨c, hc, rfl⟩
    obtain ⟨h, rfl | rfl⟩ := (mem_clearing P env).mp hc
    · exact ⟨h, .inl rfl⟩
    · exact ⟨h, .inr rfl⟩
  · rintro ⟨h, rfl | rfl⟩
    · exact ⟨_, (mem_clearing P env).mpr ⟨h, .inl rfl⟩, rfl⟩
    · exact ⟨_, (mem_clearing P env).mpr ⟨h, .inr rfl⟩, rfl⟩

theorem clearing_mints_nodup (hv : Validated orders) :
    ((matchPair P env m.1 m.2 (pairOrders orders m)).clearing.map ClearingPrice.mint).Nodup := by
  rw [matchPair_eq]
  split
  · exact List.nodup_nil
  · next h =>
      obtain ⟨s, hs, -, h₁, h₂⟩ := PairTrades.exists_order ((pairFills_iff hv).mp h)
      have hne := (hv.wellFormed ⟨s, hs, rfl⟩).mints
      rw [h₁, h₂] at hne
      simpa [settle] using hne

/-- **One price a mint** if and only if no mint belongs to two trading pairs. -/
theorem clearingPrices_nodup_iff (hv : Validated orders) :
    ((matchBatch P env cfg id solver orders).clearingPrices.map ClearingPrice.mint).Nodup ↔
      TradingPairsDisjoint orders := by
  rw [((clearingPrices_perm P env cfg id solver orders).map _).nodup_iff, List.map_flatMap,
    List.nodup_flatMap]
  constructor
  · rintro ⟨-, hp⟩ m m' hm hm' hsh
    by_contra hne
    have mk : ∀ {m}, PairTrades orders m → m ∈ markets orders := fun h =>
      mem_markets_of_fills ((pairFills_iff hv).mpr h)
    have : Std.Symm (Function.onFun List.Disjoint fun m : Address × Address =>
        (matchPair P env m.1 m.2 (pairOrders orders m)).clearing.map ClearingPrice.mint) :=
      ⟨fun _ _ h _ ha hb => h hb ha⟩
    have hd := hp.forall (mk hm) (mk hm') hne
    rcases hsh with e | e | e | e
    · exact hd ((clearing_mints P env hv m.1).mpr ⟨hm, .inl rfl⟩)
        ((clearing_mints P env hv m.1).mpr ⟨hm', .inl e⟩)
    · exact hd ((clearing_mints P env hv m.1).mpr ⟨hm, .inl rfl⟩)
        ((clearing_mints P env hv m.1).mpr ⟨hm', .inr e⟩)
    · exact hd ((clearing_mints P env hv m.2).mpr ⟨hm, .inr rfl⟩)
        ((clearing_mints P env hv m.2).mpr ⟨hm', .inl e⟩)
    · exact hd ((clearing_mints P env hv m.2).mpr ⟨hm, .inr rfl⟩)
        ((clearing_mints P env hv m.2).mpr ⟨hm', .inr e⟩)
  · intro hd
    refine ⟨fun m _ => clearing_mints_nodup P env hv, (markets_nodup orders).imp ?_⟩
    intro m m' hne a ha ha'
    obtain ⟨hm, ha⟩ := (clearing_mints P env hv a).mp ha
    obtain ⟨hm', ha'⟩ := (clearing_mints P env hv a).mp ha'
    refine hne (hd m m' hm hm' ?_)
    rcases ha with rfl | rfl <;> rcases ha' with e | e <;> simp [SharesMint, e]

/-- A trade of an order is paid out at the price its pair lists for the mint the order buys. -/
theorem trade_price (hn : NoCollision P orders) {s : SignedOrder} (hs : s ∈ orders)
    {t : TradeExecution} (ht : t ∈ (matchBatch P env cfg id solver orders).trades)
    (hid : t.orderId = s.order.id P) :
    ∃ (m : Address × Address) (_ : (pairFills orders m).fillsAb ≠ []) (p : Price),
      (s.order.sellMint = m.1 ∧ s.order.buyMint = m.2 ∨
        s.order.sellMint = m.2 ∧ s.order.buyMint = m.1) ∧
      ⟨s.order.buyMint, p⟩ ∈ (matchBatch P env cfg id solver orders).clearingPrices ∧
      t.executedBuy = clampU64 (p.apply t.executedSell.toNat) := by
  have pay : ∀ {o : Order} {p : Price} {sold : Nat}, sold ≤ o.sellAmount.toNat →
      (execution P p o sold).executedBuy =
        clampU64 (p.apply (execution P p o sold).executedSell.toNat) := by
    intro o p sold h
    show _ = clampU64 (p.apply (clampU64 sold).toNat)
    rw [clampU64_eq (h.trans (toNat_le_u64Max _))]
    rfl
  obtain ⟨m, h, ⟨f, -, rfl⟩ | ⟨g, -, rfl⟩⟩ := (mem_trades P env cfg id solver).mp ht
  · have ho := mem_abSide (List.get_mem (abSide orders m) f.idx)
    have hso : s.order = (abSide orders m).get f.idx := hn.order_eq hs ho.1 hid.symm
    rw [← hso] at ho
    refine ⟨m, h, _, .inl ho.2.2, ?_, pay (soldOf_ab_le _)⟩
    exact (mem_clearingPrices P env cfg id solver).mpr ⟨m, h, .inr (by rw [ho.2.2.2])⟩
  · have ho := mem_baSide (List.get_mem (baSide orders m) g.idx)
    have hso : s.order = (baSide orders m).get g.idx := hn.order_eq hs ho.1 hid.symm
    rw [← hso] at ho
    refine ⟨m, h, _, .inr ho.2.2, ?_, pay (soldOf_ba_le _)⟩
    exact (mem_clearingPrices P env cfg id solver).mpr ⟨m, h, .inl (by rw [ho.2.2.2])⟩

/-- **When the prices are uniform.** -/
theorem uniformPrices_iff (hv : Validated orders) (hn : NoCollision P orders) :
    UniformPrices P orders (matchBatch P env cfg id solver orders) ↔
      TradingPairsDisjoint orders := by
  rw [← clearingPrices_nodup_iff P env cfg id solver hv]
  refine ⟨UniformPrices.nodup, fun hd => ⟨hd, fun mint => ⟨?_, ?_⟩, ?_⟩⟩
  · intro hm
    obtain ⟨c, hc, rfl⟩ := List.mem_map.mp hm
    obtain ⟨m, h, hc⟩ := (mem_clearingPrices P env cfg id solver).mp hc
    -- the first fill of the pair names an order that sells one of its mints and buys the other
    obtain ⟨f, hf⟩ := List.exists_mem_of_ne_nil _ h
    have ho := mem_abSide (List.get_mem (abSide orders m) f.idx)
    obtain ⟨⟨s, hs, hso⟩, -, h₁, h₂⟩ := ho
    refine ⟨s, hs, _, (mem_trades P env cfg id solver).mpr ⟨m, h, .inl ⟨f, hf, rfl⟩⟩, ?_, ?_⟩
    · exact congrArg (Order.id P) hso.symm
    · rw [hso, h₁, h₂]
      rcases hc with rfl | rfl
      · exact .inl rfl
      · exact .inr rfl
  · rintro ⟨s, hs, t, ht, hid, hm⟩
    obtain ⟨m, h, p, hside, -, -⟩ := trade_price P env cfg id solver hn hs ht hid
    have key : mint = m.1 ∨ mint = m.2 := by
      rcases hside with ⟨h₁, h₂⟩ | ⟨h₁, h₂⟩ <;> rcases hm with rfl | rfl <;> simp [h₁, h₂]
    rcases key with rfl | rfl
    · exact List.mem_map.mpr ⟨_, (mem_clearingPrices P env cfg id solver).mpr ⟨m, h, .inl rfl⟩, rfl⟩
    · exact List.mem_map.mpr ⟨_, (mem_clearingPrices P env cfg id solver).mpr ⟨m, h, .inr rfl⟩, rfl⟩
  · intro s hs t ht hid
    obtain ⟨m, h, p, -, hp, hpay⟩ := trade_price P env cfg id solver hn hs ht hid
    exact ⟨p, priceOf_of_mem hd hp, hpay⟩

end

section
open Sample

/-- The two orders of a perfect match are paid out at uniform prices. -/
theorem uniformPrices_two : UniformPrices primitives [sign alice150, sign bob200]
    (matchBatch primitives .insertion ⟨true⟩ ⟨.replicate 16 0⟩ .zero
      [sign alice150, sign bob200]) :=
  (uniformPrices_iff primitives .insertion ⟨true⟩ ⟨.replicate 16 0⟩ .zero
    (show Validated [sign alice150, sign bob200] from
      fun s hs => ⟨0, by revert s; decide +kernel⟩)
    (by unfold NoCollision; decide +kernel)).mpr
    (tradingPairsDisjoint_of_pair (m := (mintA, mintB)) (by decide +kernel))

/-- **Two pairs with a mint in common**: A against B and A against C both trade, and A has two
prices. -/
theorem uniform_fails :
    (∀ s ∈ [sign alice150, sign bob200, sign aliceC, sign bobC], s.order.validate 0 = .ok ()) ∧
      ¬ UniformPrices primitives [sign alice150, sign bob200, sign aliceC, sign bobC]
        (matchBatch primitives .insertion ⟨true⟩ ⟨.replicate 16 0⟩ .zero
          [sign alice150, sign bob200, sign aliceC, sign bobC]) :=
  ⟨by decide +kernel, fun h => absurd h.nodup (by decide +kernel)⟩

end

end OxDex
