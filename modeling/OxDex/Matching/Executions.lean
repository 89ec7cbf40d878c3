import OxDex.Matching.Limits
import OxDex.Matching.Score

/-!
# Matching — Executions

What re-pricing makes of the fills of an order.

An order that sold `sold` over all its fills is paid `price.apply sold`, rounded down, whatever its
fills were booked at, and whatever its `kind`.

The loop passes over fills of no A, but not over fills of no B, and the payout can round down to
nothing.  So trades can be empty on either leg (`empty_executions`); none is if and only if what
every filled order sold is worth a unit at the uniform price (`noEmpty_iff_worth`).
-/

namespace OxDex
open Support

/-! ### Filled orders -/

/-- The loop of its pair leaves the order `o` with fills: it sold `sold` over all of them, and
`price` is the pair's uniform price for it, what it buys per what it sells. -/
def Filled (orders : List SignedOrder) (o : Order) (price : Price) (sold : Nat) : Prop :=
  ∃ (m : Address × Address) (h : (pairFills orders m).fillsAb ≠ []),
    (∃ f ∈ (pairFills orders m).fillsAb, o = (abSide orders m).get f.idx ∧
      price = (pairFills orders m).price h ∧ sold = soldOf (pairFills orders m).fillsAb f.idx) ∨
    ∃ g ∈ (pairFills orders m).fillsBa, o = (baSide orders m).get g.idx ∧
      price = reciprocal ((pairFills orders m).price h) ∧
      sold = soldOf (pairFills orders m).fillsBa g.idx

theorem Filled.mem {orders : List SignedOrder} {o : Order} {price : Price} {sold : Nat}
    (h : Filled orders o price sold) : ∃ s ∈ orders, s.order = o := by
  obtain ⟨m, -, ⟨f, -, rfl, -⟩ | ⟨g, -, rfl, -⟩⟩ := h
  · exact (mem_abSide (List.get_mem (abSide orders m) f.idx)).1
  · exact (mem_baSide (List.get_mem (baSide orders m) g.idx)).1

theorem Filled.sold_le {orders : List SignedOrder} {o : Order} {price : Price} {sold : Nat}
    (h : Filled orders o price sold) : sold ≤ o.sellAmount.toNat := by
  obtain ⟨m, hf, ⟨f, -, rfl, -, rfl⟩ | ⟨g, -, rfl, -, rfl⟩⟩ := h
  · exact soldOf_ab_le _
  · exact soldOf_ba_le _

section
variable (P : Primitives) (env : HashOrders) (cfg : MatcherConfig) (id : BatchId)
  (solver : Address) {orders : List SignedOrder}

/-- **The trades of a solution** are the executions of the filled orders. -/
theorem mem_trades_filled {t : TradeExecution} :
    t ∈ (matchBatch P env cfg id solver orders).trades ↔
      ∃ o price sold, Filled orders o price sold ∧ t = execution P price o sold := by
  rw [mem_trades P env cfg id solver]
  constructor
  · rintro ⟨m, h, ⟨f, hf, rfl⟩ | ⟨g, hg, rfl⟩⟩
    · exact ⟨_, _, _, ⟨m, h, .inl ⟨f, hf, rfl, rfl, rfl⟩⟩, rfl⟩
    · exact ⟨_, _, _, ⟨m, h, .inr ⟨g, hg, rfl, rfl, rfl⟩⟩, rfl⟩
  · rintro ⟨o, price, sold, ⟨m, h, ⟨f, hf, ho, hp, hs⟩ | ⟨g, hg, ho, hp, hs⟩⟩, rfl⟩
    · exact ⟨m, h, .inl ⟨f, hf, by rw [ho, hp, hs]⟩⟩
    · exact ⟨m, h, .inr ⟨g, hg, by rw [ho, hp, hs]⟩⟩

end

/-! ### No empty execution -/

/-- What an order sold is worth at least one unit at `price`. -/
def Worth (price : Price) (sold : Nat) : Prop := price.den ≤ sold * price.num

/-- **A payout is positive** if and only if what was sold is worth a unit. -/
theorem apply_pos_iff (price : Price) (sold : Nat) : 0 < price.apply sold ↔ Worth price sold := by
  rw [Worth]
  by_cases h : sold * price.num ≤ u128Max
  · rw [Price.apply_eq h, Nat.div_pos_iff]
    exact ⟨fun hp => hp.2, fun hw => ⟨price.den_pos, hw⟩⟩
  · -- `apply` saturates, and the product is larger than any denominator
    have h := not_le.mp h
    rw [Price.apply_of_overflow h]
    exact iff_of_true (by decide) (price.den_le.trans h.le)

theorem clampU64_pos_iff {v : Nat} : 0 < clampU64 v ↔ 0 < v := by
  rw [UInt64.lt_iff_toNat_lt, clampU64_toNat]
  show 0 < min v u64Max ↔ 0 < v
  rw [lt_min_iff]
  exact and_iff_left (by decide)

/-- An execution is empty on neither leg if and only if what was sold is worth a unit. -/
theorem execution_pos_iff (P : Primitives) (price : Price) (o : Order) (sold : Nat) :
    0 < (execution P price o sold).executedSell ∧ 0 < (execution P price o sold).executedBuy ↔
      Worth price sold := by
  simp only [execution]
  rw [clampU64_pos_iff, clampU64_pos_iff, apply_pos_iff]
  refine and_iff_right_of_imp fun hw => ?_
  by_contra h0
  rw [Worth, Nat.eq_zero_of_not_pos h0, Nat.zero_mul] at hw
  exact absurd price.den_pos (not_lt.mpr hw)

/-- No trade of the solution is empty on either leg. -/
def NoEmpty (sol : Solution) : Prop := ∀ t ∈ sol.trades, 0 < t.executedSell ∧ 0 < t.executedBuy

/-- No execution is empty if and only if what every filled order sold is worth a unit of what it
buys, at the uniform price of its pair. -/
theorem noEmpty_iff_worth (P : Primitives) (env : HashOrders) (cfg : MatcherConfig) (id : BatchId)
    (solver : Address) (orders : List SignedOrder) :
    NoEmpty (matchBatch P env cfg id solver orders) ↔
      ∀ o price sold, Filled orders o price sold → Worth price sold := by
  constructor
  · intro h o price sold hf
    exact (execution_pos_iff P price o sold).mp
      (h _ ((mem_trades_filled P env cfg id solver).mpr ⟨o, price, sold, hf, rfl⟩))
  · intro h t ht
    obtain ⟨o, price, sold, hf, rfl⟩ := (mem_trades_filled P env cfg id solver).mp ht
    exact (execution_pos_iff P price o sold).mpr (h o price sold hf)

namespace Sample

/-- Sells 4 A for at least 1 B. -/
def alice4 : Order := order alice mintA mintB 4 1 Int64.maxValue

/-- Sells 1 B for at least 3 A. -/
def bob1 : Order := order bob mintB mintA 1 3 Int64.maxValue

/-- The same again. -/
def bobAgain : Order := { bob1 with nonce := 1 }

/-- The traders' data and the digests of these orders. -/
def primitivesSmall : Primitives :=
  primitivesWith
    [(alice4, .ofNat 32 0xa65cc0a4bd91778c5242781f832b5eb53c5839d75807749e1c5407aa5041196a),
      (bob1, .ofNat 32 0x5a9a8ceab28cf2021352e3129fec1d1278558a8de2e8ae613b4194398290e24f),
      (bobAgain, .ofNat 32 0x36d7dcd62ca0ae8c5e2ddd99930a1fef80150827f6f1fca95ecc950c1bda99cb)]

end Sample

section
open Sample

/-- **Empty executions.**  alice's last unit of A meets bob's second order, whose price for it
rounds down to no B: the order trades nothing for nothing.  Without that order alice's 3 A are sold
for no B. -/
theorem empty_executions :
    (∀ s ∈ [sign alice4, sign bob1, sign bobAgain], s.order.validate 0 = .ok ()) ∧
      ⟨bobAgain.id primitivesSmall, 0, 0⟩ ∈ (matchBatch primitivesSmall .insertion ⟨true⟩
        ⟨.replicate 16 0⟩ .zero [sign alice4, sign bob1, sign bobAgain]).trades ∧
      ⟨alice4.id primitivesSmall, 3, 0⟩ ∈ (matchBatch primitivesSmall .insertion ⟨true⟩
        ⟨.replicate 16 0⟩ .zero [sign alice4, sign bob1]).trades ∧
      ¬ NoEmpty (matchBatch primitivesSmall .insertion ⟨true⟩ ⟨.replicate 16 0⟩ .zero
        [sign alice4, sign bob1, sign bobAgain]) := by
  have hempty : ⟨bobAgain.id primitivesSmall, 0, 0⟩ ∈ (matchBatch primitivesSmall .insertion ⟨true⟩
      ⟨.replicate 16 0⟩ .zero [sign alice4, sign bob1, sign bobAgain]).trades := by decide +kernel
  exact ⟨by decide +kernel, hempty, by decide +kernel, fun h => absurd (h _ hempty).1 (by decide)⟩

end

end OxDex
