import OxDex.Matching.Executions
import OxDex.Matching.Iterations

/-!
# Matching — ExactOut

Whether exact-out orders are over-bought.

The loop never reads `kind`, and an exact-out order is paid all that its sold input is worth.

* One that is sold out gets no more than it asked for, and needed all of its input, if and only if
  its improvement is worth less than one unit (`Tight`): its own amounts and the price decide.
* One that keeps some of its input gets no more if what it had sold by its last fill is worth no
  more (`AtMostAsked`).

So no exact-out order is over-bought if and only if no iteration books a fill that breaks this at
one of its heads (`exactOut_iff`).
-/

namespace OxDex
open Support

/-! ### What an exact-out order may sell -/

/-- One unit of input less than the order sells would still buy what it asks for, at `price`. -/
def Spare (price : Price) (o : Order) : Prop :=
  o.buyAmount.toNat ≤ (o.sellAmount.toNat - 1) * price.num / price.den

/-- **Exact-out orders are not over-bought**: the trade of one buys no more than the order asks for,
and does not sell all of an input of which some was not needed. -/
def ExactOut (P : Primitives) (orders : List SignedOrder) (sol : Solution) : Prop :=
  ∀ t ∈ sol.trades, ∀ o price sold, Filled orders o price sold → t = execution P price o sold →
    o.kind = .buy →
      t.executedBuy ≤ o.buyAmount ∧ (Spare price o → t.executedSell ≠ o.sellAmount)

/-- `sold` units are worth less than one unit more than the order asks for, at `price`, or it asks
for `u64::MAX`. -/
def AtMostAsked (price : Price) (o : Order) (sold : Nat) : Prop :=
  o.buyAmount.toNat = u64Max ∨
    sold * price.num ≤ u128Max ∧ sold * price.num < (o.buyAmount.toNat + 1) * price.den

/-- The whole input of the order is worth less than one unit more than it asks for, and one unit of
input less is worth less than it asks for. -/
structure Tight (price : Price) (o : Order) : Prop where
  worth : AtMostAsked price o o.sellAmount.toNat
  needed : (o.sellAmount.toNat - 1) * price.num < o.buyAmount.toNat * price.den

/-- A fill of `trade` units does not over-buy a head that has `left` units: if it sells the rest,
the order is tight, and otherwise what the order has sold with it is worth no more than it asks
for. -/
def FillFits (price : Price) (o : Order) (left trade : Nat) : Prop :=
  if trade = left then Tight price o
  else AtMostAsked price o (o.sellAmount.toNat - left + trade)

/-- No iteration of the pair's loop books a fill that over-buys an exact-out head, at `price`. -/
def BuyersFit (orders : List SignedOrder) (m : Address × Address) (price : Price) : Prop :=
  ∀ s i j, Loop.Visits (turn (abSide orders m) (baSide orders m)) (.init _ _) s → s.Books i j →
    (((abSide orders m).get i).kind = .buy →
      FillFits price ((abSide orders m).get i) (s.aRemaining.get i) (s.tradeA i j)) ∧
    (((baSide orders m).get j).kind = .buy →
      FillFits (reciprocal price) ((baSide orders m).get j) (s.bRemaining.get j) (s.tradeB i j))

section
variable {price : Price} {o : Order}

theorem AtMostAsked.mono {sold sold' : Nat} (h : AtMostAsked price o sold) (hle : sold' ≤ sold) :
    AtMostAsked price o sold' := by
  have hmul := Nat.mul_le_mul_right price.num hle
  exact h.imp_right fun h => ⟨hmul.trans h.1, hmul.trans_lt h.2⟩

/-- A payout is at most what the order asks for if and only if the exact one is, and does not
overflow. -/
theorem clamp_apply_le_iff {sold : Nat} :
    clampU64 (price.apply sold) ≤ o.buyAmount ↔ AtMostAsked price o sold := by
  have hle := toNat_le_u64Max o.buyAmount
  rw [UInt64.le_iff_toNat_le, clampU64_toNat, min_le_iff, AtMostAsked]
  by_cases h : sold * price.num ≤ u128Max
  · rw [Price.apply_eq h, ← Nat.lt_succ_iff, Nat.div_lt_iff_lt_mul price.den_pos]
    constructor
    · rintro (hlt | hmax)
      · exact .inr ⟨h, hlt⟩
      · exact .inl (hle.antisymm hmax)
    · rintro (hmax | ⟨-, hlt⟩)
      · exact .inr hmax.ge
      · exact .inl hlt
  · have hbig : u64Max < u128Max := by decide
    rw [Price.apply_of_overflow (not_le.mp h)]
    constructor
    · rintro (hlt | hmax)
      · omega
      · exact .inl (hle.antisymm hmax)
    · rintro (hmax | ⟨hno, -⟩)
      · exact .inr hmax.ge
      · exact absurd hno h

theorem not_spare_iff : ¬ Spare price o ↔
    (o.sellAmount.toNat - 1) * price.num < o.buyAmount.toNat * price.den := by
  rw [Spare, Nat.le_div_iff_mul_le price.den_pos, not_le]

/-- What the order sold is worth no more than it asks for, and where it is sold out, one unit of
input less would be worth less. -/
structure JustEnough (price : Price) (o : Order) (sold : Nat) : Prop where
  worth : AtMostAsked price o sold
  needed : sold = o.sellAmount.toNat →
    (o.sellAmount.toNat - 1) * price.num < o.buyAmount.toNat * price.den

/-- Less is just enough, too. -/
theorem JustEnough.mono {sold sold' : Nat} (h : JustEnough price o sold) (hle : sold' ≤ sold)
    (hsell : sold ≤ o.sellAmount.toNat) : JustEnough price o sold' :=
  ⟨h.worth.mono hle, fun hs => h.needed (hsell.antisymm (hs.ge.trans hle))⟩

theorem Tight.justEnough (h : Tight price o) {sold : Nat} (hle : sold ≤ o.sellAmount.toNat) :
    JustEnough price o sold :=
  ⟨h.worth.mono hle, fun _ => h.needed⟩

/-- A fill fits if and only if what has been sold with it is just enough. -/
theorem fillFits_iff {left trade : Nat} (hleft : left ≤ o.sellAmount.toNat) (ht : trade ≤ left) :
    FillFits price o left trade ↔ JustEnough price o (o.sellAmount.toNat - left + trade) := by
  rw [FillFits]
  split
  · next heq =>
      rw [heq, Nat.sub_add_cancel hleft]
      exact ⟨fun h => ⟨h.worth, fun _ => h.needed⟩, fun h => ⟨h.worth, h.needed rfl⟩⟩
  · next hne =>
      have hlt := lt_of_le_of_ne ht hne
      exact ⟨fun h => ⟨h, fun hs => absurd hs (by omega)⟩, fun h => h.worth⟩

end

/-! ### The last fill of an order -/

section
variable {aToB bToA : List Order} {s : MatchState aToB bToA}

/-- Where the fills of a side grow one at a time, what an order has sold is what it had before the
last of its fills, and that fill. -/
theorem sold_by {n : Nat} {fills : MatchState aToB bToA → List (Fill n)}
    {Q : MatchState aToB bToA → Fill n → Prop} (h₀ : fills (.init aToB bToA) = [])
    (hstep : ∀ s s', Ledger s → turn aToB bToA s = some s' →
      fills s' = fills s ∨ ∃ g, Q s g ∧ fills s' = fills s ++ [g])
    (hv : Loop.Visits (turn aToB bToA) (.init aToB bToA) s) : ∀ f ∈ fills s,
      ∃ s₀ g, Loop.Visits (turn aToB bToA) (.init aToB bToA) s₀ ∧ Q s₀ g ∧ g.idx = f.idx ∧
        soldOf (fills s) f.idx = soldOf (fills s₀) f.idx + g.sold := by
  induction hv with
  | start =>
      intro f hf
      rw [h₀] at hf
      exact absurd hf List.not_mem_nil
  | @next s s' hv ht ih =>
      rcases hstep s s' (ledger_visits hv) ht with he | ⟨g, hg, he⟩
      · rw [he]
        exact ih
      · intro f hf
        rw [he] at hf
        rw [he, soldOf_concat]
        by_cases hi : g.idx = f.idx
        · exact ⟨s, g, hv, hg, hi, by rw [if_pos hi]⟩
        · rw [if_neg hi]
          rcases List.mem_append.mp hf with hf | hf
          · exact ih f hf
          · exact absurd (List.mem_singleton.mp hf ▸ rfl) hi

variable (hv : Loop.Visits (turn aToB bToA) (.init aToB bToA) s)
include hv

/-- What an A→B order has sold is what it had before the last of its fills, and that fill. -/
theorem sold_by_ab {f : Fill aToB.length} (hf : f ∈ s.fillsAb) :
    ∃ s₀ j, Loop.Visits (turn aToB bToA) (.init aToB bToA) s₀ ∧ s₀.Books f.idx j ∧
      soldOf s.fillsAb f.idx = soldOf s₀.fillsAb f.idx + s₀.tradeA f.idx j := by
  obtain ⟨s₀, g, hv₀, ⟨i, j, hbook, rfl⟩, hi, hsold⟩ := sold_by
    (Q := fun s g => ∃ i j, s.Books i j ∧ g = ⟨i, s.tradeA i j, s.tradeB i j⟩) rfl
    (fun s s' hs ht => (turn_books hs ht).imp And.left
      fun ⟨i, j, hbook, ha, _⟩ => ⟨_, ⟨i, j, hbook, rfl⟩, ha⟩) hv f hf
  obtain rfl : i = f.idx := hi
  exact ⟨s₀, j, hv₀, hbook, hsold⟩

/-- The same of a B→A order. -/
theorem sold_by_ba {g : Fill bToA.length} (hg : g ∈ s.fillsBa) :
    ∃ s₀ i, Loop.Visits (turn aToB bToA) (.init aToB bToA) s₀ ∧ s₀.Books i g.idx ∧
      soldOf s.fillsBa g.idx = soldOf s₀.fillsBa g.idx + s₀.tradeB i g.idx := by
  obtain ⟨s₀, f, hv₀, ⟨i, j, hbook, rfl⟩, hj, hsold⟩ := sold_by
    (Q := fun s f => ∃ i j, s.Books i j ∧ f = ⟨j, s.tradeB i j, s.tradeA i j⟩) rfl
    (fun s s' hs ht => (turn_books hs ht).imp And.right
      fun ⟨i, j, hbook, _, hb⟩ => ⟨_, ⟨i, j, hbook, rfl⟩, hb⟩) hv g hg
  obtain rfl : j = g.idx := hj
  exact ⟨s₀, i, hv₀, hbook, hsold⟩

end

/-- What the heads of a booked fill have sold with it, the loop leaves them sold. -/
theorem MatchState.Books.sold_le {aToB bToA : List Order} {s : MatchState aToB bToA}
    {i : Fin aToB.length} {j : Fin bToA.length} (h : s.Books i j)
    (hv : Loop.Visits (turn aToB bToA) (.init aToB bToA) s) :
    (aToB.get i).sellAmount.toNat - s.aRemaining.get i + s.tradeA i j ≤
        soldOf (fillLoop aToB bToA).fillsAb i ∧
      (bToA.get j).sellAmount.toNat - s.bRemaining.get j + s.tradeB i j ≤
        soldOf (fillLoop aToB bToA).fillsBa j := by
  have hs := ledger_visits hv
  obtain ⟨s', ht, ha, hb⟩ := books_turn hs h
  obtain ⟨hpa, hpb⟩ := fills_kept (hv.next ht)
  have hia := soldOf_mono hpa i
  have hjb := soldOf_mono hpb j
  rw [ha, soldOf_concat, if_pos rfl] at hia
  rw [hb, soldOf_concat, if_pos rfl] at hjb
  rw [← hs.a_sum i, ← hs.b_sum j, Nat.add_sub_cancel_left, Nat.add_sub_cancel_left]
  exact ⟨hia, hjb⟩

/-! ### Exact-out orders -/

section
variable (P : Primitives) (env : HashOrders) (cfg : MatcherConfig) (id : BatchId)
  (solver : Address) (orders : List SignedOrder)

/-- No exact-out order is over-bought if and only if what each of them sold is just enough at the
uniform price of its pair. -/
theorem exactOut_iff_justEnough : ExactOut P orders (matchBatch P env cfg id solver orders) ↔
    ∀ o price sold, Filled orders o price sold → o.kind = .buy → JustEnough price o sold := by
  have sells : ∀ {o price sold}, Filled orders o price sold →
      ((execution P price o sold).executedSell = o.sellAmount ↔ sold = o.sellAmount.toNat) := by
    intro o price sold hf
    rw [← UInt64.toNat_inj]
    simp only [execution]
    rw [clampU64_eq (hf.sold_le.trans (toNat_le_u64Max _))]
  constructor
  · intro h o price sold hf hk
    obtain ⟨hbuy, hkeep⟩ := h _ ((mem_trades_filled P env cfg id solver).mpr
      ⟨o, price, sold, hf, rfl⟩) o price sold hf rfl hk
    exact ⟨clamp_apply_le_iff.mp hbuy,
      fun hs => not_spare_iff.mp fun hsp => hkeep hsp ((sells hf).mpr hs)⟩
  · rintro h _ - o price sold hf rfl hk
    have hj := h o price sold hf hk
    exact ⟨clamp_apply_le_iff.mpr hj.worth,
      fun hsp hs => not_spare_iff.mpr (hj.needed ((sells hf).mp hs)) hsp⟩

variable {orders}

/-- **A batch whose exact-out orders are all tight** at the midpoint of the limits that crossed last
in their pair has none that is over-bought. -/
theorem exactOut_of_tight (h : ∀ m x y, CrossedLast orders m x y → ∀ o, o.kind = .buy →
    (o ∈ abSide orders m → o.limitPrice ≤ x.limitPrice →
      Tight (clearingPrice x.limitPrice y.limitPrice) o) ∧
    (o ∈ baSide orders m → o.limitPrice ≤ y.limitPrice →
      Tight (reciprocal (clearingPrice x.limitPrice y.limitPrice)) o)) :
    ExactOut P orders (matchBatch P env cfg id solver orders) := by
  rw [exactOut_iff_justEnough]
  rintro o price sold ⟨m, hne, hside⟩ hk
  obtain ⟨x, y, hxy, -, hxs, hys⟩ := exists_crossedLast hne
  rcases hside with ⟨f, hf, rfl, rfl, rfl⟩ | ⟨g, hg, rfl, rfl, rfl⟩
  · rw [hxy.price_eq hne]
    exact ((h m x y hxy _ hk).1 (List.get_mem _ _) (hxs f hf)).justEnough (soldOf_ab_le _)
  · rw [hxy.price_eq hne]
    exact ((h m x y hxy _ hk).2 (List.get_mem _ _) (hys g hg)).justEnough (soldOf_ba_le _)

end

/-- A batch of exact-in orders has none that is over-bought. -/
theorem exactOut_of_sell (P : Primitives) (env : HashOrders) (cfg : MatcherConfig) (id : BatchId)
    (solver : Address) {orders : List SignedOrder} (h : ∀ s ∈ orders, s.order.kind = .sell) :
    ExactOut P orders (matchBatch P env cfg id solver orders) := by
  have sells : ∀ o, (∃ s ∈ orders, s.order = o) → o.kind ≠ .buy := by
    rintro o ⟨s, hs, rfl⟩ hk
    exact absurd ((h s hs).symm.trans hk) (by decide)
  refine exactOut_of_tight P env cfg id solver fun m x y _ o hk => ⟨fun ho _ => ?_, fun ho _ => ?_⟩
  · exact absurd hk (sells o (mem_abSide ho).1)
  · exact absurd hk (sells o (mem_baSide ho).1)

namespace Sample

/-- Sells up to 100 A for exactly 150 B. -/
def aliceBuys : Order := { alice150 with kind := .buy }

/-- The traders' data and the digest of `aliceBuys`. -/
def primitivesBuys : Primitives :=
  primitivesWith
    [(aliceBuys, .ofNat 32 0xc1c239b33fa8971e498082ef4a32407736a6df414046a7d26fc28a679d5299b2)]

end Sample

end OxDex
