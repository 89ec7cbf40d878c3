import OxDex.Matching.Score

/-!
# Matching — Reproducible

Whether two solvers that run the engine on one batch return the same solution, vector for vector.

The trades of a pair are pushed in the iteration order of two hash maps, and the pairs come in the
order of a third.  So two runs agree exactly when there is nothing to rearrange: at most one pair
trades, and the orders of a side that trade all give one and the same trade (`reproducible_iff`).
With two trading pairs that share a mint even the answers of `price_of` differ
(`not_reproducible`).

The thread pool's `collect` is indexed: it keeps the order of the pairs (`KeepsOrder`).
-/

namespace OxDex
open Support

/-- The parallel map hands its results back in the order of its input. -/
def HashOrders.KeepsOrder (env : HashOrders) : Prop := ∀ l, env.collect.iter l = l

/-- **Reproducible**: the solution does not depend on the iteration orders. -/
def Reproducible (P : Primitives) (cfg : MatcherConfig) (id : BatchId) (solver : Address)
    (orders : List SignedOrder) : Prop :=
  ∀ env env' : HashOrders, env.KeepsOrder → env'.KeepsOrder →
    matchBatch P env cfg id solver orders = matchBatch P env' cfg id solver orders

/-- Two orders of a side have one identifier and sold the same. -/
def SameSale (P : Primitives) (side : List Order) (fills : List (Fill side.length))
    (k k' : Fin side.length) : Prop :=
  (side.get k).id P = (side.get k').id P ∧ soldOf fills k = soldOf fills k'

/-- At most one pair trades, and its sides have one trade each. -/
structure SingleSales (P : Primitives) (orders : List SignedOrder) : Prop where
  pair : ∀ m m', (pairFills orders m).fillsAb ≠ [] → (pairFills orders m').fillsAb ≠ [] → m = m'
  ab : ∀ m, ∀ f ∈ (pairFills orders m).fillsAb, ∀ g ∈ (pairFills orders m).fillsAb,
    SameSale P (abSide orders m) (pairFills orders m).fillsAb f.idx g.idx
  ba : ∀ m, ∀ f ∈ (pairFills orders m).fillsBa, ∀ g ∈ (pairFills orders m).fillsBa,
    SameSale P (baSide orders m) (pairFills orders m).fillsBa f.idx g.idx

section
variable {P : Primitives} {env env' : HashOrders} {orders : List SignedOrder}
  {m : Address × Address}

/-! ### The vectors of a solution -/

theorem groupByPair_nodup (orders : List SignedOrder) : (groupByPair orders).Nodup :=
  .of_map Prod.fst (tally_keys_nodup orders)

/-- The outcome of a group. -/
def groupOutcome (P : Primitives) (env : HashOrders) (p : (Address × Address) × List Order) :
    PairOutcome :=
  matchPair P env p.1.1 p.1.2 p.2

theorem mem_groupByPair {p : (Address × Address) × List Order} (hp : p ∈ groupByPair orders) :
    p = (p.1, pairOrders orders p.1) := by
  rw [groupByPair_eq] at hp
  obtain ⟨m, -, rfl⟩ := List.mem_map.mp hp
  rfl

theorem perPair_eq (h : env.KeepsOrder) (cfg : MatcherConfig)
    (pairs : List ((Address × Address) × List Order)) :
    perPair P env cfg pairs = pairs.map (groupOutcome P env) := by
  unfold perPair
  split
  · exact h _
  · rfl

section
variable (h : env.KeepsOrder) (cfg : MatcherConfig) (id : BatchId) (solver : Address)
  (orders : List SignedOrder)
include h

theorem trades_eq : (matchBatch P env cfg id solver orders).trades =
    (env.groups.iter (groupByPair orders)).flatMap fun p => (groupOutcome P env p).trades := by
  simp only [matchBatch, perPair_eq h]
  rw [List.flatMap_map]

theorem clearingPrices_eq : (matchBatch P env cfg id solver orders).clearingPrices =
    (env.groups.iter (groupByPair orders)).flatMap fun p => (groupOutcome P env p).clearing := by
  simp only [matchBatch, perPair_eq h]
  rw [List.flatMap_map]

end

/-- A group with fills is the group of its pair. -/
theorem group_mem (hm : (pairFills orders m).fillsAb ≠ []) :
    (m, pairOrders orders m) ∈ groupByPair orders := by
  rw [groupByPair_eq]
  exact List.mem_map_of_mem (mem_markets_of_fills hm)

/-- What a group contributes comes from fills. -/
theorem fills_of_group {p : (Address × Address) × List Order} (hp : p ∈ groupByPair orders)
    (h : (groupOutcome P env p).clearing ≠ [] ∨ (groupOutcome P env p).trades ≠ []) :
    (pairFills orders p.1).fillsAb ≠ [] := by
  rw [mem_groupByPair hp, groupOutcome, matchPair_eq] at h
  split at h
  · rcases h with h | h <;> exact absurd rfl h
  · next hf => exact hf

/-! ### Single sales are reproducible -/

theorem SameSale.execution_eq {side : List Order} {fills : List (Fill side.length)}
    {k k' : Fin side.length} (h : SameSale P side fills k k') (p : Price) :
    execution P p (side.get k) (soldOf fills k) =
      execution P p (side.get k') (soldOf fills k') := by
  rw [execution, h.1, h.2, execution]

/-- The trades of a side with one trade, whatever the iteration order. -/
theorem side_trades_eq {side : List Order} {fills : List (Fill side.length)}
    (h : ∀ f ∈ fills, ∀ g ∈ fills, SameSale P side fills f.idx g.idx) (p : Price)
    (o o' : IterOrder (Fin side.length × Nat)) :
    ((o.iter (soldPerOrder fills)).map fun e => execution P p (side.get e.1) e.2) =
      (o'.iter (soldPerOrder fills)).map fun e => execution P p (side.get e.1) e.2 := by
  refine map_perm_eq ((o.perm _).trans (o'.perm _).symm) ?_
  rintro ⟨k, v⟩ hk ⟨k', v'⟩ hk'
  obtain ⟨⟨f, hf, rfl⟩, rfl⟩ := mem_soldPerOrder.mp (o.mem_iter.mp hk)
  obtain ⟨⟨g, hg, rfl⟩, rfl⟩ := mem_soldPerOrder.mp (o.mem_iter.mp hk')
  exact (h f hf g hg).execution_eq p

theorem SingleSales.trades_eq (h : SingleSales P orders) :
    (matchPair P env m.1 m.2 (pairOrders orders m)).trades =
      (matchPair P env' m.1 m.2 (pairOrders orders m)).trades := by
  rw [matchPair_eq, matchPair_eq]
  split
  · rfl
  · rw [settle_trades, settle_trades, side_trades_eq (h.ab m), side_trades_eq (h.ba m)]

/-- **Single sales are reproducible.** -/
theorem SingleSales.reproducible (h : SingleSales P orders) (cfg : MatcherConfig) (id : BatchId)
    (solver : Address) : Reproducible P cfg id solver orders := by
  intro env env' he he'
  have perm : (env.groups.iter (groupByPair orders)).Perm (env'.groups.iter (groupByPair orders)) :=
    (env.groups.perm _).trans (env'.groups.perm _).symm
  have nodup : (env.groups.iter (groupByPair orders)).Nodup :=
    (env.groups.perm _).nodup_iff.mpr (groupByPair_nodup orders)
  -- what a group contributes is the same in both runs, and one group at most contributes
  have merge : ∀ {β : Type} (g : PairOutcome → List β),
      (∀ p ∈ groupByPair orders, g (groupOutcome P env p) = g (groupOutcome P env' p)) →
      (∀ p ∈ groupByPair orders, g (groupOutcome P env p) ≠ [] →
        (pairFills orders p.1).fillsAb ≠ []) →
      ((env.groups.iter (groupByPair orders)).flatMap fun p => g (groupOutcome P env p)) =
        (env'.groups.iter (groupByPair orders)).flatMap fun p => g (groupOutcome P env' p) := by
    intro β g hs hf
    have hin : ∀ {p}, p ∈ env.groups.iter (groupByPair orders) → p ∈ groupByPair orders :=
      fun hp => env.groups.mem_iter.mp hp
    rw [flatMap_perm_eq perm nodup fun p hp q hq hpn hqn => ?_]
    · exact List.flatMap_congr fun p hp => hs p (env'.groups.mem_iter.mp hp)
    · rw [mem_groupByPair (hin hp), mem_groupByPair (hin hq),
        h.pair _ _ (hf p (hin hp) hpn) (hf q (hin hq) hqn)]
  have hc := merge PairOutcome.clearing
    (fun p hp => by
      rw [mem_groupByPair hp]
      exact (matchPair_same P env env' orders p.1).clearing)
    fun p hp hn => fills_of_group hp (.inl hn)
  have ht := merge PairOutcome.trades
    (fun p hp => by
      rw [mem_groupByPair hp]
      exact h.trades_eq)
    fun p hp hn => fills_of_group hp (.inr hn)
  rw [← clearingPrices_eq he cfg id solver, ← clearingPrices_eq he' cfg id solver] at hc
  rw [← OxDex.trades_eq he cfg id solver, ← OxDex.trades_eq he' cfg id solver] at ht
  have hs := (score_eq P env env cfg id solver orders).trans
    (score_eq P env' env cfg id solver orders).symm
  exact Solution.ext rfl rfl hc ht hs

/-! ### Reproducible batches have single sales -/

/-- The iteration orders that list first the pair `m` and the orders at index `k`. -/
def HashOrders.starting (m : Address × Address) (k : Nat) : HashOrders where
  groups := .first fun p => p.1 = m
  collect := .id _
  sumsAb := fun _ _ => .first fun e => e.1.val = k
  sumsBa := fun _ _ => .first fun e => e.1.val = k

theorem starting_keepsOrder (m : Address × Address) (k : Nat) :
    (HashOrders.starting m k).KeepsOrder := fun _ => rfl

/-- A pair with fills, listed first, is settled first. -/
theorem starting_groups (k : Nat) (hm : (pairFills orders m).fillsAb ≠ []) :
    ∃ rest, (HashOrders.starting m k).groups.iter (groupByPair orders) =
      (m, pairOrders orders m) :: rest := by
  refine IterOrder.first_iter (group_mem hm) (decide_eq_true rfl) fun p hp he => ?_
  rw [mem_groupByPair hp, of_decide_eq_true he]

/-- An order with fills, listed first, is the first of its side's map. -/
theorem starting_sums {n : Nat} {fills : List (Fill n)} {f : Fill n} (hf : f ∈ fills) :
    ∃ rest, (IterOrder.first fun e : Fin n × Nat => e.1.val = f.idx.val).iter (soldPerOrder fills) =
      (f.idx, soldOf fills f.idx) :: rest := by
  refine IterOrder.first_iter (mem_soldPerOrder.mpr ⟨⟨f, hf, rfl⟩, rfl⟩) (decide_eq_true rfl) ?_
  rintro ⟨k, v⟩ hk he
  obtain ⟨-, rfl⟩ := mem_soldPerOrder.mp hk
  have : k = f.idx := Fin.ext (of_decide_eq_true he)
  rw [this]

/-- A trade determines the identifier of its order and what the order sold. -/
theorem sameSale_of_execution {side : List Order} {fills : List (Fill side.length)}
    {k k' : Fin side.length} {p : Price} (hk : soldOf fills k ≤ u64Max)
    (hk' : soldOf fills k' ≤ u64Max)
    (h : execution P p (side.get k) (soldOf fills k) =
      execution P p (side.get k') (soldOf fills k')) : SameSale P side fills k k' := by
  have hs := congrArg (fun t => t.executedSell.toNat) h
  simp only [execution, clampU64_eq hk, clampU64_eq hk'] at hs
  exact ⟨congrArg TradeExecution.orderId h, hs⟩

section
variable (P : Primitives) (cfg : MatcherConfig) (id : BatchId) (solver : Address)

/-- The clearing prices of a run that lists a pair with fills first. -/
theorem starting_clearing (k : Nat) (hm : (pairFills orders m).fillsAb ≠ []) :
    ∃ p q rest, (matchBatch P (.starting m k) cfg id solver orders).clearingPrices =
      ⟨m.1, p⟩ :: ⟨m.2, q⟩ :: rest := by
  obtain ⟨rest, hg⟩ := starting_groups k hm
  rw [clearingPrices_eq (starting_keepsOrder m k), hg, List.flatMap_cons, groupOutcome,
    matchPair_eq, dif_neg hm]
  exact ⟨_, _, _, rfl⟩

/-- The trades of such a run. -/
theorem starting_trades (k : Nat) (hm : (pairFills orders m).fillsAb ≠ []) :
    ∃ rest, (matchBatch P (.starting m k) cfg id solver orders).trades =
      (settle P (.starting m k) m.1 m.2 (pairFills orders m) hm).trades ++ rest := by
  obtain ⟨rest, hg⟩ := starting_groups k hm
  rw [OxDex.trades_eq (starting_keepsOrder m k), hg, List.flatMap_cons, groupOutcome,
    matchPair_eq, dif_neg hm]
  exact ⟨_, rfl⟩

variable {P cfg id solver}

/-- **Reproducible batches have one trade an A→B side.** -/
theorem Reproducible.ab (h : Reproducible P cfg id solver orders) (m : Address × Address) :
    ∀ f ∈ (pairFills orders m).fillsAb, ∀ g ∈ (pairFills orders m).fillsAb,
      SameSale P (abSide orders m) (pairFills orders m).fillsAb f.idx g.idx := by
  intro f hf g hg
  have hm : (pairFills orders m).fillsAb ≠ [] := List.ne_nil_of_mem hf
  -- a run that lists `k` first has the trade of `k` first
  have head : ∀ k ∈ (pairFills orders m).fillsAb,
      (matchBatch P (.starting m k.idx) cfg id solver orders).trades.head? =
        some (execution P ((pairFills orders m).price hm) ((abSide orders m).get k.idx)
          (soldOf (pairFills orders m).fillsAb k.idx)) := by
    intro k hk
    obtain ⟨rest, ht⟩ := starting_trades P cfg id solver k.idx.val hm
    obtain ⟨rest', hs⟩ := starting_sums hk
    rw [ht, settle_trades]
    simp only [HashOrders.starting, hs, List.map_cons, List.cons_append, List.head?_cons]
  have he := h _ _ (starting_keepsOrder m f.idx) (starting_keepsOrder m g.idx)
  have := (head f hf).symm.trans ((congrArg (fun s => s.trades.head?) he).trans (head g hg))
  exact sameSale_of_execution ((soldOf_ab_le _).trans (toNat_le_u64Max _))
    ((soldOf_ab_le _).trans (toNat_le_u64Max _)) (Option.some.inj this)

/-- **Reproducible batches have one trade a B→A side.** -/
theorem Reproducible.ba (h : Reproducible P cfg id solver orders) (m : Address × Address) :
    ∀ f ∈ (pairFills orders m).fillsBa, ∀ g ∈ (pairFills orders m).fillsBa,
      SameSale P (baSide orders m) (pairFills orders m).fillsBa f.idx g.idx := by
  intro f hf g hg
  have hm : (pairFills orders m).fillsAb ≠ [] := by
    obtain ⟨f', hf', -⟩ := partner_left (ledger orders m).booked.flip hf
    exact List.ne_nil_of_mem hf'
  -- the trades of the A→B side come first, and are the same in every run
  have tail : ∀ k ∈ (pairFills orders m).fillsBa, ∃ rest,
      (matchBatch P (.starting m k.idx) cfg id solver orders).trades =
        ((soldPerOrder (pairFills orders m).fillsAb).map fun e =>
          execution P ((pairFills orders m).price hm) ((abSide orders m).get e.1) e.2) ++
        execution P (reciprocal ((pairFills orders m).price hm)) ((baSide orders m).get k.idx)
          (soldOf (pairFills orders m).fillsBa k.idx) :: rest := by
    intro k hk
    obtain ⟨rest, ht⟩ := starting_trades P cfg id solver k.idx.val hm
    obtain ⟨rest', hs⟩ := starting_sums hk
    rw [ht, settle_trades, side_trades_eq (h.ab m) _ _ (.id _)]
    simp only [HashOrders.starting, hs, List.map_cons, List.append_assoc, List.cons_append]
    exact ⟨_, rfl⟩
  obtain ⟨rf, hf'⟩ := tail f hf
  obtain ⟨rg, hg'⟩ := tail g hg
  have he := congrArg Solution.trades
    (h _ _ (starting_keepsOrder m f.idx) (starting_keepsOrder m g.idx))
  rw [hf', hg'] at he
  exact sameSale_of_execution ((soldOf_ba_le _).trans (toNat_le_u64Max _))
    ((soldOf_ba_le _).trans (toNat_le_u64Max _))
    (List.cons.inj (List.append_cancel_left he)).1

/-- **Reproducible batches have one trading pair.** -/
theorem Reproducible.pair (h : Reproducible P cfg id solver orders) {m m' : Address × Address}
    (hm : (pairFills orders m).fillsAb ≠ []) (hm' : (pairFills orders m').fillsAb ≠ []) :
    m = m' := by
  obtain ⟨p, q, rest, hc⟩ := starting_clearing P cfg id solver 0 hm
  obtain ⟨p', q', rest', hc'⟩ := starting_clearing P cfg id solver 0 hm'
  have he := congrArg Solution.clearingPrices
    (h _ _ (starting_keepsOrder m 0) (starting_keepsOrder m' 0))
  rw [hc, hc'] at he
  obtain ⟨h₁, he⟩ := List.cons.inj he
  obtain ⟨h₂, -⟩ := List.cons.inj he
  exact Prod.ext (congrArg ClearingPrice.mint h₁) (congrArg ClearingPrice.mint h₂)

end

end

/-- **A batch is reproducible** if and only if at most one pair trades and the orders of a side
that trade all give one trade. -/
theorem reproducible_iff (P : Primitives) (cfg : MatcherConfig) (id : BatchId) (solver : Address)
    (orders : List SignedOrder) :
    Reproducible P cfg id solver orders ↔ SingleSales P orders :=
  ⟨fun h => ⟨fun _ _ hm hm' => h.pair hm hm', h.ab, h.ba⟩, fun h => h.reproducible cfg id solver⟩

section
open Sample

/-- **Not reproducible**: two pairs that share mint A, listed in the one order and in the other, and
`price_of` answers differently. -/
theorem not_reproducible :
    (∀ s ∈ [sign alice150, sign bob200, sign aliceC, sign bobC], s.order.validate 0 = .ok ()) ∧
      ¬ Reproducible primitives ⟨true⟩ ⟨.replicate 16 0⟩ .zero
        [sign alice150, sign bob200, sign aliceC, sign bobC] ∧
      ∃ env env' : HashOrders, env.KeepsOrder ∧ env'.KeepsOrder ∧
        (matchBatch primitives env ⟨true⟩ ⟨.replicate 16 0⟩ .zero
          [sign alice150, sign bob200, sign aliceC, sign bobC]).priceOf mintA ≠
        (matchBatch primitives env' ⟨true⟩ ⟨.replicate 16 0⟩ .zero
          [sign alice150, sign bob200, sign aliceC, sign bobC]).priceOf mintA := by
  have differ : ∃ env env' : HashOrders, env.KeepsOrder ∧ env'.KeepsOrder ∧
      (matchBatch primitives env ⟨true⟩ ⟨.replicate 16 0⟩ .zero
        [sign alice150, sign bob200, sign aliceC, sign bobC]).priceOf mintA ≠
      (matchBatch primitives env' ⟨true⟩ ⟨.replicate 16 0⟩ .zero
        [sign alice150, sign bob200, sign aliceC, sign bobC]).priceOf mintA := by
    refine ⟨.insertion, { HashOrders.insertion with groups := ⟨List.reverse, List.reverse_perm⟩ },
      fun _ => rfl, fun _ => rfl, ?_⟩
    decide +kernel
  refine ⟨by decide +kernel, fun h => ?_, differ⟩
  obtain ⟨env, env', he, he', hne⟩ := differ
  exact hne (congrArg (fun s => s.priceOf mintA) (h env env' he he'))

end

end OxDex
