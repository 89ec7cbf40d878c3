import Mathlib.Data.Sym.Sym2
import OxDex.Matching.Score
import OxDex.Support.Interleaving

/-!
# Matching — Independence

Pairs do not interfere.

A batch that merges two lists of orders over different mint pairs is settled as the two lists are,
each by itself: the trades and the clearing prices are those of the two solutions together, and the
score is the sum, capped at `u128::MAX` (`merge_independent`).  The three runs may use different
iteration orders, and each may use the thread pool or not.

An order's pair sees only the orders of that pair, in the order they came (`pairOrders_merge`), and
the pairs of the merged batch are those of the two lists (`markets_merge`).
-/

namespace OxDex
open Support

/-- The two mints of an order, in no order. -/
def Order.mints (o : Order) : Sym2 Address := s(o.sellMint, o.buyMint)

/-- Orders are grouped together if and only if they have the same two mints. -/
theorem pair_eq_iff {o o' : Order} : o.pair = o'.pair ↔ o.mints = o'.mints := by
  have self : ∀ o : Order, s(o.pair.1, o.pair.2) = o.mints := by
    intro o
    rw [Order.pair, canonicalPair, Order.mints]
    split
    · rfl
    · exact Sym2.eq_swap
  constructor
  · intro h
    rw [← self o, h, self o']
  · intro h
    rcases Sym2.eq_iff.mp h with ⟨h₁, h₂⟩ | ⟨h₁, h₂⟩
    · rw [Order.pair, h₁, h₂, Order.pair]
    · rw [Order.pair, h₁, h₂, canonicalPair_comm, Order.pair]

section
variable {xs ys zs : List SignedOrder} (h : Interleaving xs ys zs)
  (hd : ∀ x ∈ xs, ∀ y ∈ ys, x.order.mints ≠ y.order.mints)

include h in
/-- The orders of a pair in the merged batch are those of the one list that has the pair. -/
theorem pairOrders_merge {m : Address × Address} (hm : ∀ y ∈ ys, y.order.pair ≠ m) :
    pairOrders zs m = pairOrders xs m := by
  rw [pairOrders, h.filter_left fun y hy => decide_eq_false (hm y hy), pairOrders]

include hd in
theorem pairs_disjoint {m : Address × Address} (hx : m ∈ markets xs) (hy : m ∈ markets ys) :
    False := by
  obtain ⟨x, hx, hxm⟩ := mem_markets.mp hx
  obtain ⟨y, hy, hym⟩ := mem_markets.mp hy
  exact hd x hx y hy (pair_eq_iff.mp (hxm.trans hym.symm))

include h hd

/-- The pairs of the merged batch. -/
theorem markets_merge : (markets zs).Perm (markets xs ++ markets ys) := by
  refine (List.perm_ext_iff_of_nodup (markets_nodup zs) ?_).mpr fun m => ?_
  · exact (markets_nodup xs).append (markets_nodup ys) fun m hx hy => pairs_disjoint hd hx hy
  · simp only [List.mem_append, mem_markets, h.mem_iff, or_and_right, exists_or]

/-- What is computed pair by pair over the merged batch is what is computed over either list. -/
theorem over_markets_merge {β : Type*} (f : List Order → Address × Address → β) :
    ((markets zs).map fun m => f (pairOrders zs m) m).Perm
      (((markets xs).map fun m => f (pairOrders xs m) m) ++
        (markets ys).map fun m => f (pairOrders ys m) m) := by
  refine ((markets_merge h hd).map _).trans (.of_eq ?_)
  rw [List.map_append]
  refine congrArg₂ _ (List.map_congr_left fun m hm => ?_) (List.map_congr_left fun m hm => ?_)
  · rw [pairOrders_merge h fun y hy e =>
      pairs_disjoint hd hm (mem_markets.mpr ⟨y, hy, e⟩)]
  · rw [pairOrders_merge h.swap fun x hx e =>
      pairs_disjoint hd (mem_markets.mpr ⟨x, hx, e⟩) hm]

end

/-- `z` has the trades and the clearing prices of `x` and `y`, in some order, and their scores
added. -/
structure Solution.Union (x y z : Solution) : Prop where
  trades : z.trades.Perm (x.trades ++ y.trades)
  clearing : z.clearingPrices.Perm (x.clearingPrices ++ y.clearingPrices)
  score : z.score = min u128Max (x.score + y.score)

section
variable (P : Primitives) (env envX envY : HashOrders) (cfg cfgX cfgY : MatcherConfig)
  (id : BatchId) (solver : Address)

/-- **Pairs do not interfere.**  A merge of two lists of orders over different mint pairs is settled
as the two lists are. -/
theorem merge_independent {xs ys zs : List SignedOrder} (h : Interleaving xs ys zs)
    (hd : ∀ x ∈ xs, ∀ y ∈ ys, x.order.mints ≠ y.order.mints) :
    (matchBatch P envX cfgX id solver xs).Union (matchBatch P envY cfgY id solver ys)
      (matchBatch P env cfg id solver zs) := by
  refine ⟨?_, ?_, ?_⟩
  · refine (trades_perm_any P env env cfg id solver zs).trans (.trans ?_
      ((trades_perm_any P envX env cfgX id solver xs).append
        (trades_perm_any P envY env cfgY id solver ys)).symm)
    rw [List.flatMap_def, List.flatMap_def, List.flatMap_def, ← List.flatten_append]
    exact (over_markets_merge h hd fun os m => (matchPair P env m.1 m.2 os).trades).flatten
  · refine (clearingPrices_perm_any P env env cfg id solver zs).trans (.trans ?_
      ((clearingPrices_perm_any P envX env cfgX id solver xs).append
        (clearingPrices_perm_any P envY env cfgY id solver ys)).symm)
    rw [List.flatMap_def, List.flatMap_def, List.flatMap_def, ← List.flatten_append]
    exact (over_markets_merge h hd fun os m => (matchPair P env m.1 m.2 os).clearing).flatten
  · rw [score_eq P env env, score_eq P envX env, score_eq P envY env,
      (over_markets_merge h hd fun os m => (matchPair P env m.1 m.2 os).surplus).sum_eq,
      List.sum_append]
    omega

end

section
open Sample

/-- Two orders over A and B, one over A and C between them. -/
theorem merge_independent_three :
    (matchBatch primitives .insertion ⟨false⟩ ⟨.replicate 16 0⟩ .zero
        [sign alice150, sign bob200]).Union
      (matchBatch primitives .insertion ⟨true⟩ ⟨.replicate 16 0⟩ .zero [sign aliceC])
      (matchBatch primitives .insertion ⟨true⟩ ⟨.replicate 16 0⟩ .zero
        [sign alice150, sign aliceC, sign bob200]) :=
  merge_independent primitives .insertion .insertion .insertion ⟨true⟩ ⟨false⟩ ⟨true⟩
    ⟨.replicate 16 0⟩ .zero (.left (.right (.left .nil))) (by decide +kernel)

end

end OxDex
