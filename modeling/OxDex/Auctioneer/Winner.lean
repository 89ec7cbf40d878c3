import OxDex.Auctioneer.Round
import OxDex.Storage.Memory

/-!
# Auctioneer — Winner

What the auctioneer delivers, given what the solvers answer.

`Valid` is what a solution has to satisfy to be a settlement of the batch.  A round does not check
it: `keepsTo_iff` says that a round delivers and marks by the batch exactly if the answer
that wins the race happens to be valid.  `reference_valid`: the reference solver's solutions are.
`rogue_wins` is a round in which they lose to a solution that is not.
-/

namespace OxDex
open Support

/-- **A settlement of the batch**: it carries the batch's identifier, and every trade is one of the
batch's orders, none twice, and sells no more than that order offers. -/
structure Valid (P : Primitives) (b : Batch) (sol : Solution) : Prop where
  batchId : sol.batchId = b.id
  named : ∀ t ∈ sol.trades, ∃ s ∈ b.orders, s.order.id P = t.orderId ∧
    t.executedSell.toNat ≤ s.order.sellAmount.toNat
  nodup : sol.orderIds.Nodup

instance (P : Primitives) (b : Batch) (sol : Solution) : Decidable (Valid P b sol) :=
  decidable_of_iff (sol.batchId = b.id ∧ (∀ t ∈ sol.trades, ∃ s ∈ b.orders,
      s.order.id P = t.orderId ∧ t.executedSell.toNat ≤ s.order.sellAmount.toNat) ∧
      sol.orderIds.Nodup)
    ⟨fun h => ⟨h.1, h.2.1, h.2.2⟩, fun h => ⟨h.batchId, h.named, h.nodup⟩⟩

/-- **A round keeps to its batch**: what it delivers settles the batch, and it updates the
status of the batch's orders only. -/
structure KeepsTo {σ : Type} (P : Primitives) (batch : Option Batch) (out : RoundOutcome σ) :
    Prop where
  delivered : ∀ sol, out.delivered = some sol → ∃ b, batch = some b ∧ Valid P b sol
  marked : ∀ t ∈ out.marked, ∃ b, batch = some b ∧ t.orderId ∈ b.orderIds P

section
variable {P : Primitives} {σ : Type} {R : OrderRepository σ}

theorem Valid.orderId_mem {b : Batch} {sol : Solution} (h : Valid P b sol) {t : TradeExecution}
    (ht : t ∈ sol.trades) : t.orderId ∈ b.orderIds P := by
  obtain ⟨s, hs, hid, -⟩ := h.named t ht
  exact List.mem_map.mpr ⟨s, hs, hid⟩

/-- **What a round delivers and marks**: the race's solution, if a batch was sealed. -/
theorem runOneAuction_delivered (A : Auctioneer) (input : RoundInput) (st : σ) :
    (runOneAuction P R A input st).delivered =
        (sealedBatch P R A input st).bind (fun _ => race input.answers) ∧
      (runOneAuction P R A input st).marked =
        ((runOneAuction P R A input st).delivered.map Solution.trades).getD [] := by
  unfold runOneAuction sealedBatch
  obtain ⟨res, st', hst⟩ : ∃ res st', sealBatch P R A input st = (res, st') := ⟨_, _, rfl⟩
  rw [hst]
  rcases res with e | _ | b
  · exact ⟨rfl, rfl⟩
  · exact ⟨rfl, rfl⟩
  · cases h : race input.answers with
    | none => simp [RoundOutcome.early, Except.toOption]
    | some w => simp [Except.toOption]

/-- A round keeps to its batch if the answer that wins is valid. -/
theorem keepsTo_of_valid {A : Auctioneer} {input : RoundInput} {st : σ}
    (h : ∀ b, sealedBatch P R A input st = some b →
      ∀ sol, FirstBest Solution.score (solutions input.answers) sol → Valid P b sol) :
    KeepsTo P (sealedBatch P R A input st) (runOneAuction P R A input st) := by
  obtain ⟨hd, hm⟩ := runOneAuction_delivered (P := P) (R := R) A input st
  have key : ∀ sol, (runOneAuction P R A input st).delivered = some sol →
      ∃ b, sealedBatch P R A input st = some b ∧ Valid P b sol := by
    intro sol hsol
    rw [hd, Option.bind_eq_some_iff] at hsol
    obtain ⟨b, hb, hr⟩ := hsol
    exact ⟨b, hb, h b hb sol (race_eq_some.mp hr)⟩
  refine ⟨key, fun t ht => ?_⟩
  rw [hm] at ht
  cases hsol : (runOneAuction P R A input st).delivered with
  | none => rw [hsol] at ht; cases ht
  | some sol =>
      rw [hsol] at ht
      obtain ⟨b, hb, hv⟩ := key sol hsol
      exact ⟨b, hb, hv.orderId_mem ht⟩

/-- **A round keeps to its batch exactly if the answer that wins is valid**, that is, if the first
of the highest-scoring solutions settles the batch. -/
theorem keepsTo_iff (P : Primitives) (R : OrderRepository σ) (A : Auctioneer)
    (input : RoundInput) (st : σ) :
    KeepsTo P (sealedBatch P R A input st) (runOneAuction P R A input st) ↔
      ∀ b, sealedBatch P R A input st = some b →
        ∀ sol, FirstBest Solution.score (solutions input.answers) sol → Valid P b sol := by
  refine ⟨fun h b hb sol hsol => ?_, keepsTo_of_valid⟩
  have hd := (runOneAuction_delivered (P := P) (R := R) A input st).1
  obtain ⟨b', hb', hv⟩ := h.delivered sol (by rw [hd, hb]; exact race_eq_some.mpr hsol)
  rw [hb] at hb'
  cases hb'
  exact hv

/-! ### The reference solver -/

/-- **The reference solver answers with valid solutions**, to a batch that has no order twice. -/
theorem reference_valid {b : Batch} (hb : (b.orderIds P).Nodup) {address : Address} {sol : Solution}
    (h : ReferenceSolve P address b (.ok sol)) : Valid P b sol := by
  cases h with
  | solved env =>
      refine ⟨rfl, fun t ht => ?_, orderIds_nodup _ _ _ _ _ hb⟩
      obtain ⟨s, hs, hid, hle, -⟩ := mem_trades_order _ _ _ _ _ ht
      exact ⟨s, hs, hid, hle⟩

/-- A round whose solvers are all reference solvers keeps to its batch. -/
theorem reference_keepsTo {Sound : σ → Prop} {book : σ → OrderBook}
    (hR : Implements P R Sound book) {A : Auctioneer} {input : RoundInput} {st : σ} (hs : Sound st)
    (href : ∀ b a, sealedBatch P R A input st = some b → a ∈ input.answers →
      ∃ address, ReferenceSolve P address b a.2) :
    KeepsTo P (sealedBatch P R A input st) (runOneAuction P R A input st) := by
  refine keepsTo_of_valid fun b hb sol hsol => ?_
  obtain ⟨a, ha, hok⟩ := List.mem_filterMap.mp hsol.mem
  obtain ⟨address, h⟩ := href b a hb ha
  rcases hr : a.2 with e | sol'
  · rw [hr] at hok; cases hok
  · rw [hr] at hok h
    cases hok
    exact reference_valid (sealBatch_spec hR hs (sealedBatch_eq_some.mp hb)).2.2.1 h

end

/-! ### A rogue solver -/

section
open Sample

/-- alice's order is open, bob's is cancelled. -/
def Sample.bobCancelled : InMemoryOrderRepository :=
  (memory.cancel 2 (bob200.id primitives) bob
    (memory.insert 1 (sign bob200) (memory.insert 0 (sign alice150) .new).2).2).2

/-- A solution that trades bob's order, and five times what it offers. -/
def Sample.rogue : Solution where
  batchId := batchId
  solver := .fill 9
  clearingPrices := []
  trades := [⟨bob200.id primitives, 1000, 0⟩]
  score := 1

/-- The reference solver answers first, with nothing to trade, and the rogue second. -/
def Sample.rogueRound : RoundInput where
  now := 5
  batchId := batchId
  answers := [(.zero, .ok (matchBatch primitives .insertion ⟨true⟩ batchId .zero [sign alice150])),
    (.fill 9, .ok rogue)]
  nanos := fun k => 5 + k

/-- An auctioneer with the reference solver and one that may answer anything. -/
def Sample.twoSolvers : Auctioneer where
  cfg := ⟨200, 1⟩
  solvers := [referenceSolver primitives .zero, ⟨.fill 9, fun _ _ _ => True⟩]

/-- **The rogue wins.**  The round delivers its solution and marks bob's cancelled order, which is
not in the batch, as auctioned. -/
theorem rogue_wins :
    sealedBatch primitives memory twoSolvers rogueRound bobCancelled =
      some ⟨batchId, 5, [sign alice150]⟩ ∧
    (runOneAuction primitives memory twoSolvers rogueRound bobCancelled).delivered = some rogue ∧
    (InMemoryOrderRepository.book
      (runOneAuction primitives memory twoSolvers rogueRound bobCancelled).store
      (bob200.id primitives)).map Entry.status = some .auctioned ∧
    ¬ KeepsTo primitives (sealedBatch primitives memory twoSolvers rogueRound bobCancelled)
      (runOneAuction primitives memory twoSolvers rogueRound bobCancelled) := by
  have hb : sealedBatch primitives memory twoSolvers rogueRound bobCancelled =
      some ⟨batchId, 5, [sign alice150]⟩ := by decide +kernel
  have hd : (runOneAuction primitives memory twoSolvers rogueRound bobCancelled).delivered =
      some rogue := by decide +kernel
  refine ⟨hb, hd, by decide +kernel, fun h => ?_⟩
  obtain ⟨b, hb', hv⟩ := h.delivered rogue hd
  cases hb.symm.trans hb'
  exact absurd hv (by decide +kernel)

end

end OxDex
