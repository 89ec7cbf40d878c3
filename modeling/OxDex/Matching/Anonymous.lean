import OxDex.Matching.Mirror

/-!
# Matching — Anonymous

What the matching engine reads of an order.

It reads the two mints, the two amounts and whether the order may be filled in part (`SameTerms`),
and neither who owns or receives it, its nonce, its expiry, its kind (an order to buy is filled as
one to sell), nor any signature.  So where the orders of a batch are exchanged, each for one on the
same terms, the solution is the same, up to the identifiers in the trades (`anonymous`).

The fill loop takes the same turns on both (`Copies`): the copy stands at the place of its original,
since the sort compares limits only.
-/

namespace OxDex
open Support

/-- Two orders that the engine cannot tell apart. -/
structure SameTerms (x y : Order) : Prop where
  sellMint : y.sellMint = x.sellMint
  buyMint : y.buyMint = x.buyMint
  sellAmount : y.sellAmount = x.sellAmount
  buyAmount : y.buyAmount = x.buyAmount
  partialFill : y.partialFill = x.partialFill

namespace SameTerms

theorem refl (x : Order) : SameTerms x x := ⟨rfl, rfl, rfl, rfl, rfl⟩

variable {x y x' y' : Order} (h : SameTerms x y)
include h

theorem symm : SameTerms y x :=
  ⟨h.sellMint.symm, h.buyMint.symm, h.sellAmount.symm, h.buyAmount.symm, h.partialFill.symm⟩

theorem pair : y.pair = x.pair := by rw [Order.pair, Order.pair, h.sellMint, h.buyMint]

theorem sellsAForB (a b : Address) : OxDex.sellsAForB a b y = OxDex.sellsAForB a b x := by
  rw [OxDex.sellsAForB, OxDex.sellsAForB, h.sellMint, h.buyMint]

theorem limitPrice : y.limitPrice = x.limitPrice := by
  simp only [Order.limitPrice, h.sellAmount, h.buyAmount]

theorem aCapacity (b : Nat) : OxDex.aCapacity y b = OxDex.aCapacity x b := by
  rw [OxDex.aCapacity, OxDex.aCapacity, h.sellAmount, h.buyAmount]

theorem bookedB (t : Nat) : OxDex.bookedB y t = OxDex.bookedB x t := by
  rw [OxDex.bookedB, OxDex.bookedB, h.sellAmount, h.buyAmount]

theorem crosses (h' : SameTerms x' y') : Crosses y y' ↔ Crosses x x' := by
  rw [Crosses, Crosses, h.limitPrice, h'.limitPrice]

theorem gain (p : Price) (v : Nat) : OxDex.gain p y v = OxDex.gain p x v := by
  rw [OxDex.gain, OxDex.gain, h.limitPrice]

end SameTerms

/-! ### Sorting lists in step -/

section
variable {α : Type*} {T : α → α → Prop} {r : α → α → Prop} [DecidableRel r]
  (hr : ∀ x x' y y', T x x' → T y y' → (r x y ↔ r x' y'))
include hr

theorem forall₂_orderedInsert {x x' : α} (hx : T x x') {l l' : List α} (h : List.Forall₂ T l l') :
    List.Forall₂ T (l.orderedInsert r x) (l'.orderedInsert r x') := by
  induction h with
  | nil => exact .cons hx .nil
  | @cons y y' l l' hy hl ih =>
      rw [List.orderedInsert_cons, List.orderedInsert_cons]
      by_cases hxy : r x y
      · rw [if_pos hxy, if_pos ((hr x x' y y' hx hy).mp hxy)]
        exact .cons hx (.cons hy hl)
      · rw [if_neg hxy, if_neg (mt (hr x x' y y' hx hy).mpr hxy)]
        exact .cons hy ih

/-- **Lists whose elements compare alike** are sorted alike. -/
theorem forall₂_insertionSort {l l' : List α} (h : List.Forall₂ T l l') :
    List.Forall₂ T (l.insertionSort r) (l'.insertionSort r) := by
  induction h with
  | nil => exact .nil
  | cons hx hl ih => exact forall₂_orderedInsert hr hx ih

end

/-! ### Two loops in step -/

section
variable {xs ys xs' ys' : List Order}

/-- The fill loop on a pair of sides and on copies of them, at the same place with the same
books. -/
structure Copies (hx : xs.length = xs'.length) (hy : ys.length = ys'.length)
    (s : MatchState xs ys) (s' : MatchState xs' ys') : Prop where
  i : s'.i = s.i
  j : s'.j = s.j
  aRemaining : ∀ k, s'.aRemaining.get (k.cast hx) = s.aRemaining.get k
  bRemaining : ∀ k, s'.bRemaining.get (k.cast hy) = s.bRemaining.get k
  fillsAb : s'.fillsAb = s.fillsAb.map (Fill.rename (Fin.cast hx))
  fillsBa : s'.fillsBa = s.fillsBa.map (Fill.rename (Fin.cast hy))
  lastCross : s'.lastCross = s.lastCross

namespace Copies

variable {hx : xs.length = xs'.length} {hy : ys.length = ys'.length} {s : MatchState xs ys}
  {s' : MatchState xs' ys'}

/-- Before the loop. -/
theorem init (ha : ∀ k : Fin xs.length, SameTerms (xs.get k) (xs'.get (k.cast hx)))
    (hb : ∀ k : Fin ys.length, SameTerms (ys.get k) (ys'.get (k.cast hy))) :
    Copies hx hy (.init xs ys) (.init xs' ys') where
  i := rfl
  j := rfl
  aRemaining := fun k => by
    rw [MatchState.init, MatchState.init, get_sellAmounts, get_sellAmounts, (ha k).sellAmount]
  bRemaining := fun k => by
    rw [MatchState.init, MatchState.init, get_sellAmounts, get_sellAmounts, (hb k).sellAmount]
  fillsAb := rfl
  fillsBa := rfl
  lastCross := rfl

variable (h : Copies hx hy s s')
include h

/-- Recording one and the same crossing. -/
theorem cross (p q : Price) : Copies hx hy (s.cross p q) (s'.cross p q) :=
  ⟨h.i, h.j, h.aRemaining, h.bRemaining, h.fillsAb, h.fillsBa, rfl⟩

/-- Moving the pointers alike. -/
theorem move {i i' j j' : Nat} (hi : i' = i) (hj : j' = j) :
    Copies hx hy { s with i := i, j := j } { s' with i := i', j := j' } :=
  ⟨hi, hj, h.aRemaining, h.bRemaining, h.fillsAb, h.fillsBa, h.lastCross⟩

/-- Booking one and the same fill. -/
theorem fill (hc : s.lastCross.isSome = true) (hc' : s'.lastCross.isSome = true)
    (i : Fin xs.length) (j : Fin ys.length) (t u : Nat) :
    Copies hx hy (s.fill hc i j t u) (s'.fill hc' (i.cast hx) (j.cast hy) t u) where
  i := h.i
  j := h.j
  aRemaining := fun k => by
    simp only [MatchState.fill]
    rw [h.aRemaining i]
    exact Mirror.get_set_place (Fin.cast_injective hx) (h.aRemaining k) i _
  bRemaining := fun k => by
    simp only [MatchState.fill]
    rw [h.bRemaining j]
    exact Mirror.get_set_place (Fin.cast_injective hy) (h.bRemaining k) j _
  fillsAb := by
    simp only [MatchState.fill, h.fillsAb, List.map_append]
    rfl
  fillsBa := by
    simp only [MatchState.fill, h.fillsBa, List.map_append]
    rfl
  lastCross := h.lastCross

/-- Rolling one and the same fill back. -/
theorem rollback (i : Fin xs.length) (j : Fin ys.length) (t u : Nat) :
    Copies hx hy (s.rollback i j t u) (s'.rollback (i.cast hx) (j.cast hy) t u) where
  i := h.i
  j := h.j
  aRemaining := fun k => by
    simp only [MatchState.rollback]
    rw [h.aRemaining i]
    exact Mirror.get_set_place (Fin.cast_injective hx) (h.aRemaining k) i _
  bRemaining := fun k => by
    simp only [MatchState.rollback]
    rw [h.bRemaining j]
    exact Mirror.get_set_place (Fin.cast_injective hy) (h.bRemaining k) j _
  fillsAb := by simp only [MatchState.rollback, h.fillsAb, List.map_dropLast]
  fillsBa := by simp only [MatchState.rollback, h.fillsBa, List.map_dropLast]
  lastCross := h.lastCross

/-- **An iteration at copies of the heads.** -/
theorem meet {i : Fin xs.length} {j : Fin ys.length}
    (hi : SameTerms (xs.get i) (xs'.get (i.cast hx)))
    (hj : SameTerms (ys.get j) (ys'.get (j.cast hy))) (hc : s.lastCross.isSome = true)
    (hc' : s'.lastCross.isSome = true) :
    Copies hx hy (OxDex.meet s hc i j) (OxDex.meet s' hc' (i.cast hx) (j.cast hy)) := by
  have hf := fun t u => h.fill hc hc' i j t u
  simp only [OxDex.meet, h.aRemaining, h.bRemaining, hj.aCapacity, hj.bookedB, hi.partialFill,
    hj.partialFill, (hf _ _).aRemaining, (hf _ _).bRemaining]
  split
  · split
    · exact h.move (congrArg (· + 1) h.i) h.j
    · exact h.move h.i (congrArg (· + 1) h.j)
  · split
    · exact ((hf _ _).rollback i j _ _).move (congrArg (· + 1) h.i) h.j
    · split
      · exact ((hf _ _).rollback i j _ _).move h.i (congrArg (· + 1) h.j)
      · refine (hf _ _).move ?_ ?_
        · rw [(hf _ _).i]
        · rw [(hf _ _).j]

end Copies

variable {hx : xs.length = xs'.length} {hy : ys.length = ys'.length}
  (ha : ∀ k : Fin xs.length, SameTerms (xs.get k) (xs'.get (k.cast hx)))
  (hb : ∀ k : Fin ys.length, SameTerms (ys.get k) (ys'.get (k.cast hy)))
include ha hb

/-- **An iteration in step.** -/
theorem copies_turn {s : MatchState xs ys} {s' : MatchState xs' ys'} (h : Copies hx hy s s') :
    Option.Rel (Copies hx hy) (turn xs ys s) (turn xs' ys' s') := by
  have hi' : ∀ i : Fin xs.length, s.i = i → s'.i = i.cast hx := fun i hi => h.i.trans hi
  have hj' : ∀ j : Fin ys.length, s.j = j → s'.j = j.cast hy := fun j hj => h.j.trans hj
  by_cases hij : s.i < xs.length ∧ s.j < ys.length
  · obtain ⟨i, hi⟩ : ∃ i : Fin xs.length, s.i = i := ⟨⟨s.i, hij.1⟩, rfl⟩
    obtain ⟨j, hj⟩ : ∃ j : Fin ys.length, s.j = j := ⟨⟨s.j, hij.2⟩, rfl⟩
    have hcr := (ha i).crosses (hb j)
    by_cases hc : Crosses (xs.get i) (ys.get j)
    · rw [turn_of_crosses hi hj hc, turn_of_crosses (hi' i hi) (hj' j hj) (hcr.mpr hc)]
      rw [(ha i).limitPrice, (hb j).limitPrice]
      exact .some ((h.cross _ _).meet (ha i) (hb j) rfl rfl)
    · rw [turn_of_not_crosses hi hj hc, turn_of_not_crosses (hi' i hi) (hj' j hj) (mt hcr.mp hc)]
      exact .none
  · rw [turn, dif_neg hij, turn, dif_neg (by rw [h.i, h.j, ← hx, ← hy]; exact hij)]
    exact .none

/-- **The loops end in step.** -/
theorem copies_fillLoop : Copies hx hy (fillLoop xs ys) (fillLoop xs' ys') := by
  have hn : fillBound xs' ys' = fillBound xs ys := by
    have hsum : (xs'.map fun o => o.sellAmount.toNat) = xs.map fun o => o.sellAmount.toNat := by
      refine List.ext_get (by simp [hx]) fun k hk hk' => ?_
      rw [List.length_map] at hk'
      simpa using congrArg UInt64.toNat (ha ⟨k, hk'⟩).sellAmount
    rw [fillBound, fillBound, hsum, hx, hy]
  rw [fillLoop, fillLoop, hn]
  exact Loop.run_related (fun s s' _ h => copies_turn ha hb h) _ .start (.init ha hb)

end

/-! ### The sides of a batch -/

section
variable {T : Order → Order → Prop} (hT : ∀ x y, T x y → SameTerms x y)
include hT

/-- Sides filtered by their mints, and sorted. -/
theorem forall₂_side {p : Order → Bool} (hp : ∀ x y, SameTerms x y → p y = p x)
    {l l' : List Order} (h : List.Forall₂ T l l') :
    List.Forall₂ T (sortByLimit (l.filter p)) (sortByLimit (l'.filter p)) := by
  refine forall₂_insertionSort (fun x x' y y' hx hy => ?_) (List.rel_filter (fun x y hxy => ?_) h)
  · rw [(hT x x' hx).limitPrice, (hT y y' hy).limitPrice]
  · show p x = true ↔ p y = true
    rw [hp x y (hT x y hxy)]

variable {orders orders' : List SignedOrder}
  (h : List.Forall₂ (fun s s' => T s.order s'.order) orders orders') (m : Address × Address)
include h

theorem forall₂_pairOrders : List.Forall₂ T (pairOrders orders m) (pairOrders orders' m) := by
  have key := List.rel_filter (p := fun s => decide (s.order.pair = m))
    (q := fun s => decide (s.order.pair = m)) (fun s s' hs => by
      show decide _ = true ↔ decide _ = true
      rw [(hT _ _ hs).pair]) h
  exact List.forall₂_map_left_iff.mpr (List.forall₂_map_right_iff.mpr key)

theorem forall₂_abSide : List.Forall₂ T (abSide orders m) (abSide orders' m) :=
  forall₂_side hT (fun _ _ ht => ht.sellsAForB _ _) (forall₂_pairOrders hT h m)

theorem forall₂_baSide : List.Forall₂ T (baSide orders m) (baSide orders' m) :=
  forall₂_side hT (fun _ _ ht => by rw [ht.sellsAForB, ht.sellsAForB]) (forall₂_pairOrders hT h m)

omit m in
theorem markets_copies : (markets orders').Perm (markets orders) := by
  have hp : orders'.map (fun s => s.order.pair) = orders.map fun s => s.order.pair := by
    induction h with
    | nil => rfl
    | cons hs hl ih => rw [List.map_cons, List.map_cons, ih, (hT _ _ hs).pair]
  refine (List.perm_ext_iff_of_nodup (markets_nodup _) (markets_nodup _)).mpr fun m => ?_
  rw [mem_markets, mem_markets, ← List.mem_map (f := fun s : SignedOrder => s.order.pair), hp,
    List.mem_map]

end

/-! ### The outcomes of a pair -/

/-- The trades of an order and of its copy: the same amounts, under the two identifiers. -/
structure TradeExecution.Copied (P P' : Primitives) (T : Order → Order → Prop)
    (t t' : TradeExecution) : Prop where
  order : ∃ x y, T x y ∧ t.orderId = x.id P ∧ t'.orderId = y.id P'
  executedSell : t'.executedSell = t.executedSell
  executedBuy : t'.executedBuy = t.executedBuy

/-- The outcomes of a pair and of its copy. -/
structure PairOutcome.Copied (P P' : Primitives) (T : Order → Order → Prop) (x y : PairOutcome) :
    Prop where
  clearing : y.clearing = x.clearing
  trades : List.Forall₂ (TradeExecution.Copied P P' T) x.trades y.trades
  surplus : y.surplus = x.surplus

section
variable {T : Order → Order → Prop} {side side' : List Order} {hx : side.length = side'.length}
  (ht : ∀ k : Fin side.length, T (side.get k) (side'.get (k.cast hx)))
  (fills : List (Fill side.length)) (p : Price)
include ht

/-- The executions of a side and of its copy. -/
theorem copied_executions (P P' : Primitives) : List.Forall₂ (TradeExecution.Copied P P' T)
    ((soldPerOrder fills).map fun e => execution P p (side.get e.1) e.2)
    ((soldPerOrder (fills.map (Fill.rename (Fin.cast hx)))).map fun e =>
      execution P' p (side'.get e.1) e.2) := by
  rw [soldPerOrder_rename (Fin.cast_injective hx), List.map_map, List.forall₂_map_left_iff,
    List.forall₂_map_right_iff, List.forall₂_same]
  exact fun e _ => ⟨⟨_, _, ht e.1, rfl, rfl⟩, rfl, rfl⟩

/-- What they got above their limits. -/
theorem copied_sideGain (hT : ∀ x y, T x y → SameTerms x y) :
    sideGain p side' (soldPerOrder (fills.map (Fill.rename (Fin.cast hx)))) =
      sideGain p side (soldPerOrder fills) := by
  rw [sideGain, sideGain, soldPerOrder_rename (Fin.cast_injective hx), List.map_map]
  exact congrArg List.sum (List.map_congr_left fun e _ => (hT _ _ (ht e.1)).gain p e.2)

end

section
variable {P P' : Primitives} {T : Order → Order → Prop} (hT : ∀ x y, T x y → SameTerms x y)
  {orders orders' : List SignedOrder}
  (h : List.Forall₂ (fun s s' => T s.order s'.order) orders orders')
include hT h

/-- **A pair and its copy** have one outcome, up to the identifiers. -/
theorem copied_matchPair (m : Address × Address) :
    (matchPair P .insertion m.1 m.2 (pairOrders orders m)).Copied P P' T
      (matchPair P' .insertion m.1 m.2 (pairOrders orders' m)) := by
  obtain ⟨hx, hab⟩ := List.forall₂_iff_get.mp (forall₂_abSide hT h m)
  obtain ⟨hy, hba⟩ := List.forall₂_iff_get.mp (forall₂_baSide hT h m)
  have ha : ∀ k : Fin (abSide orders m).length,
      T ((abSide orders m).get k) ((abSide orders' m).get (k.cast hx)) := fun k => hab k _ _
  have hb : ∀ k : Fin (baSide orders m).length,
      T ((baSide orders m).get k) ((baSide orders' m).get (k.cast hy)) := fun k => hba k _ _
  have hc : Copies hx hy (pairFills orders m) (pairFills orders' m) :=
    copies_fillLoop (fun k => hT _ _ (ha k)) fun k => hT _ _ (hb k)
  have hnil : (pairFills orders' m).fillsAb = [] ↔ (pairFills orders m).fillsAb = [] := by
    rw [hc.fillsAb, List.map_eq_nil_iff]
  rw [matchPair_eq, matchPair_eq]
  by_cases hf : (pairFills orders m).fillsAb = []
  · rw [dif_pos hf, dif_pos (hnil.mpr hf)]
    exact ⟨rfl, .nil, rfl⟩
  have hf' := mt hnil.mp hf
  have hp : (pairFills orders' m).price hf' = (pairFills orders m).price hf := by
    simp only [MatchState.price, hc.lastCross]
  rw [dif_neg hf, dif_neg hf']
  refine ⟨?_, ?_, ?_⟩
  · show [ClearingPrice.mk m.1 (reciprocal ((pairFills orders' m).price hf')),
        ⟨m.2, (pairFills orders' m).price hf'⟩] =
      [⟨m.1, reciprocal ((pairFills orders m).price hf)⟩, ⟨m.2, (pairFills orders m).price hf⟩]
    rw [hp]
  · rw [settle_trades, settle_trades, hp]
    show List.Forall₂ _ ((soldPerOrder _).map _ ++ (soldPerOrder _).map _)
      ((soldPerOrder (pairFills orders' m).fillsAb).map _ ++
        (soldPerOrder (pairFills orders' m).fillsBa).map _)
    rw [hc.fillsAb, hc.fillsBa]
    exact List.rel_append (copied_executions ha _ _ P P') (copied_executions hb _ _ P P')
  · rw [settle_surplus, settle_surplus, fillsGain, fillsGain, hp, hc.fillsAb, hc.fillsBa,
      copied_sideGain ha _ _ hT, copied_sideGain hb _ _ hT]

/-- The trades of a batch, and of its copy. -/
theorem copied_trades (env env' : HashOrders) (cfg cfg' : MatcherConfig) (id id' : BatchId)
    (solver solver' : Address) :
    ∃ ts, ts.Perm (matchBatch P' env' cfg' id' solver' orders').trades ∧
      List.Forall₂ (TradeExecution.Copied P P' T) (matchBatch P env cfg id solver orders).trades
        ts := by
  have hm := markets_copies hT h
  have htrades := trades_perm_any P env .insertion cfg id solver orders
  have htrades' := trades_perm_any P' env' .insertion cfg' id' solver' orders'
  have hpairs : List.Forall₂ (TradeExecution.Copied P P' T)
      ((markets orders).flatMap fun m =>
        (matchPair P .insertion m.1 m.2 (pairOrders orders m)).trades)
      ((markets orders).flatMap fun m =>
        (matchPair P' .insertion m.1 m.2 (pairOrders orders' m)).trades) :=
    List.rel_flatMap (List.forall₂_same.mpr fun m _ => rfl)
      fun m m' e => e ▸ (copied_matchPair hT h m).trades
  obtain ⟨ts, hts, hperm⟩ := List.perm_comp_forall₂ htrades hpairs
  exact ⟨ts, hperm.trans ((hm.flatMap_right _).symm.trans htrades'.symm), hts⟩

/-- **Matching is anonymous.**  Exchange the orders of a batch, each for one on the same terms, the
hash functions, the iteration orders, the batch's identifier and the solver: the score and the
clearing prices are the same, and the trades are, one for one, those of the orders exchanged. -/
theorem anonymous (env env' : HashOrders) (cfg cfg' : MatcherConfig) (id id' : BatchId)
    (solver solver' : Address) :
    (matchBatch P' env' cfg' id' solver' orders').score =
        (matchBatch P env cfg id solver orders).score ∧
      (matchBatch P' env' cfg' id' solver' orders').clearingPrices.Perm
        (matchBatch P env cfg id solver orders).clearingPrices ∧
      ∃ ts, ts.Perm (matchBatch P' env' cfg' id' solver' orders').trades ∧
        List.Forall₂ (TradeExecution.Copied P P' T) (matchBatch P env cfg id solver orders).trades
          ts := by
  have hm := markets_copies hT h
  have hc : ∀ m, (matchPair P .insertion m.1 m.2 (pairOrders orders m)).Copied P P' T
      (matchPair P' .insertion m.1 m.2 (pairOrders orders' m)) := copied_matchPair hT h
  refine ⟨?_, ?_, ?_⟩
  · rw [score_eq P env .insertion, score_eq P' env' .insertion, (hm.map _).sum_eq]
    simp only [(hc _).surplus]
  · refine (clearingPrices_perm_any P' env' .insertion cfg' id' solver' orders').trans
      (.trans ?_ (clearingPrices_perm_any P env .insertion cfg id solver orders).symm)
    refine (hm.flatMap_right _).trans (.of_eq ?_)
    simp only [(hc _).clearing]
  · exact copied_trades hT h env env' cfg cfg' id id' solver solver'

end

section
open Sample

/-- An order to sell exchanged for another owner's order to buy. -/
theorem anonymous_two :
    (matchBatch primitives .insertion ⟨true⟩ ⟨.replicate 16 0⟩ .zero
        [sign { alice150 with owner := bob, receiver := bob, nonce := 7, kind := .buy },
          sign bob200]).score =
      (matchBatch primitives .insertion ⟨true⟩ ⟨.replicate 16 0⟩ .zero
        [sign alice150, sign bob200]).score ∧
    0 < (matchBatch primitives .insertion ⟨true⟩ ⟨.replicate 16 0⟩ .zero
      [sign alice150, sign bob200]).score := by
  have h : List.Forall₂ (fun s s' => SameTerms s.order s'.order) [sign alice150, sign bob200]
      [sign { alice150 with owner := bob, receiver := bob, nonce := 7, kind := .buy },
        sign bob200] :=
    .cons ⟨rfl, rfl, rfl, rfl, rfl⟩ (.cons ⟨rfl, rfl, rfl, rfl, rfl⟩ .nil)
  have hpos : 0 < (matchBatch primitives .insertion ⟨true⟩ ⟨.replicate 16 0⟩ .zero
      [sign alice150, sign bob200]).score := by decide +kernel
  have hT : ∀ x y, SameTerms x y → SameTerms x y := fun _ _ h => h
  exact ⟨(anonymous hT h .insertion .insertion ⟨true⟩ ⟨true⟩ ⟨.replicate 16 0⟩ ⟨.replicate 16 0⟩
    .zero .zero).1, hpos⟩

end

end OxDex
