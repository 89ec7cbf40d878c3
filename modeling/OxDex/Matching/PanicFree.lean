import OxDex.Matching.Checked
import OxDex.Matching.Clearing
import OxDex.Types.Comparison

/-!
# Matching — Panic Freedom

The matching engine ends and does not panic, whatever orders it is given.

For each function of `Checked` there is one lemma: on what the function of `Engine` runs on, it does
not stop, and returns what that returns.  The variables of the checked loop are those of a
`MatchState` without their proofs (`MatchState.vars`).  Together: `matchBatchOr_eq`.
-/

namespace OxDex
open Support

/-! ### The operations -/

theorem ok_bind {α β : Type} (a : α) (f : α → Checked β) : ((.ok a : Checked α) >>= f) = f a := rfl

theorem pure_eq_ok {α : Type} (a : α) : (pure a : Checked α) = .ok a := rfl

section
variable {α : Type} {n : Nat}

theorem indexOr_get (xs : List α) (k : Fin xs.length) : indexOr xs k = .ok (xs.get k) := by
  simp [indexOr]

theorem indexOr_toList (v : Vector α n) (k : Fin n) : indexOr v.toList k = .ok (v.get k) := by
  simp [indexOr, Vector.get]

theorem assignOr_toList (v : Vector α n) (k : Fin n) (x : α) :
    assignOr v.toList k x = .ok (v.set k x k.2).toList := by
  simp [assignOr, Vector.toList_set]

end

/-- A divisor that the code bounds below by one is not zero. -/
theorem divOr_max (a b : Nat) : divOr a (max b 1) = .ok (a / max b 1) :=
  if_neg (Nat.ne_of_gt (lt_max_of_lt_right Nat.one_pos))

theorem Price.applyOr_eq (p : Price) (x : Nat) : p.applyOr x = .ok (p.apply x) := by
  rw [applyOr, apply]
  cases checkedMul x p.num with
  | none => rfl
  | some v => exact if_neg p.den_pos.ne'

theorem expectOr_isSome {α : Type} {x : Option α} (h : x.isSome = true) (msg : String) :
    expectOr x msg = .ok (x.get h) := by
  cases x with
  | none => cases h
  | some a => rfl

/-- **The comparisons of limit prices form a total preorder**, since they are exact. -/
theorem totalPreorder_limits (side : List Order) :
    TotalPreorder (side.map Order.limitPrice) := by
  intro p hp q hq
  have u64 : ∀ p ∈ side.map Order.limitPrice, p.IsU64 := by
    intro p hp
    obtain ⟨o, -, rfl⟩ := List.mem_map.mp hp
    exact o.limitPrice_isU64
  refine ⟨?_, fun r hr hpq hqr => Price.le_trans (u64 p hp) (u64 q hq) (u64 r hr) hpq hqr⟩
  rw [Price.cmp, Price.cmp, Nat.compare_swap]

theorem sortOr_eq (side : List Order) : sortOr side = .ok (sortByLimit side) :=
  if_pos (totalPreorder_limits side)

/-! ### The loop -/

/-- A fill without its bound. -/
def Fill.entry {n : Nat} (f : Fill n) : Nat × Nat × Nat := (f.idx, f.sold, f.bought)

/-- The variables of a state, without its proofs. -/
def MatchState.vars {aToB bToA : List Order} (s : MatchState aToB bToA) : LoopVars where
  i := s.i
  j := s.j
  aRemaining := s.aRemaining.toList
  bRemaining := s.bRemaining.toList
  fillsAb := s.fillsAb.map Fill.entry
  fillsBa := s.fillsBa.map Fill.entry
  lastCross := s.lastCross

section
variable {aToB bToA : List Order}

theorem vars_init (aToB bToA : List Order) :
    (MatchState.init aToB bToA).vars = .init aToB bToA := by
  simp [MatchState.vars, MatchState.init, LoopVars.init, sellAmounts]

variable {s : MatchState aToB bToA} {i : Fin aToB.length} {j : Fin bToA.length}

theorem fill_vars (h : s.lastCross.isSome = true) (hi : s.i = i) (hj : s.j = j) (t u : Nat) :
    s.vars.fill (s.aRemaining.get i) t u = .ok (s.fill h i j t u).vars := by
  simp only [LoopVars.fill, MatchState.vars, hi, hj, assignOr_toList, indexOr_toList, ok_bind]
  simp [MatchState.fill, Fill.entry, pure_eq_ok, hi, hj]

theorem rollback_vars (hi : s.i = i) (hj : s.j = j) (t u : Nat) :
    s.vars.rollback t u = .ok (s.rollback i j t u).vars := by
  simp only [LoopVars.rollback, MatchState.vars, hi, hj, assignOr_toList, indexOr_toList, ok_bind]
  simp [MatchState.rollback, pure_eq_ok, hi, hj]

theorem indexOr_aHead (hi : s.i = i) :
    indexOr s.vars.aRemaining s.vars.i = .ok (s.aRemaining.get i) := by
  simp only [MatchState.vars, hi, indexOr_toList]

theorem indexOr_bHead (hj : s.j = j) :
    indexOr s.vars.bRemaining s.vars.j = .ok (s.bRemaining.get j) := by
  simp only [MatchState.vars, hj, indexOr_toList]

/-- **The body of the loop does not stop**, with both heads in range. -/
theorem meetOr_vars (h : s.lastCross.isSome = true) (hi : s.i = i) (hj : s.j = j) :
    meetOr (aToB.get i) (bToA.get j) s.vars = .ok (meet s h i j).vars := by
  simp only [meetOr, meet, indexOr_aHead hi, indexOr_bHead hj, ok_bind, divOr_max, pure_eq_ok]
  rw [← aCapacity]
  generalize min (s.aRemaining.get i) (aCapacity (bToA.get j) (s.bRemaining.get j)) = t
  by_cases h0 : t = 0
  · rw [if_pos h0, if_pos h0]
    split <;> rfl
  rw [if_neg h0, if_neg h0, ← bookedB, fill_vars h hi hj, ok_bind]
  obtain ⟨s₁, hs₁⟩ : ∃ s₁, s.fill h i j t (bookedB (bToA.get j) t) = s₁ := ⟨_, rfl⟩
  have hi₁ : s₁.i = i := hs₁ ▸ hi
  have hj₁ : s₁.j = j := hs₁ ▸ hj
  rw [hs₁, indexOr_aHead hi₁, indexOr_bHead hj₁, ok_bind, ok_bind]
  split
  · rw [rollback_vars hi₁ hj₁]
    rfl
  · split
    · rw [rollback_vars hi₁ hj₁]
      rfl
    · rfl

/-- **An iteration does not stop.** -/
theorem turnOr_vars (s : MatchState aToB bToA) :
    turnOr aToB bToA s.vars = .ok ((turn aToB bToA s).map MatchState.vars) := by
  rw [turnOr]
  by_cases hij : s.i < aToB.length ∧ s.j < bToA.length
  · obtain ⟨i, hi⟩ : ∃ i : Fin aToB.length, s.i = i := ⟨⟨s.i, hij.1⟩, rfl⟩
    obtain ⟨j, hj⟩ : ∃ j : Fin bToA.length, s.j = j := ⟨⟨s.j, hij.2⟩, rfl⟩
    rw [if_pos (show s.vars.i < _ ∧ s.vars.j < _ from hij), show s.vars.i = i from hi,
      show s.vars.j = j from hj, indexOr_get, indexOr_get, ok_bind, ok_bind]
    by_cases hc : Crosses (aToB.get i) (bToA.get j)
    · have hmeet := meetOr_vars (s := s.cross (aToB.get i).limitPrice (bToA.get j).limitPrice)
        rfl hi hj
      rw [MatchState.vars, show (s.cross _ _).i = i from hi, show (s.cross _ _).j = j from hj]
        at hmeet
      rw [if_pos hc, turn_of_crosses hi hj hc]
      exact congrArg (fun r => r >>= fun s => pure (some s)) hmeet
    · rw [if_neg hc, turn_of_not_crosses hi hj hc]
      rfl
  · have hn : turn aToB bToA s = none := by rw [turn, dif_neg hij]
    rw [if_neg (show ¬ (s.vars.i < _ ∧ s.vars.j < _) from hij), hn]
    rfl

/-- **The loop ends**: once it has been left, more iterations make no difference. -/
theorem loopOr_vars : ∀ (n : Nat) {s : MatchState aToB bToA},
    turn aToB bToA (Loop.run (turn aToB bToA) n s) = none → ∀ k,
      loopOr aToB bToA (n + k) s.vars = .ok (Loop.run (turn aToB bToA) n s).vars
  | 0, s, h, k => by
      have hn : turn aToB bToA s = none := h
      have ht : turnOr aToB bToA s.vars = .ok none := by rw [turnOr_vars, hn]; rfl
      cases k with
      | zero => simp only [loopOr, ht]; rfl
      | succ k => simp only [loopOr, ht]; rfl
  | n + 1, s, h, k => by
      rw [Nat.add_right_comm, loopOr, turnOr_vars, ok_bind]
      cases hs : turn aToB bToA s with
      | none =>
          rw [Loop.run_of_none hs]
          rfl
      | some s' =>
          rw [Loop.run_of_some hs] at h ⊢
          exact loopOr_vars n h k

theorem loopOr_init (aToB bToA : List Order) {fuel : Nat} (h : fillBound aToB bToA ≤ fuel) :
    loopOr aToB bToA fuel (.init aToB bToA) = .ok (fillLoop aToB bToA).vars := by
  obtain ⟨k, rfl⟩ := Nat.exists_eq_add_of_le h
  rw [← vars_init, loopOr_vars _ (fillLoop_left aToB bToA), fillLoop]

end

/-! ### Re-pricing -/

/-- An entry of a map from indices, without its bound. -/
def sumEntry {n : Nat} (e : Fin n × Nat) : Nat × Nat := (e.1, e.2)

section
variable {n : Nat}

/-- `+=` does not overflow where the sum is a `u128`. -/
theorem addTo_eq (k : Fin n) (x : Nat) : ∀ (m : List (Fin n × Nat)),
    valueAt k 0 m + x ≤ u128Max →
      addTo k x (m.map sumEntry) = .ok ((upsert k 0 (fun y => y + x) m).map sumEntry)
  | [], h => by
      have h : 0 + x ≤ u128Max := h
      simp only [List.map_nil, addTo, addOr, if_pos h, ok_bind]
      rfl
  | (k', y) :: m, h => by
      by_cases e : k' = k
      · have h : y + x ≤ u128Max := by rwa [valueAt, if_pos e] at h
        simp only [List.map_cons, sumEntry, addTo, upsert, addOr, if_pos (congrArg Fin.val e),
          if_pos e, if_pos h, ok_bind]
        rfl
      · have h : valueAt k 0 m + x ≤ u128Max := by rwa [valueAt, if_neg e] at h
        have hne : k'.val ≠ k.val := fun h => e (Fin.ext h)
        have ih := addTo_eq k x m h
        simp only [List.map_cons, addTo, upsert, sumEntry, if_neg e, if_neg hne] at ih ⊢
        rw [ih]
        rfl

theorem valueAt_soldPerOrder (fills : List (Fill n)) (k : Fin n) :
    valueAt k 0 (soldPerOrder fills) = soldOf fills k := by
  rw [soldPerOrder, valueAt_tally, soldOf, List.sum_eq_foldl, List.foldl_map]

/-- **The aggregation does not overflow**, where what every order sold is a `u128`. -/
theorem sumsOr_eq (fills : List (Fill n)) (h : ∀ k, soldOf fills k ≤ u128Max) :
    sumsOr (fills.map Fill.entry) = .ok ((soldPerOrder fills).map sumEntry) := by
  induction fills using List.reverseRecOn with
  | nil => rfl
  | append_singleton fills f ih =>
      have hk : soldOf (fills ++ [f]) f.idx = soldOf fills f.idx + f.sold := by
        rw [soldOf_concat, if_pos rfl]
      have hle : ∀ k, soldOf fills k ≤ u128Max := fun k =>
        (Nat.le_add_right _ _).trans ((soldOf_concat fills f k).symm.le.trans (h k))
      have hadd := addTo_eq f.idx f.sold (soldPerOrder fills)
        (by rw [valueAt_soldPerOrder, ← hk]; exact h _)
      have ih := ih hle
      have hstep : soldPerOrder (fills ++ [f]) =
          upsert f.idx 0 (fun y => y + f.sold) (soldPerOrder fills) := tally_concat _ _
      rw [sumsOr, List.map_append, List.foldlM_append, ← sumsOr, ih, ok_bind, hstep, ← hadd]
      exact bind_pure _

end

section
variable (P : Primitives) (price : Price) (side : List Order)

/-- What is subtracted from the payout is no more than it. -/
theorem payOneOr_eq (acc : List TradeExecution × Nat) (e : Fin side.length × Nat) :
    payOneOr P price side acc (sumEntry e) =
      .ok (acc.1 ++ [execution P price (side.get e.1) e.2],
        addSurplus price (side.get e.1) e.2 acc.2) := by
  simp only [payOneOr, sumEntry, Price.applyOr_eq, indexOr_get, ok_bind, addSurplus, execution]
  by_cases h : price.apply e.2 ≥ (side.get e.1).limitPrice.apply e.2
  · rw [if_pos h, if_pos h, subOr, if_pos h, ok_bind]
    rfl
  · rw [if_neg h, if_neg h]
    rfl

theorem payOutOr_eq (sums : List (Fin side.length × Nat)) (acc : List TradeExecution × Nat) :
    payOutOr P price side (sums.map sumEntry) acc = .ok (payOut P price side sums acc) := by
  induction sums generalizing acc with
  | nil => rfl
  | cons e sums ih =>
      simp only [payOutOr, payOut, List.map_cons, List.foldlM_cons, List.foldl_cons] at ih ⊢
      rw [payOneOr_eq, ok_bind, ih]

end

/-! ### A pair -/

/-- An entry of a map from indices below `n`. -/
def boundEntry (n : Nat) (e : Nat × Nat) : Option (Fin n × Nat) :=
  if h : e.1 < n then some (⟨e.1, h⟩, e.2) else none

theorem boundEntry_sumEntry {n : Nat} (e : Fin n × Nat) : boundEntry n (sumEntry e) = some e :=
  dif_pos e.1.2

/-- The same iteration orders, of maps from bounded indices. -/
def MapOrders.hashOrders (env : MapOrders) : HashOrders where
  groups := env.groups
  collect := env.collect
  sumsAb := fun m n => (env.sumsAb m).comap sumEntry (boundEntry n) boundEntry_sumEntry
  sumsBa := fun m n => (env.sumsBa m).comap sumEntry (boundEntry n) boundEntry_sumEntry

/-- The bound on the iterations of a pair's loop is one on what its orders have to sell. -/
theorem fillBound_le {p q : Order → Bool} (hpq : ∀ o, q o = true → p o = false)
    (orders : List Order) :
    fillBound (sortByLimit (orders.filter p)) (sortByLimit (orders.filter q)) ≤
      orders.length + (orders.map fun o => o.sellAmount.toNat).sum := by
  have sorted : ∀ side, (sortByLimit side).Perm side := List.perm_insertionSort _
  have hall := filters_perm hpq orders
  have hlen := hall.length_eq
  have hsum := (hall.map fun o => o.sellAmount.toNat).sum_eq
  rw [List.length_append, List.length_append] at hlen
  rw [List.map_append, List.sum_append] at hsum
  have hside := ((sorted (orders.filter p)).map fun o => o.sellAmount.toNat).sum_eq
  rw [fillBound, (sorted _).length_eq, (sorted _).length_eq, hside]
  omega

section
variable (P : Primitives) (env : MapOrders)

/-- **A pair with fills is settled**: it has a last crossing pair, and no order sold more than it
offers. -/
theorem settleOr_eq {a b : Address} {aToB bToA : List Order} {s : MatchState aToB bToA}
    (hs : Ledger s) (h : s.fillsAb ≠ []) :
    settleOr P env a b aToB bToA s.vars = .ok (settle P env.hashOrders a b s h) := by
  have hcross : expectOr s.vars.lastCross "must exist if fills_ab non-empty" =
      .ok (s.lastCross.get (s.crossed h)) := expectOr_isSome _ _
  have hab : sumsOr s.vars.fillsAb = .ok ((soldPerOrder s.fillsAb).map sumEntry) :=
    sumsOr_eq _ fun k => ((Nat.le_add_left _ _).trans (hs.a_sum k).le).trans
      ((toNat_le_u64Max _).trans u64Max_le_u128Max)
  have hba : sumsOr s.vars.fillsBa = .ok ((soldPerOrder s.fillsBa).map sumEntry) :=
    sumsOr_eq _ fun k => ((Nat.le_add_left _ _).trans (hs.b_sum k).le).trans
      ((toNat_le_u64Max _).trans u64Max_le_u128Max)
  simp only [settleOr, hcross, hab, hba, ok_bind]
  rw [← IterOrder.map_comap_iter _ boundEntry_sumEntry, payOutOr_eq, ok_bind,
    ← IterOrder.map_comap_iter _ boundEntry_sumEntry, payOutOr_eq, ok_bind]
  rfl

/-- **A pair is matched**, within as many iterations as its loop has a bound for. -/
theorem matchPairOr_eq {fuel : Nat} {a b : Address} {orders : List Order}
    (hfuel : orders.length + (orders.map fun o => o.sellAmount.toNat).sum ≤ fuel) :
    matchPairOr P env fuel a b orders = .ok (matchPair P env.hashOrders a b orders) := by
  simp only [matchPairOr, matchPair]
  obtain ⟨side, hside⟩ : ∃ side, side = orders.filter (sellsAForB a b) := ⟨_, rfl⟩
  obtain ⟨side', hside'⟩ : ∃ side', side' = orders.filter fun o =>
    !sellsAForB a b o && sellsAForB b a o := ⟨_, rfl⟩
  rw [← hside, ← hside']
  by_cases he : (side.isEmpty || side'.isEmpty) = true
  · rw [if_pos he, if_pos he]
    rfl
  have hbound : fillBound (sortByLimit side) (sortByLimit side') ≤ fuel := by
    rw [hside, hside']
    exact (fillBound_le (fun o ho => by simpa using (Bool.and_eq_true_iff.mp ho).1) orders).trans
      hfuel
  rw [if_neg he, if_neg he, sortOr_eq, sortOr_eq, ok_bind, ok_bind, loopOr_init _ _ hbound, ok_bind]
  have hl := ledger_fillLoop (sortByLimit side) (sortByLimit side')
  generalize fillLoop (sortByLimit side) (sortByLimit side') = s at hl
  by_cases hf : s.fillsAb = []
  · rw [dif_pos hf, if_pos (by simp [MatchState.vars, hf])]
    rfl
  · rw [dif_neg hf, if_neg (by simpa [MatchState.vars] using hf)]
    exact settleOr_eq P env hl hf

/-! ### The batch -/

/-- The orders of the batch, and the amounts they sell. -/
def iterationBound (orders : List SignedOrder) : Nat :=
  orders.length + (orders.map fun s => s.order.sellAmount.toNat).sum

theorem pairOrders_le (orders : List SignedOrder) (m : Address × Address) :
    (pairOrders orders m).length + ((pairOrders orders m).map fun o => o.sellAmount.toNat).sum ≤
      iterationBound orders := by
  have hsub : (pairOrders orders m).Sublist (orders.map SignedOrder.order) :=
    List.filter_sublist.map _
  have hlen := hsub.length_le
  have hsum := (hsub.map fun o => o.sellAmount.toNat).sum_le_sum fun _ _ => Nat.zero_le _
  rw [List.length_map] at hlen
  rw [List.map_map] at hsum
  exact Nat.add_le_add hlen hsum

/-- **Matching ends and does not panic.**  For all orders, settings and iteration orders, the
checked engine returns what the engine returns, if the loop of each pair is given as many iterations
as the orders number and the amounts they sell add up to, or more. -/
theorem matchBatchOr_eq (cfg : MatcherConfig) (batchId : BatchId) (solver : Address)
    (orders : List SignedOrder) (n : Nat) :
    matchBatchOr P env (iterationBound orders + n) cfg batchId solver orders =
      .ok (matchBatch P env.hashOrders cfg batchId solver orders) := by
  have hpair : ∀ p ∈ env.groups.iter (groupByPair orders),
      matchPairOr P env (iterationBound orders + n) p.1.1 p.1.2 p.2 =
        .ok (matchPair P env.hashOrders p.1.1 p.1.2 p.2) := by
    intro p hp
    rw [groupByPair_eq, IterOrder.mem_iter, List.mem_map] at hp
    obtain ⟨m, -, rfl⟩ := hp
    exact matchPairOr_eq P env ((pairOrders_le orders m).trans (Nat.le_add_right _ _))
  rw [matchBatchOr, mapM_eq_ok hpair, ok_bind, matchBatch, perPair]
  cases cfg.parallel <;> rfl

end

end OxDex
