import Mathlib.Data.List.Sort
import OxDex.Support.Loop
import OxDex.Support.Tally
import OxDex.Types.Solution

/-!
# Matching — Engine

The matching engine (`oxdex-matching`: `lib.rs`), as the code computes it.

`matchBatch` groups the orders by unordered mint pair, matches every pair and merges the outcomes.
`matchPair` splits a pair's orders by direction, sorts both sides by limit price, runs the
two-pointer loop (`turn`, one iteration, whose body is `meet`; `fillLoop`, the whole loop), prices
all fills at the midpoint of the last crossing pair (`clearingPrice`) and pays every order out at
that price.

The iteration orders of the hash maps, and the order in which the thread pool hands back the
pairs' outcomes, are not fixed by the input: they are a record `HashOrders`, on which every result
here depends.

A `MatchState` carries the fact that a state with fills has a last crossing pair, so the
`expect` after the loop is total.
-/

namespace OxDex
open Support

/-- `MatcherConfig`. -/
structure MatcherConfig where
  parallel : Bool
  deriving DecidableEq

/-- `canonical_pair`. -/
def canonicalPair (a b : Address) : Address × Address := if a ≤ b then (a, b) else (b, a)

/-- `clamp_u64`. -/
def clampU64 (v : Nat) : UInt64 := if v > u64Max then UInt64.ofNat u64Max else UInt64.ofNat v

/-! ### The fill loop -/

/-- One entry of a fill list: an order's index, what it sold and what it was booked to buy. -/
structure Fill (n : Nat) where
  idx : Fin n
  sold : Nat
  bought : Nat
  deriving DecidableEq

/-- The variables of the fill loop. -/
structure MatchState (aToB bToA : List Order) where
  i : Nat
  j : Nat
  aRemaining : Vector Nat aToB.length
  bRemaining : Vector Nat bToA.length
  fillsAb : List (Fill aToB.length)
  fillsBa : List (Fill bToA.length)
  lastCross : Option (Price × Price)
  crossed : fillsAb ≠ [] → lastCross.isSome = true

/-- The sell amounts of a side. -/
def sellAmounts (side : List Order) : Vector Nat side.length :=
  ⟨(side.map fun o => o.sellAmount.toNat).toArray, by simp⟩

/-- The cross check: the product of the limit prices is at most one. -/
def Crosses (oa ob : Order) : Prop :=
  satMul oa.limitPrice.num ob.limitPrice.num ≤ satMul oa.limitPrice.den ob.limitPrice.den

instance (oa ob : Order) : Decidable (Crosses oa ob) := inferInstanceAs (Decidable (_ ≤ _))

/-- `ob_a_capacity`: the A that `ob` still buys for `bLeft` of B, at its own limit. -/
def aCapacity (ob : Order) (bLeft : Nat) : Nat :=
  satMul bLeft ob.buyAmount.toNat / max ob.sellAmount.toNat 1

/-- `trade_b`: the B booked for `tradeA` of A, at `ob`'s own limit. -/
def bookedB (ob : Order) (tradeA : Nat) : Nat :=
  satMul tradeA ob.sellAmount.toNat / max ob.buyAmount.toNat 1

namespace MatchState

variable {aToB bToA : List Order}

/-- Before the loop. -/
def init (aToB bToA : List Order) : MatchState aToB bToA where
  i := 0
  j := 0
  aRemaining := sellAmounts aToB
  bRemaining := sellAmounts bToA
  fillsAb := []
  fillsBa := []
  lastCross := none
  crossed := fun h => absurd rfl h

/-- `last_cross = Some((lp_ab, lp_ba))`. -/
def cross (s : MatchState aToB bToA) (lpAb lpBa : Price) : MatchState aToB bToA :=
  { s with lastCross := some (lpAb, lpBa), crossed := fun _ => rfl }

/-- Debit both heads and record the fill. -/
def fill (s : MatchState aToB bToA) (h : s.lastCross.isSome = true) (i : Fin aToB.length)
    (j : Fin bToA.length) (tradeA tradeB : Nat) : MatchState aToB bToA :=
  { s with
    aRemaining := s.aRemaining.set i (s.aRemaining.get i - tradeA) i.2
    bRemaining := s.bRemaining.set j (s.bRemaining.get j - tradeB) j.2
    fillsAb := s.fillsAb ++ [⟨i, tradeA, tradeB⟩]
    fillsBa := s.fillsBa ++ [⟨j, tradeB, tradeA⟩]
    crossed := fun _ => h }

/-- Credit both heads and drop the last fill. -/
def rollback (s : MatchState aToB bToA) (i : Fin aToB.length) (j : Fin bToA.length)
    (tradeA tradeB : Nat) : MatchState aToB bToA :=
  { s with
    aRemaining := s.aRemaining.set i (satAdd (s.aRemaining.get i) tradeA) i.2
    bRemaining := s.bRemaining.set j (satAdd (s.bRemaining.get j) tradeB) j.2
    fillsAb := s.fillsAb.dropLast
    fillsBa := s.fillsBa.dropLast
    crossed := fun h => s.crossed fun h' => h (by rw [h']; rfl) }

end MatchState

/-- The rest of an iteration, once the heads `i` and `j` are known to cross. -/
def meet {aToB bToA : List Order} (s : MatchState aToB bToA) (h : s.lastCross.isSome = true)
    (i : Fin aToB.length) (j : Fin bToA.length) : MatchState aToB bToA :=
  let oa := aToB.get i
  let ob := bToA.get j
  let aLeft := s.aRemaining.get i
  let tradeA := min aLeft (aCapacity ob (s.bRemaining.get j))
  if tradeA = 0 then
    -- numerical edge: advance whichever side is exhausted
    if aLeft = 0 then { s with i := s.i + 1 } else { s with j := s.j + 1 }
  else
    let tradeB := bookedB ob tradeA
    let s := s.fill h i j tradeA tradeB
    -- an order that forbids partial fills and is not fully satisfied: undo, and skip it
    if oa.partialFill = false ∧ s.aRemaining.get i ≠ 0 then
      { s.rollback i j tradeA tradeB with i := s.i + 1 }
    else if ob.partialFill = false ∧ s.bRemaining.get j ≠ 0 then
      { s.rollback i j tradeA tradeB with j := s.j + 1 }
    else
      { s with
        i := if s.aRemaining.get i = 0 then s.i + 1 else s.i
        j := if s.bRemaining.get j = 0 then s.j + 1 else s.j }

/-- One iteration of the loop; `none` where the loop is left. -/
def turn (aToB bToA : List Order) (s : MatchState aToB bToA) : Option (MatchState aToB bToA) :=
  if h : s.i < aToB.length ∧ s.j < bToA.length then
    let oa := aToB[s.i]
    let ob := bToA[s.j]
    if Crosses oa ob then
      some (meet (s.cross oa.limitPrice ob.limitPrice) rfl ⟨s.i, h.1⟩ ⟨s.j, h.2⟩)
    else none
  else none

/-- A number of iterations the loop never exceeds (`turn_measure_lt`). -/
def fillBound (aToB bToA : List Order) : Nat :=
  aToB.length + bToA.length + (aToB.map fun o => o.sellAmount.toNat).sum

/-- The loop, run until it is left. -/
def fillLoop (aToB bToA : List Order) : MatchState aToB bToA :=
  Loop.run (turn aToB bToA) (fillBound aToB bToA) (.init aToB bToA)

/-! ### Re-pricing -/

/-- The uniform price of B per A: the midpoint of `lpAb` and of the reciprocal of `lpBa`. -/
def clearingPrice (lpAb lpBa : Price) : Price :=
  let num := satAdd (satMul lpAb.num lpBa.num) (satMul lpAb.den lpBa.den)
  let den := satMul (satMul lpAb.den lpBa.num) 2
  match Price.new (max num 1) (max den 1) (max_le (capAdd_le _ _ _) (by decide))
      (max_le (capMul_le _ _ _) (by decide)) with
  | .ok p => p
  | .error _ => ⟨1, 1, by decide, by decide, Nat.one_pos⟩

/-- The price of A per B. -/
def reciprocal (p : Price) : Price where
  num := p.den
  den := max p.num 1
  num_le := p.den_le
  den_le := max_le p.num_le (by decide)
  den_pos := lt_max_of_lt_right Nat.one_pos

/-- What each order of a side sold over all its fills, as the hash map holds it. -/
def soldPerOrder {n : Nat} (fills : List (Fill n)) : List (Fin n × Nat) :=
  tally Fill.idx 0 (fun b f => b + f.sold) fills

section
variable (P : Primitives)

/-- The trade of an order that sold `sold` at `price`. -/
def execution (price : Price) (o : Order) (sold : Nat) : TradeExecution where
  orderId := o.id P
  executedSell := clampU64 sold
  executedBuy := clampU64 (price.apply sold)

/-- Add to the surplus what the order got above its limit. -/
def addSurplus (price : Price) (o : Order) (sold surplus : Nat) : Nat :=
  if price.apply sold ≥ o.limitPrice.apply sold then
    satAdd surplus (price.apply sold - o.limitPrice.apply sold)
  else surplus

/-- Pay out one side at `price`: its trades are pushed and its surplus is added. -/
def payOut (price : Price) (side : List Order) (sums : List (Fin side.length × Nat))
    (acc : List TradeExecution × Nat) : List TradeExecution × Nat :=
  sums.foldl (fun acc e =>
    (acc.1 ++ [execution P price (side.get e.1) e.2],
      addSurplus price (side.get e.1) e.2 acc.2)) acc

end

/-- `PairOutcome`. -/
structure PairOutcome where
  clearing : List ClearingPrice
  trades : List TradeExecution
  surplus : Nat
  deriving DecidableEq

/-- A pair in which nothing trades. -/
def PairOutcome.nothing : PairOutcome := ⟨[], [], 0⟩

/-- What the input does not fix: the iteration orders of the three hash maps, and the order in
which the parallel map hands back its results. -/
structure HashOrders where
  groups : IterOrder ((Address × Address) × List Order)
  collect : IterOrder PairOutcome
  sumsAb : Address × Address → (n : Nat) → IterOrder (Fin n × Nat)
  sumsBa : Address × Address → (n : Nat) → IterOrder (Fin n × Nat)

/-- Every map iterated in the order its keys first occurred. -/
def HashOrders.insertion : HashOrders where
  groups := .id _
  collect := .id _
  sumsAb := fun _ _ => .id _
  sumsBa := fun _ _ => .id _

section
variable (P : Primitives) (env : HashOrders)

/-- The outcome of a pair whose loop ended with fills. -/
def settle (tokenA tokenB : Address) {aToB bToA : List Order} (s : MatchState aToB bToA)
    (h : s.fillsAb ≠ []) : PairOutcome :=
  let cross := s.lastCross.get (s.crossed h)
  let pBPerA := clearingPrice cross.1 cross.2
  let pAPerB := reciprocal pBPerA
  let out := payOut P pBPerA aToB
    ((env.sumsAb (tokenA, tokenB) _).iter (soldPerOrder s.fillsAb)) ([], 0)
  let out := payOut P pAPerB bToA
    ((env.sumsBa (tokenA, tokenB) _).iter (soldPerOrder s.fillsBa)) out
  { clearing := [⟨tokenA, pAPerB⟩, ⟨tokenB, pBPerA⟩], trades := out.1, surplus := out.2 }

/-- Sort a side by limit price, keeping the order of equal prices. -/
def sortByLimit (side : List Order) : List Order :=
  side.insertionSort fun x y => x.limitPrice ≤ y.limitPrice

/-- The orders that sell `tokenA` for `tokenB`. -/
def sellsAForB (tokenA tokenB : Address) (o : Order) : Bool :=
  o.sellMint = tokenA ∧ o.buyMint = tokenB

/-- `match_pair`. -/
def matchPair (tokenA tokenB : Address) (orders : List Order) : PairOutcome :=
  let aToB := orders.filter (sellsAForB tokenA tokenB)
  let bToA := orders.filter fun o => !sellsAForB tokenA tokenB o && sellsAForB tokenB tokenA o
  if aToB.isEmpty || bToA.isEmpty then .nothing
  else
    let aToB := sortByLimit aToB
    let bToA := sortByLimit bToA
    let s := fillLoop aToB bToA
    if h : s.fillsAb = [] then .nothing else settle P env tokenA tokenB s h

/-- The orders of a batch, by unordered mint pair. -/
def groupByPair (orders : List SignedOrder) : List ((Address × Address) × List Order) :=
  tally (fun s : SignedOrder => canonicalPair s.order.sellMint s.order.buyMint) []
    (fun os s => os ++ [s.order]) orders

/-- The outcomes of the pairs: on the thread pool or one after the other. -/
def perPair (cfg : MatcherConfig) (pairs : List ((Address × Address) × List Order)) :
    List PairOutcome :=
  if cfg.parallel then env.collect.iter (pairs.map fun p => matchPair P env p.1.1 p.1.2 p.2)
  else pairs.map fun p => matchPair P env p.1.1 p.1.2 p.2

/-- `Matcher::match_batch`. -/
def matchBatch (cfg : MatcherConfig) (batchId : BatchId) (solver : Address)
    (orders : List SignedOrder) : Solution :=
  let outcomes := perPair P env cfg (env.groups.iter (groupByPair orders))
  { batchId := batchId
    solver := solver
    clearingPrices := outcomes.flatMap PairOutcome.clearing
    trades := outcomes.flatMap PairOutcome.trades
    score := outcomes.foldl (fun score p => satAdd score p.surplus) 0 }

end

end OxDex
