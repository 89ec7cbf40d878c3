import OxDex.Matching.Engine

/-!
# Matching — Checked

The matching engine with everything in it that may panic.

`Engine` builds the absence of panics into its types: indices are `Fin`s, the loop has its bound, a
division is total.  Here the same source is translated once more, operation by operation, into a
computation that may stop (`Stop`): vectors are lists with unchecked indices, every division, every
`+=`, every subtraction, `expect` and the sort can fail, and the loop runs on the number of
iterations it is given.

Saturating operations and `checked_mul` do not panic and are those of `Price`.  `i += 1` adds to an
index that is below the length of a vector, so it does not leave `usize`.
-/

namespace OxDex
open Support

/-! ### What may stop -/

/-- Why a computation has stopped: a panic, or a loop that goes on after its last iteration. -/
inductive Stop where
  | divisionByZero
  | indexOutOfRange
  | addOverflow
  | subOverflow
  | expect (msg : String)
  /-- `sort_by_key` may panic where the keys' comparisons are not a total preorder. -/
  | sortOrder
  | running
  deriving DecidableEq

/-- A computation that may stop. -/
abbrev Checked := Except Stop

/-- `/`. -/
def divOr (a b : Nat) : Checked Nat := if b = 0 then .error .divisionByZero else .ok (a / b)

/-- `+` on `u128`. -/
def addOr (a b : Nat) : Checked Nat := if a + b ≤ u128Max then .ok (a + b) else .error .addOverflow

/-- `-` on `u128`. -/
def subOr (a b : Nat) : Checked Nat := if b ≤ a then .ok (a - b) else .error .subOverflow

/-- `xs[k]`. -/
def indexOr {α : Type} (xs : List α) (k : Nat) : Checked α :=
  match xs[k]? with
  | some x => .ok x
  | none => .error .indexOutOfRange

/-- `xs[k] = x`. -/
def assignOr {α : Type} (xs : List α) (k : Nat) (x : α) : Checked (List α) :=
  if k < xs.length then .ok (xs.set k x) else .error .indexOutOfRange

/-- `Option::expect`. -/
def expectOr {α : Type} (x : Option α) (msg : String) : Checked α :=
  match x with
  | some a => .ok a
  | none => .error (.expect msg)

/-- The comparisons of the keys form a total preorder. -/
def TotalPreorder (keys : List Price) : Prop :=
  ∀ p ∈ keys, ∀ q ∈ keys, q.cmp p = (p.cmp q).swap ∧
    ∀ r ∈ keys, p.cmp q ≠ .gt → q.cmp r ≠ .gt → p.cmp r ≠ .gt

instance (keys : List Price) : Decidable (TotalPreorder keys) :=
  inferInstanceAs (Decidable (∀ p ∈ keys, ∀ q ∈ keys, _ ∧ _))

/-- `sort_by_key(|x| x.limit_price())`. -/
def sortOr (side : List Order) : Checked (List Order) :=
  if TotalPreorder (side.map Order.limitPrice) then .ok (sortByLimit side) else .error .sortOrder

/-- `Price::apply`. -/
def Price.applyOr (p : Price) (sellAmount : Nat) : Checked Nat :=
  match checkedMul sellAmount p.num with
  | some v => divOr v p.den
  | none => .ok u128Max

/-! ### The loop -/

/-- The variables of the fill loop. -/
structure LoopVars where
  i : Nat
  j : Nat
  aRemaining : List Nat
  bRemaining : List Nat
  fillsAb : List (Nat × Nat × Nat)
  fillsBa : List (Nat × Nat × Nat)
  lastCross : Option (Price × Price)

namespace LoopVars

/-- Before the loop. -/
def init (aToB bToA : List Order) : LoopVars where
  i := 0
  j := 0
  aRemaining := aToB.map fun o => o.sellAmount.toNat
  bRemaining := bToA.map fun o => o.sellAmount.toNat
  fillsAb := []
  fillsBa := []
  lastCross := none

/-- Debit both heads and push the fill. -/
def fill (s : LoopVars) (aLeft tradeA tradeB : Nat) : Checked LoopVars := do
  let aRemaining ← assignOr s.aRemaining s.i (aLeft - tradeA)
  let bLeft ← indexOr s.bRemaining s.j
  let bRemaining ← assignOr s.bRemaining s.j (bLeft - tradeB)
  pure { s with
    aRemaining := aRemaining
    bRemaining := bRemaining
    fillsAb := s.fillsAb ++ [(s.i, tradeA, tradeB)]
    fillsBa := s.fillsBa ++ [(s.j, tradeB, tradeA)] }

/-- Credit both heads and pop the fill. -/
def rollback (s : LoopVars) (tradeA tradeB : Nat) : Checked LoopVars := do
  let aLeft ← indexOr s.aRemaining s.i
  let aRemaining ← assignOr s.aRemaining s.i (satAdd aLeft tradeA)
  let bLeft ← indexOr s.bRemaining s.j
  let bRemaining ← assignOr s.bRemaining s.j (satAdd bLeft tradeB)
  pure { s with
    aRemaining := aRemaining
    bRemaining := bRemaining
    fillsAb := s.fillsAb.dropLast
    fillsBa := s.fillsBa.dropLast }

end LoopVars

/-- The rest of an iteration, once the heads `oa` and `ob` are known to cross. -/
def meetOr (oa ob : Order) (s : LoopVars) : Checked LoopVars := do
  let aLeft ← indexOr s.aRemaining s.i
  let bLeft ← indexOr s.bRemaining s.j
  let obACapacity ← divOr (satMul bLeft ob.buyAmount.toNat) (max ob.sellAmount.toNat 1)
  let tradeA := min aLeft obACapacity
  if tradeA = 0 then
    pure (if aLeft = 0 then { s with i := s.i + 1 } else { s with j := s.j + 1 })
  else
    let tradeB ← divOr (satMul tradeA ob.sellAmount.toNat) (max ob.buyAmount.toNat 1)
    let s ← s.fill aLeft tradeA tradeB
    let aLeft ← indexOr s.aRemaining s.i
    let bLeft ← indexOr s.bRemaining s.j
    if oa.partialFill = false ∧ aLeft ≠ 0 then
      let s ← s.rollback tradeA tradeB
      pure { s with i := s.i + 1 }
    else if ob.partialFill = false ∧ bLeft ≠ 0 then
      let s ← s.rollback tradeA tradeB
      pure { s with j := s.j + 1 }
    else
      pure { s with
        i := if aLeft = 0 then s.i + 1 else s.i
        j := if bLeft = 0 then s.j + 1 else s.j }

/-- One iteration; `none` where the loop is left. -/
def turnOr (aToB bToA : List Order) (s : LoopVars) : Checked (Option LoopVars) := do
  if s.i < aToB.length ∧ s.j < bToA.length then
    let oa ← indexOr aToB s.i
    let ob ← indexOr bToA s.j
    if Crosses oa ob then
      let s ← meetOr oa ob { s with lastCross := some (oa.limitPrice, ob.limitPrice) }
      pure (some s)
    else pure none
  else pure none

/-- The loop, for at most this many iterations. -/
def loopOr (aToB bToA : List Order) : Nat → LoopVars → Checked LoopVars
  | 0, s => do
      match ← turnOr aToB bToA s with
      | none => pure s
      | some _ => .error .running
  | fuel + 1, s => do
      match ← turnOr aToB bToA s with
      | none => pure s
      | some s => loopOr aToB bToA fuel s

/-! ### Re-pricing -/

/-- `*m.entry(k).or_default() += x`. -/
def addTo (k x : Nat) : List (Nat × Nat) → Checked (List (Nat × Nat))
  | [] => do
      let y ← addOr 0 x
      pure [(k, y)]
  | (k', y) :: m =>
      if k' = k then do
        let z ← addOr y x
        pure ((k', z) :: m)
      else do
        let m ← addTo k x m
        pure ((k', y) :: m)

/-- What each order of a side sold over all its fills. -/
def sumsOr (fills : List (Nat × Nat × Nat)) : Checked (List (Nat × Nat)) :=
  fills.foldlM (fun m f => addTo f.1 f.2.1 m) []

/-- Pay out one entry of a side's map: push its trade and add its surplus. -/
def payOneOr (P : Primitives) (price : Price) (side : List Order) (acc : List TradeExecution × Nat)
    (e : Nat × Nat) : Checked (List TradeExecution × Nat) := do
  let bought ← price.applyOr e.2
  let order ← indexOr side e.1
  let least ← order.limitPrice.applyOr e.2
  let trade := ⟨order.id P, clampU64 e.2, clampU64 bought⟩
  if bought ≥ least then
    let above ← subOr bought least
    pure (acc.1 ++ [trade], satAdd acc.2 above)
  else pure (acc.1 ++ [trade], acc.2)

/-- Pay out one side at `price`. -/
def payOutOr (P : Primitives) (price : Price) (side : List Order) (sums : List (Nat × Nat))
    (acc : List TradeExecution × Nat) : Checked (List TradeExecution × Nat) :=
  sums.foldlM (payOneOr P price side) acc

/-- What the input does not fix, with hash maps from indices to sums. -/
structure MapOrders where
  groups : IterOrder ((Address × Address) × List Order)
  collect : IterOrder PairOutcome
  sumsAb : Address × Address → IterOrder (Nat × Nat)
  sumsBa : Address × Address → IterOrder (Nat × Nat)

section
variable (P : Primitives) (env : MapOrders)

/-- The outcome of a pair whose loop ended with fills. -/
def settleOr (tokenA tokenB : Address) (aToB bToA : List Order) (s : LoopVars) :
    Checked PairOutcome := do
  let cross ← expectOr s.lastCross "must exist if fills_ab non-empty"
  let pBPerA := clearingPrice cross.1 cross.2
  let sumA ← sumsOr s.fillsAb
  let sumB ← sumsOr s.fillsBa
  let out ← payOutOr P pBPerA aToB ((env.sumsAb (tokenA, tokenB)).iter sumA) ([], 0)
  let pAPerB := reciprocal pBPerA
  let out ← payOutOr P pAPerB bToA ((env.sumsBa (tokenA, tokenB)).iter sumB) out
  pure { clearing := [⟨tokenA, pAPerB⟩, ⟨tokenB, pBPerA⟩], trades := out.1, surplus := out.2 }

/-- `match_pair`. -/
def matchPairOr (fuel : Nat) (tokenA tokenB : Address) (orders : List Order) :
    Checked PairOutcome := do
  let aToB := orders.filter (sellsAForB tokenA tokenB)
  let bToA := orders.filter fun o => !sellsAForB tokenA tokenB o && sellsAForB tokenB tokenA o
  if aToB.isEmpty || bToA.isEmpty then pure .nothing
  else
    let aToB ← sortOr aToB
    let bToA ← sortOr bToA
    let s ← loopOr aToB bToA fuel (.init aToB bToA)
    if s.fillsAb.isEmpty then pure .nothing else settleOr P env tokenA tokenB aToB bToA s

/-- `Matcher::match_batch`, with at most `fuel` iterations for the loop of a pair. -/
def matchBatchOr (fuel : Nat) (cfg : MatcherConfig) (batchId : BatchId) (solver : Address)
    (orders : List SignedOrder) : Checked Solution := do
  let outcomes ← (env.groups.iter (groupByPair orders)).mapM fun p =>
    matchPairOr P env fuel p.1.1 p.1.2 p.2
  let outcomes := if cfg.parallel then env.collect.iter outcomes else outcomes
  pure
    { batchId := batchId
      solver := solver
      clearingPrices := outcomes.flatMap PairOutcome.clearing
      trades := outcomes.flatMap PairOutcome.trades
      score := outcomes.foldl (fun score p => satAdd score p.surplus) 0 }

end

end OxDex
