import OxDex.Matching.Clearing
import OxDex.Storage.Repository
import OxDex.Support.Selection

/-!
# Auctioneer — Round

One round of the auction (`oxdex-auctioneer`: `lib.rs`), with the solver trait and the reference
solver (`oxdex-solver`: `lib.rs`).

A `Solver` is what it may answer to a batch.  The round takes the answers in the order in which
they come in (`RoundInput`), so a statement about every input is one about every set of solvers and
every order of completion.

* `race_eq_some`: the answer the round settles on is the first of the highest-scoring solutions.
* `sealBatch_spec`: over a repository that keeps the book, the batch holds the open orders, once
  each.
-/

namespace OxDex
open Support

/-- `AuctionSettings`, of which a round reads these two. -/
structure AuctionSettings where
  solverTimeoutMs : UInt64
  minSolvers : Nat

/-! ### Solvers -/

/-- `Solver`: its address, and what it may answer to a batch within a deadline in milliseconds. -/
structure Solver where
  address : Address
  solve : Batch → UInt64 → Except OxDexError Solution → Prop

/-- What `ReferenceSolver::solve` answers: the matching engine's solution, unless the blocking task
fails or the deadline passes. -/
inductive ReferenceSolve (P : Primitives) (address : Address) (batch : Batch) :
    Except OxDexError Solution → Prop where
  | solved (env : HashOrders) : ReferenceSolve P address batch
      (.ok (matchBatch P env ⟨true⟩ batch.id address batch.orders))
  | join (e : String) : ReferenceSolve P address batch (.error (.internal ("solver join: " ++ e)))
  | timeout : ReferenceSolve P address batch (.error (.internal "solver deadline exceeded"))

/-- `ReferenceSolver::new`. -/
def referenceSolver (P : Primitives) (address : Address) : Solver where
  address := address
  solve := fun batch _ => ReferenceSolve P address batch

/-- An answer as it comes in: a solver's address, and its solution or its error. -/
abbrev Answer := Address × Except OxDexError Solution

/-- Take in an answer: a solution is kept if it scores strictly higher than the best so far. -/
def consider (best : Option Solution) : Except OxDexError Solution → Option Solution
  | .ok sol => if best.all fun b => sol.score > b.score then some sol else best
  | .error _ => best

/-- The solver race, over the answers in the order in which they come in. -/
def race (answers : List Answer) : Option Solution :=
  answers.foldl (fun best a => consider best a.2) none

/-- The solutions among the answers. -/
def solutions (answers : List Answer) : List Solution := answers.filterMap fun a => a.2.toOption

theorem race_eq_foldl (answers : List Answer) :
    race answers = (solutions answers).foldl (better Solution.score) none := by
  rw [solutions, List.foldl_filterMap]
  refine congrArg (fun f => answers.foldl f none) (funext fun best => funext fun a => ?_)
  rcases a with ⟨-, e | sol⟩ <;> rfl

/-- **The race settles on the first of the highest-scoring solutions.** -/
theorem race_eq_some {answers : List Answer} {sol : Solution} :
    race answers = some sol ↔ FirstBest Solution.score (solutions answers) sol := by
  rw [race_eq_foldl, foldl_better_eq_some]

theorem mem_solutions {answers : List Answer} {sol : Solution} :
    sol ∈ solutions answers ↔ ∃ a ∈ answers, a.2 = .ok sol := by
  rw [solutions, List.mem_filterMap]
  refine exists_congr fun a => and_congr_right fun _ => ?_
  cases a.2 <;> simp [Except.toOption]

/-- The race settles on something as soon as one solver returns a solution. -/
theorem race_isSome {answers : List Answer} :
    (race answers).isSome ↔ ∃ a ∈ answers, ∃ sol, a.2 = .ok sol := by
  rw [Option.isSome_iff_ne_none, race_eq_foldl, Ne, foldl_better_eq_none,
    ← List.isEmpty_iff, Bool.not_eq_true, List.isEmpty_eq_false_iff_exists_mem]
  constructor
  · rintro ⟨sol, h⟩
    obtain ⟨a, ha, hsol⟩ := mem_solutions.mp h
    exact ⟨a, ha, sol, hsol⟩
  · rintro ⟨a, ha, sol, hsol⟩
    exact ⟨sol, mem_solutions.mpr ⟨a, ha, hsol⟩⟩

/-! ### The round -/

/-- `Auctioneer`, without the repository and the sink. -/
structure Auctioneer where
  cfg : AuctionSettings
  solvers : List Solver

/-- What a round gets from outside: the clock at its start, the identifier drawn for the batch, the
answers in the order in which they come in, and the clock readings of its writes. -/
structure RoundInput where
  now : Int64
  batchId : BatchId
  answers : List Answer
  nanos : Nat → Nat

/-- How a round went: its result, the store it leaves, the calls of `update_status` it made, and the
solution it delivered. -/
structure RoundOutcome (σ : Type) where
  result : Except OxDexError Unit
  store : σ
  marked : List TradeExecution
  delivered : Option Solution

/-- A round that ends before it has a winner. -/
def RoundOutcome.early {σ : Type} (result : Except OxDexError Unit) (store : σ) : RoundOutcome σ :=
  ⟨result, store, [], none⟩

section
variable (P : Primitives) {σ : Type} (R : OrderRepository σ)

/-- The first part of `run_one_auction`: `None` where the round is skipped. -/
def sealBatch (A : Auctioneer) (input : RoundInput) (st : σ) :
    Except OxDexError (Option Batch) × σ :=
  if A.solvers.length < A.cfg.minSolvers then (.ok none, st)
  else
    match R.expireDue (input.nanos 0) input.now st with
    | (.error e, st) => (.error (e.toOxDexError P), st)
    | (.ok _, st) =>
        match R.listOpen none st with
        | .error e => (.error (e.toOxDexError P), st)
        | .ok opened =>
            if opened.isEmpty then (.ok none, st)
            else (.ok (some ⟨input.batchId, input.now, opened.map OrderRecord.signed⟩), st)

/-- The batch a round seals, if any. -/
def sealedBatch (A : Auctioneer) (input : RoundInput) (st : σ) : Option Batch :=
  ((sealBatch P R A input st).1.toOption).join

/-- Mark the order of one trade as auctioned; an error is logged and dropped. -/
def markOne (now : Nat) (t : TradeExecution) (st : σ) : σ :=
  (R.updateStatus now t.orderId .auctioned (some t.executedSell) (some t.executedBuy) st).2

/-- Mark the orders of the winner's trades, one after the other. -/
def markAll (nanos : Nat → Nat) : List TradeExecution → σ → σ
  | [], st => st
  | t :: ts, st => markAll (fun k => nanos (k + 1)) ts (markOne R (nanos 0) t st)

/-- `Auctioneer::run_one_auction`. -/
def runOneAuction (A : Auctioneer) (input : RoundInput) (st : σ) : RoundOutcome σ :=
  match sealBatch P R A input st with
  | (.error e, st) => .early (.error e) st
  | (.ok none, st) => .early (.ok ()) st
  | (.ok (some _), st) =>
      match race input.answers with
      | none => .early (.ok ()) st
      | some winner =>
          { result := .ok ()
            store := markAll R (fun k => input.nanos (k + 1)) winner.trades st
            marked := winner.trades
            delivered := some winner }

end

/-- The auctioneer's solvers are reference solvers. -/
def Auctioneer.IsReference (P : Primitives) (A : Auctioneer) : Prop :=
  ∀ s ∈ A.solvers, ∃ address, s = referenceSolver P address

/-- One of the solvers may answer the batch with this solution. -/
def Auctioneer.Answers (A : Auctioneer) (batch : Batch) (sol : Solution) : Prop :=
  ∃ s ∈ A.solvers, s.solve batch A.cfg.solverTimeoutMs (.ok sol)

/-- What reference solvers answer is a solution of the matching engine. -/
theorem Auctioneer.IsReference.eq_matchBatch {P : Primitives} {A : Auctioneer}
    (h : A.IsReference P) {batch : Batch} {sol : Solution} (hs : A.Answers batch sol) :
    ∃ env address, sol = matchBatch P env ⟨true⟩ batch.id address batch.orders := by
  obtain ⟨s, hmem, hsol⟩ := hs
  obtain ⟨address, rfl⟩ := h s hmem
  cases hsol with
  | solved env => exact ⟨env, address, rfl⟩

/-! ### The batch a round seals -/

section
variable {P : Primitives} {σ : Type} {R : OrderRepository σ} {Sound : σ → Prop}
  {book : σ → OrderBook}

theorem sealedBatch_eq_some {A : Auctioneer} {input : RoundInput} {st : σ} {b : Batch} :
    sealedBatch P R A input st = some b ↔ (sealBatch P R A input st).1 = .ok (some b) := by
  unfold sealedBatch
  rcases (sealBatch P R A input st).1 with e | _ | b' <;> simp [Except.toOption]

/-- **What is sealed**: the orders that are open once those that are due have expired, under
distinct identifiers. -/
theorem sealBatch_spec (hR : Implements P R Sound book) {A : Auctioneer} {input : RoundInput}
    {st : σ} (hs : Sound st) {b : Batch} (h : (sealBatch P R A input st).1 = .ok (some b)) :
    b.id = input.batchId ∧ b.sealedAt = input.now ∧ (b.orderIds P).Nodup ∧ ∀ s, s ∈ b.orders ↔
      ∃ e, (book st).sweep input.now (s.order.id P) = some e ∧ e.status = .opened ∧
        e.signed = s := by
  unfold sealBatch at h
  split at h
  · cases h
  have hx := hR.expireDue (input.nanos 0) input.now st hs
  obtain ⟨res, st', hst⟩ : ∃ res st', R.expireDue (input.nanos 0) input.now st = (res, st') :=
    ⟨_, _, rfl⟩
  rw [hst] at h hx
  cases res with
  | error e => cases h
  | ok n =>
      obtain ⟨rs, hrs, hnodup, hmem, hall⟩ := hR.listOpen st' hx.1
      simp only [hrs] at h
      split at h
      · cases h
      cases h
      refine ⟨rfl, rfl, ?_, fun s => ?_⟩
      · rw [Batch.orderIds, List.map_map]
        refine (List.map_congr_left fun r hr => ?_) ▸ hnodup
        exact (hmem r hr).2.2.symm
      · rw [← hx.2, List.mem_map]
        constructor
        · rintro ⟨r, hr, rfl⟩
          obtain ⟨hb, ho, hid⟩ := hmem r hr
          exact ⟨r.entry, hid ▸ hb, ho, rfl⟩
        · rintro ⟨e, he, ho, rfl⟩
          obtain ⟨r, hr, hid⟩ := hall _ e he ho
          refine ⟨r, hr, ?_⟩
          have hb := (hmem r hr).1
          rw [hid, he] at hb
          exact congrArg Entry.signed (Option.some.inj hb).symm

end

/-! ### A batch of two -/

namespace Sample

/-- An auctioneer as the node starts it: one reference solver. -/
def auctioneer : Auctioneer := ⟨⟨200, 1⟩, [referenceSolver primitives .zero]⟩

def batchId : BatchId := ⟨.replicate 16 7⟩

def batchOfTwo : Batch := ⟨batchId, 50, [sign alice150, sign bob200]⟩

/-- What the reference solver makes of alice's order and bob's. -/
def solution : Solution :=
  matchBatch primitives .insertion ⟨true⟩ batchId .zero [sign alice150, sign bob200]

/-- A round at the second 50, in which the reference solver answers that. -/
def roundOfTwo : RoundInput := ⟨50, batchId, [(.zero, .ok solution)], fun k => 3 + k⟩

theorem solution_trades : solution.trades =
    [⟨alice150.id primitives, 100, 175⟩, ⟨bob200.id primitives, 200, 114⟩] := by
  decide +kernel

end Sample

end OxDex
