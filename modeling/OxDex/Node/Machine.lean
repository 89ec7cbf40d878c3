import OxDex.Auctioneer.Round
import OxDex.IntentPool.Handlers
import OxDex.Support.Transition

/-!
# Node — Machine

A running node (`oxdex-node`: `main.rs`): the API and one auctioneer, over one repository and one
clock.

A request and a round both take several steps, and between two steps of one anything the other does
may happen.  `ApiStep` are the steps of the requests, `RoundStep` those of the auctioneer; a call of
the repository is one step.  Times only go forward (`Step.tick`).

`ApiAction.effect` and `RoundAction.effect` say what a step does to the book, and `step_book` that
it does it, over every repository that keeps the book.
-/

namespace OxDex
open Support

/-- A `submit_order` request that has passed the checks on its order, and maybe that of its
signature. -/
structure Pending where
  signed : SignedOrder
  verified : Bool
  deriving DecidableEq

/-- Where the auctioneer stands. -/
inductive Phase where
  /-- Between two rounds. -/
  | idle
  /-- The clock has been read. -/
  | started (now : Int64)
  /-- The orders that were due have expired. -/
  | swept (now : Int64)
  /-- The open orders have been read. -/
  | listed (now : Int64) (opened : List OrderRecord)
  /-- The solvers of `waiting` have still to answer. -/
  | racing (batch : Batch) (waiting : List Solver) (best : Option Solution)
  /-- The orders of `todo` have still to be marked, then the winner is delivered. -/
  | marking (batch : Batch) (winner : Solution) (todo : List TradeExecution)

/-- A node. -/
structure Node (σ : Type) where
  store : σ
  clock : Int64
  pending : List Pending
  phase : Phase

/-- A node that starts on the store it finds. -/
def Node.boot {σ : Type} (store : σ) (clock : Int64) : Node σ := ⟨store, clock, [], .idle⟩

/-- The steps of requests.  A step that writes reads the clock first. -/
inductive ApiAction where
  | validate (signed : SignedOrder)
  | verify (signed : SignedOrder)
  | insert (now : Nat) (signed : SignedOrder)
  | cancel (now : Nat) (id : OrderId) (owner : Address)
  | read

/-- The steps of a round. -/
inductive RoundAction where
  | start
  | sweep (now : Nat)
  | list (opened : List OrderRecord)
  | listError
  | sealBatch (id : BatchId)
  | answer (k : Nat) (res : Except OxDexError Solution)
  | choose
  | mark (now : Nat)
  | deliver

/-- What happens in a node. -/
inductive Action where
  | tick (clock : Int64)
  | api (a : ApiAction)
  | round (a : RoundAction)

/-- Where the auctioneer stands after `expire_due`. -/
def Phase.afterSweep (now : Int64) : RepoResult Nat → Phase
  | .ok _ => .swept now
  | .error _ => .idle

/-- Where it stands after sealing, if there is anything to seal. -/
def Phase.afterList (A : Auctioneer) (id : BatchId) (now : Int64) (opened : List OrderRecord) :
    Phase :=
  if opened.isEmpty then .idle
  else .racing ⟨id, now, opened.map OrderRecord.signed⟩ A.solvers none

/-- Where it stands when all solvers have answered. -/
def Phase.afterRace (batch : Batch) : Option Solution → Phase
  | none => .idle
  | some winner => .marking batch winner winner.trades

section
variable (P : Primitives) {σ : Type} (R : OrderRepository σ) (A : Auctioneer)

/-- A step of a request. -/
inductive ApiStep : Node σ → ApiAction → Node σ → Prop where
  | validate (n : Node σ) (s : SignedOrder) : ApiStep n (.validate s)
      { n with pending :=
          if s.order.validate n.clock = .ok () then ⟨s, false⟩ :: n.pending else n.pending }
  | verify (n : Node σ) {s : SignedOrder} (h : ⟨s, false⟩ ∈ n.pending) : ApiStep n (.verify s)
      { n with pending :=
          if s.verify P = .ok () then ⟨s, true⟩ :: n.pending.erase ⟨s, false⟩
          else n.pending.erase ⟨s, false⟩ }
  | insert (n : Node σ) {s : SignedOrder} (now : Nat) (h : ⟨s, true⟩ ∈ n.pending) :
      ApiStep n (.insert now s)
        { n with store := (R.insert now s n.store).2, pending := n.pending.erase ⟨s, true⟩ }
  | cancel (n : Node σ) (now : Nat) (id : OrderId) (owner : Address) :
      ApiStep n (.cancel now id owner) { n with store := (R.cancel now id owner n.store).2 }
  | read (n : Node σ) : ApiStep n .read n

/-- A step of a round. -/
inductive RoundStep : Node σ → RoundAction → Node σ → Prop where
  | start {n : Node σ} (hp : n.phase = .idle) (h : ¬ A.solvers.length < A.cfg.minSolvers) :
      RoundStep n .start { n with phase := .started n.clock }
  | sweep {n : Node σ} {secs : Int64} (now : Nat) (hp : n.phase = .started secs) :
      RoundStep n (.sweep now)
        { n with
          store := (R.expireDue now secs n.store).2
          phase := .afterSweep secs (R.expireDue now secs n.store).1 }
  | list {n : Node σ} {secs : Int64} {rs opened : List OrderRecord} (hp : n.phase = .swept secs)
      (hl : R.listOpen none n.store = .ok rs) (h : opened.Perm rs) :
      RoundStep n (.list opened) { n with phase := .listed secs opened }
  | listError {n : Node σ} {secs : Int64} {e : RepoError} (hp : n.phase = .swept secs)
      (hl : R.listOpen none n.store = .error e) : RoundStep n .listError { n with phase := .idle }
  | sealBatch {n : Node σ} {secs : Int64} {opened : List OrderRecord} (id : BatchId)
      (hp : n.phase = .listed secs opened) :
      RoundStep n (.sealBatch id) { n with phase := .afterList A id secs opened }
  | answer {n : Node σ} {batch : Batch} {waiting : List Solver} {best : Option Solution} {k : Nat}
      {s : Solver} {res : Except OxDexError Solution} (hp : n.phase = .racing batch waiting best)
      (hk : waiting[k]? = some s) (h : s.solve batch A.cfg.solverTimeoutMs res) :
      RoundStep n (.answer k res)
        { n with phase := .racing batch (waiting.eraseIdx k) (consider best res) }
  | choose {n : Node σ} {batch : Batch} {best : Option Solution}
      (hp : n.phase = .racing batch [] best) :
      RoundStep n .choose { n with phase := .afterRace batch best }
  | mark {n : Node σ} {batch : Batch} {winner : Solution} {t : TradeExecution}
      {todo : List TradeExecution} (now : Nat) (hp : n.phase = .marking batch winner (t :: todo)) :
      RoundStep n (.mark now)
        { n with store := markOne R now t n.store, phase := .marking batch winner todo }
  | deliver {n : Node σ} {batch : Batch} {winner : Solution}
      (hp : n.phase = .marking batch winner []) :
      RoundStep n .deliver { n with phase := .idle }

/-- A step of the node. -/
inductive Step : Node σ → Action → Node σ → Prop where
  | tick (n : Node σ) {clock : Int64} (h : n.clock ≤ clock) :
      Step n (.tick clock) { n with clock := clock }
  | api {n n' : Node σ} {a : ApiAction} (h : ApiStep P R n a n') : Step n (.api a) n'
  | round {n n' : Node σ} {a : RoundAction} (h : RoundStep R A n a n') : Step n (.round a) n'

/-- The node as a transition system. -/
def machine : System (Node σ) Action := ⟨Step P R A⟩

/-- The step delivers the solution. -/
def Delivers (p : Node σ × Action) (w : Solution) : Prop :=
  p.2 = .round .deliver ∧ ∃ batch, p.1.phase = .marking batch w []

/-- The step is a call of `cancel` for `id` that returns `true`. -/
def Cancels (p : Node σ × Action) (id : OrderId) : Prop :=
  ∃ now owner, p.2 = .api (.cancel now id owner) ∧ (R.cancel now id owner p.1.store).1 = .ok true

end

/-! ### What a step does to the book -/

/-- What a step of a request does to the book. -/
def ApiAction.effect (P : Primitives) : ApiAction → OrderBook → OrderBook
  | .insert _ s, b => b.submit P s
  | .cancel _ id owner, b => b.cancel id owner
  | _, b => b

/-- What a step of a round does to the book, depending on where the round stands. -/
def RoundAction.effect : RoundAction → Phase → OrderBook → OrderBook
  | .sweep _, .started secs, b => b.sweep secs
  | .mark _, .marking _ _ (t :: _), b =>
      b.mark t.orderId .auctioned (some t.executedSell) (some t.executedBuy)
  | _, _, b => b

/-- What a step does to the book. -/
def Action.effect (P : Primitives) : Action → Phase → OrderBook → OrderBook
  | .tick _, _, b => b
  | .api a, _, b => a.effect P b
  | .round a, phase, b => a.effect phase b

section
variable {P : Primitives} {σ : Type} {R : OrderRepository σ} {A : Auctioneer} {Sound : σ → Prop}
  {book : σ → OrderBook} {n n' : Node σ}

theorem ApiStep.phase_eq {a : ApiAction} (h : ApiStep P R n a n') : n'.phase = n.phase := by
  cases h <;> rfl

theorem RoundStep.pending_eq {a : RoundAction} (h : RoundStep R A n a n') :
    n'.pending = n.pending := by
  cases h <;> rfl

theorem api_book (hR : Implements P R Sound book) (hs : Sound n.store) {a : ApiAction}
    (h : ApiStep P R n a n') : Sound n'.store ∧ book n'.store = a.effect P (book n.store) := by
  cases h with
  | validate s => exact ⟨hs, rfl⟩
  | verify h => exact ⟨hs, rfl⟩
  | insert now h => exact hR.insert now _ _ hs
  | cancel now id owner =>
      exact ⟨(hR.cancel now id owner _ hs).1, (hR.cancel now id owner _ hs).2.1⟩
  | read => exact ⟨hs, rfl⟩

theorem round_book (hR : Implements P R Sound book) (hs : Sound n.store) {a : RoundAction}
    (h : RoundStep R A n a n') :
    Sound n'.store ∧ book n'.store = a.effect n.phase (book n.store) := by
  cases h with
  | start hp h => exact ⟨hs, rfl⟩
  | sweep now hp => rw [hp]; exact hR.expireDue now _ _ hs
  | list hp hl h => exact ⟨hs, rfl⟩
  | listError hp hl => exact ⟨hs, rfl⟩
  | sealBatch id hp => exact ⟨hs, rfl⟩
  | answer hp hk h => exact ⟨hs, rfl⟩
  | choose hp => exact ⟨hs, rfl⟩
  | mark now hp => rw [hp]; exact hR.updateStatus now _ _ _ _ _ hs
  | deliver hp => exact ⟨hs, rfl⟩

/-- **A step changes the book as its effect does.** -/
theorem step_book (hR : Implements P R Sound book) (hs : Sound n.store) {a : Action}
    (h : Step P R A n a n') :
    Sound n'.store ∧ book n'.store = a.effect P n.phase (book n.store) := by
  cases h with
  | tick h => exact ⟨hs, rfl⟩
  | api h => exact api_book hR hs h
  | round h => exact round_book hR hs h

end

end OxDex
