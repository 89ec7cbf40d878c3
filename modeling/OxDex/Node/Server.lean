import OxDex.IntentPool.Service
import OxDex.Node.Sequential
import OxDex.Storage.Interchange
import OxDex.Support.Concurrency

/-!
# Node — Server

The node as its clients see it (`oxdex-node`: `main.rs`, `oxdex-intent-pool`: `handlers.rs`): any
number of requests under way at once, beside the auctioneer.

The handlers are the ones of `OxDex.IntentPool.Handlers`; `submitStep` is `submit_order` between one
`await` and the next, and the others do all they do at once.  So each handler calls the repository
once, and that is when it takes effect.

* `linearizable`: over Postgres, which answers a query from one state of its table, the requests and
  the rounds beside them look as if they had run one after the other on one book, each at a moment
  between its call and its return.  The map in memory is listed shard by shard, while requests go
  on, and what a client is given then need not be the answer of any moment.
* `server_run`: without its requests' answers, the server is the machine of `OxDex.Node.Machine`.
-/

namespace OxDex
open Support

/-- A request, and the clock when it comes in. -/
structure Arrival where
  clock : Int64
  req : Request

/-- How far a handler has got that has not answered yet.  A submission keeps the reading it has been
validated at. -/
inductive Stage where
  | arrived
  | validated (now : Int64)
  | verified (now : Int64)

/-- What the handlers and the auctioneer share. -/
structure ServerState (σ : Type) where
  store : σ
  clock : Int64
  phase : Phase

/-- A node with the requests it has received. -/
abbrev Server (σ : Type) := Config (ServerState σ) Arrival Stage Response

/-- A server that comes up on the store it finds. -/
def Server.boot {σ : Type} (store : σ) (clock : Int64) : Server σ := ⟨⟨store, clock, .idle⟩, []⟩

/-- What else happens in a server. -/
inductive ServerEvent where
  | tick (clock : Int64)
  | round (a : RoundAction)

section
variable (P : Primitives) {σ : Type} (R : OrderRepository σ) (A : Auctioneer)

/-- One step of `submit_order`. -/
def submitStep (clock : Clock) (s : SignedOrder) : Stage → σ → (Stage ⊕ Response) × σ
  | .arrived, st =>
      match s.order.validate clock.secs with
      | .error e => (.inr (apiError e), st)
      | .ok () => (.inl (.validated clock.secs), st)
  | .validated now, st =>
      match s.verify P with
      | .error e => (.inr (apiError e), st)
      | .ok () => (.inl (.verified now), st)
  | .verified _, st =>
      match R.insert clock.nanos s st with
      | (.error e, st) => (.inr (apiError (e.toOxDexError P)), st)
      | (.ok rec, st) => (.inr (.created rec.id rec.status.asStr), st)

/-- One step of a handler, each call of the repository at one go. -/
def advance (clock : Clock) : Request → Stage → σ → (Stage ⊕ Response) × σ
  | .submit s, stage, st => submitStep P R clock s stage st
  | req, _, st => (.inr (serve P R clock req st).1, (serve P R clock req st).2)

/-- A step beside the handlers. -/
inductive ServerStep : ServerState σ → ServerEvent → ServerState σ → Prop where
  | tick (s : ServerState σ) {clock : Int64} (h : s.clock ≤ clock) :
      ServerStep s (.tick clock) { s with clock := clock }
  | round {s : ServerState σ} {a : RoundAction} {n : Node σ}
      (h : RoundStep R A ⟨s.store, s.clock, [], s.phase⟩ a n) :
      ServerStep s (.round a) { s with store := n.store, phase := n.phase }

/-- The handlers, the clock and the auctioneer on one store. -/
def server : Object (ServerState σ) Arrival Stage Response ServerEvent where
  start := .arrived
  admits := fun s call => call.clock = s.clock
  advance := fun call stage s out s' => ∃ nanos st,
    advance P R ⟨s.clock, nanos⟩ call.req stage s.store = (out, st) ∧ s' = { s with store := st }
  other := ServerStep R A

end

/-! ### The service behind it -/

/-- What happens to the book: a request is answered, or the auctioneer writes. -/
inductive ServiceAction where
  | tick (clock : Int64)
  | request (k : Nat) (call : Arrival) (resp : Response)
  | sweep (secs : Int64)
  | mark (t : TradeExecution)

section
variable (P : Primitives) (unknown : OrderId → RepoResult Bool)

/-- The service: one book and one clock.  A request is answered and takes effect on the book as it
is; a submission is judged valid by a reading of the clock since it came in, which may be an earlier
one than this moment's, since `submit_order` reads the clock before it inserts. -/
inductive ServiceStep : OrderBook × Int64 → ServiceAction → OrderBook × Int64 → Prop where
  | tick {b : OrderBook} {now clock : Int64} (h : now ≤ clock) :
      ServiceStep (b, now) (.tick clock) (b, clock)
  | request {b : OrderBook} {now : Int64} (k : Nat) (call : Arrival) {resp : Response}
      (clock : Clock) (hcall : call.clock ≤ clock.secs) (hnow : clock.secs ≤ now)
      (h : Contract P unknown clock b call.req resp) :
      ServiceStep (b, now) (.request k call resp) (call.req.effect P clock b, now)
  | sweep {b : OrderBook} {now secs : Int64} :
      ServiceStep (b, now) (.sweep secs) (b.sweep secs, now)
  | mark {b : OrderBook} {now : Int64} {t : TradeExecution} : ServiceStep (b, now) (.mark t)
      (b.mark t.orderId .auctioned (some t.executedSell) (some t.executedBuy), now)

/-- The service as a transition system. -/
def service : System (OrderBook × Int64) ServiceAction := ⟨ServiceStep P unknown⟩

end

/-- What a step of a round does to the service. -/
def RoundAction.service : RoundAction → Phase → List ServiceAction
  | .sweep _, .started secs => [.sweep secs]
  | .mark _, .marking _ _ (t :: _) => [.mark t]
  | _, _ => []

/-- What a step beside the handlers does to the service. -/
def ServerEvent.service {σ : Type} (s : ServerState σ) : ServerEvent → List ServiceAction
  | .tick clock => [.tick clock]
  | .round a => a.service s.phase

/-- What a run of the server does to the service, in order. -/
def serviceOf {σ : Type} (tr : List (Server σ × ObjectEvent Arrival Response ServerEvent)) :
    List ServiceAction :=
  specOf .request ServerEvent.service tr

/-- The request of an action of the service. -/
def ServiceAction.asked : ServiceAction → Option (Nat × Arrival × Response)
  | .request k call resp => some (k, call, resp)
  | _ => none

/-! ### A step of a handler -/

/-- What a handler has made sure of that has not answered yet. -/
def Stage.Ok (P : Primitives) (now : Int64) (call : Arrival) : Stage → Prop
  | .arrived => call.clock ≤ now
  | .validated v => call.clock ≤ v ∧ v ≤ now ∧
      ∃ s, call.req = .submit s ∧ s.order.validate v = .ok ()
  | .verified v => call.clock ≤ v ∧ v ≤ now ∧
      ∃ s, call.req = .submit s ∧ s.order.validate v = .ok () ∧ s.verify P = .ok ()

section
variable {P : Primitives} {σ : Type} {R : OrderRepository σ} {A : Auctioneer} {Sound : σ → Prop}
  {book : σ → OrderBook} {unknown : OrderId → RepoResult Bool}

theorem Stage.Ok.later {now now' : Int64} (h : now ≤ now') {call : Arrival} {stage : Stage}
    (hok : stage.Ok P now call) : stage.Ok P now' call := by
  cases stage with
  | arrived => exact Int64.le_trans hok h
  | validated v | verified v => exact ⟨hok.1, Int64.le_trans hok.2.1 h, hok.2.2⟩

theorem Stage.Ok.call_le {now : Int64} {call : Arrival} {stage : Stage}
    (hok : stage.Ok P now call) : call.clock ≤ now := by
  cases stage with
  | arrived => exact hok
  | validated v | verified v => exact Int64.le_trans hok.1 hok.2.1

/-- **A step that does not answer** leaves the store alone. -/
theorem advance_next (clock : Clock) {call : Arrival} {stage stage' : Stage} {st st' : σ}
    (hok : stage.Ok P clock.secs call)
    (h : advance P R clock call.req stage st = (.inl stage', st')) :
    st' = st ∧ stage'.Ok P clock.secs call := by
  obtain ⟨c, req⟩ := call
  cases req with
  | healthz | readyz | get path | list sellMint buyMint | cancel path headers => cases h
  | submit s =>
      cases stage with
      | arrived =>
          cases hv : s.order.validate clock.secs with
          | error e => simp only [advance, submitStep, hv] at h; cases h
          | ok _ =>
              simp only [advance, submitStep, hv] at h
              cases h
              exact ⟨rfl, hok, Int64.le_refl _, s, rfl, hv⟩
      | validated v =>
          obtain ⟨hc, hn, s', hs, hv⟩ := hok
          cases hs
          cases hsig : s.verify P with
          | error e => simp only [advance, submitStep, hsig] at h; cases h
          | ok _ =>
              simp only [advance, submitStep, hsig] at h
              cases h
              exact ⟨rfl, hc, hn, s, rfl, hv, hsig⟩
      | verified v =>
          obtain ⟨res, st₁, hst⟩ : ∃ res st₁, R.insert clock.nanos s st = (res, st₁) := ⟨_, _, rfl⟩
          cases res <;> · simp only [advance, submitStep, hst] at h; cases h

/-- A request served at one go is a step of the service. -/
theorem serve_step (hR : Implements P R Sound book) (hA : Answers P R Sound book unknown) {st : σ}
    (hs : Sound st) {clock : Clock} {call : Arrival} (hcall : call.clock ≤ clock.secs) (k : Nat) :
    Sound (serve P R clock call.req st).2 ∧ ServiceStep P unknown (book st, clock.secs)
      (.request k call (serve P R clock call.req st).1)
      (book (serve P R clock call.req st).2, clock.secs) := by
  have hb := serve_book hR hs clock call.req
  refine ⟨hb.1, ?_⟩
  rw [hb.2]
  exact .request k call clock hcall (Int64.le_refl _) (serve_answer hR hA hs clock call.req)

/-- A refused submission leaves the book as it is. -/
theorem refused_step {b : OrderBook} {now v : Int64} {call : Arrival} {s : SignedOrder}
    {e : OxDexError} (hreq : call.req = .submit s) (hc : call.clock ≤ v) (hn : v ≤ now)
    (he : (Request.submit s).refusal P v = some e)
    (hno : ¬ (s.order.validate v = .ok () ∧ s.verify P = .ok ())) (k : Nat) :
    ServiceStep P unknown (b, now) (.request k call (apiError e)) (b, now) := by
  obtain ⟨c, req⟩ := call
  cases hreq
  have hstep : ServiceStep P unknown (b, now) _ _ :=
    .request k ⟨c, .submit s⟩ ⟨v, 0⟩ hc hn (.refused he)
  have heffect : (Request.submit s).effect P ⟨v, 0⟩ b = b := if_neg hno
  rwa [heffect] at hstep

/-- One that has passed the checks is inserted. -/
theorem insert_step (hR : Implements P R Sound book) (hA : Answers P R Sound book unknown) {st : σ}
    (hs : Sound st) {now v : Int64} (nanos : Nat) {call : Arrival} {s : SignedOrder}
    (hreq : call.req = .submit s) (hc : call.clock ≤ v) (hn : v ≤ now)
    (hv : s.order.validate v = .ok ()) (hsig : s.verify P = .ok ()) (k : Nat) :
    Sound (R.insert nanos s st).2 ∧ ServiceStep P unknown (book st, now)
      (.request k call (match (R.insert nanos s st).1 with
        | .error e => apiError (e.toOxDexError P)
        | .ok rec => .created rec.id rec.status.asStr))
      (book (R.insert nanos s st).2, now) := by
  obtain ⟨c, req⟩ := call
  cases hreq
  have hi := hR.insert nanos s st hs
  have hpassed : (Request.submit s).refusal P v = none := by rw [Request.refusal, hv, hsig]; rfl
  have hstep := ServiceStep.request k ⟨c, .submit s⟩ ⟨v, nanos⟩ hc hn
    (insert_answer hA hs ⟨v, nanos⟩ hpassed)
  have heffect : (Request.submit s).effect P ⟨v, nanos⟩ (book st) = (book st).submit P s :=
    if_pos ⟨hv, hsig⟩
  rw [heffect, ← hi.2] at hstep
  exact ⟨hi.1, hstep⟩

/-- **The step that answers** is one of the service. -/
theorem advance_reply (hR : Implements P R Sound book) (hA : Answers P R Sound book unknown)
    (clock : Clock) {call : Arrival} {stage : Stage} {resp : Response} {st st' : σ}
    (hs : Sound st) (hok : stage.Ok P clock.secs call)
    (h : advance P R clock call.req stage st = (.inr resp, st')) (k : Nat) :
    Sound st' ∧ ServiceStep P unknown (book st, clock.secs) (.request k call resp)
      (book st', clock.secs) := by
  have hserve := serve_step hR hA hs hok.call_le k
  obtain ⟨c, req⟩ := call
  cases req with
  | healthz | readyz | get path | list sellMint buyMint | cancel path headers =>
      cases h
      exact hserve
  | submit s =>
      cases stage with
      | arrived =>
          cases hv : s.order.validate clock.secs with
          | error e =>
              simp only [advance, submitStep, hv] at h
              cases h
              exact ⟨hs, refused_step rfl hok (Int64.le_refl _)
                (by rw [Request.refusal, hv]; rfl) (fun hno => by rw [hv] at hno; cases hno.1) k⟩
          | ok _ => simp only [advance, submitStep, hv] at h; cases h
      | validated v =>
          obtain ⟨hc, hn, s', hs', hv⟩ := hok
          cases hs'
          cases hsig : s.verify P with
          | error e =>
              simp only [advance, submitStep, hsig] at h
              cases h
              exact ⟨hs, refused_step rfl hc hn (by rw [Request.refusal, hv, hsig]; rfl)
                (fun hno => by rw [hsig] at hno; cases hno.2) k⟩
          | ok _ => simp only [advance, submitStep, hsig] at h; cases h
      | verified v =>
          obtain ⟨hc, hn, s', hs', hv, hsig⟩ := hok
          cases hs'
          have hcall : Arrival.req ⟨c, .submit s⟩ = .submit s := rfl
          have hi := insert_step hR hA hs clock.nanos hcall hc hn hv hsig k
          obtain ⟨res, st₁, hst⟩ : ∃ res st₁, R.insert clock.nanos s st = (res, st₁) := ⟨_, _, rfl⟩
          rw [hst] at hi
          cases res with
          | error e => simp only [advance, submitStep, hst] at h; cases h; exact hi
          | ok rec => simp only [advance, submitStep, hst] at h; cases h; exact hi

/-! ### A run -/

/-- What a step of a round does to the book, it does to the service. -/
theorem round_service (a : RoundAction) (phase : Phase) (b : OrderBook) (now : Int64) :
    ∃ tr, (service P unknown).Run (b, now) tr (a.effect phase b, now) ∧
      tr.map Prod.snd = a.service phase := by
  cases a with
  | start | list opened | listError | sealBatch id | answer k res | choose | deliver =>
      exact ⟨[], .refl _, rfl⟩
  | sweep now' =>
      cases phase with
      | started secs => exact ⟨_, .one .sweep, rfl⟩
      | idle | swept secs | listed secs opened | racing batch waiting best
      | marking batch winner todo => exact ⟨[], .refl _, rfl⟩
  | mark now' =>
      cases phase with
      | idle | started secs | swept secs | listed secs opened | racing batch waiting best =>
          exact ⟨[], .refl _, rfl⟩
      | marking batch winner todo =>
          cases todo with
          | nil => exact ⟨[], .refl _, rfl⟩
          | cons t todo => exact ⟨_, .one .mark, rfl⟩

/-- No step beside the handlers answers a request. -/
theorem asked_service (s : ServerState σ) (e : ServerEvent) :
    (e.service s).filterMap ServiceAction.asked = [] := by
  cases e with
  | tick clock => rfl
  | round a =>
      obtain ⟨store, clock, phase⟩ := s
      cases a with
      | start | list opened | listError | sealBatch id | answer k res | choose | deliver => rfl
      | sweep now => cases phase <;> rfl
      | mark now => rcases phase with _ | _ | _ | _ | _ | ⟨batch, winner, _ | ⟨t, todo⟩⟩ <;> rfl

/-- **Every handler takes effect at the step that answers.** -/
theorem server_atomic (hR : Implements P R Sound book) (hA : Answers P R Sound book unknown) :
    Atomic (server P R A) (service P unknown) .request ServerEvent.service
      (fun s => (book s.store, s.clock)) (fun s => Sound s.store)
      (fun s call stage => stage.Ok P s.clock call) where
  receive := by
    intro s call _ hc
    show call.clock ≤ s.clock
    rw [show call.clock = s.clock from hc]
    exact Int64.le_refl _
  check := by
    rintro s call stage stage' _ hs hok ⟨nanos, st, hadv, rfl⟩
    obtain ⟨rfl, hok'⟩ := advance_next ⟨s.clock, nanos⟩ hok hadv
    exact ⟨hs, rfl, hok', fun _ _ h => h⟩
  answer := by
    rintro k s call stage resp _ hs hok ⟨nanos, st, hadv, rfl⟩
    obtain ⟨hs', hstep⟩ := advance_reply hR hA ⟨s.clock, nanos⟩ hs hok hadv k
    exact ⟨hs', hstep, fun _ _ h => h⟩
  other := by
    intro s e s' hs h
    cases h with
    | tick hc => exact ⟨hs, ⟨_, .one (.tick hc), rfl⟩, fun _ _ hok => hok.later hc⟩
    | @round a n hround =>
        have hb := round_book hR (n := ⟨s.store, s.clock, [], s.phase⟩) hs hround
        refine ⟨hb.1, ?_, fun _ _ h => h⟩
        rw [hb.2]
        exact round_service a s.phase _ _

/-- **Linearizability over Postgres.**  What a run of the server does to the service is a run of the
service, from the book and the clock it starts with to those it ends with; and its requests explain
every call and every return. -/
theorem linearizable {J : Type} {codec : JsonCodec J} (hj : ∀ s, codec.RoundTrips s)
    {iter : IterOrder (List UInt8 × Row J)} {st : PgOrderRepository J}
    (hs : PgOrderRepository.Sound P codec st) {clock : Int64}
    {tr : List (Server (PgOrderRepository J) × ObjectEvent Arrival Response ServerEvent)}
    {s : Server (PgOrderRepository J)}
    (h : (server P (PgOrderRepository.repository P codec iter) A).system.Run
      (Server.boot st clock) tr s) :
    (∃ tr', (service P fun _ => .ok false).Run (st.book codec, clock) tr'
        (s.state.store.book codec, s.state.clock) ∧ tr'.map Prod.snd = serviceOf tr) ∧
    Linearizes (logOf tr) ((serviceOf tr).filterMap ServiceAction.asked) :=
  (server_atomic (PgOrderRepository.implements P codec hj iter)
    (PgOrderRepository.answers P codec hj iter)).linearizes ServiceAction.asked (fun _ _ _ => rfl)
    asked_service (s := ⟨st, clock, .idle⟩) hs h

/-! ### The node machine -/

/-- What the node machine knows of a request. -/
def pendingOf : Job Arrival Stage Response → Option Pending
  | ⟨⟨_, .submit s⟩, .working (.validated _)⟩ => some ⟨s, false⟩
  | ⟨⟨_, .submit s⟩, .working (.verified _)⟩ => some ⟨s, true⟩
  | _ => none

/-- The node machine stands where the server does, and knows of its submissions in some order. -/
structure Follows (s : Server σ) (n : Node σ) : Prop where
  store : n.store = s.state.store
  clock : n.clock = s.state.clock
  phase : n.phase = s.state.phase
  pending : n.pending.Perm (s.jobs.filterMap pendingOf)

/-- The steps of the rounds, with the stores and the places they are taken in. -/
def nodeRounds (tr : List (Node σ × Action)) : List (σ × Phase × RoundAction) :=
  tr.filterMap fun p =>
    match p.2 with
    | .round a => some (p.1.store, p.1.phase, a)
    | _ => none

/-- The same for a server. -/
def serverRounds (tr : List (Server σ × ObjectEvent Arrival Response ServerEvent)) :
    List (σ × Phase × RoundAction) :=
  tr.filterMap fun p =>
    match p.2 with
    | .other (.round a) => some (p.1.state.store, p.1.state.phase, a)
    | _ => none

variable {jobs : List (Job Arrival Stage Response)}

/-- What is pending beside one request. -/
theorem pending_split {k : Nat} {j : Job Arrival Stage Response} (hk : jobs[k]? = some j) :
    ∃ rest : List Pending, (jobs.filterMap pendingOf).Perm ((pendingOf j).toList ++ rest) ∧
      ∀ j', ((jobs.set k j').filterMap pendingOf).Perm ((pendingOf j').toList ++ rest) := by
  have cons (j : Job Arrival Stage Response) (l : List (Job Arrival Stage Response)) :
      (j :: l).filterMap pendingOf = (pendingOf j).toList ++ l.filterMap pendingOf := by
    rw [List.filterMap_cons]
    cases pendingOf j <;> rfl
  obtain ⟨hlt, rfl⟩ := List.getElem?_eq_some_iff.mp hk
  refine ⟨(jobs.eraseIdx k).filterMap pendingOf, ?_, fun j' => ?_⟩
  · rw [← cons]
    exact (List.getElem_cons_eraseIdx_perm hlt).symm.filterMap _
  · rw [← cons]
    exact (List.set_perm_cons_eraseIdx hlt j').filterMap _

/-- A submission leaves what is pending. -/
theorem erase_perm {l rest : List Pending} {p : Pending} (h : l.Perm (p :: rest)) :
    (l.erase p).Perm rest := by
  have he := h.erase p
  rwa [List.erase_cons_head] at he

variable {s s' : Server σ} {n : Node σ}

/-- Where a request stands after a step of its handler. -/
def progressOf : Stage ⊕ Response → Progress Stage Response
  | .inl stage => .working stage
  | .inr resp => .answered resp

/-- **A step of a handler is one of the node machine**, or none. -/
theorem advance_follows {k : Nat} {call : Arrival} {stage : Stage} {out : Stage ⊕ Response} {st : σ}
    {nanos : Nat} (hf : Follows s n) (hk : s.jobs[k]? = some ⟨call, .working stage⟩)
    (h : advance P R ⟨s.state.clock, nanos⟩ call.req stage s.state.store = (out, st)) :
    ∃ tr n', (machine P R A).Run n tr n' ∧ nodeRounds tr = [] ∧
      Follows ⟨{ s.state with store := st }, s.jobs.set k ⟨call, progressOf out⟩⟩ n' := by
  obtain ⟨⟨_, _, _⟩, jobs⟩ := s
  obtain ⟨store, clock, pending, phase⟩ := n
  obtain ⟨rfl, rfl, rfl, hp⟩ := hf
  obtain ⟨rest, hr, hset⟩ := pending_split hk
  replace hp := hp.trans hr
  -- a step of a request that is not pending before it, nor after it
  have apart {st : σ} {progress : Progress Stage Response} {tr : List (Node σ × Action)}
      (hrun : (machine P R A).Run ⟨store, clock, pending, phase⟩ tr ⟨st, clock, pending, phase⟩)
      (hno : nodeRounds tr = []) (hb : pendingOf ⟨call, .working stage⟩ = none)
      (ha : pendingOf ⟨call, progress⟩ = none) :
      ∃ tr n', (machine P R A).Run ⟨store, clock, pending, phase⟩ tr n' ∧ nodeRounds tr = [] ∧
        Follows ⟨⟨st, clock, phase⟩, jobs.set k ⟨call, progress⟩⟩ n' := by
    refine ⟨tr, _, hrun, hno, rfl, rfl, rfl, ?_⟩
    have hafter := hset ⟨call, progress⟩
    rw [ha] at hafter
    rw [hb] at hp
    exact hp.trans hafter.symm
  obtain ⟨c, req⟩ := call
  cases req with
  | healthz | readyz | get path | list sellMint buyMint =>
      cases h
      exact apart (.refl _) rfl (by cases stage <;> rfl) rfl
  | cancel path headers =>
      have hb : pendingOf ⟨⟨c, .cancel path headers⟩, .working stage⟩ = none := by
        cases stage <;> rfl
      cases hargs : cancelArgs P path headers with
      | error e =>
          simp only [advance, serve, cancelOrder, hargs] at h
          cases h
          exact apart (.refl _) rfl hb rfl
      | ok args =>
          obtain ⟨id, owner⟩ := args
          have hstep := Step.api (A := A) (ApiStep.cancel (P := P) (R := R)
            ⟨store, clock, pending, phase⟩ nanos id owner)
          obtain ⟨res, st₁, hst⟩ : ∃ res st₁, R.cancel nanos id owner store = (res, st₁) :=
            ⟨_, _, rfl⟩
          simp only [advance, serve, cancelOrder, hargs, hst] at h hstep
          rcases res with e | _ | _ <;>
          · cases h
            exact apart (.one hstep) rfl hb rfl
  | submit signed =>
      cases stage with
      | arrived =>
          cases hv : signed.order.validate clock with
          | error e =>
              simp only [advance, submitStep, hv] at h
              cases h
              exact apart (.refl _) rfl rfl rfl
          | ok _ =>
              have hstep := Step.api (A := A) (ApiStep.validate (P := P) (R := R)
                ⟨store, clock, pending, phase⟩ signed)
              rw [if_pos hv] at hstep
              simp only [advance, submitStep, hv] at h
              cases h
              exact ⟨_, _, .one hstep, rfl, rfl, rfl, rfl, (hp.cons _).trans
                (hset ⟨⟨c, .submit signed⟩, .working (.validated clock)⟩).symm⟩
      | validated v =>
          have hmem : ⟨signed, false⟩ ∈ pending := hp.symm.subset List.mem_cons_self
          have hstep := Step.api (A := A) (ApiStep.verify (P := P) (R := R)
            ⟨store, clock, pending, phase⟩ hmem)
          cases hsig : signed.verify P with
          | error e =>
              simp only [advance, submitStep, hsig] at h
              cases h
              rw [if_neg (fun hok => by rw [hsig] at hok; cases hok)] at hstep
              exact ⟨_, _, .one hstep, rfl, rfl, rfl, rfl, (erase_perm hp).trans
                (hset ⟨⟨c, .submit signed⟩, .answered (apiError e)⟩).symm⟩
          | ok _ =>
              simp only [advance, submitStep, hsig] at h
              cases h
              rw [if_pos hsig] at hstep
              exact ⟨_, _, .one hstep, rfl, rfl, rfl, rfl, ((erase_perm hp).cons _).trans
                (hset ⟨⟨c, .submit signed⟩, .working (.verified v)⟩).symm⟩
      | verified v =>
          have hmem : ⟨signed, true⟩ ∈ pending := hp.symm.subset List.mem_cons_self
          have hstep := Step.api (A := A) (ApiStep.insert (P := P) (R := R)
            ⟨store, clock, pending, phase⟩ nanos hmem)
          obtain ⟨res, st₁, hst⟩ : ∃ res st₁, R.insert nanos signed store = (res, st₁) :=
            ⟨_, _, rfl⟩
          simp only [advance, submitStep, hst] at h hstep
          have left (resp : Response) : (pending.erase ⟨signed, true⟩).Perm
              ((jobs.set k ⟨⟨c, .submit signed⟩, .answered resp⟩).filterMap pendingOf) :=
            (erase_perm hp).trans (hset ⟨⟨c, .submit signed⟩, .answered resp⟩).symm
          cases res <;>
          · cases h
            exact ⟨_, _, .one hstep, rfl, rfl, rfl, rfl, left _⟩

/-- A round takes no notice of what is pending. -/
theorem round_pending {n₁ : Node σ} {a : RoundAction} (h : RoundStep R A n a n₁)
    (pending : List Pending) : RoundStep R A { n with pending := pending } a
      ⟨n₁.store, n.clock, pending, n₁.phase⟩ := by
  cases h with
  | start hp h => exact .start hp h
  | sweep now hp => exact .sweep now hp
  | list hp hl h => exact .list hp hl h
  | listError hp hl => exact .listError hp hl
  | sealBatch id hp => exact .sealBatch id hp
  | answer hp hk h => exact .answer hp hk h
  | choose hp => exact .choose hp
  | mark now hp => exact .mark now hp
  | deliver hp => exact .deliver hp

/-- **A step of the server is one of the node machine**, or none. -/
theorem server_step (hf : Follows s n) {ev : ObjectEvent Arrival Response ServerEvent}
    (h : (server P R A).Step s ev s') : ∃ tr n', (machine P R A).Run n tr n' ∧
      nodeRounds tr = serverRounds [(s, ev)] ∧ Follows s' n' := by
  cases h with
  | @receive call hc =>
      refine ⟨[], n, .refl _, rfl, hf.store, hf.clock, hf.phase, ?_⟩
      have hnew : [Job.mk call (.working Stage.arrived)].filterMap pendingOf = [] := by
        obtain ⟨c, req⟩ := call
        cases req <;> rfl
      show n.pending.Perm ((s.jobs ++ [Job.mk call (.working Stage.arrived)]).filterMap pendingOf)
      rw [List.filterMap_append, hnew, List.append_nil]
      exact hf.pending
  | check hk hadv =>
      obtain ⟨nanos, st, hadv, rfl⟩ := hadv
      exact advance_follows hf hk hadv
  | answer hk hadv =>
      obtain ⟨nanos, st, hadv, rfl⟩ := hadv
      exact advance_follows hf hk hadv
  | @respond k call resp hk =>
      obtain ⟨rest, hr, hset⟩ := pending_split hk
      obtain ⟨c, req⟩ := call
      have hdone := (hset ⟨⟨c, req⟩, .done resp⟩).symm
      refine ⟨[], n, .refl _, rfl, hf.store, hf.clock, hf.phase, hf.pending.trans (hr.trans ?_)⟩
      cases req <;> exact hdone
  | other hother =>
      obtain ⟨⟨_, _, _⟩, jobs⟩ := s
      obtain ⟨store, clock, pending, phase⟩ := n
      obtain ⟨rfl, rfl, rfl, hp⟩ := hf
      cases hother with
      | tick hc => exact ⟨_, _, .one (.tick _ hc), rfl, rfl, rfl, rfl, hp⟩
      | round hround =>
          exact ⟨_, _, .one (.round (round_pending hround pending)), rfl, rfl, rfl, rfl, hp⟩

/-- **The server refines the node machine**: with any requests under way, what it does to the store
is a run of the machine, and the rounds take the same steps on the same stores. -/
theorem server_run {n₀ : Node σ} {s₀ : Server σ}
    {tr : List (Server σ × ObjectEvent Arrival Response ServerEvent)} (hf : Follows s₀ n₀)
    (h : (server P R A).system.Run s₀ tr s) : ∃ tr' n, (machine P R A).Run n₀ tr' n ∧
      nodeRounds tr' = serverRounds tr ∧ Follows s n := by
  induction h generalizing n₀ with
  | refl => exact ⟨[], n₀, .refl _, rfl, hf⟩
  | more h _ ih =>
      obtain ⟨tr₁, n₁, hrun₁, hl₁, hf₁⟩ := server_step hf h
      obtain ⟨tr₂, n₂, hrun₂, hl₂, hf₂⟩ := ih hf₁
      refine ⟨_, n₂, hrun₁.append hrun₂, ?_, hf₂⟩
      rw [nodeRounds, List.filterMap_append, ← nodeRounds, ← nodeRounds, hl₁, hl₂]
      exact List.filterMap_append.symm

end

namespace Sample

/-- While alice's order is under way somebody asks for it; he is answered first. -/
theorem overlap_run {σ : Type} (R : OrderRepository σ) (st₀ : σ) : ∃ tr s,
    (server primitives R auctioneer).system.Run (Server.boot st₀ 50) tr s ∧
    ((serviceOf tr).filterMap ServiceAction.asked).map Prod.fst = [1, 0] ∧ s.jobs.length = 2 := by
  obtain ⟨hval, hver⟩ : (sign alice150).order.validate 50 = .ok () ∧
      (sign alice150).verify primitives = .ok () := by decide +kernel
  let S := server primitives R auctioneer
  let submit : Arrival := ⟨50, .submit (sign alice150)⟩
  let get : Arrival := ⟨50, .get ((alice150.id primitives).toHex primitives)⟩
  let at50 (jobs : List (Job Arrival Stage Response)) : Server σ :=
    ⟨⟨st₀, 50, .idle⟩, jobs⟩
  have hsubmit : S.Step (at50 []) (.receive 0 submit) (at50 [⟨submit, .working .arrived⟩]) :=
    .receive _ rfl
  have hvalidate : S.Step (at50 [⟨submit, .working .arrived⟩]) (.check 0)
      (at50 [⟨submit, .working (.validated 50)⟩]) :=
    .check rfl ⟨1, st₀, by simp only [at50, submit, advance, submitStep, hval], rfl⟩
  have hverify : S.Step (at50 [⟨submit, .working (.validated 50)⟩]) (.check 0)
      (at50 [⟨submit, .working (.verified 50)⟩]) :=
    .check rfl ⟨2, st₀, by simp only [at50, submit, advance, submitStep, hver], rfl⟩
  have hget : S.Step (at50 [⟨submit, .working (.verified 50)⟩]) (.receive 1 get)
      (at50 [⟨submit, .working (.verified 50)⟩, ⟨get, .working .arrived⟩]) :=
    .receive _ rfl
  obtain ⟨missing, hmissing⟩ : ∃ resp, S.Step
      (at50 [⟨submit, .working (.verified 50)⟩, ⟨get, .working .arrived⟩]) (.answer 1 get resp)
      (at50 [⟨submit, .working (.verified 50)⟩, ⟨get, .answered resp⟩]) :=
    ⟨_, .answer rfl ⟨3, st₀, rfl, rfl⟩⟩
  obtain ⟨created, st, hadv⟩ : ∃ created st, advance primitives R ⟨50, 4⟩ submit.req
      (.verified 50) st₀ = (.inr created, st) := by
    simp only [submit, advance, submitStep]
    split <;> exact ⟨_, _, rfl⟩
  have hinsert : S.Step (at50 [⟨submit, .working (.verified 50)⟩, ⟨get, .answered missing⟩])
      (.answer 0 submit created)
      ⟨⟨st, 50, .idle⟩, [⟨submit, .answered created⟩, ⟨get, .answered missing⟩]⟩ :=
    .answer rfl ⟨4, st, hadv, rfl⟩
  have hdone : S.Step ⟨⟨st, 50, .idle⟩, [⟨submit, .answered created⟩, ⟨get, .answered missing⟩]⟩
      (.respond 0 created)
      ⟨⟨st, 50, .idle⟩, [⟨submit, .done created⟩, ⟨get, .answered missing⟩]⟩ := .respond rfl
  exact ⟨_, _, .more hsubmit (.more hvalidate (.more hverify (.more hget (.more hmissing
    (.more hinsert (.one hdone)))))), rfl, rfl⟩

end Sample

section
open Sample

/-- He is answered first, so he comes first: his request and alice's explain what is seen in that
order. -/
theorem linearizable_two : ∃ (tr : List (Server (PgOrderRepository SignedOrder) × ObjectEvent
      Arrival Response ServerEvent)) (s : Server (PgOrderRepository SignedOrder)),
    ((serviceOf tr).filterMap ServiceAction.asked).map Prod.fst = [1, 0] ∧
    (∃ tr', (service primitives fun _ => .ok false).Run (fun _ => none, 50) tr'
      (s.state.store.book .plain, s.state.clock) ∧ tr'.map Prod.snd = serviceOf tr) ∧
    Linearizes (logOf tr) ((serviceOf tr).filterMap ServiceAction.asked) := by
  obtain ⟨tr, s, h, hasked, -⟩ :=
    overlap_run (PgOrderRepository.repository primitives .plain (.id _)) .new
  exact ⟨tr, s, hasked, linearizable JsonCodec.plain_roundTrips (PgOrderRepository.sound_new _ _) h⟩

/-- The same run, as one of the node machine: alice's order is checked and inserted, and the other
request leaves no trace. -/
theorem server_run_two : ∃ (tr : List (Node InMemoryOrderRepository × Action))
      (s : Server InMemoryOrderRepository) (n : Node InMemoryOrderRepository),
    (machine primitives memory auctioneer).Run (.boot .new 50) tr n ∧ s.jobs.length = 2 ∧
      Follows s n := by
  obtain ⟨tr, s, h, -, hjobs⟩ := overlap_run memory .new
  have hboot : Follows (Server.boot InMemoryOrderRepository.new 50) (.boot .new 50) :=
    ⟨rfl, rfl, rfl, .nil⟩
  obtain ⟨tr', n, hrun, -, hf⟩ := server_run hboot h
  exact ⟨tr', s, n, hrun, hjobs, hf⟩

end

end OxDex
