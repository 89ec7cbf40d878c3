import OxDex.Node.Machine
import OxDex.Storage.Memory

/-!
# Node — Sequential

The machine is the code with its steps taken apart: a request that is served at one go is a run of
it (`serve_run`), and so is a round that is run at one go, with the solvers' answers in any order
(`round_run`).  So what is proved of the machine's runs holds of the handlers and of
`run_one_auction`.
-/

namespace OxDex
open Support

/-! ### A request -/

section
variable {P : Primitives} {σ : Type} {R : OrderRepository σ} {A : Auctioneer}

/-- **A request served at one go is a run** of the machine. -/
theorem serve_run (store : σ) (clock : Int64) (pending : List Pending) (phase : Phase) (nanos : Nat)
    (req : Request) : ∃ tr, (machine P R A).Run ⟨store, clock, pending, phase⟩ tr
      ⟨(serve P R ⟨clock, nanos⟩ req store).2, clock, pending, phase⟩ := by
  cases req with
  | healthz => exact ⟨[], .refl _⟩
  | readyz => exact ⟨_, .one (.api (.read _))⟩
  | get path => exact ⟨_, .one (.api (.read _))⟩
  | list sellMint buyMint => exact ⟨_, .one (.api (.read _))⟩
  | cancel path headers =>
      simp only [serve, cancelOrder]
      cases cancelArgs P path headers with
      | error e => exact ⟨[], .refl _⟩
      | ok args =>
          have hc := Step.api (A := A) (ApiStep.cancel (P := P) (R := R)
            ⟨store, clock, pending, phase⟩ nanos args.1 args.2)
          obtain ⟨res, st', hst⟩ : ∃ res st', R.cancel nanos args.1 args.2 store = (res, st') :=
            ⟨_, _, rfl⟩
          rw [hst] at hc
          simp only [hst]
          rcases res with e | _ | _ <;> exact ⟨_, .one hc⟩
  | submit s =>
      simp only [serve, submitOrder]
      have hv := Step.api (A := A) (ApiStep.validate (P := P) (R := R)
        ⟨store, clock, pending, phase⟩ s)
      cases hval : s.order.validate clock with
      | error e =>
          rw [if_neg (by rw [hval]; exact fun h => by cases h)] at hv
          exact ⟨_, .one hv⟩
      | ok _ =>
          rw [if_pos hval] at hv
          have hw := Step.api (A := A) (ApiStep.verify (P := P) (R := R)
            ⟨store, clock, ⟨s, false⟩ :: pending, phase⟩ List.mem_cons_self)
          simp only [List.erase_cons_head] at hw
          cases hver : s.verify P with
          | error e =>
              rw [if_neg (by rw [hver]; exact fun h => by cases h)] at hw
              exact ⟨_, .more hv (.one hw)⟩
          | ok _ =>
              rw [if_pos hver] at hw
              have hi := Step.api (A := A) (ApiStep.insert (P := P) (R := R)
                ⟨store, clock, ⟨s, true⟩ :: pending, phase⟩ nanos List.mem_cons_self)
              simp only [List.erase_cons_head] at hi
              obtain ⟨res, st', hst⟩ : ∃ res st', R.insert nanos s store = (res, st') :=
                ⟨_, _, rfl⟩
              rw [hst] at hi
              simp only [hst]
              cases res <;> exact ⟨_, .more hv (.more hw (.one hi))⟩

/-! ### A round -/

/-- A run without a delivery. -/
def QuietRun (P : Primitives) (R : OrderRepository σ) (A : Auctioneer) (n n' : Node σ) : Prop :=
  ∃ tr, (machine P R A).Run n tr n' ∧ ∀ p ∈ tr, p.2 ≠ .round .deliver

theorem QuietRun.refl (n : Node σ) : QuietRun P R A n n :=
  ⟨[], .refl n, fun _ hp => absurd hp List.not_mem_nil⟩

/-- A step of a round that does not deliver, and a run without a delivery. -/
theorem QuietRun.more {n n₁ n' : Node σ} {a : RoundAction} (h : RoundStep R A n a n₁)
    (ha : a ≠ .deliver) (ht : QuietRun P R A n₁ n') : QuietRun P R A n n' := by
  obtain ⟨tr, hrun, htr⟩ := ht
  refine ⟨_, .more (.round h) hrun, fun p hp => ?_⟩
  rcases List.mem_cons.mp hp with rfl | hp
  · exact fun h => ha (Action.round.inj h)
  · exact htr p hp

theorem QuietRun.trans {n n₁ n' : Node σ} (h : QuietRun P R A n n₁) (h' : QuietRun P R A n₁ n') :
    QuietRun P R A n n' := by
  obtain ⟨tr, hrun, htr⟩ := h
  obtain ⟨tr', hrun', htr'⟩ := h'
  refine ⟨_, hrun.append hrun', fun p hp => ?_⟩
  rcases List.mem_append.mp hp with hp | hp
  · exact htr p hp
  · exact htr' p hp

/-- Where the auctioneer stands when the first part of a round is over. -/
def Phase.afterSeal (A : Auctioneer) : Except OxDexError (Option Batch) → Phase
  | .ok (some batch) => .racing batch A.solvers none
  | _ => .idle

/-- The batch is sealed. -/
theorem seal_run (input : RoundInput) (store : σ) (pending : List Pending) :
    QuietRun P R A ⟨store, input.now, pending, .idle⟩
      ⟨(sealBatch P R A input store).2, input.now, pending,
        .afterSeal A (sealBatch P R A input store).1⟩ := by
  unfold sealBatch
  by_cases hmin : A.solvers.length < A.cfg.minSolvers
  · rw [if_pos hmin]
    exact .refl _
  rw [if_neg hmin]
  refine .more (.start rfl hmin) (by simp) (.more (.sweep (input.nanos 0) rfl) (by simp) ?_)
  obtain ⟨res, st, hst⟩ : ∃ res st, R.expireDue (input.nanos 0) input.now store = (res, st) :=
    ⟨_, _, rfl⟩
  simp only [hst]
  cases res with
  | error e => exact .refl _
  | ok k =>
      cases hl : R.listOpen none st with
      | error e =>
          simp only [hl]
          exact .more (.listError rfl hl) (by simp) (.refl _)
      | ok opened =>
          simp only [hl]
          refine .more (.list rfl hl (.refl _)) (by simp)
            (.more (.sealBatch input.batchId rfl) (by simp) ?_)
          simp only [Phase.afterList]
          split <;> exact .refl _

/-- The answers are those of the solvers to the batch, each solver's once, in some order. -/
def Auctioneer.AnswersAre (A : Auctioneer) (batch : Batch) (answers : List Answer) : Prop :=
  ∃ order : List Solver, order.Perm A.solvers ∧ List.Forall₂ (fun s a =>
    a.1 = s.address ∧ s.solve batch A.cfg.solverTimeoutMs a.2) order answers

/-- The answers come in one by one. -/
theorem race_run (n : Node σ) (batch : Batch) {order : List Solver} {answers : List Answer}
    (h : List.Forall₂ (fun s a => a.1 = s.address ∧ s.solve batch A.cfg.solverTimeoutMs a.2)
      order answers) : ∀ {waiting : List Solver} (best : Option Solution), waiting.Perm order →
      QuietRun P R A { n with phase := .racing batch waiting best } { n with
        phase := .racing batch [] (answers.foldl (fun best a => consider best a.2) best) } := by
  induction h with
  | nil =>
      intro waiting best hw
      rw [hw.eq_nil]
      exact .refl _
  | @cons s a order answers hs _ ih =>
      intro waiting best hw
      obtain ⟨k, hk, rfl⟩ := List.getElem_of_mem (hw.mem_iff.mpr List.mem_cons_self)
      have hrest : (waiting.eraseIdx k).Perm order :=
        ((List.getElem_cons_eraseIdx_perm hk).trans hw).cons_inv
      exact .more (.answer rfl (List.getElem?_eq_getElem hk) hs.2) (by simp)
        (ih (consider best a.2) hrest)

/-- The winner's orders are marked one by one. -/
theorem mark_run (batch : Batch) (w : Solution) : ∀ (ts : List TradeExecution) (nanos : Nat → Nat)
    (n : Node σ), QuietRun P R A { n with phase := .marking batch w ts }
      { n with store := markAll R nanos ts n.store, phase := .marking batch w [] }
  | [], _, _ => .refl _
  | t :: ts, nanos, n => .more (.mark (nanos 0) rfl) (by simp)
      (mark_run batch w ts (fun k => nanos (k + 1))
        { n with store := markOne R (nanos 0) t n.store })

/-- **A round run at one go is a run** of the machine, which delivers what the round delivers. -/
theorem round_run (input : RoundInput) (store : σ) (pending : List Pending)
    (hans : ∀ b, sealedBatch P R A input store = some b → A.AnswersAre b input.answers) :
    ∃ tr, (machine P R A).Run ⟨store, input.now, pending, .idle⟩ tr
        ⟨(runOneAuction P R A input store).store, input.now, pending, .idle⟩ ∧
      ∀ w, (runOneAuction P R A input store).delivered = some w ↔ ∃ p ∈ tr, Delivers p w := by
  -- a round that ends early is a run without a delivery
  have early : ∀ {st : σ}, QuietRun P R A ⟨store, input.now, pending, .idle⟩
        ⟨st, input.now, pending, .idle⟩ →
      ∃ tr, (machine P R A).Run ⟨store, input.now, pending, .idle⟩ tr
          ⟨st, input.now, pending, .idle⟩ ∧
        ∀ w, (none : Option Solution) = some w ↔ ∃ p ∈ tr, Delivers p w := by
    rintro st ⟨tr, hrun, hno⟩
    refine ⟨tr, hrun, fun w => ⟨fun h => (by cases h), ?_⟩⟩
    rintro ⟨p, hp, hd, -⟩
    exact absurd hd (hno p hp)
  have hseal := seal_run (P := P) (R := R) (A := A) input store pending
  unfold sealedBatch at hans
  unfold runOneAuction
  obtain ⟨res, st, hst⟩ : ∃ res st, sealBatch P R A input store = (res, st) := ⟨_, _, rfl⟩
  rw [hst] at hseal hans ⊢
  rcases res with e | _ | b
  · exact early hseal
  · exact early hseal
  obtain ⟨order, hperm, hall⟩ := hans b rfl
  have hrace : QuietRun P R A _ ⟨st, input.now, pending, .afterRace b (race input.answers)⟩ :=
    hseal.trans ((race_run ⟨st, input.now, pending, .idle⟩ b hall none hperm.symm).trans
      (.more (.choose rfl) (by simp) (.refl _)))
  cases hr : race input.answers with
  | none =>
      rw [hr] at hrace
      simp only
      exact early hrace
  | some w =>
      rw [hr] at hrace
      simp only
      obtain ⟨tr, hrun, hno⟩ := hrace.trans
        (mark_run b w w.trades (fun k => input.nanos (k + 1)) ⟨st, input.now, pending, .idle⟩)
      refine ⟨_, hrun.snoc (.round (.deliver rfl)), fun w' => ?_⟩
      constructor
      · rintro ⟨⟩
        exact ⟨_, List.mem_append_right _ List.mem_cons_self, rfl, b, rfl⟩
      · rintro ⟨p, hp, hd, b', hph⟩
        rcases List.mem_append.mp hp with hp | hp
        · exact absurd hd (hno p hp)
        · cases List.mem_singleton.mp hp
          cases hph
          rfl

end

/-! ### alice and bob -/

namespace Sample

/-- The store after alice and bob have submitted an order each. -/
@[irreducible] def bothOpen : InMemoryOrderRepository :=
  (serve primitives memory ⟨50, 2⟩ (.submit (sign bob200))
    (serve primitives memory ⟨50, 1⟩ (.submit (sign alice150)) .new).2).2

theorem bothOpen_filed : InMemoryOrderRepository.Filed primitives bothOpen := by
  have hR := InMemoryOrderRepository.implements primitives (.id _)
  unfold bothOpen
  exact (serve_book hR (serve_book hR InMemoryOrderRepository.filed_new ⟨50, 1⟩
    (.submit (sign alice150))).1 ⟨50, 2⟩ (.submit (sign bob200))).1

theorem bothOpen_run : ∃ tr,
    (machine primitives memory auctioneer).Run (.boot .new 50) tr (.boot bothOpen 50) := by
  unfold bothOpen
  obtain ⟨tr, h⟩ := serve_run (P := primitives) (R := memory) (A := auctioneer) .new 50 [] .idle 1
    (.submit (sign alice150))
  obtain ⟨tr', h'⟩ := serve_run (P := primitives) (R := memory) (A := auctioneer)
    (serve primitives memory ⟨50, 1⟩ (.submit (sign alice150)) .new).2 50 [] .idle 2
    (.submit (sign bob200))
  exact ⟨_, h.append h'⟩

/-- The store after a round. -/
@[irreducible] def settled : InMemoryOrderRepository :=
  (runOneAuction primitives memory auctioneer roundOfTwo bothOpen).store

theorem settled_run : ∃ tr,
    (machine primitives memory auctioneer).Run (.boot .new 50) tr (.boot settled 50) ∧
    ∃ p ∈ tr, Delivers p solution := by
  obtain ⟨tr, h⟩ := bothOpen_run
  have hseal : sealedBatch primitives memory auctioneer roundOfTwo bothOpen = some batchOfTwo := by
    decide +kernel
  have hdel : (runOneAuction primitives memory auctioneer roundOfTwo bothOpen).delivered =
      some solution := by decide +kernel
  have hanswer : ReferenceSolve primitives .zero batchOfTwo (.ok solution) := .solved .insertion
  obtain ⟨tr', h', hd⟩ := round_run (P := primitives) (R := memory) (A := auctioneer) roundOfTwo
    bothOpen [] fun b hb => by
      cases hseal.symm.trans hb
      exact ⟨auctioneer.solvers, .refl _, .cons ⟨rfl, hanswer⟩ .nil⟩
  obtain ⟨p, hp, hpd⟩ := (hd solution).mp hdel
  unfold settled
  exact ⟨_, h.append h', p, List.mem_append_right _ hp, hpd⟩

end Sample

end OxDex
