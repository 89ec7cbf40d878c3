import OxDex.Node.Rounds
import OxDex.Node.Sequential

/-!
# Node — Finality

When a successful cancellation stands.

`cancel` and `expire_due` write into open orders only, but a round marks the orders of its winner
whatever has become of them since it read them.  So a cancellation is undone, and the order
settled, exactly in the two ways of `Overrides`: the round settles on a winner that trades an order
that is cancelled by then, or an order of the winner is cancelled while the round is marking.
`cancel_final`: in a run without these, what is cancelled stays so and is not delivered.
`cancel_overridden` is a run of the first kind.
-/

namespace OxDex
open Support

/-- The round settles on a winner that trades a cancelled order, or an order that the winner trades
is cancelled before the winner is delivered. -/
inductive Overrides {σ : Type} (book : σ → OrderBook) (n : Node σ) : Action → Prop where
  | choose {batch : Batch} {w : Solution} {id : OrderId}
      (hp : n.phase = .racing batch [] (some w)) (hw : id ∈ w.orderIds)
      (hc : (book n.store).IsCancelled id) : Overrides book n (.round .choose)
  | cancel {batch : Batch} {w : Solution} {todo : List TradeExecution} {id : OrderId}
      {owner : Address} (now : Nat) (hp : n.phase = .marking batch w todo) (hw : id ∈ w.orderIds)
      (hc : (book n.store).Cancellable id owner) : Overrides book n (.api (.cancel now id owner))

/-- The round does not trade the order any more. -/
def Phase.Spares (id : OrderId) : Phase → Prop
  | .marking _ w _ => id ∉ w.orderIds
  | _ => True

/-- **The cancellation stands**: the order is cancelled, and the round does not trade it any
more. -/
def Stands {σ : Type} (book : σ → OrderBook) (n : Node σ) (id : OrderId) : Prop :=
  (book n.store).IsCancelled id ∧ n.phase.Spares id

/-- **Cancellation is final** in the run that leads to `n`: an order for which `cancel` has returned
`true` is cancelled in every later state, and no later step delivers a trade of it. -/
def CancelFinal {σ : Type} (R : OrderRepository σ) (book : σ → OrderBook)
    (tr : List (Node σ × Action)) (n : Node σ) : Prop :=
  (tr.Pairwise fun p q => ∀ id, Cancels R p id → (book q.1.store).IsCancelled id ∧
    ∀ w, Delivers q w → id ∉ w.orderIds) ∧
  ∀ p ∈ tr, ∀ id, Cancels R p id → (book n.store).IsCancelled id

section
variable {P : Primitives} {σ : Type} {R : OrderRepository σ} {A : Auctioneer} {Sound : σ → Prop}
  {book : σ → OrderBook} {n n' : Node σ}

/-- A cancellation that returns `true` stands, unless it comes while the round is marking. -/
theorem stands_of_cancels (hR : Implements P R Sound book) (hs : Sound n.store) {a : Action}
    {id : OrderId} (hc : Cancels R (n, a) id) (h : Step P R A n a n') (ho : ¬ Overrides book n a) :
    Stands book n' id := by
  refine ⟨cancels_isCancelled hR hs hc h, ?_⟩
  obtain ⟨now, owner, rfl, hres⟩ := hc
  have hcan := (hR.cancel now id owner n.store hs).2.2.mp hres
  cases h with
  | api h =>
      rw [h.phase_eq]
      cases hp : n.phase with
      | marking batch w todo => exact fun hw => ho (.cancel now hp hw hcan)
      | _ => trivial

/-- **What stands is not undone**, as long as no winner overrides it. -/
theorem stands_step (hR : Implements P R Sound book) (hs : Sound n.store)
    (ht : Tracks P A (book n.store) n.phase) {a : Action} {id : OrderId} (hst : Stands book n id)
    (h : Step P R A n a n') (ho : ¬ Overrides book n a) : Stands book n' id := by
  obtain ⟨hc, hsp⟩ := hst
  refine ⟨?_, ?_⟩
  · rw [(step_book hR hs h).2]
    obtain ⟨e, he, hs'⟩ := hc
    rcases effect_of_gone (P := P) he (by rw [hs']; decide) a n.phase with
      h | ⟨_, _, _, t, todo, -, hp, hid, -⟩
    · exact ⟨e, h, hs'⟩
    -- a trade that is marked is one of the winner's
    · rw [hp] at hsp ht
      have ht : t ∈ _ := ht.2.2.subset List.mem_cons_self
      exact absurd (List.mem_map.mpr ⟨t, ht, hid⟩) hsp
  · cases h with
    | tick h => exact hsp
    | api h => rwa [h.phase_eq]
    | round h =>
        exact h.keeps hsp {
          chosen := fun ha hp _ hw => ho (ha ▸ .choose hp hw hc)
          marked := fun _ _ hsp => hsp }

/-- **A cancellation is final where nothing overrides it.**  In a run in which no round settles on a
winner that trades a cancelled order, and no order of a winner is cancelled before the winner is
delivered, an order for which `cancel` has returned `true` is cancelled ever after, and no solution
that is delivered afterwards trades it. -/
theorem cancel_final (hR : Implements P R Sound book) {st : σ} (hs : Sound st) {clock : Int64}
    {tr : List (Node σ × Action)} {n : Node σ} (h : (machine P R A).Run (.boot st clock) tr n)
    (ho : ∀ p ∈ tr, ¬ Overrides book p.1 p.2) : CancelFinal R book tr n := by
  have start : Tracks P A (book st) (Node.boot st clock).phase := trivial
  have hrun := h.pairwise (C := fun n a => ¬ Overrides book n a)
    (I := fun n => Sound n.store ∧ Tracks P A (book n.store) n.phase)
    (L := fun p n => ∀ id, Cancels R p id → Stands book n id)
    (Q := fun p q => ∀ id, Cancels R p id → (book q.1.store).IsCancelled id ∧
      ∀ w, Delivers q w → id ∉ w.orderIds)
    (fun n a n' hi _ hstep => ⟨(step_book hR hi.1 hstep).1, tracks_step hR hi.1 hstep hi.2⟩)
    (fun n a n' hi hc hstep id hcan => stands_of_cancels hR hi.1 hcan hstep hc)
    (fun p n a n' hi hc hst hstep id hcan => stands_step hR hi.1 hi.2 (hst id hcan) hstep hc)
    (fun p n a n' hi hc hst hstep id hcan => ⟨(hst id hcan).1, ?_⟩) ho ⟨hs, start⟩
  · exact ⟨hrun.1, fun p hp id hcan => (hrun.2 p hp id hcan).1⟩
  · rintro w ⟨-, batch, hp⟩
    have hsp := (hst id hcan).2
    dsimp only at hp
    rw [hp] at hsp
    exact hsp

end

/-! ### Two runs -/

section
open Sample InMemoryOrderRepository

/-- The store after alice has submitted a second order. -/
@[irreducible] def Sample.aliceTwice : InMemoryOrderRepository :=
  (serve primitives memory ⟨50, 3⟩ (.submit (sign alice200)) bothOpen).2

/-- The store after she has cancelled the first. -/
@[irreducible] def Sample.firstCancelled : InMemoryOrderRepository :=
  (memory.cancel 4 (alice150.id primitives) alice Sample.aliceTwice).2

/-- The store after the sweep that follows. -/
@[irreducible] def Sample.othersOpen : InMemoryOrderRepository :=
  (memory.expireDue 5 50 Sample.firstCancelled).2

/-- The records the round reads then. -/
def Sample.others : List OrderRecord :=
  [fresh primitives 2 (sign bob200), fresh primitives 3 (sign alice200)]

/-- What the reference solver makes of them. -/
def Sample.solutionOfOthers : Solution :=
  matchBatch primitives .insertion ⟨true⟩ batchId .zero [sign bob200, sign alice200]

theorem Sample.solutionOfOthers_trades : Sample.solutionOfOthers.trades =
    [⟨alice200.id primitives, 100, 200⟩, ⟨bob200.id primitives, 200, 100⟩] := by
  decide +kernel

theorem Sample.aliceTwice_filed : Filed primitives Sample.aliceTwice := by
  unfold Sample.aliceTwice
  exact (serve_book (implements primitives (.id _)) bothOpen_filed ⟨50, 3⟩
    (.submit (sign alice200))).1

/-- The steps of a round before which alice cancels her first order. -/
def Sample.cancelBefore : List Action :=
  [.api (.cancel 4 (alice150.id primitives) alice), .round .start, .round (.sweep 5),
    .round (.list Sample.others), .round (.sealBatch batchId),
    .round (.answer 0 (.ok Sample.solutionOfOthers)), .round .choose, .round (.mark 6),
    .round (.mark 7), .round .deliver]

/-- alice cancels her first order before a round, which delivers a trade of her second. -/
theorem cancel_final_first : ∃ tr n,
    (machine primitives memory auctioneer).Run (.boot Sample.aliceTwice 50) tr n ∧
    tr.map Prod.snd = Sample.cancelBefore ∧
    (∃ p ∈ tr, Cancels memory p (alice150.id primitives)) ∧
    (∃ p ∈ tr, Delivers p Sample.solutionOfOthers) ∧ CancelFinal memory book tr n := by
  have hlist : memory.listOpen none Sample.othersOpen = .ok Sample.others := by decide +kernel
  let batch : Batch := ⟨batchId, 50, [sign bob200, sign alice200]⟩
  have hanswer : ReferenceSolve primitives .zero batch (.ok Sample.solutionOfOthers) :=
    .solved .insertion
  have h₁ : ApiStep primitives memory ⟨Sample.aliceTwice, 50, [], .idle⟩
    (.cancel 4 (alice150.id primitives) alice) ⟨Sample.firstCancelled, 50, [], .idle⟩ := by
    unfold Sample.firstCancelled
    exact .cancel _ 4 (alice150.id primitives) alice
  have h₂ : RoundStep memory auctioneer ⟨Sample.firstCancelled, 50, [], .idle⟩ .start
    ⟨Sample.firstCancelled, 50, [], .started 50⟩ := .start rfl (by decide +kernel)
  have h₃ : RoundStep memory auctioneer ⟨Sample.firstCancelled, 50, [], .started 50⟩ (.sweep 5)
    ⟨Sample.othersOpen, 50, [], .swept 50⟩ := by unfold Sample.othersOpen; exact .sweep 5 rfl
  have h₄ : RoundStep memory auctioneer ⟨Sample.othersOpen, 50, [], .swept 50⟩
    (.list Sample.others) ⟨Sample.othersOpen, 50, [], .listed 50 Sample.others⟩ :=
    .list rfl hlist (.refl _)
  have h₅ := RoundStep.sealBatch (R := memory) (A := auctioneer)
    (n := ⟨Sample.othersOpen, 50, [], .listed 50 Sample.others⟩) batchId rfl
  have h₆ := RoundStep.answer (R := memory) (A := auctioneer) (k := 0)
    (n := ⟨Sample.othersOpen, 50, [], .racing batch auctioneer.solvers none⟩) rfl rfl hanswer
  have h₇ := RoundStep.choose (R := memory) (A := auctioneer)
    (n := ⟨Sample.othersOpen, 50, [], .racing batch [] (some Sample.solutionOfOthers)⟩) rfl
  simp only [Phase.afterRace, Sample.solutionOfOthers_trades] at h₇
  have hrun : (machine primitives memory auctioneer).Run (.boot Sample.aliceTwice 50) _ _ :=
    .more (.api h₁) <| .more (.round h₂) <| .more (.round h₃) <| .more (.round h₄) <|
    .more (.round h₅) <| .more (.round h₆) <| .more (.round h₇) <|
    .more (.round (.mark 6 rfl)) <| .more (.round (.mark 7 rfl)) <| .one (.round (.deliver rfl))
  refine ⟨_, _, hrun, rfl, ⟨_, .head _, 4, alice, rfl, by decide +kernel⟩,
    ⟨_, List.mem_of_getLast? rfl, rfl, batch, rfl⟩,
    cancel_final (implements primitives (.id _)) Sample.aliceTwice_filed hrun fun p hp ho => ?_⟩
  -- only the choice of the winner could override the cancellation
  simp only [List.mem_cons, List.not_mem_nil, or_false] at hp
  rcases hp with rfl | rfl | rfl | rfl | rfl | rfl | rfl | rfl | rfl | rfl
  · cases ho with
    | cancel now hp => cases hp
  iterate 5 cases ho
  · cases ho with
    | choose hp hw hc =>
        cases hp
        have hopen : ∀ id ∈ Sample.solutionOfOthers.orderIds,
            (book Sample.othersOpen id).map Entry.status = some .opened := by decide +kernel
        obtain ⟨e, he, hs⟩ := hc
        have hst := hopen _ hw
        rw [he, Option.map_some, hs] at hst
        cases hst
  all_goals cases ho

/-- The store after the sweep of the round. -/
@[irreducible] def Sample.swept : InMemoryOrderRepository := (memory.expireDue 3 50 bothOpen).2

/-- The store after alice's cancellation. -/
@[irreducible] def Sample.cancelled : InMemoryOrderRepository :=
  (memory.cancel 4 (alice150.id primitives) alice Sample.swept).2

/-- The records the round reads. -/
def Sample.opened : List OrderRecord :=
  [fresh primitives 1 (sign alice150), fresh primitives 2 (sign bob200)]

/-- The steps of a round in which alice cancels while the solver is at work. -/
def Sample.cancelDuring : List Action :=
  [.round .start, .round (.sweep 3), .round (.list Sample.opened), .round (.sealBatch batchId),
    .api (.cancel 4 (alice150.id primitives) alice), .round (.answer 0 (.ok solution)),
    .round .choose, .round (.mark 5), .round (.mark 6), .round .deliver]

/-- **A cancellation is undone.**  While the solver is at work `cancel` returns `true` for alice's
order; then the round settles it, delivers it, and leaves it auctioned. -/
theorem cancel_overridden : ∃ tr tr' n,
    (machine primitives memory auctioneer).Run (.boot .new 50) (tr ++ tr') n ∧
    tr'.map Prod.snd = cancelDuring ∧ (∃ p ∈ tr', Cancels memory p (alice150.id primitives)) ∧
    (∃ p ∈ tr', Delivers p solution) ∧ alice150.id primitives ∈ solution.orderIds ∧
    (book n.store (alice150.id primitives)).map Entry.status = some .auctioned ∧
    ¬ CancelFinal memory book (tr ++ tr') n := by
  obtain ⟨tr, hopen⟩ := bothOpen_run
  have hlist : memory.listOpen none Sample.swept = .ok Sample.opened := by decide +kernel
  have hanswer : ReferenceSolve primitives .zero batchOfTwo (.ok solution) := .solved .insertion
  have h₁ : RoundStep memory auctioneer ⟨bothOpen, 50, [], .idle⟩ .start
    ⟨bothOpen, 50, [], .started 50⟩ := .start rfl (by decide +kernel)
  have h₂ : RoundStep memory auctioneer ⟨bothOpen, 50, [], .started 50⟩ (.sweep 3)
    ⟨Sample.swept, 50, [], .swept 50⟩ := by unfold Sample.swept; exact .sweep 3 rfl
  have h₃ : RoundStep memory auctioneer ⟨Sample.swept, 50, [], .swept 50⟩ (.list Sample.opened)
    ⟨Sample.swept, 50, [], .listed 50 Sample.opened⟩ := .list rfl hlist (.refl _)
  have h₄ := RoundStep.sealBatch (R := memory) (A := auctioneer)
    (n := ⟨Sample.swept, 50, [], .listed 50 Sample.opened⟩) batchId rfl
  have h₅ : ApiStep primitives memory
    ⟨Sample.swept, 50, [], .racing batchOfTwo auctioneer.solvers none⟩
    (.cancel 4 (alice150.id primitives) alice)
    ⟨Sample.cancelled, 50, [], .racing batchOfTwo auctioneer.solvers none⟩ := by
    unfold Sample.cancelled
    exact .cancel _ 4 (alice150.id primitives) alice
  have h₆ := RoundStep.answer (R := memory) (A := auctioneer) (k := 0)
    (n := ⟨Sample.cancelled, 50, [], .racing batchOfTwo auctioneer.solvers none⟩) rfl rfl hanswer
  have h₇ := RoundStep.choose (R := memory) (A := auctioneer)
    (n := ⟨Sample.cancelled, 50, [], .racing batchOfTwo [] (some solution)⟩) rfl
  simp only [Phase.afterRace, solution_trades] at h₇
  refine ⟨tr, _, _, hopen.append (.more (.round h₁) <| .more (.round h₂) <| .more (.round h₃) <|
    .more (.round h₄) <| .more (.api h₅) <| .more (.round h₆) <| .more (.round h₇) <|
    .more (.round (.mark 5 rfl)) <| .more (.round (.mark 6 rfl)) <|
    .one (.round (.deliver rfl))), rfl, ?_, ?_, ?_, ?_, fun h => ?_⟩
  · exact ⟨_, .tail _ (.tail _ (.tail _ (.tail _ (.head _)))), 4, alice, rfl, by decide +kernel⟩
  · exact ⟨_, List.mem_of_getLast? rfl, rfl, batchOfTwo, rfl⟩
  · rw [Solution.orderIds, solution_trades]
    exact List.mem_cons_self
  · decide +kernel
  · obtain ⟨e, he, hs⟩ := h.2 _ (List.mem_append_right tr
      (.tail _ (.tail _ (.tail _ (.tail _ (.head _)))))) (alice150.id primitives)
      ⟨4, alice, rfl, by decide +kernel⟩
    have hst := congrArg (Option.map Entry.status) he
    rw [Option.map_some, hs] at hst
    exact absurd hst (by decide +kernel)

end

end OxDex
