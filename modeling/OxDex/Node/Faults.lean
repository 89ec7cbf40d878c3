import OxDex.Node.AtMostOnce
import OxDex.Node.Expiry

/-!
# Node — Faults

A round whose writes may fail.

`failing R calls` is the repository `R` with calls of `update_status` that go as `calls` says.
A round logs their errors and delivers all the same.  So an order that it has traded is off the book
if one of the writes for it took effect, and stays as it was if none did (`delivered_off_book`).
`delivered_still_open` is a round whose solution trades an order that the next round is given again.

A node over the failing repository takes the steps of a node over `R`, except that it passes over
markings (`inner_step`).
-/

namespace OxDex
open Support

/-! ### Failing writes -/

/-- How a call of `update_status` goes: through, or wrong before the write, or wrong after it. -/
inductive Call where
  | through
  | lost (msg : String)
  | unanswered (msg : String)

/-- The write took effect. -/
def Call.writes : Call → Bool
  | .lost _ => false
  | _ => true

/-- The repository, with calls of `update_status` that go as `calls` says, one after the other.
With its store goes the number of calls so far. -/
def failing {σ : Type} (R : OrderRepository σ) (calls : Nat → Call) :
    OrderRepository (σ × Nat) where
  insert := fun now s st => ((R.insert now s st.1).1, (R.insert now s st.1).2, st.2)
  get := fun id st => R.get id st.1
  listOpen := fun pair st => R.listOpen pair st.1
  updateStatus := fun now id status fs fb st =>
    match calls st.2 with
    | .through => ((R.updateStatus now id status fs fb st.1).1,
        (R.updateStatus now id status fs fb st.1).2, st.2 + 1)
    | .lost msg => (.error (.backend msg), st.1, st.2 + 1)
    | .unanswered msg =>
        (.error (.backend msg), (R.updateStatus now id status fs fb st.1).2, st.2 + 1)
  cancel := fun now id owner st =>
    ((R.cancel now id owner st.1).1, (R.cancel now id owner st.1).2, st.2)
  expireDue := fun now secs st =>
    ((R.expireDue now secs st.1).1, (R.expireDue now secs st.1).2, st.2)

/-- The last of the trades that is one of `id` and whose write took effect, where `k` is the number
of the first one's call. -/
def written (calls : Nat → Call) (id : OrderId) : Nat → List TradeExecution →
    Option TradeExecution
  | _, [] => none
  | k, t :: ts => (written calls id (k + 1) ts).or
      (if (calls k).writes = true ∧ t.orderId = id then some t else none)

/-- A node over the failing repository as one over the repository. -/
def Node.inner {σ : Type} (n : Node (σ × Nat)) : Node σ := ⟨n.store.1, n.clock, n.pending, n.phase⟩

section
variable {P : Primitives} {σ : Type} {R : OrderRepository σ} {calls : Nat → Call}
  {A : Auctioneer} {Sound : σ → Prop} {book : σ → OrderBook} {n n' : Node (σ × Nat)}

/-! ### What a step does -/

/-- A marking is a call of `update_status`, which may not take effect. -/
theorem markOne_failing (now : Nat) (t : TradeExecution) (st : σ × Nat) :
    markOne (failing R calls) now t st =
      (if (calls st.2).writes = true then markOne R now t st.1 else st.1, st.2 + 1) := by
  simp only [markOne, failing]
  cases calls st.2 <;> rfl

theorem inner_api {a : ApiAction} (h : ApiStep P (failing R calls) n a n') :
    ApiStep P R n.inner a n'.inner := by
  cases h with
  | validate s => exact .validate n.inner s
  | verify h => exact .verify n.inner h
  | insert now h => exact .insert n.inner now h
  | cancel now id owner => exact .cancel n.inner now id owner
  | read => exact .read n.inner

/-- A marking whose write does not take effect is passed over. -/
structure Skips (n n' : Node (σ × Nat)) (a : RoundAction) : Prop where
  mark : ∃ now, a = .mark now
  marking : ∃ batch w t todo, n.phase = .marking batch w (t :: todo) ∧
    n'.inner = { n.inner with phase := .marking batch w todo }

theorem inner_round {a : RoundAction} (h : RoundStep (failing R calls) A n a n') :
    RoundStep R A n.inner a n'.inner ∨ Skips n n' a := by
  cases h with
  | start hp h => exact .inl (.start hp h)
  | sweep now hp => exact .inl (.sweep now hp)
  | list hp hl h => exact .inl (.list hp hl h)
  | listError hp hl => exact .inl (.listError hp hl)
  | sealBatch id hp => exact .inl (.sealBatch id hp)
  | answer hp hk h => exact .inl (.answer hp hk h)
  | choose hp => exact .inl (.choose hp)
  | mark now hp =>
      rw [markOne_failing]
      by_cases hw : (calls n.store.2).writes = true
      · rw [if_pos hw]
        exact .inl (.mark (n := n.inner) now hp)
      · rw [if_neg hw]
        exact .inr ⟨⟨now, rfl⟩, _, _, _, _, hp, rfl⟩
  | deliver hp => exact .inl (.deliver hp)

/-- **A step is one over the repository**, or passes over a marking. -/
theorem inner_step {a : Action} (h : Step P (failing R calls) A n a n') :
    Step P R A n.inner a n'.inner ∨ ∃ r, a = .round r ∧ Skips n n' r := by
  cases h with
  | tick h => exact .inl (.tick n.inner h)
  | api h => exact .inl (.api (inner_api h))
  | round h => exact (inner_round h).imp .round fun hs => ⟨_, rfl, hs⟩

theorem sound_failing (hR : Implements P R Sound book) (hs : Sound n.store.1) {a : Action}
    (h : Step P (failing R calls) A n a n') : Sound n'.store.1 := by
  rcases inner_step h with h | ⟨-, -, -, batch, w, t, todo, -, he⟩
  · exact (step_book hR (n := n.inner) hs h).1
  · have hst : n'.store.1 = n.store.1 := congrArg Node.store he
    exact hst.symm ▸ hs

/-- No order leaves the book. -/
theorem keeps_failing (hR : Implements P R Sound book) (hs : Sound n.store.1) {a : Action}
    (h : Step P (failing R calls) A n a n') : Keeps (book n.store.1) (book n'.store.1) := by
  rcases inner_step h with h | ⟨-, -, -, batch, w, t, todo, -, he⟩
  · have hb : book n'.store.1 = a.effect P n.phase (book n.store.1) :=
      (step_book hR (n := n.inner) hs h).2
    exact hb ▸ effect_keeps a n.phase _
  · have hst : n'.store.1 = n.store.1 := congrArg Node.store he
    exact hst.symm ▸ .refl _

/-- An order that is done with stays so. -/
theorem done_failing (hR : Implements P R Sound book) (hs : Sound n.store.1) {a : Action}
    (h : Step P (failing R calls) A n a n') {id : OrderId} (hd : Done P book n.inner id) :
    Done P book n'.inner id := by
  rcases inner_step h with h | ⟨-, -, -, batch, w, t, todo, hp, he⟩
  · exact done_step hR (n := n.inner) hs h hd
  · have ha : n.phase.Avoids P id := hd.2
    rw [hp] at ha
    rw [he]
    exact ⟨hd.1, ha⟩

/-! ### The marking -/

/-- **A step before the delivery**, as one sees it from an order's entry: it leaves the marking
where it is and the entry as well, unless it cancels the order, or it is the call for the next
trade. -/
theorem marking_step (hR : Implements P R Sound book) (hs : Sound n.store.1) {batch : Batch}
    {w : Solution} {todo : List TradeExecution} (hp : n.phase = .marking batch w todo) {a : Action}
    (ha : a ≠ .round .deliver) (h : Step P (failing R calls) A n a n') :
    (n'.phase = n.phase ∧ n'.store.2 = n.store.2 ∧ ∀ id e, book n.store.1 id = some e →
      book n'.store.1 id = some e ∨
        e.status = .opened ∧ Cancels (failing R calls) (n, a) id) ∨
    ∃ t rest, todo = t :: rest ∧ n'.phase = .marking batch w rest ∧
      n'.store.2 = n.store.2 + 1 ∧ book n'.store.1 =
        if (calls n.store.2).writes = true then
          (book n.store.1).mark t.orderId .auctioned (some t.executedSell) (some t.executedBuy)
        else book n.store.1 := by
  cases h with
  | tick h => exact .inl ⟨rfl, rfl, fun _ _ he => .inl he⟩
  | api h =>
      cases h with
      | validate s => exact .inl ⟨rfl, rfl, fun _ _ he => .inl he⟩
      | verify h => exact .inl ⟨rfl, rfl, fun _ _ he => .inl he⟩
      | read => exact .inl ⟨rfl, rfl, fun _ _ he => .inl he⟩
      | @insert s now h =>
          refine .inl ⟨rfl, rfl, fun id e he => .inl ?_⟩
          show book (R.insert now s n.store.1).2 id = some e
          rw [(hR.insert now s _ hs).2]
          exact OrderBook.submit_of_some he s
      | cancel now id owner =>
          obtain ⟨-, hb, hok⟩ := hR.cancel now id owner _ hs
          refine .inl ⟨rfl, rfl, fun id' e he => ?_⟩
          show book (R.cancel now id owner n.store.1).2 id' = some e ∨ _
          rw [hb]
          by_cases hid : id' = id
          · subst hid
            by_cases hc : e.status = .opened ∧ e.signed.order.owner = owner
            · exact .inr ⟨hc.1, now, owner, rfl, hok.mpr ⟨e, he, hc⟩⟩
            · rw [OrderBook.cancel_self, he, Option.map_some, if_neg hc]
              exact .inl rfl
          · rw [OrderBook.cancel_of_ne hid]
            exact .inl he
  | round h =>
      cases h with
      | @mark _ _ t rest now hp' =>
          cases hp.symm.trans hp'
          refine .inr ⟨t, rest, rfl, rfl, ?_⟩
          dsimp only
          rw [markOne_failing]
          refine ⟨rfl, ?_⟩
          by_cases hw : (calls n.store.2).writes = true
          · rw [if_pos hw, if_pos hw]
            exact (hR.updateStatus now _ _ _ _ _ hs).2
          · rw [if_neg hw, if_neg hw]
      | deliver hp' => exact absurd rfl ha
      | start hp' h => cases hp.symm.trans hp'
      | sweep now hp' => cases hp.symm.trans hp'
      | list hp' hl h => cases hp.symm.trans hp'
      | listError hp' hl => cases hp.symm.trans hp'
      | sealBatch id hp' => cases hp.symm.trans hp'
      | answer hp' hk h => cases hp.symm.trans hp'
      | choose hp' => cases hp.symm.trans hp'

variable {m : Node (σ × Nat)} {tr : List (Node (σ × Nat) × Action)} {batch : Batch} {w : Solution}

/-- **An order for which no write takes effect** is left as it is, unless it is cancelled. -/
theorem left_alone (hR : Implements P R Sound book)
    (hrun : (machine P (failing R calls) A).Run n tr m) (hs : Sound n.store.1)
    (hno : ∀ p ∈ tr, p.2 ≠ .round .deliver) {todo : List TradeExecution}
    (hp : n.phase = .marking batch w todo) {id : OrderId}
    (hw : written calls id n.store.2 todo = none) {e : Entry}
    (he : book n.store.1 id = some e) : book m.store.1 id = some e ∨
      e.status = .opened ∧ ∃ p ∈ tr, Cancels (failing R calls) p id := by
  induction hrun generalizing todo with
  | refl => exact .inl he
  | @more n _ _ a tr h _ ih =>
      have hno' := fun p hp => hno p (List.mem_cons_of_mem _ hp)
      have hs' := sound_failing hR hs h
      have later : (∃ p ∈ tr, Cancels (failing R calls) p id) →
          ∃ p ∈ (n, a) :: tr, Cancels (failing R calls) p id :=
        fun hc => hc.imp fun p hp => ⟨List.mem_cons_of_mem _ hp.1, hp.2⟩
      rcases marking_step hR hs hp (hno _ List.mem_cons_self) h with
        ⟨hph, hk, hkeep⟩ | ⟨t, rest, rfl, hph, hk, hb⟩
      · rcases hkeep id e he with he | ⟨ho, hc⟩
        · exact (ih hs' hno' (hph.trans hp) (hk ▸ hw) he).imp_right (And.imp_right later)
        · exact .inr ⟨ho, _, List.mem_cons_self, hc⟩
      · -- the call is for another order, or its write does not take effect
        obtain ⟨hrest, hfirst⟩ := Option.or_eq_none_iff.mp hw
        refine (ih hs' hno' hph (hk ▸ hrest) ?_).imp_right (And.imp_right later)
        rw [hb]
        split
        · next hwr =>
            have hne : id ≠ t.orderId := fun hid => by simp [hwr, hid] at hfirst
            rw [OrderBook.mark_of_ne hne, he]
        · exact he

/-- **An order for which a write takes effect** is auctioned, with the amounts of the last one. -/
theorem marked_last (hR : Implements P R Sound book)
    (hrun : (machine P (failing R calls) A).Run n tr m) (hs : Sound n.store.1)
    (hno : ∀ p ∈ tr, p.2 ≠ .round .deliver) {todo : List TradeExecution}
    (hp : n.phase = .marking batch w todo) (hm : m.phase = .marking batch w []) {id : OrderId}
    {t : TradeExecution} (hw : written calls id n.store.2 todo = some t) {e : Entry}
    (he : book n.store.1 id = some e) :
    book m.store.1 id = some ⟨e.signed, .auctioned, t.executedSell, t.executedBuy⟩ := by
  induction hrun generalizing todo e with
  | refl =>
      cases hp.symm.trans hm
      cases hw
  | @more n n₁ m a tr h hrest ih =>
      have hno' := fun p hp => hno p (List.mem_cons_of_mem _ hp)
      have hs' := sound_failing hR hs h
      obtain ⟨e', he', hsig⟩ := keeps_failing hR hs h id e he
      rcases marking_step hR hs hp (hno _ List.mem_cons_self) h with
        ⟨hph, hk, -⟩ | ⟨t₀, rest, rfl, hph, hk, hb⟩
      · exact hsig ▸ ih hs' hno' (hph.trans hp) hm (hk ▸ hw) he'
      · rcases Option.or_eq_some_iff.mp hw with hlater | ⟨hlast, hthis⟩
        · exact hsig ▸ ih hs' hno' hph hm (hk ▸ hlater) he'
        · -- this write is the last one, so the entry it leaves is left alone
          obtain ⟨⟨hwr, rfl⟩, ht⟩ := Option.ite_none_right_eq_some.mp hthis
          cases ht
          have hmark : book n₁.store.1 t.orderId =
              some ⟨e.signed, .auctioned, t.executedSell, t.executedBuy⟩ := by
            rw [hb, if_pos hwr, OrderBook.mark_self, he]
            rfl
          rcases left_alone hR hrest hs' hno' hph (hk ▸ hlast) hmark with h | ⟨ho, -⟩
          · exact h
          · exact absurd ho (show OrderStatus.auctioned ≠ .opened by decide)

/-! ### Off the book -/

/-- A run from where the winner has been chosen to where it is delivered. -/
structure MarkingRun (P : Primitives) (R : OrderRepository σ) (A : Auctioneer) (batch : Batch)
    (w : Solution) (n : Node σ) (tr : List (Node σ × Action)) (m : Node σ) : Prop where
  chosen : n.phase = .marking batch w w.trades
  run : (machine P R A).Run n tr m
  before : ∀ p ∈ tr, p.2 ≠ .round .deliver
  marked : m.phase = .marking batch w []

/-- An order that is done with is in no batch that is sealed from then on. -/
theorem not_sealed_of_done (hR : Implements P R Sound book) (hs : Sound n.store.1) {id : OrderId}
    (hd : Done P book n.inner id) {tr : List (Node (σ × Nat) × Action)}
    (hrun : (machine P (failing R calls) A).Run n tr n') :
    (book n'.store.1).Gone id ∧ ∀ b, n'.phase.HasSealed b → id ∉ b.orderIds P := by
  have hdone : Sound n'.store.1 ∧ Done P book n'.inner id :=
    hrun.inv (S := machine P (failing R calls) A)
      (I := fun n => Sound n.store.1 ∧ Done P book n.inner id)
      (fun _ _ _ hi hstep => ⟨sound_failing hR hi.1 hstep, done_failing hR hi.1 hstep hi.2⟩)
      ⟨hs, hd⟩
  obtain ⟨-, hg, ha⟩ := hdone
  refine ⟨hg, fun b hb => ?_⟩
  have ha : n'.phase.Avoids P id := ha
  cases hph : n'.phase with
  | racing batch waiting best => rw [hph] at hb ha; exact hb ▸ ha
  | marking batch w todo => rw [hph] at hb ha; exact hb ▸ ha
  | _ => rw [hph] at hb; exact hb.elim

/-- **What is delivered is off the book, as far as the writes take effect.**  When the winner is
delivered, an order for which a write took effect is auctioned, with the amounts of the last of its
trades of which it did, and in no later batch.  An order for which none did is as it was when the
winner was chosen, unless its owner has cancelled it. -/
theorem delivered_off_book (hR : Implements P R Sound book) (hs : Sound n.store.1)
    (hrun : MarkingRun P (failing R calls) A batch w n tr m) {id : OrderId} {e : Entry}
    (he : book n.store.1 id = some e) :
    (∀ t, written calls id n.store.2 w.trades = some t →
      book m.store.1 id = some ⟨e.signed, .auctioned, t.executedSell, t.executedBuy⟩ ∧
      ∀ n₁ tr' n', Step P (failing R calls) A m (.round .deliver) n₁ →
        (machine P (failing R calls) A).Run n₁ tr' n' →
          (book n'.store.1).Gone id ∧ ∀ b, n'.phase.HasSealed b → id ∉ b.orderIds P) ∧
    (written calls id n.store.2 w.trades = none →
      book m.store.1 id = some e ∨
        e.status = .opened ∧ ∃ p ∈ tr, Cancels (failing R calls) p id) := by
  refine ⟨fun t ht => ?_, fun hw => left_alone hR hrun.run hs hrun.before hrun.chosen hw he⟩
  have hmark := marked_last hR hrun.run hs hrun.before hrun.chosen hrun.marked ht he
  refine ⟨hmark, fun n₁ tr' n' hdel hrest => ?_⟩
  have hsm : Sound m.store.1 := hrun.run.inv (S := machine P (failing R calls) A)
    (I := fun n => Sound n.store.1) (fun _ _ _ hi hstep => sound_failing hR hi hstep) hs
  cases hdel with
  | round hdel =>
      cases hdel with
      | deliver =>
          have hg : (book m.store.1).Gone id :=
            ⟨_, hmark, show OrderStatus.auctioned ≠ .opened by decide⟩
          exact not_sealed_of_done hR (n := { m with phase := .idle }) hsm ⟨hg, trivial⟩ hrest

end

/-! ### alice's write is lost -/

namespace Sample

/-- The first call of `update_status` does not reach the database. -/
def firstLost : Nat → Call
  | 0 => .lost "connection reset"
  | _ => .through

/-- The store after a round whose first write is lost. -/
def halfSettled : InMemoryOrderRepository × Nat :=
  (runOneAuction primitives (failing memory firstLost) auctioneer roundOfTwo (bothOpen, 0)).store

end Sample

section
open Sample

/-- **A delivered order stays on the book.**  The round delivers alice's trade and bob's, but the
write for hers is lost: her order is still open, and in the batch of the next round. -/
theorem delivered_still_open :
    (runOneAuction primitives (failing memory firstLost) auctioneer roundOfTwo
      (bothOpen, 0)).delivered = some solution ∧
    alice150.id primitives ∈ solution.orderIds ∧
    halfSettled.1.book (alice150.id primitives) = some ⟨sign alice150, .opened, 0, 0⟩ ∧
    sealedBatch primitives (failing memory firstLost) auctioneer roundOfTwo halfSettled =
      some ⟨batchId, 50, [sign alice150]⟩ := by
  decide +kernel

/-- bob's write takes effect, and his order is off the book. -/
theorem delivered_off_book_bob : ∃ tr m,
    MarkingRun primitives (failing memory firstLost) auctioneer batchOfTwo solution
      ⟨(bothOpen, 0), 50, [], .marking batchOfTwo solution solution.trades⟩ tr m ∧
    m.store.1.book (bob200.id primitives) = some ⟨sign bob200, .auctioned, 200, 114⟩ := by
  obtain ⟨tr, hrun, hno⟩ := mark_run (P := primitives) (R := failing memory firstLost)
    (A := auctioneer) batchOfTwo solution solution.trades (fun k => 3 + k)
    ⟨(bothOpen, 0), 50, [], .idle⟩
  have hopen : bothOpen.book (bob200.id primitives) = some ⟨sign bob200, .opened, 0, 0⟩ := by
    decide +kernel
  have hw : written firstLost (bob200.id primitives) 0 solution.trades =
      some ⟨bob200.id primitives, 200, 114⟩ := by decide +kernel
  refine ⟨tr, _, ⟨rfl, hrun, hno, rfl⟩, ?_⟩
  exact ((delivered_off_book (InMemoryOrderRepository.implements primitives (.id _)) bothOpen_filed
    ⟨rfl, hrun, hno, rfl⟩ hopen).1 _ hw).1

end

end OxDex
