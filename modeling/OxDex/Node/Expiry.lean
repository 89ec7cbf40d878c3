import OxDex.Node.Rounds
import OxDex.Storage.Memory

/-!
# Node — Expiry

Which orders get into a batch after they have expired.

A round expires what is due, reads the open orders, and seals them.  An order that is inserted
between the first two steps, and that is no longer valid at the time the round goes by, gets in
(`LateInsert`): its request checked it when it was still valid.  `sealed_in_time`: in a run without
such an insertion, every batch holds orders that are valid at its sealing only.  `late_order_sealed`
is a run with one.
-/

namespace OxDex
open Support

section
variable (P : Primitives) {σ : Type} (book : σ → OrderBook)

/-- The step inserts an order that is not in the book yet, between the sweep of a round and its
reading of the open orders, and the order is due at the time of the round. -/
def LateInsert (n : Node σ) (a : Action) : Prop :=
  ∃ now s secs, a = .api (.insert now s) ∧ n.phase = .swept secs ∧
    book n.store (s.order.id P) = none ∧ s.order.validTo ≤ secs

end

/-- The round has sealed the batch, and is not over. -/
def Phase.HasSealed (batch : Batch) : Phase → Prop
  | .racing batch' _ _ | .marking batch' _ _ => batch' = batch
  | _ => False

/-- A batch whose orders are all valid at its sealing. -/
def Batch.InTime (batch : Batch) : Prop := ∀ s ∈ batch.orders, batch.sealedAt < s.order.validTo

/-- **Nothing due is left** of what the round will seal or has sealed. -/
def NothingDue (b : OrderBook) : Phase → Prop
  | .idle | .started _ => True
  | .swept now => ∀ id e, b id = some e → e.status = .opened → now < e.signed.order.validTo
  | .listed now opened => ∀ r ∈ opened, now < r.signed.order.validTo
  | .racing batch _ _ | .marking batch _ _ => batch.InTime

section
variable {P : Primitives} {σ : Type} {R : OrderRepository σ} {A : Auctioneer} {Sound : σ → Prop}
  {book : σ → OrderBook} {n n' : Node σ}

/-- A sweep leaves nothing due. -/
theorem sweep_nothingDue {b : OrderBook} {now : Int64} {id : OrderId} {e : Entry}
    (he : b.sweep now id = some e) (ho : e.status = .opened) : now < e.signed.order.validTo := by
  obtain ⟨e₀, -, rfl⟩ := Option.map_eq_some_iff.mp he
  split at ho
  · cases ho
  · next hd =>
      rw [if_neg hd]
      exact Int64.not_le.mp fun hle => hd ⟨ho, hle⟩

/-- A request's step keeps it, unless it is a late insertion. -/
theorem nothingDue_api {a : ApiAction} (h : ApiStep P R n a n')
    (hl : ¬ LateInsert P book n (.api a)) (hn : NothingDue (book n.store) n.phase) :
    NothingDue (a.effect P (book n.store)) n.phase := by
  cases hp : n.phase with
  | swept secs =>
      rw [hp] at hn
      intro id e he ho
      cases h with
      | validate s => exact hn id e he ho
      | verify h => exact hn id e he ho
      | read => exact hn id e he ho
      | @insert s now h =>
          simp only [ApiAction.effect, OrderBook.submit_apply] at he
          split at he
          · next hid =>
              cases he
              refine Int64.not_le.mp fun hle => hl ⟨now, s, secs, rfl, hp, ?_, hle⟩
              rw [hid.1]
              exact hid.2
          · exact hn id e he ho
      | cancel now id' owner =>
          simp only [ApiAction.effect] at he
          by_cases hid : id = id'
          · subst hid
            rw [OrderBook.cancel_self] at he
            obtain ⟨e₀, he₀, rfl⟩ := Option.map_eq_some_iff.mp he
            split at ho
            · cases ho
            · next hc =>
                rw [if_neg hc]
                exact hn id e₀ he₀ ho
          · rw [OrderBook.cancel_of_ne hid] at he
            exact hn id e he ho
  | idle => trivial
  | started secs => trivial
  | listed secs opened => rw [hp] at hn; exact hn
  | racing batch waiting best => rw [hp] at hn; exact hn
  | marking batch winner todo => rw [hp] at hn; exact hn

/-- A round's step keeps it. -/
theorem nothingDue_round (hR : Implements P R Sound book) (hs : Sound n.store) {a : RoundAction}
    (h : RoundStep R A n a n') (hn : NothingDue (book n.store) n.phase) :
    NothingDue (book n'.store) n'.phase := by
  cases h with
  | start hp h => trivial
  | @sweep secs now hp =>
      have hb := (hR.expireDue now secs _ hs).2
      dsimp only
      cases (R.expireDue now secs n.store).1 with
      | error e => trivial
      | ok k =>
          intro id e he ho
          rw [hb] at he
          exact sweep_nothingDue he ho
  | list hp hl h =>
      rw [hp] at hn
      intro r hr
      obtain ⟨e, he, ho, hes⟩ := (listed_spec hR hs hl h).2 r hr
      rw [← hes]
      exact hn _ e he ho
  | listError hp hl => trivial
  | sealBatch id hp =>
      rw [hp] at hn
      dsimp only [Phase.afterList]
      split
      · trivial
      · intro s hs
        obtain ⟨r, hr, rfl⟩ := List.mem_map.mp hs
        exact hn r hr
  | answer hp hk h => rw [hp] at hn; exact hn
  | @choose batch best hp =>
      rw [hp] at hn
      cases best with
      | none => trivial
      | some w => exact hn
  | mark now hp => rw [hp] at hn; exact hn
  | deliver hp => trivial

/-- **Every step but a late insertion keeps it.** -/
theorem nothingDue_step (hR : Implements P R Sound book) (hs : Sound n.store) {a : Action}
    (h : Step P R A n a n') (hl : ¬ LateInsert P book n a)
    (hn : NothingDue (book n.store) n.phase) : NothingDue (book n'.store) n'.phase := by
  cases h with
  | tick h => exact hn
  | api h => rw [h.phase_eq, (api_book hR hs h).2]; exact nothingDue_api h hl hn
  | round h => exact nothingDue_round hR hs h hn

/-- **No late insertion, no expired order in a batch**: in every state that a run without late
insertions reaches, the batch the round has sealed holds orders that were valid then only. -/
theorem sealed_in_time (hR : Implements P R Sound book) {st : σ} (hs : Sound st) {clock : Int64}
    {tr : List (Node σ × Action)} {n : Node σ} (h : (machine P R A).Run (.boot st clock) tr n)
    (hl : ∀ p ∈ tr, ¬ LateInsert P book p.1 p.2) {batch : Batch} (hb : n.phase.HasSealed batch) :
    batch.InTime := by
  have start : NothingDue (book st) (Node.boot st clock).phase := trivial
  have hinv : Sound n.store ∧ NothingDue (book n.store) n.phase :=
    h.inv_under (C := fun n a => ¬ LateInsert P book n a)
      (I := fun n => Sound n.store ∧ NothingDue (book n.store) n.phase)
      (fun n a n' hi hc hstep =>
        ⟨(step_book hR hi.1 hstep).1, nothingDue_step hR hi.1 hstep hc hi.2⟩) hl ⟨hs, start⟩
  have hd := hinv.2
  cases hp : n.phase <;> rw [hp] at hb hd
  case racing => cases hb; exact hd
  case marking => cases hb; exact hd
  all_goals cases hb

end

/-! ### Two runs -/

section
open Sample

/-- alice's order, which never expires, gets in between the sweep and the listing of a round. -/
def Sample.onTimeActions : List Action :=
  [.api (.validate (sign alice150)), .api (.verify (sign alice150)), .round .start,
    .round (.sweep 5), .api (.insert 6 (sign alice150)),
    .round (.list [InMemoryOrderRepository.fresh primitives 6 (sign alice150)]),
    .round (.sealBatch batchId)]

theorem sealed_in_time_alice : ∃ tr n,
    (machine primitives memory auctioneer).Run (.boot .new 99) tr n ∧
    tr.map Prod.snd = onTimeActions ∧ n.phase.HasSealed ⟨batchId, 99, [sign alice150]⟩ ∧
    (⟨batchId, 99, [sign alice150]⟩ : Batch).InTime := by
  have hrun : (machine primitives memory auctioneer).Run (.boot .new 99) _ _ :=
    .more (.api (.validate _ (sign alice150))) <|
    .more (.api (.verify _ (s := sign alice150) (by decide +kernel))) <|
    .more (.round (.start rfl (by decide +kernel))) <| .more (.round (.sweep 5 rfl)) <|
    .more (.api (.insert _ (s := sign alice150) 6 (by decide +kernel))) <|
    .more (.round (.list rfl rfl (.refl _))) <|
    .more (.round (.sealBatch batchId rfl)) (.refl _)
  have hR := InMemoryOrderRepository.implements primitives (.id _)
  refine ⟨_, _, hrun, rfl, rfl, sealed_in_time hR InMemoryOrderRepository.filed_new hrun ?_ rfl⟩
  rintro p hp ⟨now, s, secs, ha, hph, -, hle⟩
  simp only [List.mem_cons, List.not_mem_nil, or_false] at hp
  rcases hp with rfl | rfl | rfl | rfl | rfl | rfl | rfl <;> cases ha
  cases hph
  exact absurd hle (by decide +kernel)

/-- alice's order, valid up to the second 100, is checked at the second 99 and gets in between the
sweep and the listing of a round at the second 100. -/
def Sample.lateActions : List Action :=
  [.api (.validate (sign aliceSoon)), .api (.verify (sign aliceSoon)), .tick 100, .round .start,
    .round (.sweep 5), .api (.insert 6 (sign aliceSoon)),
    .round (.list [InMemoryOrderRepository.fresh primitives 6 (sign aliceSoon)]),
    .round (.sealBatch batchId)]

/-- **An expired order is sealed.** -/
theorem late_order_sealed : ∃ tr n,
    (machine primitives memory auctioneer).Run (.boot .new 99) tr n ∧
    tr.map Prod.snd = lateActions ∧ n.phase.HasSealed ⟨batchId, 100, [sign aliceSoon]⟩ ∧
    ¬ (⟨batchId, 100, [sign aliceSoon]⟩ : Batch).InTime := by
  refine ⟨_, _, .more (.api (.validate _ _)) <| .more (.api (.verify _ (by decide +kernel))) <|
    .more (.tick _ (by decide +kernel)) <| .more (.round (.start rfl (by decide +kernel))) <|
    .more (.round (.sweep 5 rfl)) <| .more (.api (.insert _ 6 (by decide +kernel))) <|
    .more (.round (.list rfl rfl (.refl _))) <| .more (.round (.sealBatch batchId rfl)) (.refl _),
    rfl, rfl, fun h => ?_⟩
  exact absurd (h _ List.mem_cons_self) (by decide +kernel)

end

end OxDex
