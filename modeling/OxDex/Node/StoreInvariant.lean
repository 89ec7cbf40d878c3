import OxDex.Node.Rounds
import OxDex.Node.Sequential

/-!
# Node — Store Invariant

What every record of the in-memory repository satisfies, whatever requests and rounds have done to
it, if the solvers are reference solvers (`store_invariant`).

Requests bring in orders that have passed the checks (`PendingOk`).  A round writes amounts of the
matching engine, which respect what the order of the batch offers (`mem_trades_order`), and that
order is the one the record holds (`Tracks`).
-/

namespace OxDex
open Support

/-- **What an entry of the book satisfies.** -/
structure EntryOk (P : Primitives) (e : Entry) : Prop where
  verified : e.signed.verify P = .ok ()
  wellFormed : e.signed.order.WellFormed
  status : e.status ∈ [.opened, .auctioned, .cancelled, .expired]
  unfilled : e.status ≠ .auctioned → e.filledSell = 0 ∧ e.filledBuy = 0
  filled : e.status = .auctioned → e.filledSell.toNat ≤ e.signed.order.sellAmount.toNat ∧
    (e.signed.order.partialFill = false → e.filledSell = e.signed.order.sellAmount)

/-- Every entry of the book does. -/
def BookOk (P : Primitives) (b : OrderBook) : Prop := ∀ id e, b id = some e → EntryOk P e

/-- What the requests under way have passed. -/
def PendingOk (P : Primitives) (pending : List Pending) : Prop :=
  ∀ p ∈ pending, p.signed.order.WellFormed ∧ (p.verified = true → p.signed.verify P = .ok ())

section
variable {P : Primitives} {b : OrderBook}

/-- An open entry may leave the book for cancelled or expired. -/
theorem EntryOk.close {e : Entry} (h : EntryOk P e) (ho : e.status = .opened) {status : OrderStatus}
    (hs : status ∈ [.cancelled, .expired]) : EntryOk P { e with status := status } where
  verified := h.verified
  wellFormed := h.wellFormed
  status := List.mem_of_mem_drop (show status ∈ List.drop 2 _ from hs)
  unfilled := fun _ => h.unfilled (by rw [ho]; decide)
  filled := fun ha => by
    have ha : status = .auctioned := ha
    rw [ha] at hs
    exact absurd hs (by decide)

theorem bookOk_submit (h : BookOk P b) {s : SignedOrder} (hw : s.order.WellFormed)
    (hv : s.verify P = .ok ()) : BookOk P (b.submit P s) := by
  intro id e he
  rw [OrderBook.submit_apply] at he
  split at he
  · cases he
    exact ⟨hv, hw, List.mem_cons_self, fun _ => ⟨rfl, rfl⟩, fun h => by cases h⟩
  · exact h id e he

theorem bookOk_cancel (h : BookOk P b) (id : OrderId) (owner : Address) :
    BookOk P (b.cancel id owner) := by
  intro id' e he
  by_cases hid : id' = id
  · subst hid
    rw [OrderBook.cancel_self] at he
    obtain ⟨e₀, he₀, rfl⟩ := Option.map_eq_some_iff.mp he
    split
    · next hc => exact (h _ e₀ he₀).close hc.1 (by decide)
    · exact h _ e₀ he₀
  · rw [OrderBook.cancel_of_ne hid] at he
    exact h id' e he

theorem bookOk_sweep (h : BookOk P b) (now : Int64) : BookOk P (b.sweep now) := by
  intro id e he
  obtain ⟨e₀, he₀, rfl⟩ := Option.map_eq_some_iff.mp he
  split
  · next hd => exact (h _ e₀ he₀).close hd.1 (by decide)
  · exact h _ e₀ he₀

/-- A trade is within what the order it names offers. -/
def Payable (b : OrderBook) (t : TradeExecution) : Prop :=
  ∀ e, b t.orderId = some e → t.executedSell.toNat ≤ e.signed.order.sellAmount.toNat ∧
    (e.signed.order.partialFill = false → t.executedSell = e.signed.order.sellAmount)

theorem bookOk_mark (h : BookOk P b) {t : TradeExecution} (ht : Payable b t) :
    BookOk P (b.mark t.orderId .auctioned (some t.executedSell) (some t.executedBuy)) := by
  intro id e he
  by_cases hid : id = t.orderId
  · subst hid
    rw [OrderBook.mark_self] at he
    obtain ⟨e₀, he₀, rfl⟩ := Option.map_eq_some_iff.mp he
    have h₀ := h _ e₀ he₀
    exact ⟨h₀.verified, h₀.wellFormed, .tail _ (.head _), fun hne => absurd rfl hne,
      fun _ => ht e₀ he₀⟩
  · rw [OrderBook.mark_of_ne hid] at he
    exact h id e he

/-- **What a reference solver trades is payable**: the order of the batch is the one in the book. -/
theorem payable_of_answer {A : Auctioneer} (hA : A.IsReference P) {batch : Batch} {w : Solution}
    (hst : Stored P b batch.orders) (hw : A.Answers batch w) {t : TradeExecution}
    (ht : t ∈ w.trades) : Payable b t := by
  obtain ⟨env, address, rfl⟩ := hA.eq_matchBatch hw
  obtain ⟨s, hs, hid, hle, hall⟩ := mem_trades_order P env ⟨true⟩ batch.id address ht
  intro e he
  obtain ⟨e', he', rfl⟩ := hst.mem s hs
  rw [hid, he] at he'
  cases he'
  exact ⟨hle, hall⟩

end

section
variable {P : Primitives} {σ : Type} {R : OrderRepository σ} {A : Auctioneer} {Sound : σ → Prop}
  {book : σ → OrderBook} {n n' : Node σ}

/-- **Requests pass the checks before they get on.** -/
theorem pendingOk_api {a : ApiAction} (h : ApiStep P R n a n') (hp : PendingOk P n.pending) :
    PendingOk P n'.pending := by
  have erase : ∀ q, PendingOk P (n.pending.erase q) :=
    fun q p hq => hp p (List.mem_of_mem_erase hq)
  cases h with
  | validate s =>
      dsimp only
      split
      · next hv =>
          refine List.forall_mem_cons.mpr ⟨⟨(Order.validate_eq_ok_iff.mp hv).1, ?_⟩, hp⟩
          exact fun h => by cases h
      · exact hp
  | @verify s h =>
      dsimp only
      split
      · next hv =>
          exact List.forall_mem_cons.mpr ⟨⟨(hp _ h).1, fun _ => hv⟩, erase _⟩
      · exact erase _
  | insert now h => exact erase _
  | cancel now id owner => exact hp
  | read => exact hp

/-- **Every step keeps every entry as it should be.** -/
theorem bookOk_step (hR : Implements P R Sound book) (hA : A.IsReference P) (hs : Sound n.store)
    (ht : Tracks P A (book n.store) n.phase) (hp : PendingOk P n.pending) {a : Action}
    (h : Step P R A n a n') (hb : BookOk P (book n.store)) : BookOk P (book n'.store) := by
  rw [(step_book hR hs h).2]
  cases h with
  | tick h => exact hb
  | api h =>
      cases h with
      | insert now h => exact bookOk_submit hb (hp _ h).1 ((hp _ h).2 rfl)
      | cancel now id owner => exact bookOk_cancel hb id owner
      | validate s => exact hb
      | verify h => exact hb
      | read => exact hb
  | round h =>
      cases h with
      | sweep now hph => rw [hph]; exact bookOk_sweep hb _
      | @mark batch w t todo now hph =>
          rw [hph] at ht ⊢
          exact bookOk_mark hb
            (payable_of_answer hA ht.1 ht.2.1 (ht.2.2.subset List.mem_cons_self))
      | start hph h => exact hb
      | list hph hl h => exact hb
      | listError hph hl => exact hb
      | sealBatch id hph => exact hb
      | answer hph hk h => exact hb
      | choose hph => exact hb
      | deliver hph => exact hb

end

/-! ### Over a run -/

/-- **What a record filed under `id` satisfies.** -/
structure RecordOk (P : Primitives) (id : OrderId) (r : OrderRecord) : Prop where
  keyed : r.id = id ∧ r.signed.order.id P = id
  entry : EntryOk P r.entry

namespace InMemoryOrderRepository

/-- **The store invariant.**  In every state that a node with reference solvers reaches from an
empty in-memory repository, every record is filed under the identifier of its order, and holds a
well-formed order that its owner signed, open, auctioned, cancelled or expired, with amounts only
if it is auctioned, and then within what the order offers, and all of it if the order forbids
partial fills. -/
theorem store_invariant {P : Primitives} {iter : IterOrder OrderRecord} {A : Auctioneer}
    (hA : A.IsReference P) {clock : Int64} {tr : List (Node InMemoryOrderRepository × Action)}
    {n : Node InMemoryOrderRepository}
    (h : (machine P (repository P iter) A).Run (.boot .new clock) tr n) {id : OrderId}
    {r : OrderRecord} (hr : n.store.inner.find? id = some r) : RecordOk P id r := by
  have hR := implements P iter
  obtain ⟨hf, -, -, hb⟩ := h.inv (S := machine P (repository P iter) A)
    (I := fun n => Filed P n.store ∧ Tracks P A (book n.store) n.phase ∧ PendingOk P n.pending ∧
      BookOk P (book n.store))
    (fun n a n' hi hstep => by
      refine ⟨(step_book hR hi.1 hstep).1, tracks_step hR hi.1 hstep hi.2.1, ?_,
        bookOk_step hR hA hi.1 hi.2.1 hi.2.2.1 hstep hi.2.2.2⟩
      cases hstep with
      | tick h => exact hi.2.2.1
      | api h => exact pendingOk_api h hi.2.2.1
      | round h => rw [h.pending_eq]; exact hi.2.2.1)
    ⟨filed_new, trivial, fun p hp => absurd hp List.not_mem_nil, fun id e he => by cases he⟩
  exact ⟨hf id r hr, hb id r.entry (book_eq_some.mpr ⟨r, hr, rfl⟩)⟩

end InMemoryOrderRepository

open Sample in
/-- alice's record after a round: auctioned, with all she sells. -/
theorem store_invariant_alice : ∃ tr r,
    (machine primitives memory auctioneer).Run (.boot .new 50) tr (.boot settled 50) ∧
    settled.inner.find? (alice150.id primitives) = some r ∧ r.status = .auctioned ∧
    r.filledSell = 100 ∧ RecordOk primitives (alice150.id primitives) r := by
  obtain ⟨tr, h, -⟩ := settled_run
  have hA : auctioneer.IsReference primitives := fun s hs => ⟨.zero, List.mem_singleton.mp hs⟩
  have hr : settled.inner.find? (alice150.id primitives) =
      some ⟨alice150.id primitives, sign alice150, .auctioned, 100, 175, 1, 4⟩ := by
    decide +kernel
  exact ⟨tr, _, h, hr, rfl, rfl, InMemoryOrderRepository.store_invariant hA h hr⟩

end OxDex
