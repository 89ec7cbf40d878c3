import OxDex.Node.Rounds
import OxDex.Node.Sequential

/-!
# Node — At Most Once

Over the in-memory repository, whatever requests come in between the steps of the rounds:

* no order is delivered twice;
* no order that is no longer open opens again;
* `cancel` returns `true` at most once for an order, and never for one that a sweep counts.

This asks one thing of the solvers: that the trades of a solution name orders of the batch
(`Auctioneer.NamesBatch`).  The argument is that an order that has been delivered is no longer open,
and is not in the batch of a round under way (`Done`), which every step keeps.
-/

namespace OxDex
open Support

/-- The trades of every solution that the solvers may answer name orders of the batch. -/
def Auctioneer.NamesBatch (P : Primitives) (A : Auctioneer) : Prop :=
  ∀ batch sol, A.Answers batch sol → ∀ id ∈ sol.orderIds, id ∈ batch.orderIds P

/-- The matching engine trades orders of its batch. -/
theorem Auctioneer.IsReference.namesBatch {P : Primitives} {A : Auctioneer}
    (h : A.IsReference P) : A.NamesBatch P := by
  intro batch sol hs id hid
  obtain ⟨env, address, rfl⟩ := h.eq_matchBatch hs
  obtain ⟨t, ht, rfl⟩ := List.mem_map.mp hid
  obtain ⟨s, hs, hid, -⟩ := mem_trades_order P env ⟨true⟩ batch.id address ht
  exact List.mem_map.mpr ⟨s, hs, hid⟩

/-- The step is a sweep, and the order is one it counts. -/
def Expires (p : Node InMemoryOrderRepository × Action) (id : OrderId) : Prop :=
  ∃ now secs r, p.2 = .round (.sweep now) ∧ p.1.phase = .started secs ∧
    p.1.store.inner.find? id = some r ∧ InMemoryOrderRepository.due secs r = true

/-- The order is not in the batch of the round. -/
def Phase.Avoids (P : Primitives) (id : OrderId) : Phase → Prop
  | .listed _ opened => ∀ r ∈ opened, r.signed.order.id P ≠ id
  | .racing batch _ _ | .marking batch _ _ => id ∉ batch.orderIds P
  | _ => True

/-- What is not left to mark is no longer open. -/
def MarkedSoFar (b : OrderBook) : Phase → Prop
  | .marking _ w todo => ∀ t ∈ w.trades, t ∈ todo ∨ b.Gone t.orderId
  | _ => True

section
variable {P : Primitives} {σ : Type} {R : OrderRepository σ} {A : Auctioneer} {Sound : σ → Prop}
  {book : σ → OrderBook} {n n' : Node σ}

/-- An order that the winner trades is in the book. -/
theorem stored_of_traded {b : OrderBook} (hA : A.NamesBatch P) {batch : Batch} {w : Solution}
    (hst : Stored P b batch.orders) (hw : A.Answers batch w) {t : TradeExecution}
    (ht : t ∈ w.trades) : ∃ s ∈ batch.orders, ∃ e, s.order.id P = t.orderId ∧
      b t.orderId = some e ∧ e.signed = s := by
  have hid := hA batch w hw _ (List.mem_map.mpr ⟨t, ht, rfl⟩)
  obtain ⟨s, hs, hid⟩ := List.mem_map.mp hid
  obtain ⟨e, he, hes⟩ := hst.mem s hs
  exact ⟨s, hs, e, hid, hid ▸ he, hes⟩

/-- **The marking goes on.** -/
theorem markedSoFar_step (hR : Implements P R Sound book) (hA : A.NamesBatch P) (hs : Sound n.store)
    (ht : Tracks P A (book n.store) n.phase) {a : Action} (h : Step P R A n a n')
    (hm : MarkedSoFar (book n.store) n.phase) : MarkedSoFar (book n'.store) n'.phase := by
  have hb := (step_book hR hs h).2
  have stay : ∀ phase, MarkedSoFar (book n.store) phase → MarkedSoFar (book n'.store) phase := by
    intro phase hm
    cases phase with
    | marking batch w todo =>
        exact fun t ht => (hm t ht).imp_right fun hg => hb ▸ effect_gone hg a n.phase
    | _ => trivial
  cases h with
  | tick h => exact stay _ hm
  | api h => rw [h.phase_eq]; exact stay _ hm
  | round h =>
      refine h.keeps (stay _ hm) {
        chosen := fun _ _ _ t htr => .inl htr
        marked := fun {now batch w t₀ todo} hact hp hm t htr => ?_ }
      rcases hm t htr with hin | hg
      · rcases List.mem_cons.mp hin with rfl | hin
        · -- the trade that has just been marked
          rw [hp] at ht
          obtain ⟨-, -, e, -, he, -⟩ := stored_of_traded hA ht.1 ht.2.1 htr
          refine .inr ⟨⟨e.signed, .auctioned, t.executedSell, t.executedBuy⟩, ?_, ?_⟩
          · rw [hb, hact, hp]
            exact (OrderBook.mark_self ..).trans (congrArg _ he)
          · exact fun h => by cases h
        · exact .inl hin
      · exact .inr hg

/-- **The order is done with**: it is no longer open, and not in the batch of the round. -/
def Done (P : Primitives) (book : σ → OrderBook) (n : Node σ) (id : OrderId) : Prop :=
  (book n.store).Gone id ∧ n.phase.Avoids P id

/-- **An order that is done with stays so.** -/
theorem done_step (hR : Implements P R Sound book) (hs : Sound n.store) {a : Action}
    (h : Step P R A n a n') {id : OrderId} (hd : Done P book n id) : Done P book n' id := by
  obtain ⟨hg, ha⟩ := hd
  refine ⟨(step_book hR hs h).2 ▸ effect_gone hg a n.phase, ?_⟩
  cases h with
  | tick h => exact ha
  | api h => rwa [h.phase_eq]
  | round h =>
      refine h.keeps ha {
        listed := fun {secs rs opened} hl hp r hr hid => ?_
        racing := fun {bid secs opened} ha hid => ?_
        answered := fun _ _ ha => ha
        chosen := fun _ _ ha => ha
        marked := fun _ _ ha => ha }
      · -- what is listed is open
        obtain ⟨e, he, ho, -⟩ := (listed_spec hR hs hl hp).2 r hr
        obtain ⟨e', he', hne⟩ := hg
        rw [hid] at he
        cases he.symm.trans he'
        exact hne ho
      · obtain ⟨s, hs, hid⟩ := List.mem_map.mp hid
        obtain ⟨r, hr, rfl⟩ := List.mem_map.mp hs
        exact ha r hr hid

/-- What is delivered is done with. -/
theorem done_of_delivers (hm : MarkedSoFar (book n.store) n.phase) {a : Action} {w : Solution}
    (hd : Delivers (n, a) w) (h : Step P R A n a n') {id : OrderId} (hid : id ∈ w.orderIds) :
    Done P book n' id := by
  obtain ⟨rfl, batch, hp⟩ := hd
  dsimp only at hp
  rw [hp] at hm
  obtain ⟨t, ht, rfl⟩ := List.mem_map.mp hid
  cases h with
  | round h =>
      cases h with
      | deliver => exact ⟨(hm t ht).resolve_left List.not_mem_nil, trivial⟩

/-- What is done with is not delivered. -/
theorem not_delivered_of_done (hA : A.NamesBatch P) (ht : Tracks P A (book n.store) n.phase)
    {id : OrderId} (hd : Done P book n id) {a : Action} {w : Solution} (hw : Delivers (n, a) w) :
    id ∉ w.orderIds := by
  obtain ⟨-, batch, hp⟩ := hw
  have ha := hd.2
  dsimp only at hp
  rw [hp] at ht ha
  exact fun hid => ha (hA batch w ht.2.1 id hid)

end

/-! ### Over a run -/

/-- **At most once**, in the run that leads to `n`: no order is delivered by two of its steps, none
that is no longer open opens again, none is cancelled twice, and none is both cancelled and counted
by a sweep. -/
structure AtMostOnce (R : OrderRepository InMemoryOrderRepository)
    (tr : List (Node InMemoryOrderRepository × Action)) (n : Node InMemoryOrderRepository) :
    Prop where
  delivered : tr.Pairwise fun p q => ∀ w w', Delivers p w → Delivers q w' →
    ∀ id ∈ w.orderIds, id ∉ w'.orderIds
  closed : (tr.Pairwise fun p q => ∀ id, p.1.store.book.Gone id → q.1.store.book.Gone id) ∧
    ∀ p ∈ tr, ∀ id, p.1.store.book.Gone id → n.store.book.Gone id
  cancelled : tr.Pairwise fun p q => ∀ id, Cancels R p id → ¬ Cancels R q id
  expired : ∀ p ∈ tr, ∀ q ∈ tr, ∀ id, Cancels R p id → ¬ Expires q id

namespace InMemoryOrderRepository

variable {P : Primitives} {iter : IterOrder OrderRecord} {A : Auctioneer}
  {n n' : Node InMemoryOrderRepository}

/-- A sweep leaves what it counts expired. -/
theorem expires_gone (hs : Filed P n.store) {a : Action} {id : OrderId} (he : Expires (n, a) id)
    (h : Step P (repository P iter) A n a n') : n'.store.book.Gone id := by
  obtain ⟨now, secs, r, rfl, hp, hr, hd⟩ := he
  rw [(step_book (implements P iter) hs h).2]
  dsimp only at hp
  rw [hp]
  refine ⟨{ r.entry with status := .expired }, ?_, show OrderStatus.expired ≠ .opened by decide⟩
  show ((book n.store) id).map _ = _
  rw [book_eq_some.mpr ⟨r, hr, rfl⟩, Option.map_some, if_pos (due_iff.mp hd)]

/-- A sweep counts open orders only. -/
theorem not_expires_of_gone {a : Action} {id : OrderId} (hg : n.store.book.Gone id) :
    ¬ Expires (n, a) id := by
  rintro ⟨now, secs, r, -, -, hr, hd⟩
  obtain ⟨e, he, hs⟩ := hg
  dsimp only at hr
  rw [book_eq_some.mpr ⟨r, hr, rfl⟩] at he
  cases he
  exact hs (due_iff.mp hd).1

/-- The order is no longer open, or the step is the cancellation or the sweep that closes it. -/
def Closes (R : OrderRepository InMemoryOrderRepository)
    (p : Node InMemoryOrderRepository × Action) (id : OrderId) : Prop :=
  p.1.store.book.Gone id ∨ Cancels R p id ∨ Expires p id

/-- A step leaves what it closes closed. -/
theorem gone_of_closes (hs : Filed P n.store) {a : Action} {id : OrderId}
    (hc : Closes (repository P iter) (n, a) id) (h : Step P (repository P iter) A n a n') :
    n'.store.book.Gone id := by
  have hR := implements P iter
  rcases hc with hg | hc | he
  · exact (step_book hR hs h).2 ▸ effect_gone hg a n.phase
  · exact (cancels_isCancelled hR hs hc h).gone
  · exact expires_gone hs he h

variable {st : InMemoryOrderRepository} {clock : Int64}
  {tr : List (Node InMemoryOrderRepository × Action)}

/-- **What is closed stays so**: no later step cancels it, and no later sweep counts it. -/
theorem closed_stays (hs : Filed P st)
    (h : (machine P (repository P iter) A).Run (.boot st clock) tr n) :
    (tr.Pairwise fun p q => ∀ id, Closes (repository P iter) p id → q.1.store.book.Gone id ∧
      ¬ Cancels (repository P iter) q id ∧ ¬ Expires q id) ∧
    ∀ p ∈ tr, ∀ id, Closes (repository P iter) p id → n.store.book.Gone id := by
  have hR := implements P iter
  exact h.pairwise (S := machine P (repository P iter) A) (C := fun _ _ => True)
    (I := fun n => Filed P n.store)
    (L := fun p n => ∀ id, Closes (repository P iter) p id → n.store.book.Gone id)
    (fun _ _ _ hi _ hstep => (step_book hR hi hstep).1)
    (fun _ _ _ hi _ hstep _ hc => gone_of_closes hi hc hstep)
    (fun _ _ _ _ hi _ hp hstep id hc => gone_of_closes hi (.inl (hp id hc)) hstep)
    (fun _ _ _ _ hi _ hp _ id hc => ⟨hp id hc, not_cancels_of_gone hR hi (hp id hc),
      not_expires_of_gone (hp id hc)⟩)
    (fun _ _ => trivial) hs

/-- **What is delivered is not delivered again.** -/
theorem delivered_once (hA : A.NamesBatch P) (hs : Filed P st)
    (h : (machine P (repository P iter) A).Run (.boot st clock) tr n) :
    tr.Pairwise fun p q => ∀ w w', Delivers p w → Delivers q w' →
      ∀ id ∈ w.orderIds, id ∉ w'.orderIds := by
  have hR := implements P iter
  have startT : Tracks P A (book st) (Node.boot st clock).phase := trivial
  have startM : MarkedSoFar (book st) (Node.boot st clock).phase := trivial
  exact (h.pairwise (S := machine P (repository P iter) A) (C := fun _ _ => True)
    (I := fun n => Filed P n.store ∧ Tracks P A (book n.store) n.phase ∧
      MarkedSoFar (book n.store) n.phase)
    (L := fun p n => ∀ w, Delivers p w → ∀ id ∈ w.orderIds, Done P book n id)
    (fun _ _ _ hi _ hstep => ⟨(step_book hR hi.1 hstep).1, tracks_step hR hi.1 hstep hi.2.1,
      markedSoFar_step hR hA hi.1 hi.2.1 hstep hi.2.2⟩)
    (fun _ _ _ hi _ hstep _ hd _ hid => done_of_delivers hi.2.2 hd hstep hid)
    (fun _ _ _ _ hi _ hp hstep w hd id hid => done_step hR hi.1 hstep (hp w hd id hid))
    (fun _ _ _ _ hi _ hp _ w _ hd hd' id hid =>
      not_delivered_of_done hA hi.2.1 (hp w hd id hid) hd')
    (fun _ _ => trivial) ⟨hs, startT, startM⟩).1

/-- **At most once.**  In every run of a node over the in-memory repository whose solvers trade
orders of their batch only. -/
theorem at_most_once (hA : A.NamesBatch P) {st : InMemoryOrderRepository} (hs : Filed P st)
    {clock : Int64} {tr : List (Node InMemoryOrderRepository × Action)}
    (h : (machine P (repository P iter) A).Run (.boot st clock) tr n) :
    AtMostOnce (repository P iter) tr n := by
  obtain ⟨hpair, hlast⟩ := closed_stays hs h
  refine ⟨delivered_once hA hs h, ⟨hpair.imp fun hq id hg => (hq id (.inl hg)).1,
    fun p hp id hg => hlast p hp id (.inl hg)⟩,
    hpair.imp fun hq id hc => (hq id (.inr (.inl hc))).2.1, ?_⟩
  -- of a cancellation and a sweep, whichever came first closed the order
  have hsym : Std.Symm fun p q : Node InMemoryOrderRepository × Action =>
      ∀ id, (Cancels (repository P iter) p id → ¬ Expires q id) ∧
        (Cancels (repository P iter) q id → ¬ Expires p id) :=
    ⟨fun p q h id => (h id).symm⟩
  have hboth := hpair.imp fun {p q} hq id => And.intro
    (fun hc : Cancels (repository P iter) p id => (hq id (.inr (.inl hc))).2.2)
    (fun hc he => (hq id (.inr (.inr he))).2.1 hc)
  intro p hp q hq id hc he
  by_cases e : p = q
  · subst e
    obtain ⟨now, owner, ha, -⟩ := hc
    obtain ⟨now', secs, r, ha', -⟩ := he
    rw [ha] at ha'
    cases ha'
  · exact ((hboth.forall hp hq e) id).1 hc he

end InMemoryOrderRepository

open Sample in
/-- alice and bob submit, and a round settles their orders. -/
theorem at_most_once_two : ∃ tr,
    (machine primitives memory auctioneer).Run (.boot .new 50) tr (.boot settled 50) ∧
    (∃ p ∈ tr, Delivers p solution) ∧ AtMostOnce memory tr (.boot settled 50) := by
  obtain ⟨tr, h, hd⟩ := settled_run
  have hA : auctioneer.IsReference primitives := fun s hs => ⟨.zero, List.mem_singleton.mp hs⟩
  exact ⟨tr, h, hd,
    InMemoryOrderRepository.at_most_once hA.namesBatch InMemoryOrderRepository.filed_new h⟩

end OxDex
