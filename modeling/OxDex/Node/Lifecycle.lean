import OxDex.Node.Crashes

/-!
# Node — Lifecycle

What may happen to an order, whatever crashes and whatever requests come in.

An order enters the book open.  Its owner may cancel it, and a sweep may find it expired; a round
marks it as auctioned, once, and only if the round has read it.  By then it may have been cancelled,
but it has not expired: a node has one auctioneer, which sweeps before it reads.  What is auctioned
or expired never changes again (`life_cycle`).

This asks of the solvers that the trades of a solution name orders of the batch, and none twice
(`Auctioneer.NamesOnce`).  The invariant is that what the round has read and not marked is open or
cancelled (`Ready`).

* `settled_ledger`: so the auctioned orders and their amounts are, one for one, the trades of the
  solutions that have been delivered and those that are marked of the next.
-/

namespace OxDex
open Support

/-- The trades of every solution that the solvers may answer to a batch of distinct orders name no
order twice. -/
def Auctioneer.NamesOnce (P : Primitives) (A : Auctioneer) : Prop :=
  ∀ batch sol, (batch.orderIds P).Nodup → A.Answers batch sol → sol.orderIds.Nodup

/-- The matching engine names no order twice. -/
theorem Auctioneer.IsReference.namesOnce {P : Primitives} {A : Auctioneer}
    (h : A.IsReference P) : A.NamesOnce P := by
  intro batch sol hn hs
  obtain ⟨env, address, rfl⟩ := h.eq_matchBatch hs
  exact orderIds_nodup P env ⟨true⟩ batch.id address hn

/-- The orders the round has read. -/
def Phase.orders : Phase → List SignedOrder
  | .listed _ opened => opened.map OrderRecord.signed
  | .racing batch _ _ | .marking batch _ _ => batch.orders
  | _ => []

/-- What the round has read and not marked is open, or has been cancelled since. -/
def Ready (P : Primitives) (b : OrderBook) (phase : Phase) : Prop :=
  ∀ s ∈ phase.orders, (∀ t ∈ phase.marked, t.orderId ≠ s.order.id P) →
    ∃ e, b (s.order.id P) = some e ∧ (e.status = .opened ∨ e.status = .cancelled)

/-- **How a step may change what is at an identifier.** -/
inductive Moves {σ : Type} (P : Primitives) (n : Node σ) (id : OrderId) :
    Event → Option Entry → Option Entry → Prop where
  /-- An order enters the book open. -/
  | submitted {now : Nat} {s : SignedOrder} (hid : s.order.id P = id) :
      Moves P n id (.act (.api (.insert now s))) none (some ⟨s, .opened, 0, 0⟩)
  /-- The owner cancels an open order. -/
  | cancelled {now : Nat} {e : Entry} (ho : e.status = .opened) :
      Moves P n id (.act (.api (.cancel now id e.signed.order.owner))) (some e)
        (some { e with status := .cancelled })
  /-- A sweep finds an open order expired. -/
  | expired {now : Nat} {secs : Int64} {e : Entry} (hp : n.phase = .started secs)
      (ho : e.status = .opened) (hd : e.signed.order.validTo ≤ secs) :
      Moves P n id (.act (.round (.sweep now))) (some e) (some { e with status := .expired })
  /-- A round marks an order of its batch, open or cancelled since. -/
  | auctioned {now : Nat} {batch : Batch} {w : Solution} {t : TradeExecution}
      {todo : List TradeExecution} {e : Entry} (hp : n.phase = .marking batch w (t :: todo))
      (hid : t.orderId = id) (hb : e.signed ∈ batch.orders)
      (hs : e.status = .opened ∨ e.status = .cancelled) :
      Moves P n id (.act (.round (.mark now))) (some e)
        (some ⟨e.signed, .auctioned, t.executedSell, t.executedBuy⟩)

/-! ### What a round marks -/

section
variable {P : Primitives} {b b' : OrderBook}

/-- An order that is marked next has not been marked. -/
theorem not_marked_next {batch : Batch} {w : Solution} {t : TradeExecution}
    {todo : List TradeExecution} (hn : w.orderIds.Nodup) (hsuf : t :: todo <:+ w.trades)
    {t' : TradeExecution} (ht' : t' ∈ (Phase.marking batch w (t :: todo)).marked) :
    t'.orderId ≠ t.orderId := by
  rw [Solution.orderIds, ← @Phase.marked_append batch _ _ hsuf, List.map_append] at hn
  intro hid
  exact List.disjoint_of_nodup_append hn (List.mem_map.mpr ⟨t', ht', rfl⟩)
    (List.mem_map.mpr ⟨t, List.mem_cons_self, hid.symm⟩)

/-- What a request does to an order that is open or cancelled. -/
theorem ready_api (a : ApiAction) {id : OrderId} {e : Entry} (he : b id = some e)
    (hs : e.status = .opened ∨ e.status = .cancelled) :
    ∃ e', a.effect P b id = some e' ∧ (e'.status = .opened ∨ e'.status = .cancelled) := by
  cases a with
  | insert now s => exact ⟨e, OrderBook.submit_of_some he s, hs⟩
  | cancel now id' owner =>
      simp only [ApiAction.effect]
      by_cases hid : id = id'
      · subst hid
        rw [OrderBook.cancel_self, he]
        refine ⟨_, rfl, ?_⟩
        dsimp only
        split
        · exact .inr rfl
        · exact hs
      · exact ⟨e, by rw [OrderBook.cancel_of_ne hid, he], hs⟩
  | validate s => exact ⟨e, he, hs⟩
  | verify s => exact ⟨e, he, hs⟩
  | read => exact ⟨e, he, hs⟩

/-- What a request changes. -/
theorem moves_api {σ : Type} {n : Node σ} (a : ApiAction) (b : OrderBook) (id : OrderId) :
    a.effect P b id = b id ∨ Moves P n id (.act (.api a)) (b id) (a.effect P b id) := by
  cases a with
  | insert now s =>
      simp only [ApiAction.effect, OrderBook.submit_apply]
      split
      · next h =>
          rw [h.2]
          exact .inr (.submitted h.1)
      · exact .inl rfl
  | cancel now id' owner =>
      simp only [ApiAction.effect]
      by_cases hid : id = id'
      · subst hid
        rw [OrderBook.cancel_self]
        cases hb : b id with
        | none => exact .inl rfl
        | some e =>
            rw [Option.map_some]
            split
            · next h =>
                obtain ⟨ho, rfl⟩ := h
                exact .inr (.cancelled ho)
            · exact .inl rfl
      · exact .inl (OrderBook.cancel_of_ne hid owner)
  | validate s => exact .inl rfl
  | verify s => exact .inl rfl
  | read => exact .inl rfl

end

section
variable {P : Primitives} {σ : Type} {R : OrderRepository σ} {A : Auctioneer} {Sound : σ → Prop}
  {book : σ → OrderBook} {finds : σ → σ → Prop} {n n' : Node σ}

/-- **Every step keeps the orders of the round ready.** -/
theorem ready_step (hR : Implements P R Sound book) (hs : Sound n.store)
    (ht : Tracks P A (book n.store) n.phase) {a : Action} (h : Step P R A n a n')
    (hr : Ready P (book n.store) n.phase) :
    Ready P (book n'.store) n'.phase := by
  have hb := (step_book hR hs h).2
  cases h with
  | tick h => exact hr
  | api h =>
      intro s hsmem hm
      rw [h.phase_eq] at hsmem hm
      obtain ⟨e, he, hst⟩ := hr s hsmem hm
      rw [hb]
      exact ready_api _ he hst
  | round h =>
      cases h with
      | sweep now hp =>
          dsimp only
          cases (R.expireDue _ _ n.store).1 <;> exact fun s hs => absurd hs List.not_mem_nil
      | list hp hl hperm =>
          intro s hsmem _
          obtain ⟨r, hrmem, rfl⟩ := List.mem_map.mp hsmem
          obtain ⟨e, he, ho, -⟩ := (listed_spec hR hs hl hperm).2 r hrmem
          exact ⟨e, he, .inl ho⟩
      | sealBatch id hp =>
          rw [hp] at hr
          dsimp only [Phase.afterList]
          split
          · exact fun s hs => absurd hs List.not_mem_nil
          · exact hr
      | answer hp hk h =>
          rw [hp] at hr
          exact hr
      | @choose batch best hp =>
          rw [hp] at hr
          cases best with
          | none => exact fun s hs => absurd hs List.not_mem_nil
          | some w => exact fun s hsmem _ => hr s hsmem fun t ht => absurd ht List.not_mem_nil
      | @mark batch w t todo now hp =>
          rw [hp] at hr ht hb
          intro s hsmem hm
          rw [Phase.marked_next ht.2.2] at hm
          obtain ⟨e, he, hst⟩ := hr s hsmem fun t' ht' => hm t' (List.mem_append_left _ ht')
          -- an order that is still to be marked is not that of the trade
          have hne := (hm t (List.mem_append_right _ List.mem_cons_self)).symm
          exact ⟨e, by rw [hb]; exact (OrderBook.mark_of_ne hne ..).trans he, hst⟩
      | start hp h => exact fun s hs => absurd hs List.not_mem_nil
      | listError hp hl => exact fun s hs => absurd hs List.not_mem_nil
      | deliver hp => exact fun s hs => absurd hs List.not_mem_nil

/-- **What a step changes**: an order moves on in its life, or nothing happens to it. -/
theorem moves_step (hR : Implements P R Sound book) (hA : A.NamesBatch P) (hO : A.NamesOnce P)
    (hs : Sound n.store) (ht : Tracks P A (book n.store) n.phase)
    (hr : Ready P (book n.store) n.phase) {a : Action} (h : Step P R A n a n') (id : OrderId) :
    book n'.store id = book n.store id ∨
      Moves P n id (.act a) (book n.store id) (book n'.store id) := by
  rw [(step_book hR hs h).2]
  cases h with
  | tick h => exact .inl rfl
  | api h => exact moves_api _ _ _
  | round h =>
      cases h with
      | @sweep secs now hp =>
          rw [hp]
          show OrderBook.sweep _ _ _ = _ ∨ Moves P n id _ _ (OrderBook.sweep _ _ _)
          cases hb : book n.store id with
          | none => exact .inl (by rw [OrderBook.sweep, hb]; rfl)
          | some e =>
              rw [OrderBook.sweep, hb, Option.map_some]
              split
              · next hd => exact .inr (.expired hp hd.1 hd.2)
              · exact .inl rfl
      | @mark batch w t todo now hp =>
          rw [hp] at ht hr
          rw [hp]
          show OrderBook.mark _ _ _ _ _ _ = _ ∨ Moves P n id _ _ (OrderBook.mark _ _ _ _ _ _)
          by_cases hid : id = t.orderId
          · subst hid
            obtain ⟨s, hsmem, e, hsid, he, hes⟩ :=
              stored_of_traded hA ht.1 ht.2.1 (ht.2.2.subset List.mem_cons_self)
            obtain ⟨e', he', hst⟩ := hr s hsmem fun t' ht' => by
              rw [hsid]
              exact not_marked_next (hO batch w ht.1.nodup ht.2.1) ht.2.2 ht'
            rw [hsid, he] at he'
            cases he'
            rw [OrderBook.mark_self, he]
            exact .inr (.auctioned hp rfl (hes ▸ hsmem) hst)
          · exact .inl (OrderBook.mark_of_ne hid ..)
      | start hp h => exact .inl rfl
      | list hp hl h => exact .inl rfl
      | listError hp hl => exact .inl rfl
      | sealBatch id' hp => exact .inl rfl
      | answer hp hk h => exact .inl rfl
      | choose hp => exact .inl rfl
      | deliver hp => exact .inl rfl

/-- An entry that has come to its end. -/
def Entry.Final (e : Entry) : Prop := e.status = .auctioned ∨ e.status = .expired

/-- **What is final does not move.** -/
theorem Entry.Final.not_moves {e : Entry} (h : e.Final) {id : OrderId} {ev : Event}
    {o : Option Entry} : ¬ Moves P n id ev (some e) o := by
  intro hm
  rcases h with h | h <;> cases hm <;> simp_all

/-- **The life of every order**, in the run that leads to `n`: in each step that may come next an
order moves on as it may, or stays; and what was final in an earlier state has not changed. -/
structure LifeCycle (P : Primitives) (R : OrderRepository σ) (A : Auctioneer)
    (finds : σ → σ → Prop) (book : σ → OrderBook) (tr : List (Node σ × Event)) (n : Node σ) :
    Prop where
  moves : ∀ ev n', CrashStep P R A finds n ev n' → ∀ id, book n'.store id = book n.store id ∨
    Moves P n id ev (book n.store id) (book n'.store id)
  final : ∀ p ∈ tr, ∀ id e, book p.1.store id = some e → e.Final → book n.store id = some e

/-- **The life cycle of an order**, whatever comes in and whatever crashes, if the store survives
it. -/
theorem life_cycle (hR : Implements P R Sound book) (hv : Survives finds Sound book)
    (hA : A.NamesBatch P) (hO : A.NamesOnce P) {st : σ} (hs : Sound st) {clock : Int64}
    {tr : List (Node σ × Event)} (h : (crashing P R A finds).Run (.boot st clock) tr n) :
    LifeCycle P R A finds book tr n := by
  let I : Node σ → Prop := fun n =>
    Sound n.store ∧ Tracks P A (book n.store) n.phase ∧ Ready P (book n.store) n.phase
  have hI : ∀ n ev n', I n → CrashStep P R A finds n ev n' → I n' := by
    rintro n ev n' ⟨hs, ht, hr⟩ hstep
    cases hstep with
    | act hstep =>
        exact ⟨(step_book hR hs hstep).1, tracks_step hR hs hstep ht, ready_step hR hs ht hstep hr⟩
    | crash clock hf => exact ⟨(hv _ _ hf hs).1, trivial, fun s hs => absurd hs List.not_mem_nil⟩
  have hmoves : ∀ n ev n', I n → CrashStep P R A finds n ev n' → ∀ id,
      book n'.store id = book n.store id ∨
        Moves P n id ev (book n.store id) (book n'.store id) := by
    rintro n ev n' ⟨hs, ht, hr⟩ hstep id
    cases hstep with
    | act hstep => exact moves_step hR hA hO hs ht hr hstep id
    | crash clock hf => exact .inl (congrFun (hv _ _ hf hs).2 id)
  have hfinal : ∀ n ev n', I n → CrashStep P R A finds n ev n' → ∀ id e,
      book n.store id = some e → e.Final → book n'.store id = some e := by
    intro n ev n' hi hstep id e he hf
    rcases hmoves n ev n' hi hstep id with hsame | hm
    · exact hsame.trans he
    · rw [he] at hm
      exact absurd hm hf.not_moves
  have start : I (.boot st clock) := ⟨hs, trivial, fun s hs => absurd hs List.not_mem_nil⟩
  have hend : I n := h.inv (S := crashing P R A finds) hI start
  refine ⟨fun ev n' hstep id => hmoves n ev n' hend hstep id, ?_⟩
  exact (h.pairwise (S := crashing P R A finds) (I := I) (C := fun _ _ => True)
    (Q := fun _ _ => True)
    (L := fun p n => ∀ id e, book p.1.store id = some e → e.Final → book n.store id = some e)
    (fun n ev n' hi _ hstep => hI n ev n' hi hstep)
    (fun n ev n' hi _ hstep => hfinal n ev n' hi hstep)
    (fun p n ev n' hi _ hp hstep id e he hf =>
      hfinal n ev n' hi hstep id e (hp id e he hf) hf)
    (fun _ _ _ _ _ _ _ _ => trivial) (fun _ _ => trivial) start).2

/-! ### The ledger -/

/-- The auctioned orders and their amounts are, one for one, these trades. -/
structure OrderBook.RecordsAll (b : OrderBook) (ts : List TradeExecution) : Prop where
  once : (ts.map TradeExecution.orderId).Nodup
  records : ∀ t, b.Records t ↔ t ∈ ts

/-- The winner of the round. -/
def Phase.winner : Phase → Option Solution
  | .marking _ w _ => some w
  | _ => none

/-- The solution a step delivers. -/
def delivery (p : Node σ × Action) : Option Solution :=
  match p.2 with
  | .round .deliver => p.1.phase.winner
  | _ => none

/-- The solutions a run delivers, in order. -/
def deliveries (tr : List (Node σ × Action)) : List Solution := tr.filterMap delivery

/-- The last trade of an order, where each order has one. -/
theorem lastOf_iff_mem {ts : List TradeExecution} (h : (ts.map TradeExecution.orderId).Nodup)
    {t : TradeExecution} : lastOf t.orderId ts = some t ↔ t ∈ ts := by
  refine ⟨fun hl => (lastOf_eq_some hl).1, fun ht => ?_⟩
  obtain ⟨t', ht'⟩ := exists_lastOf ht
  obtain ⟨hmem, hid⟩ := lastOf_eq_some ht'
  rw [ht', List.inj_on_of_nodup_map h hmem ht hid]

/-- What is marked of a winner names no order twice. -/
theorem marked_nodup (hO : A.NamesOnce P) {b : OrderBook} {phase : Phase}
    (ht : Tracks P A b phase) : (phase.marked.map TradeExecution.orderId).Nodup := by
  cases phase with
  | marking batch w todo =>
      have hw : w.orderIds.Nodup := hO batch w ht.1.nodup ht.2.1
      exact hw.sublist ((List.take_sublist _ _).map _)
  | _ => exact .nil

/-- **The ledger of a run with crashes.** -/
theorem crash_ledger (hR : Implements P R Sound book) (hv : Survives finds Sound book)
    (hA : A.NamesBatch P) (hO : A.NamesOnce P) {st : σ} (hs : Sound st)
    (hnew : ∀ t, ¬ (book st).Records t) {clock : Int64} {tr : List (Node σ × Event)}
    (h : (crashing P R A finds).Run (.boot st clock) tr n) :
    (book n.store).RecordsAll (rounds tr ++ [n.phase.marked]).flatten := by
  obtain ⟨-, ht, hl⟩ := ledgered_run hR hv hA hs hnew h
  have hrounds : ∀ ts ∈ rounds tr, (ts.map TradeExecution.orderId).Nodup := by
    refine (h.inv_history (S := crashing P R A finds) (I := fun tr n => (Sound n.store ∧
      Tracks P A (book n.store) n.phase) ∧ ∀ ts ∈ rounds tr,
        (ts.map TradeExecution.orderId).Nodup) ?_ ⟨⟨hs, trivial⟩, fun ts hts => by cases hts⟩).2
    rintro tr n ev n' ⟨⟨hs, ht⟩, hn⟩ hstep
    refine ⟨?_, fun ts hts => ?_⟩
    · cases hstep with
      | act hstep => exact ⟨(step_book hR hs hstep).1, tracks_step hR hs hstep ht⟩
      | crash clock hf => exact ⟨(hv _ _ hf hs).1, trivial⟩
    · rw [rounds_concat] at hts
      rcases List.mem_append.mp hts with hts | hts
      · exact hn ts hts
      · split at hts
        · rw [List.mem_singleton.mp hts]
          exact marked_nodup hO ht
        · cases hts
  have hall : ∀ ts ∈ rounds tr ++ [n.phase.marked], (ts.map TradeExecution.orderId).Nodup := by
    intro ts hts
    rcases List.mem_append.mp hts with hts | hts
    · exact hrounds ts hts
    · rw [List.mem_singleton.mp hts]
      exact marked_nodup hO ht
  have hapart : (rounds tr ++ [n.phase.marked]).Pairwise Apart := by
    rw [List.pairwise_append]
    refine ⟨hl.apart, List.pairwise_singleton _ _, fun ts hts ts' hts' => ?_⟩
    rw [List.mem_singleton.mp hts']
    exact hl.apart_marked hA ht ts hts
  refine ⟨?_, fun t => ?_⟩
  · rw [List.map_flatten, List.nodup_flatten]
    refine ⟨fun ids hids => ?_, ?_⟩
    · obtain ⟨ts, hts, rfl⟩ := List.mem_map.mp hids
      exact hall ts hts
    · rw [List.pairwise_map]
      refine hapart.imp fun hap id hid hid' => ?_
      obtain ⟨t, ht, rfl⟩ := List.mem_map.mp hid
      obtain ⟨t', ht', hid'⟩ := List.mem_map.mp hid'
      exact hap t ht t' ht' hid'.symm
  · rw [hl.records, List.mem_flatten]
    exact exists_congr fun ts => and_congr_right fun hts => lastOf_iff_mem (hall ts hts)

/-- Without crashes, the rounds that have ended are the deliveries. -/
theorem rounds_eq_deliveries {n₀ : Node σ} {tr : List (Node σ × Action)}
    (h : (machine P R A).Run n₀ tr n) :
    rounds (tr.map fun p => (p.1, Event.act p.2)) = (deliveries tr).map Solution.trades := by
  induction h with
  | refl => rfl
  | @more n n₁ n' a tr h _ ih =>
      have hcons : rounds ((n, Event.act a) :: tr.map fun p => (p.1, Event.act p.2)) =
          (if (Event.act a).ends then [n.phase.marked] else []) ++
            rounds (tr.map fun p => (p.1, Event.act p.2)) := by
        rw [rounds, List.filter_cons]
        split <;> rfl
      have hstep : (if (Event.act a).ends then [n.phase.marked] else []) =
          (delivery (n, a)).toList.map Solution.trades := by
        cases h with
        | round h =>
            cases h with
            | deliver hp =>
                simp only [delivery, hp]
                exact congrArg ([·]) (Phase.marked_all _ _)
            | _ => rfl
        | tick h => rfl
        | api h => rfl
      rw [List.map_cons, hcons, ih, hstep, ← List.map_append]
      congr 1
      rw [deliveries, deliveries, List.filterMap_cons]
      cases delivery (n, a) <;> rfl

/-- The ledger of a run without crashes. -/
theorem machine_ledger (hR : Implements P R Sound book) (hA : A.NamesBatch P)
    (hO : A.NamesOnce P) {st : σ} (hs : Sound st) (hnew : ∀ t, ¬ (book st).Records t)
    {clock : Int64} {tr : List (Node σ × Action)} (h : (machine P R A).Run (.boot st clock) tr n) :
    (book n.store).RecordsAll
      ((deliveries tr).map Solution.trades ++ [n.phase.marked]).flatten := by
  -- it is one of a node that never goes down
  have hv : Survives (fun _ _ => False) Sound book := fun _ _ hf => hf.elim
  rw [← rounds_eq_deliveries h]
  exact crash_ledger hR hv hA hO hs hnew
    (h.relabel (T := crashing P R A fun _ _ => False) fun _ _ _ hstep => .act hstep)

end

section
open Sample

theorem memoryNew_records (t : TradeExecution) :
    ¬ (InMemoryOrderRepository.new.book).Records t := by
  rintro ⟨e, he, -⟩
  cases he

theorem auctioneer_reference : auctioneer.IsReference primitives :=
  fun _ hs => ⟨.zero, List.mem_singleton.mp hs⟩

/-- After a crash in the middle of a round. -/
theorem life_cycle_alice : ∃ tr n,
    (crashing primitives postgres auctioneer PgOrderRepository.finds).Run (.boot .new 50) tr n ∧
    (∃ p ∈ tr, Strands p aliceTrade) ∧ LifeCycle primitives postgres auctioneer
      PgOrderRepository.finds (PgOrderRepository.book .plain) tr n := by
  obtain ⟨tr, n, h, hs⟩ := crash_run
  exact ⟨tr, n, h, hs, life_cycle postgres_implements (PgOrderRepository.survives _ _)
    auctioneer_reference.namesBatch auctioneer_reference.namesOnce
    (PgOrderRepository.sound_new _ _) h⟩

end

end OxDex
