import OxDex.Node.Crashes
import OxDex.Node.StoreInvariant
import OxDex.Matching.Limits

/-!
# Node — Custody

What the owner of an order can hold a delivered trade against, whatever requests come in, and
whatever crashes there have been.

The trade is that of an order which a request brought in before: it passed the checks when it came
in, its signature is its owner's, and it was inserted as it is (`Admitted`).  The trade takes no
more than the order offers, pays its limit, and is the first of the order that any round has marked
(`Owed`).

* `every_trade_is_owed`: so it is with every trade of every delivered solution.

Nothing but `insert` brings an order into the book (`effect_origin`), and every step adds to what is
known of the orders in it (`custody_step`).
-/

namespace OxDex
open Support

section
variable {σ : Type}

/-- The step takes the order from a request, and finds nothing wrong with it at the time. -/
def Receives (p : Node σ × Event) (s : SignedOrder) : Prop :=
  p.2 = .act (.api (.validate s)) ∧ s.order.validate p.1.clock = .ok ()

/-- The step inserts the order. -/
def Inserts (p : Node σ × Event) (s : SignedOrder) : Prop :=
  ∃ now, p.2 = .act (.api (.insert now s))

/-- **The order has come in as orders do**, over the steps of the run. -/
structure Admitted (P : Primitives) (tr : List (Node σ × Event)) (s : SignedOrder) : Prop where
  path : ∃ p q, [p, q].Sublist tr ∧ Receives p s ∧ Inserts q s
  verified : s.verify P = .ok ()

/-- **The trade is one its owner has to accept**, after the steps of the run. -/
structure Owed (P : Primitives) (tr : List (Node σ × Event)) (s : SignedOrder)
    (t : TradeExecution) : Prop where
  order : s.order.id P = t.orderId
  admitted : Admitted P tr s
  within : t.executedSell.toNat ≤ s.order.sellAmount.toNat
  whole : s.order.partialFill = false → t.executedSell = s.order.sellAmount
  limit : t.executedSell ≠ 1 →
    t.executedSell.toNat * s.order.buyAmount.toNat / s.order.sellAmount.toNat ≤ t.executedBuy.toNat
  first : ∀ ts ∈ rounds tr, ∀ t' ∈ ts, t'.orderId ≠ t.orderId

/-- **What is known of the orders**: those under way have been received, those in the book
admitted. -/
structure Custody (P : Primitives) (book : σ → OrderBook) (tr : List (Node σ × Event))
    (n : Node σ) : Prop where
  pending : ∀ p ∈ n.pending, (∃ q ∈ tr, Receives q p.signed) ∧
    (p.verified = true → p.signed.verify P = .ok ())
  book : ∀ id e, book n.store id = some e → Admitted P tr e.signed

end

section
variable {P : Primitives} {b : OrderBook}

/-- **Only `insert` brings an order into the book.** -/
theorem effect_origin {a : Action} {phase : Phase} {id : OrderId} {e : Entry}
    (he : a.effect P phase b id = some e) :
    (∃ e', b id = some e' ∧ e'.signed = e.signed) ∨ ∃ now, a = .api (.insert now e.signed) := by
  cases a with
  | tick clock => exact .inl ⟨e, he, rfl⟩
  | api a =>
      cases a with
      | insert now s =>
          simp only [Action.effect, ApiAction.effect, OrderBook.submit_apply] at he
          split at he
          · cases he
            exact .inr ⟨now, rfl⟩
          · exact .inl ⟨e, he, rfl⟩
      | cancel now id' owner =>
          simp only [Action.effect, ApiAction.effect] at he
          by_cases hid : id = id'
          · subst hid
            rw [OrderBook.cancel_self] at he
            obtain ⟨e', he', rfl⟩ := Option.map_eq_some_iff.mp he
            exact .inl ⟨e', he', by split <;> rfl⟩
          · rw [OrderBook.cancel_of_ne hid] at he
            exact .inl ⟨e, he, rfl⟩
      | validate s => exact .inl ⟨e, he, rfl⟩
      | verify s => exact .inl ⟨e, he, rfl⟩
      | read => exact .inl ⟨e, he, rfl⟩
  | round a =>
      refine .inl ?_
      simp only [Action.effect] at he
      unfold RoundAction.effect at he
      split at he
      · obtain ⟨e', he', rfl⟩ := Option.map_eq_some_iff.mp he
        exact ⟨e', he', by split <;> rfl⟩
      · next t _ =>
          by_cases hid : id = t.orderId
          · subst hid
            rw [OrderBook.mark_self] at he
            obtain ⟨e', he', rfl⟩ := Option.map_eq_some_iff.mp he
            exact ⟨e', he', rfl⟩
          · rw [OrderBook.mark_of_ne hid] at he
            exact ⟨e, he, rfl⟩
      · exact ⟨e, he, rfl⟩

end

section
variable {P : Primitives} {σ : Type} {R : OrderRepository σ} {A : Auctioneer} {Sound : σ → Prop}
  {book : σ → OrderBook} {finds : σ → σ → Prop} {n n' : Node σ} {tr : List (Node σ × Event)}

/-- More steps take nothing back. -/
theorem Admitted.later {s : SignedOrder} (h : Admitted P tr s) (p : Node σ × Event) :
    Admitted P (tr ++ [p]) s := by
  obtain ⟨⟨q, q', hsub, hq, hq'⟩, hv⟩ := h
  exact ⟨⟨q, q', hsub.trans (List.sublist_append_left _ _), hq, hq'⟩, hv⟩

theorem Custody.later (hc : Custody P book tr n) (q : Node σ × Event) :
    ∀ p ∈ n.pending, (∃ q' ∈ tr ++ [q], Receives q' p.signed) ∧
      (p.verified = true → p.signed.verify P = .ok ()) := by
  intro p hp
  obtain ⟨⟨q', hq', hrec⟩, hv⟩ := hc.pending p hp
  exact ⟨⟨q', List.mem_append_left _ hq', hrec⟩, hv⟩

/-- A request that is under way after a step was so before, or is one the step has passed. -/
theorem custody_pending {a : ApiAction} (h : ApiStep P R n a n') (hc : Custody P book tr n) :
    ∀ p ∈ n'.pending, (∃ q ∈ tr ++ [(n, .act (.api a))], Receives q p.signed) ∧
      (p.verified = true → p.signed.verify P = .ok ()) := by
  have old := hc.later (n, .act (.api a))
  cases h with
  | validate s =>
      dsimp only
      split
      · next hv =>
          refine List.forall_mem_cons.mpr ⟨⟨⟨_, List.mem_concat_self, rfl, hv⟩, ?_⟩, old⟩
          exact fun h => by cases h
      · exact old
  | @verify s hp =>
      have rest : ∀ p ∈ n.pending.erase ⟨s, false⟩, _ :=
        fun p hp => old p (List.mem_of_mem_erase hp)
      dsimp only
      split
      · next hv => exact List.forall_mem_cons.mpr ⟨⟨(old _ hp).1, fun _ => hv⟩, rest⟩
      · exact rest
  | insert now hp => exact fun p hp => old p (List.mem_of_mem_erase hp)
  | cancel now id owner => exact old
  | read => exact old

/-- **Every step adds to what is known.** -/
theorem custody_step (hR : Implements P R Sound book) (hv : Survives finds Sound book)
    (hs : Sound n.store) {ev : Event} (h : CrashStep P R A finds n ev n')
    (hc : Custody P book tr n) : Custody P book (tr ++ [(n, ev)]) n' := by
  cases h with
  | crash clock hf =>
      refine ⟨fun p hp => absurd hp List.not_mem_nil, fun id e he => (hc.book id e ?_).later _⟩
      rw [← (hv _ _ hf hs).2]
      exact he
  | @act _ a h =>
      refine ⟨?_, fun id e he => ?_⟩
      · cases h with
        | tick h => exact hc.later _
        | api h => exact custody_pending h hc
        | round h => rw [h.pending_eq]; exact hc.later _
      · rw [(step_book hR hs h).2] at he
        rcases effect_origin he with ⟨e', he', hsig⟩ | ⟨now, rfl⟩
        · exact hsig ▸ (hc.book id e' he').later _
        · -- the order that is inserted was received before, and verified
          cases h with
          | api h => cases h with
            | insert _ hp =>
                obtain ⟨⟨q, hq, hrec⟩, hv⟩ := hc.pending _ hp
                exact ⟨⟨q, _, (List.singleton_sublist.mpr hq).append (.refl _), hrec, now, rfl⟩,
                  hv rfl⟩

/-- **Custody over a run** from an empty book. -/
theorem custody_run (hR : Implements P R Sound book) (hv : Survives finds Sound book) {st : σ}
    (hs : Sound st) (hnew : ∀ id, book st id = none) {clock : Int64}
    (h : (crashing P R A finds).Run (.boot st clock) tr n) :
    Sound n.store ∧ Custody P book tr n := by
  refine h.inv_history (S := crashing P R A finds)
    (I := fun tr n => Sound n.store ∧ Custody P book tr n) ?_
    ⟨hs, fun p hp => absurd hp List.not_mem_nil, fun id e he => ?_⟩
  · rintro tr n ev n' ⟨hs, hc⟩ hstep
    refine ⟨?_, custody_step hR hv hs hstep hc⟩
    cases hstep with
    | act hstep => exact (step_book hR hs hstep).1
    | crash clock hf => exact (hv _ _ hf hs).1
  · rw [show book (Node.boot st clock).store id = none from hnew id] at he
    cases he

/-- **Every trade is owed.**  With reference solvers, every trade of every solution that a run
delivers, from a store with nothing in its book that survives the crashes, is one that the owner of
its order has to accept. -/
theorem every_trade_is_owed (hR : Implements P R Sound book) (hv : Survives finds Sound book)
    (hA : A.IsReference P) {st : σ} (hs : Sound st) (hnew : ∀ id, book st id = none) {clock : Int64}
    {p : Node σ × Event} {tr₁ tr₂ : List (Node σ × Event)}
    (h : (crashing P R A finds).Run (.boot st clock) (tr₁ ++ p :: tr₂) n) {w : Solution}
    (hw : Delivered p w) {t : TradeExecution} (ht : t ∈ w.trades) : ∃ s, Owed P tr₁ s t := by
  have hrun := h.split
  have hrec : ∀ t, ¬ (book st).Records t := by
    rintro t ⟨e, he, -⟩
    rw [hnew] at he
    cases he
  obtain ⟨-, htr, hl⟩ := ledgered_run hR hv hA.namesBatch hs hrec hrun
  obtain ⟨-, hc⟩ := custody_run hR hv hs hnew hrun
  have hfirst := hl.apart_marked hA.namesBatch htr
  rw [hw.ends.2] at hfirst
  obtain ⟨a, -, -, batch, hp⟩ := hw
  rw [show p.1.phase = _ from hp] at htr
  obtain ⟨hst, hans, -⟩ := htr
  -- what the round has read has been admitted
  have hadm : ∀ s ∈ batch.orders, Admitted P tr₁ s := by
    intro s hs
    obtain ⟨e, he, rfl⟩ := hst.mem s hs
    exact hc.book _ e he
  have hval : Validated batch.orders := fun s hs => by
    obtain ⟨⟨q, -, -, hq, -⟩, -⟩ := hadm s hs
    exact ⟨_, hq.2⟩
  obtain ⟨env, address, rfl⟩ := hA.eq_matchBatch hans
  obtain ⟨s, hs, hid, hle, hall⟩ := mem_trades_order P env ⟨true⟩ batch.id address ht
  obtain ⟨s', hs', hid', hlim⟩ := mem_trades_limit P env ⟨true⟩ batch.id address hval ht
  -- both are what the book has at the identifier of the trade
  obtain rfl : s' = s := by
    obtain ⟨e, he, hes⟩ := hst.mem s hs
    obtain ⟨e', he', hes'⟩ := hst.mem s' hs'
    rw [hid] at he
    rw [hid', he] at he'
    cases he'
    exact hes'.symm.trans hes
  exact ⟨s', hid, hadm s' hs', hle, hall, hlim, fun ts hts t' ht' => hfirst ts hts t' ht' t ht⟩

end

section
open Sample

/-- alice's order was admitted before a crash, and its trade after it is owed to her. -/
theorem every_trade_is_owed_alice : ∃ tr₁ p n s,
    (crashing primitives postgres auctioneer PgOrderRepository.finds).Run (.boot .new 50)
      (tr₁ ++ p :: []) n ∧ (∃ q ∈ tr₁, q.2 = .crash 50) ∧ Delivered p solution ∧
      Owed primitives tr₁ s aliceTrade := by
  obtain ⟨tr₀, h₀⟩ := pgOpen_run
  obtain ⟨st, tr, h⟩ := marked_run
  have act : ∀ n a n', (machine primitives postgres auctioneer).step n a n' →
      (crashing primitives postgres auctioneer PgOrderRepository.finds).step n (.act a) n' :=
    fun _ _ _ h => .act h
  have hcrash := (h₀.relabel act).snoc (.crash (n := .boot pgOpen 50) 50 rfl)
  have hmarked := h.snoc (.round (.mark 4 rfl))
  let n : Node (PgOrderRepository SignedOrder) :=
    ⟨markOne postgres 4 bobTrade st, 50, [], .marking batchOfTwo solution []⟩
  have hall := (hcrash.append (hmarked.relabel act)).snoc (.act (.round (.deliver (n := n) rfl)))
  have hw : Delivered (n, Event.act (.round .deliver)) solution :=
    ⟨.round .deliver, rfl, rfl, batchOfTwo, rfl⟩
  have ht : aliceTrade ∈ solution.trades := by
    rw [solution_trades]
    exact List.mem_cons_self
  obtain ⟨s, hs⟩ := every_trade_is_owed postgres_implements (PgOrderRepository.survives _ _)
    (fun s hs => ⟨.zero, List.mem_singleton.mp hs⟩) (PgOrderRepository.sound_new _ _)
    (fun _ => rfl) hall hw ht
  exact ⟨_, _, _, s, hall, ⟨(.boot pgOpen 50, .crash 50), by simp, rfl⟩, hw, hs⟩

end

end OxDex
