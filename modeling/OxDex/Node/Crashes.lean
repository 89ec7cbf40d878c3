import OxDex.Node.AtMostOnce
import OxDex.Storage.Interchange

/-!
# Node — Crashes

A node that may crash at any step and starts again on the store that it finds.

What is lost is what the process holds: the requests under way and the round.  The table of Postgres
is there again, while the map in memory is gone and the process starts on an empty one (`main.rs`),
as if nothing had been before (`InMemoryOrderRepository.last_life`).  What follows is about stores
that survive (`Survives`).

A crash in the middle of the marking leaves orders auctioned that are never delivered.  `rounds` are
the marked trades of the rounds that a run has ended, by a delivery or by a crash, and
`Phase.marked` those of the round under way.

* `auctioned_iff_marked`: the auctioned orders of the store are exactly the last trades of these,
  with their amounts.
* `delivered_once_across_crashes`: no order is in two of these.  So nothing is delivered twice
  across crashes, and what a crash has left marked is never delivered.
-/

namespace OxDex
open Support

/-- What happens to a node: a step, or a crash, after which it starts again at some time. -/
inductive Event where
  | act (a : Action)
  | crash (clock : Int64)

section
variable (P : Primitives) {σ : Type} (R : OrderRepository σ) (A : Auctioneer)
  (finds : σ → σ → Prop)

/-- A step of a node that may crash.  `finds st st'` says that a process that starts again may find
the store `st'` where the one before it has left `st`. -/
inductive CrashStep : Node σ → Event → Node σ → Prop where
  | act {n n' : Node σ} {a : Action} (h : Step P R A n a n') : CrashStep n (.act a) n'
  | crash {n : Node σ} {st : σ} (clock : Int64) (h : finds n.store st) :
      CrashStep n (.crash clock) (.boot st clock)

/-- The node that may crash, as a transition system. -/
def crashing : System (Node σ) Event := ⟨CrashStep P R A finds⟩

/-- The store survives crashes: the process that starts again finds the book that was left. -/
def Survives (Sound : σ → Prop) (book : σ → OrderBook) : Prop :=
  ∀ st st', finds st st' → Sound st → Sound st' ∧ book st' = book st

end

/-- The map is gone, and the process starts on an empty one. -/
def InMemoryOrderRepository.finds (_ st' : InMemoryOrderRepository) : Prop := st' = .new

/-- The table is there again. -/
def PgOrderRepository.finds {J : Type} (st st' : PgOrderRepository J) : Prop := st' = st

theorem PgOrderRepository.survives {J : Type} (P : Primitives) (codec : JsonCodec J) :
    Survives finds (Sound P codec) (book codec) := by
  rintro st _ rfl hs
  exact ⟨hs, rfl⟩

/-- The trades of the winner that have been marked. -/
def Phase.marked : Phase → List TradeExecution
  | .marking _ w todo => w.trades.take (w.trades.length - todo.length)
  | _ => []

/-- The event ends the round. -/
def Event.ends : Event → Bool
  | .act (.round .deliver) | .crash _ => true
  | _ => false

/-- The marked trades of the rounds that have ended. -/
def rounds {σ : Type} (tr : List (Node σ × Event)) : List (List TradeExecution) :=
  (tr.filter fun p => p.2.ends).map fun p => p.1.phase.marked

/-- The last of the trades that is one of `id`. -/
def lastOf (id : OrderId) (ts : List TradeExecution) : Option TradeExecution :=
  ts.reverse.find? fun t => t.orderId = id

/-- The order of the trade is auctioned, with the amounts of the trade. -/
def OrderBook.Records (b : OrderBook) (t : TradeExecution) : Prop :=
  ∃ e, b t.orderId = some e ∧ e.status = .auctioned ∧ e.filledSell = t.executedSell ∧
    e.filledBuy = t.executedBuy

/-! ### Lists of trades -/

@[simp] theorem lastOf_nil (id : OrderId) : lastOf id [] = none := rfl

theorem lastOf_concat (id : OrderId) (ts : List TradeExecution) (t : TradeExecution) :
    lastOf id (ts ++ [t]) = if t.orderId = id then some t else lastOf id ts := by
  rw [lastOf, List.reverse_append, List.reverse_singleton, List.singleton_append, List.find?_cons]
  by_cases h : t.orderId = id
  · simp [h]
  · simp [h, lastOf]

theorem lastOf_eq_some {id : OrderId} {ts : List TradeExecution} {t : TradeExecution}
    (h : lastOf id ts = some t) : t ∈ ts ∧ t.orderId = id :=
  ⟨List.mem_reverse.mp (List.mem_of_find?_eq_some h),
    of_decide_eq_true (List.find?_some (p := fun t : TradeExecution => t.orderId = id) h)⟩

/-- An order that is traded has a last trade. -/
theorem exists_lastOf {ts : List TradeExecution} {t : TradeExecution} (h : t ∈ ts) :
    ∃ t', lastOf t.orderId ts = some t' := by
  rw [← Option.isSome_iff_exists, lastOf, List.find?_isSome]
  exact ⟨t, List.mem_reverse.mpr h, decide_eq_true rfl⟩

theorem Phase.marked_append {batch : Batch} {w : Solution} {todo : List TradeExecution}
    (h : todo <:+ w.trades) : (Phase.marking batch w todo).marked ++ todo = w.trades := by
  obtain ⟨pre, hpre⟩ := h
  rw [Phase.marked, ← hpre, List.length_append, Nat.add_sub_cancel, List.take_left]

@[simp] theorem Phase.marked_idle : Phase.idle.marked = [] := rfl

/-- When the winner is delivered, all its trades have been marked. -/
@[simp] theorem Phase.marked_all (batch : Batch) (w : Solution) :
    (Phase.marking batch w []).marked = w.trades := by
  rw [Phase.marked, List.length_nil, Nat.sub_zero, List.take_length]

/-- Nothing is marked of a winner that has just been chosen. -/
@[simp] theorem Phase.marked_chosen (batch : Batch) (w : Solution) :
    (Phase.marking batch w w.trades).marked = [] := by
  rw [Phase.marked, Nat.sub_self, List.take_zero]

/-- What is marked when one more trade is. -/
theorem Phase.marked_next {batch : Batch} {w : Solution} {t : TradeExecution}
    {todo : List TradeExecution} (h : t :: todo <:+ w.trades) :
    (Phase.marking batch w todo).marked = (Phase.marking batch w (t :: todo)).marked ++ [t] := by
  have h₁ := @marked_append batch _ _ h
  have h₂ := @marked_append batch _ _ ((List.suffix_cons t todo).trans h)
  refine (List.append_left_inj todo).mp ?_
  rw [h₂, List.append_assoc, List.singleton_append, h₁]

/-! ### What a step does to what is recorded -/

section
variable {P : Primitives} {b : OrderBook}

theorem OrderBook.Records.gone {t : TradeExecution} (h : b.Records t) : b.Gone t.orderId := by
  obtain ⟨e, he, hs, -⟩ := h
  exact ⟨e, he, by rw [hs]; decide⟩

/-- A trade is recorded by what is at its order. -/
theorem OrderBook.records_congr {b' : OrderBook} {t : TradeExecution}
    (h : b' t.orderId = b t.orderId) : b'.Records t ↔ b.Records t := by
  rw [Records, Records, h]

/-- A change at the order from what is not auctioned to what is not. -/
theorem OrderBook.records_iff_of_ne {b' : OrderBook} {t : TradeExecution}
    (h : ∀ e, b t.orderId = some e → e.status ≠ .auctioned)
    (h' : ∀ e, b' t.orderId = some e → e.status ≠ .auctioned) : b'.Records t ↔ b.Records t :=
  iff_of_false (fun ⟨e, he, hs, _⟩ => h' e he hs) fun ⟨e, he, hs, _⟩ => h e he hs

theorem records_submit (b : OrderBook) (s : SignedOrder) (t : TradeExecution) :
    (b.submit P s).Records t ↔ b.Records t := by
  by_cases hc : s.order.id P = t.orderId ∧ b t.orderId = none
  · refine OrderBook.records_iff_of_ne (fun e he => ?_) fun e he => ?_
    · rw [hc.2] at he
      cases he
    · rw [OrderBook.submit_apply, if_pos hc] at he
      cases he
      exact show OrderStatus.opened ≠ .auctioned by decide
  · exact OrderBook.records_congr (by rw [OrderBook.submit_apply, if_neg hc])

theorem records_cancel (b : OrderBook) (id : OrderId) (owner : Address) (t : TradeExecution) :
    (b.cancel id owner).Records t ↔ b.Records t := by
  by_cases hid : t.orderId = id
  · subst hid
    cases hb : b t.orderId with
    | none => exact OrderBook.records_congr (by rw [OrderBook.cancel_self, hb]; rfl)
    | some e =>
        by_cases hc : e.status = .opened ∧ e.signed.order.owner = owner
        · refine OrderBook.records_iff_of_ne (fun e' he => ?_) fun e' he => ?_
          · cases hb.symm.trans he
            rw [hc.1]
            decide
          · rw [OrderBook.cancel_self, hb, Option.map_some, if_pos hc] at he
            cases he
            exact show OrderStatus.cancelled ≠ .auctioned by decide
        · refine OrderBook.records_congr ?_
          rw [OrderBook.cancel_self, hb, Option.map_some, if_neg hc]
  · exact OrderBook.records_congr (OrderBook.cancel_of_ne hid owner)

theorem records_sweep (b : OrderBook) (now : Int64) (t : TradeExecution) :
    (b.sweep now).Records t ↔ b.Records t := by
  cases hb : b t.orderId with
  | none => exact OrderBook.records_congr (by rw [OrderBook.sweep, hb]; rfl)
  | some e =>
      by_cases hd : OrderBook.Due now e
      · refine OrderBook.records_iff_of_ne (fun e' he => ?_) fun e' he => ?_
        · cases hb.symm.trans he
          rw [hd.1]
          decide
        · rw [OrderBook.sweep, hb, Option.map_some, if_pos hd] at he
          cases he
          exact show OrderStatus.expired ≠ .auctioned by decide
      · refine OrderBook.records_congr ?_
        rw [OrderBook.sweep, hb, Option.map_some, if_neg hd]

/-- **A marking records its trade** in place of an earlier one of the order. -/
theorem records_mark {t₀ : TradeExecution} {e : Entry} (he : b t₀.orderId = some e)
    (t : TradeExecution) :
    (b.mark t₀.orderId .auctioned (some t₀.executedSell) (some t₀.executedBuy)).Records t ↔
      if t₀.orderId = t.orderId then t = t₀ else b.Records t := by
  by_cases hid : t₀.orderId = t.orderId
  · rw [if_pos hid, OrderBook.Records, ← hid, OrderBook.mark_self, he]
    obtain ⟨id, sell, buy⟩ := t
    obtain ⟨id₀, sell₀, buy₀⟩ := t₀
    obtain rfl : id₀ = id := hid
    simp [eq_comm]
  · rw [if_neg hid]
    exact OrderBook.records_congr (OrderBook.mark_of_ne (Ne.symm hid) ..)

/-- Only a marking changes what is recorded. -/
theorem records_effect {a : Action} (ha : ∀ now, a ≠ .round (.mark now)) (phase : Phase)
    (b : OrderBook) (t : TradeExecution) : (a.effect P phase b).Records t ↔ b.Records t := by
  cases a with
  | tick clock => exact .rfl
  | api a =>
      cases a with
      | insert now s => exact records_submit b s t
      | cancel now id owner => exact records_cancel b id owner t
      | validate s => exact .rfl
      | verify s => exact .rfl
      | read => exact .rfl
  | round a =>
      simp only [Action.effect]
      unfold RoundAction.effect
      split
      · exact records_sweep b _ t
      · next now _ _ _ _ => exact absurd rfl (ha now)
      · exact .rfl

end

/-! ### Over a run -/

/-- The lists trade no order in common. -/
def Apart (ts ts' : List TradeExecution) : Prop := ∀ t ∈ ts, ∀ t' ∈ ts', t.orderId ≠ t'.orderId

section
variable {P : Primitives} {σ : Type} {R : OrderRepository σ} {A : Auctioneer} {Sound : σ → Prop}
  {book : σ → OrderBook} {n n' : Node σ}

theorem rounds_concat (tr : List (Node σ × Event)) (n : Node σ) (ev : Event) :
    rounds (tr ++ [(n, ev)]) = rounds tr ++ if ev.ends then [n.phase.marked] else [] := by
  rw [rounds, List.filter_append, List.map_append, rounds]
  cases h : ev.ends <;> simp [h]

/-- The marked trades are the winner's, and name orders of its batch. -/
theorem mem_batch_of_marked (hA : A.NamesBatch P) {b : OrderBook} {phase : Phase}
    (ht : Tracks P A b phase) {t : TradeExecution} (hm : t ∈ phase.marked) :
    ∃ batch w todo, phase = .marking batch w todo ∧ t ∈ w.trades ∧
      t.orderId ∈ batch.orderIds P := by
  cases phase with
  | marking batch w todo =>
      have hw : t ∈ w.trades := List.mem_of_mem_take hm
      exact ⟨batch, w, todo, rfl, hw, hA batch w ht.2.1 _ (List.mem_map.mpr ⟨t, hw, rfl⟩)⟩
  | _ => exact absurd hm List.not_mem_nil

/-- An order that is done with is not marked. -/
theorem not_marked_of_done (hA : A.NamesBatch P) (ht : Tracks P A (book n.store) n.phase)
    {id : OrderId} (hd : Done P book n id) {t : TradeExecution} (hm : t ∈ n.phase.marked) :
    id ≠ t.orderId := by
  obtain ⟨batch, w, todo, hp, -, hb⟩ := mem_batch_of_marked hA ht hm
  have ha := hd.2
  rw [hp] at ha
  rintro rfl
  exact ha hb

/-- **What a step before the delivery does**: it marks the next trade, or changes nothing that is
recorded or marked. -/
theorem marked_step (hR : Implements P R Sound book) (hA : A.NamesBatch P) (hs : Sound n.store)
    (ht : Tracks P A (book n.store) n.phase) {a : Action} (ha : a ≠ .round .deliver)
    (h : Step P R A n a n') :
    (n'.phase.marked = n.phase.marked ∧
      ∀ t, (book n'.store).Records t ↔ (book n.store).Records t) ∨
    ∃ batch w t todo, n.phase = .marking batch w (t :: todo) ∧
      n'.phase.marked = n.phase.marked ++ [t] ∧
      ∀ t', (book n'.store).Records t' ↔
        if t.orderId = t'.orderId then t' = t else (book n.store).Records t' := by
  rw [(step_book hR hs h).2]
  cases h with
  | tick h => exact .inl ⟨rfl, fun _ => .rfl⟩
  | api h =>
      refine .inl ⟨by rw [h.phase_eq], fun t => ?_⟩
      exact records_effect (fun now => by simp) n.phase _ t
  | round h =>
      cases h with
      | @mark batch w t todo now hp =>
          rw [hp] at ht ⊢
          have hmem := ht.2.2.subset List.mem_cons_self
          obtain ⟨-, -, e, -, he, -⟩ := stored_of_traded hA ht.1 ht.2.1 hmem
          exact .inr ⟨batch, w, t, todo, rfl, Phase.marked_next ht.2.2, records_mark he⟩
      | deliver hp => exact absurd rfl ha
      | @sweep secs now hp =>
          refine .inl ⟨?_, fun t => records_effect (fun now => by simp) _ _ t⟩
          rw [hp]
          cases (R.expireDue now secs n.store).1 <;> rfl
      | @sealBatch secs opened id hp =>
          refine .inl ⟨?_, fun t => records_effect (fun now => by simp) _ _ t⟩
          rw [hp]
          show (Phase.afterList A id secs opened).marked = []
          rw [Phase.afterList]
          split <;> rfl
      | @choose batch best hp =>
          refine .inl ⟨?_, fun t => records_effect (fun now => by simp) _ _ t⟩
          rw [hp]
          cases best with
          | none => rfl
          | some w => exact Phase.marked_chosen batch w
      | start hp h => exact .inl ⟨by rw [hp]; rfl, fun _ => .rfl⟩
      | list hp hl h => exact .inl ⟨by rw [hp]; rfl, fun _ => .rfl⟩
      | listError hp hl => exact .inl ⟨by rw [hp]; rfl, fun _ => .rfl⟩
      | answer hp hk h => exact .inl ⟨by rw [hp]; rfl, fun _ => .rfl⟩

/-- **What the rounds so far have left**: the orders of those that have ended are done with and in
one of them only, and what is recorded are the last trades of each. -/
structure Ledgered (P : Primitives) (book : σ → OrderBook) (tr : List (Node σ × Event))
    (n : Node σ) : Prop where
  done : ∀ ts ∈ rounds tr, ∀ t ∈ ts, Done P book n t.orderId
  apart : (rounds tr).Pairwise Apart
  records : ∀ t, (book n.store).Records t ↔
    ∃ ts ∈ rounds tr ++ [n.phase.marked], lastOf t.orderId ts = some t

variable {tr : List (Node σ × Event)}

/-- The rounds that have ended trade no order of the one under way. -/
theorem Ledgered.apart_marked (h : Ledgered P book tr n) (hA : A.NamesBatch P)
    (ht : Tracks P A (book n.store) n.phase) : ∀ ts ∈ rounds tr, Apart ts n.phase.marked :=
  fun ts hts t hmem _ hm => not_marked_of_done hA ht (h.done ts hts t hmem) hm

/-- A step before the delivery keeps the ledger. -/
theorem ledgered_act (hR : Implements P R Sound book) (hA : A.NamesBatch P) (hs : Sound n.store)
    (ht : Tracks P A (book n.store) n.phase) (hl : Ledgered P book tr n) {a : Action}
    (ha : a ≠ .round .deliver) (h : Step P R A n a n') :
    Ledgered P book (tr ++ [(n, .act a)]) n' := by
  have hends : (Event.act a).ends = false := by
    cases a with
    | round a => cases a <;> first | rfl | exact absurd rfl ha
    | _ => rfl
  have hrounds : rounds (tr ++ [(n, .act a)]) = rounds tr := by
    rw [rounds_concat, hends, if_neg Bool.false_ne_true, List.append_nil]
  refine ⟨?_, hrounds ▸ hl.apart, fun t => ?_⟩
  · rw [hrounds]
    exact fun ts hts t hmem => done_step hR hs h (hl.done ts hts t hmem)
  rw [hrounds]
  rcases marked_step hR hA hs ht ha h with ⟨hm, hrec⟩ | ⟨batch, w, t₀, todo, hp, hm, hrec⟩
  · rw [hm, hrec, hl.records]
  · rw [hm, hrec]
    simp only [List.mem_append, List.mem_singleton, or_and_right, exists_or, exists_eq_left,
      lastOf_concat]
    split
    · next hid =>
        -- the order of the trade that is marked is in no round that has ended
        have hb : t₀.orderId ∈ batch.orderIds P := by
          rw [hp] at ht
          exact hA batch w ht.2.1 _
            (List.mem_map.mpr ⟨t₀, ht.2.2.subset List.mem_cons_self, rfl⟩)
        have hno : ¬ ∃ ts ∈ rounds tr, lastOf t.orderId ts = some t := by
          rintro ⟨ts, hts, hlast⟩
          have ha := (hl.done ts hts t (lastOf_eq_some hlast).1).2
          rw [hp] at ha
          exact ha (hid ▸ hb)
        rw [or_iff_right hno, Option.some.injEq, eq_comm]
    · rw [hl.records]
      simp only [List.mem_append, List.mem_singleton, or_and_right, exists_or, exists_eq_left]

/-- The end of a round keeps the ledger: the book stays, and the round is idle. -/
theorem ledgered_end (hA : A.NamesBatch P) (ht : Tracks P A (book n.store) n.phase)
    (hl : Ledgered P book tr n) {ev : Event} (hev : ev.ends = true)
    (hst : book n'.store = book n.store) (hp : n'.phase = .idle) :
    Ledgered P book (tr ++ [(n, ev)]) n' := by
  have hrounds : rounds (tr ++ [(n, ev)]) = rounds tr ++ [n.phase.marked] := by
    rw [rounds_concat, hev, if_pos rfl]
  have avoids : ∀ id, n'.phase.Avoids P id := fun id => by rw [hp]; trivial
  refine ⟨fun ts hts t hmem => ⟨?_, avoids _⟩, ?_, fun t => ?_⟩
  · rw [hst]
    rw [hrounds] at hts
    rcases List.mem_append.mp hts with hts | hts
    · exact (hl.done ts hts t hmem).1
    · -- the last trade of the order is recorded
      rw [List.mem_singleton] at hts
      subst hts
      obtain ⟨t', ht'⟩ := exists_lastOf hmem
      have hid := (lastOf_eq_some ht').2
      rw [← hid] at ht' ⊢
      exact ((hl.records t').mpr ⟨_, List.mem_append_right _ (List.mem_singleton_self _), ht'⟩).gone
  · rw [hrounds, List.pairwise_append]
    refine ⟨hl.apart, List.pairwise_singleton _ _, fun ts hts ts' hts' => ?_⟩
    rw [List.mem_singleton.mp hts']
    exact hl.apart_marked hA ht ts hts
  · rw [hst, hrounds, hp, hl.records]
    simp only [List.mem_append, List.mem_singleton, or_and_right, exists_or, exists_eq_left,
      Phase.marked_idle, lastOf_nil, reduceCtorEq, or_false]

variable {finds : σ → σ → Prop}

/-- **The ledger of a run.** -/
theorem ledgered_run (hR : Implements P R Sound book) (hv : Survives finds Sound book)
    (hA : A.NamesBatch P) {st : σ} (hs : Sound st) (hnew : ∀ t, ¬ (book st).Records t)
    {clock : Int64} (h : (crashing P R A finds).Run (.boot st clock) tr n) :
    Sound n.store ∧ Tracks P A (book n.store) n.phase ∧ Ledgered P book tr n := by
  refine h.inv_history (S := crashing P R A finds)
    (I := fun tr n => Sound n.store ∧ Tracks P A (book n.store) n.phase ∧ Ledgered P book tr n)
    ?_ ⟨hs, trivial, ⟨fun _ h => absurd h List.not_mem_nil, .nil, fun t => ?_⟩⟩
  · rintro tr n ev n' ⟨hs, ht, hl⟩ hstep
    cases hstep with
    | @act _ a hstep =>
        refine ⟨(step_book hR hs hstep).1, tracks_step hR hs hstep ht, ?_⟩
        by_cases ha : a = .round .deliver
        · subst ha
          cases hstep with
          | round hstep => cases hstep with
            | deliver hp => exact ledgered_end hA ht hl rfl rfl rfl
        · exact ledgered_act hR hA hs ht hl ha hstep
    | crash clock hf =>
        obtain ⟨hs', hb⟩ := hv _ _ hf hs
        exact ⟨hs', trivial, ledgered_end hA ht hl rfl hb rfl⟩
  · refine iff_of_false (hnew t) ?_
    simp [rounds, Node.boot]

/-- **What is auctioned is what has been marked.**  In every run with crashes that the store
survives, from one without auctioned orders, an order is auctioned with certain amounts if and only
if these are the last ones marked for it in a round that has been delivered, in one that a crash has
ended, or in the one under way. -/
theorem auctioned_iff_marked (hR : Implements P R Sound book) (hv : Survives finds Sound book)
    (hA : A.NamesBatch P) {st : σ} (hs : Sound st) (hnew : ∀ t, ¬ (book st).Records t)
    {clock : Int64} (h : (crashing P R A finds).Run (.boot st clock) tr n) (t : TradeExecution) :
    (book n.store).Records t ↔
      ∃ ts ∈ rounds tr ++ [n.phase.marked], lastOf t.orderId ts = some t :=
  (ledgered_run hR hv hA hs hnew h).2.2.records t

/-- The step delivers the solution. -/
def Delivered (p : Node σ × Event) (w : Solution) : Prop := ∃ a, p.2 = .act a ∧ Delivers (p.1, a) w

/-- A crash ends the round, after the trade has been marked. -/
def Strands (p : Node σ × Event) (t : TradeExecution) : Prop :=
  (∃ clock, p.2 = .crash clock) ∧ t ∈ p.1.phase.marked

/-- **Deliveries across crashes**, in the run that leads to `n`: no order is delivered by two of its
steps, and one that a crash has left marked is delivered by none, earlier or later, and is
auctioned. -/
structure CrashSafe (book : σ → OrderBook) (tr : List (Node σ × Event)) (n : Node σ) : Prop where
  delivered : tr.Pairwise fun p q => ∀ w w', Delivered p w → Delivered q w' →
    ∀ id ∈ w.orderIds, id ∉ w'.orderIds
  stranded : ∀ p ∈ tr, ∀ t, Strands p t → (∀ q ∈ tr, ∀ w, Delivered q w →
    t.orderId ∉ w.orderIds) ∧ ∃ e, book n.store t.orderId = some e ∧ e.status = .auctioned

/-- What a delivery and a crash have marked. -/
theorem Delivered.ends {p : Node σ × Event} {w : Solution} (h : Delivered p w) :
    p.2.ends = true ∧ p.1.phase.marked = w.trades := by
  obtain ⟨a, ha, hact, batch, hp⟩ := h
  dsimp only at hact hp
  subst hact
  exact ⟨by rw [ha]; rfl, by rw [hp, Phase.marked_all]⟩

theorem Strands.ends {p : Node σ × Event} {t : TradeExecution} (h : Strands p t) :
    p.2.ends = true := by
  obtain ⟨⟨clock, hc⟩, -⟩ := h
  rw [hc]
  rfl

end

/-! ### A store that is lost -/

/-- **The store in memory is lost**: what a run with crashes comes to, a run without crashes from an
empty store has come to, too. -/
theorem InMemoryOrderRepository.last_life {P : Primitives} {iter : IterOrder OrderRecord}
    {A : Auctioneer} {clock : Int64} {tr : List (Node InMemoryOrderRepository × Event)}
    {n : Node InMemoryOrderRepository}
    (h : (crashing P (repository P iter) A finds).Run (.boot .new clock) tr n) :
    ∃ tr' clock', (machine P (repository P iter) A).Run (.boot .new clock') tr' n := by
  refine h.inv (S := crashing P (repository P iter) A finds)
    (I := fun n => ∃ tr' clock', (machine P (repository P iter) A).Run (.boot .new clock') tr' n) ?_
    ⟨[], clock, .refl _⟩
  rintro n ev n' ⟨tr', clock', h'⟩ hstep
  cases hstep with
  | act hstep => exact ⟨_, clock', h'.snoc hstep⟩
  | crash clock hf =>
      obtain rfl := hf
      exact ⟨[], clock, .refl _⟩

/-! ### A crash between two markings -/

namespace Sample

/-- The Postgres repository, with the JSON of a signed order taken as the order. -/
def postgres : OrderRepository (PgOrderRepository SignedOrder) :=
  PgOrderRepository.repository primitives .plain (.id _)

theorem postgres_implements : Implements primitives postgres
    (PgOrderRepository.Sound primitives .plain) (PgOrderRepository.book .plain) :=
  PgOrderRepository.implements primitives .plain JsonCodec.plain_roundTrips (.id _)

/-- The table after alice and bob have submitted an order each. -/
@[irreducible] def pgOpen : PgOrderRepository SignedOrder :=
  (serve primitives postgres ⟨50, 2⟩ (.submit (sign bob200))
    (serve primitives postgres ⟨50, 1⟩ (.submit (sign alice150)) .new).2).2

/-- What alice's order is traded for. -/
def aliceTrade : TradeExecution := ⟨alice150.id primitives, 100, 175⟩

/-- What bob's order is traded for. -/
def bobTrade : TradeExecution := ⟨bob200.id primitives, 200, 114⟩

theorem pgOpen_run : ∃ tr, (machine primitives postgres auctioneer).Run (.boot .new 50) tr
    (.boot pgOpen 50) := by
  obtain ⟨tr₁, h₁⟩ := serve_run (P := primitives) (R := postgres) (A := auctioneer) .new 50 []
    .idle 1 (.submit (sign alice150))
  obtain ⟨tr₂, h₂⟩ := serve_run (P := primitives) (R := postgres) (A := auctioneer)
    (serve primitives postgres ⟨50, 1⟩ (.submit (sign alice150)) .new).2 50 [] .idle 2
    (.submit (sign bob200))
  refine ⟨tr₁ ++ tr₂, ?_⟩
  unfold pgOpen
  exact h₁.append h₂

/-- A round in which alice's order has been marked and bob's has not. -/
theorem marked_run : ∃ st tr, (machine primitives postgres auctioneer).Run (.boot pgOpen 50) tr
    ⟨st, 50, [], .marking batchOfTwo solution [bobTrade]⟩ := by
  obtain ⟨tr₃, h₃, -⟩ := seal_run (P := primitives) (R := postgres) (A := auctioneer) roundOfTwo
    pgOpen []
  have hseal : sealedBatch primitives postgres auctioneer roundOfTwo pgOpen = some batchOfTwo := by
    decide +kernel
  rw [sealedBatch_eq_some.mp hseal] at h₃
  have hanswers : List.Forall₂ (fun (s : Solver) (a : Answer) =>
      a.1 = s.address ∧ s.solve batchOfTwo auctioneer.cfg.solverTimeoutMs a.2)
      auctioneer.solvers [(.zero, .ok solution)] := .cons ⟨rfl, .solved .insertion⟩ .nil
  let st := (sealBatch primitives postgres auctioneer roundOfTwo pgOpen).2
  obtain ⟨tr₄, h₄, -⟩ := race_run (P := primitives) (R := postgres) ⟨st, 50, [], .idle⟩ batchOfTwo
    hanswers none (.refl _)
  have hchosen := (h₃.append h₄).snoc (.round (.choose rfl))
  have hphase : Phase.afterRace batchOfTwo (some solution) =
      .marking batchOfTwo solution (aliceTrade :: [bobTrade]) :=
    congrArg (Phase.marking batchOfTwo solution) solution_trades
  exact ⟨_, _, hchosen.snoc (.round (.mark 3 hphase))⟩

/-- The node goes down in the middle of the marking. -/
theorem crash_run : ∃ tr n,
    (crashing primitives postgres auctioneer PgOrderRepository.finds).Run (.boot .new 50) tr n ∧
    ∃ p ∈ tr, Strands p aliceTrade := by
  obtain ⟨tr₀, h₀⟩ := pgOpen_run
  obtain ⟨st, tr, h⟩ := marked_run
  let n : Node (PgOrderRepository SignedOrder) :=
    ⟨st, 50, [], .marking batchOfTwo solution [bobTrade]⟩
  have hall := ((h₀.append h).relabel
    (T := crashing primitives postgres auctioneer PgOrderRepository.finds)
    fun _ _ _ h => .act h).snoc (.crash (n := n) 60 rfl)
  refine ⟨_, _, hall, (n, .crash 60), List.mem_append_right _ List.mem_cons_self, ⟨60, rfl⟩, ?_⟩
  show aliceTrade ∈ solution.trades.take _
  rw [solution_trades]
  decide +kernel

theorem pgNew_records (t : TradeExecution) :
    ¬ ((PgOrderRepository.new : PgOrderRepository SignedOrder).book .plain).Records t := by
  rintro ⟨e, he, -⟩
  cases he

end Sample

section
open Sample

theorem auctioned_iff_marked_alice : ∃ tr n,
    (crashing primitives postgres auctioneer PgOrderRepository.finds).Run (.boot .new 50) tr n ∧
    ((n.store.book .plain).Records aliceTrade ↔
      ∃ ts ∈ rounds tr ++ [n.phase.marked], lastOf aliceTrade.orderId ts = some aliceTrade) := by
  obtain ⟨tr, n, h, -⟩ := crash_run
  have hA : auctioneer.IsReference primitives := fun s hs => ⟨.zero, List.mem_singleton.mp hs⟩
  exact ⟨tr, n, h, auctioned_iff_marked postgres_implements
    (PgOrderRepository.survives _ _) hA.namesBatch
    (PgOrderRepository.sound_new _ _) pgNew_records h aliceTrade⟩

end

end OxDex
