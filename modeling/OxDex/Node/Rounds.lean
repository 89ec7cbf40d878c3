import OxDex.Node.Machine

/-!
# Node — Rounds

What holds in the middle of a round, whatever the requests do meanwhile.

* No order ever leaves the book, and its signed form never changes (`effect_keeps`); an order that
  is no longer open never opens again (`effect_gone`).
* `Tracks`: the orders the round has read are in the book, once each, and its best solution was
  answered by one of its solvers.  Every step keeps it (`tracks_step`).
-/

namespace OxDex
open Support

/-! ### The book over a step -/

section
variable {P : Primitives} {b b' : OrderBook}

/-- Every order of `b` is in `b'`, as it was signed. -/
def Keeps (b b' : OrderBook) : Prop :=
  ∀ id e, b id = some e → ∃ e', b' id = some e' ∧ e'.signed = e.signed

theorem Keeps.refl (b : OrderBook) : Keeps b b := fun _ e he => ⟨e, he, rfl⟩

theorem keeps_submit (b : OrderBook) (s : SignedOrder) : Keeps b (b.submit P s) :=
  fun _ e he => ⟨e, OrderBook.submit_of_some he s, rfl⟩

theorem keeps_cancel (b : OrderBook) (id : OrderId) (owner : Address) :
    Keeps b (b.cancel id owner) := by
  intro id' e he
  by_cases h : id' = id
  · subst h
    rw [OrderBook.cancel_self, he]
    refine ⟨_, rfl, ?_⟩
    dsimp only
    split <;> rfl
  · exact ⟨e, by rw [OrderBook.cancel_of_ne h, he], rfl⟩

theorem keeps_sweep (b : OrderBook) (now : Int64) : Keeps b (b.sweep now) := by
  intro id e he
  rw [OrderBook.sweep, he]
  refine ⟨_, rfl, ?_⟩
  dsimp only
  split <;> rfl

theorem keeps_mark (b : OrderBook) (id : OrderId) (status : OrderStatus) (fs fb : Option UInt64) :
    Keeps b (b.mark id status fs fb) := by
  intro id' e he
  by_cases h : id' = id
  · subst h
    rw [OrderBook.mark_self, he]
    exact ⟨_, rfl, rfl⟩
  · exact ⟨e, by rw [OrderBook.mark_of_ne h, he], rfl⟩

/-- **No order leaves the book**, and its signed form never changes. -/
theorem effect_keeps (a : Action) (phase : Phase) (b : OrderBook) :
    Keeps b (a.effect P phase b) := by
  cases a with
  | tick clock => exact .refl b
  | api a =>
      cases a with
      | insert now s => exact keeps_submit b s
      | cancel now id owner => exact keeps_cancel b id owner
      | validate s => exact .refl b
      | verify s => exact .refl b
      | read => exact .refl b
  | round a =>
      simp only [Action.effect]
      unfold RoundAction.effect
      split
      · exact keeps_sweep b _
      · exact keeps_mark b _ _ _ _
      · exact .refl b

/-- **What a step does to an entry that is no longer open**: nothing, or it is the marking of a
trade of that order. -/
theorem effect_of_gone {id : OrderId} {e : Entry} (he : b id = some e) (hs : e.status ≠ .opened)
    (a : Action) (phase : Phase) : a.effect P phase b id = some e ∨
      ∃ now batch winner t todo, a = .round (.mark now) ∧
        phase = .marking batch winner (t :: todo) ∧ t.orderId = id ∧ a.effect P phase b id =
          some ⟨e.signed, .auctioned, t.executedSell, t.executedBuy⟩ := by
  cases a with
  | tick clock => exact .inl he
  | api a =>
      cases a with
      | insert now s => exact .inl (OrderBook.submit_of_some he s)
      | cancel now id' owner => exact .inl (OrderBook.cancel_of_gone he hs id' owner)
      | validate s => exact .inl he
      | verify s => exact .inl he
      | read => exact .inl he
  | round a =>
      simp only [Action.effect]
      unfold RoundAction.effect
      split
      · exact .inl (OrderBook.sweep_of_gone he hs _)
      · next now batch winner t todo =>
          by_cases hid : id = t.orderId
          · subst hid
            exact .inr ⟨now, batch, winner, t, todo, rfl, rfl, rfl, by
              rw [OrderBook.mark_self, he]; rfl⟩
          · exact .inl (by rw [OrderBook.mark_of_ne hid, he])
      · exact .inl he

/-- **An order that is no longer open never opens again.** -/
theorem effect_gone {id : OrderId} (h : b.Gone id) (a : Action) (phase : Phase) :
    (a.effect P phase b).Gone id := by
  obtain ⟨e, he, hs⟩ := h
  rcases effect_of_gone (P := P) he hs a phase with h | ⟨_, _, _, _, _, -, -, -, h⟩
  · exact ⟨e, h, hs⟩
  · exact ⟨_, h, fun h => by cases h⟩

end

/-! ### What a round holds on to -/

/-- The orders are in the book, under distinct identifiers. -/
structure Stored (P : Primitives) (b : OrderBook) (orders : List SignedOrder) : Prop where
  nodup : (orders.map fun s => s.order.id P).Nodup
  mem : ∀ s ∈ orders, ∃ e, b (s.order.id P) = some e ∧ e.signed = s

theorem Stored.keeps {P : Primitives} {b b' : OrderBook} {orders : List SignedOrder}
    (h : Stored P b orders) (hk : Keeps b b') : Stored P b' orders where
  nodup := h.nodup
  mem := fun s hs => by
    obtain ⟨e, he, hes⟩ := h.mem s hs
    obtain ⟨e', he', hes'⟩ := hk _ e he
    exact ⟨e', he', hes'.trans hes⟩

/-- **What a round holds on to**: the orders it has read are in the book, and its best solution and
its winner were answered to its batch; what is left to mark are trades of the winner. -/
def Tracks (P : Primitives) (A : Auctioneer) (b : OrderBook) : Phase → Prop
  | .idle | .started _ | .swept _ => True
  | .listed _ opened => Stored P b (opened.map OrderRecord.signed)
  | .racing batch waiting best => Stored P b batch.orders ∧ (∀ s ∈ waiting, s ∈ A.solvers) ∧
      ∀ w, best = some w → A.Answers batch w
  | .marking batch winner todo =>
      Stored P b batch.orders ∧ A.Answers batch winner ∧ todo <:+ winner.trades

theorem Tracks.keeps {P : Primitives} {A : Auctioneer} {b b' : OrderBook} (hk : Keeps b b') :
    ∀ {phase : Phase}, Tracks P A b phase → Tracks P A b' phase
  | .idle, _ | .started _, _ | .swept _, _ => trivial
  | .listed _ _, h => Stored.keeps h hk
  | .racing _ _ _, h => ⟨h.1.keeps hk, h.2⟩
  | .marking _ _ _, h => ⟨h.1.keeps hk, h.2⟩

section
variable {P : Primitives} {σ : Type} {R : OrderRepository σ} {A : Auctioneer} {Sound : σ → Prop}
  {book : σ → OrderBook} {n n' : Node σ}

/-- What has to be shown for a round's step out of `n` to keep `F` of where the round stands: that
`F` holds where the round holds on to nothing, and passes on from stage to stage.  Where `F` asks
for nothing there is nothing to show. -/
structure PassesOn (R : OrderRepository σ) (A : Auctioneer) (n : Node σ) (a : RoundAction)
    (F : Phase → Prop) : Prop where
  idle : F .idle := by trivial
  started : ∀ secs, F (.started secs) := by intros; trivial
  swept : ∀ secs, F (.swept secs) := by intros; trivial
  listed : ∀ {secs rs opened}, R.listOpen none n.store = .ok rs → opened.Perm rs →
    F (.listed secs opened) := by intros; trivial
  racing : ∀ {id secs opened}, F (.listed secs opened) →
    F (.racing ⟨id, secs, opened.map OrderRecord.signed⟩ A.solvers none) := by intros; trivial
  answered : ∀ {batch waiting best k s res}, waiting[k]? = some s →
    s.solve batch A.cfg.solverTimeoutMs res → F (.racing batch waiting best) →
    F (.racing batch (waiting.eraseIdx k) (consider best res)) := by intros; trivial
  chosen : ∀ {batch w}, a = .choose → n.phase = .racing batch [] (some w) →
    F (.racing batch [] (some w)) → F (.marking batch w w.trades)
  marked : ∀ {now batch w t todo}, a = .mark now → n.phase = .marking batch w (t :: todo) →
    F (.marking batch w (t :: todo)) → F (.marking batch w todo)

/-- **The rule for a round's steps.** -/
theorem RoundStep.keeps {F : Phase → Prop} {a : RoundAction} (h : RoundStep R A n a n')
    (hF : F n.phase) (k : PassesOn R A n a F) : F n'.phase := by
  cases h with
  | start hp h => exact k.started _
  | @sweep secs now hp =>
      dsimp only
      cases (R.expireDue now secs n.store).1 with
      | error e => exact k.idle
      | ok m => exact k.swept secs
  | list hp hl h => exact k.listed hl h
  | listError hp hl => exact k.idle
  | sealBatch id hp =>
      rw [hp] at hF
      dsimp only [Phase.afterList]
      split
      · exact k.idle
      · exact k.racing hF
  | answer hp hk h => exact k.answered hk h (hp ▸ hF)
  | @choose batch best hp =>
      cases best with
      | none => exact k.idle
      | some w => exact k.chosen rfl hp (hp ▸ hF)
  | mark now hp => exact k.marked rfl hp (hp ▸ hF)
  | deliver hp => exact k.idle

/-- What is listed is open and in the book. -/
theorem listed_spec (hR : Implements P R Sound book) (hs : Sound n.store)
    {rs opened : List OrderRecord} (hl : R.listOpen none n.store = .ok rs) (hp : opened.Perm rs) :
    Stored P (book n.store) (opened.map OrderRecord.signed) ∧
      ∀ r ∈ opened, ∃ e, book n.store (r.signed.order.id P) = some e ∧ e.status = .opened ∧
        e.signed = r.signed := by
  obtain ⟨rs', hrs', hnodup, hmem, -⟩ := hR.listOpen n.store hs
  rw [hl] at hrs'
  cases hrs'
  have key : ∀ r ∈ opened, ∃ e, book n.store (r.signed.order.id P) = some e ∧ e.status = .opened ∧
      e.signed = r.signed := by
    intro r hr
    obtain ⟨hb, ho, hid⟩ := hmem r (hp.mem_iff.mp hr)
    exact ⟨r.entry, hid ▸ hb, ho, rfl⟩
  refine ⟨⟨?_, fun s hs => ?_⟩, key⟩
  · have hn : (opened.map OrderRecord.id).Nodup := (hp.map _).nodup_iff.mpr hnodup
    rw [List.map_map]
    exact (List.map_congr_left fun r hr => ((hmem r (hp.mem_iff.mp hr)).2.2).symm) ▸ hn
  · obtain ⟨r, hr, rfl⟩ := List.mem_map.mp hs
    obtain ⟨e, he, -, hes⟩ := key r hr
    exact ⟨e, he, hes⟩

/-- A solution that is kept is the best so far or the one that came in. -/
theorem consider_eq_some {best : Option Solution} {res : Except OxDexError Solution} {w : Solution}
    (h : consider best res = some w) : best = some w ∨ res = .ok w := by
  cases res with
  | error e => exact .inl h
  | ok sol =>
      rw [consider] at h
      split at h
      · exact .inr (congrArg _ (Option.some.inj h))
      · exact .inl h

/-- The round's own steps keep `Tracks`, on a book that does not change. -/
theorem tracks_round (hR : Implements P R Sound book) (hs : Sound n.store) {a : RoundAction}
    (h : RoundStep R A n a n') (ht : Tracks P A (book n.store) n.phase) :
    Tracks P A (book n.store) n'.phase :=
  h.keeps (F := Tracks P A (book n.store)) ht {
    listed := fun hl hp => (listed_spec hR hs hl hp).1
    racing := fun hst => ⟨hst, fun _ hs => hs, fun _ hw => by cases hw⟩
    answered := fun {batch waiting best k s res} hk hsol ht => by
      refine ⟨ht.1, fun s hs => ht.2.1 s (List.mem_of_mem_eraseIdx hs), fun w hw => ?_⟩
      rcases consider_eq_some hw with hw | rfl
      · exact ht.2.2 w hw
      · exact ⟨s, ht.2.1 s (List.mem_of_getElem? hk), hsol⟩
    chosen := fun _ _ ht => ⟨ht.1, ht.2.2 _ rfl, List.suffix_refl _⟩
    marked := fun _ _ ht => ⟨ht.1, ht.2.1, (List.suffix_cons _ _).trans ht.2.2⟩ }

/-- **Every step keeps what the round holds on to.** -/
theorem tracks_step (hR : Implements P R Sound book) (hs : Sound n.store) {a : Action}
    (h : Step P R A n a n') (ht : Tracks P A (book n.store) n.phase) :
    Tracks P A (book n'.store) n'.phase := by
  have hk : Keeps (book n.store) (book n'.store) := (step_book hR hs h).2 ▸ effect_keeps _ _ _
  refine Tracks.keeps hk ?_
  cases h with
  | tick h => exact ht
  | api h => rwa [h.phase_eq]
  | round h => exact tracks_round hR hs h ht

/-- A call of `cancel` that returns `true` leaves the order cancelled. -/
theorem cancels_isCancelled (hR : Implements P R Sound book) (hs : Sound n.store) {a : Action}
    {id : OrderId} (hc : Cancels R (n, a) id) (h : Step P R A n a n') :
    (book n'.store).IsCancelled id := by
  obtain ⟨now, owner, rfl, hres⟩ := hc
  rw [(step_book hR hs h).2]
  exact ((hR.cancel now id owner n.store hs).2.2.mp hres).isCancelled

/-- And the order was open. -/
theorem not_cancels_of_gone (hR : Implements P R Sound book) (hs : Sound n.store) {a : Action}
    {id : OrderId} (hg : (book n.store).Gone id) : ¬ Cancels R (n, a) id := by
  rintro ⟨now, owner, -, hres⟩
  exact ((hR.cancel now id owner n.store hs).2.2.mp hres).not_gone hg

end

end OxDex
