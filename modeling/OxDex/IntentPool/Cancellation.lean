import OxDex.IntentPool.Handlers
import OxDex.Storage.Memory

/-!
# Intent pool — Cancellation

Who can cancel an order over the API.

`DELETE /v1/orders/{id}` asks for the order's identifier and for its owner's address.  Both are
public: the API returns them to anyone who reads the order.  An open order gets cancelled if and
only if some request names its identifier in the path and its owner's address in `X-Owner`.  No
signature is asked for, so a stranger can cancel (`stranger_cancels`).
-/

namespace OxDex

/-- `req` is a `DELETE` whose path decodes to `id` and whose `X-Owner` header decodes to `owner`. -/
def Authorizes (P : Primitives) (id : OrderId) (owner : Address) (req : Request) : Prop :=
  ∃ path headers, req = .cancel path headers ∧ cancelArgs P path headers = .ok (id, owner)

section
variable {P : Primitives} {b : OrderBook} {id : OrderId} {e : Entry}

/-- What a DELETE that names an owner does to an entry: it closes the order if it is open and has
that identifier and that owner. -/
theorem cancel_entry (he : b id = some e) (id' : OrderId) (owner : Address) :
    ∃ e', b.cancel id' owner id = some e' ∧ e'.signed = e.signed ∧
      (e'.status = e.status ∧
          ¬ (e.status = .opened ∧ (id', owner) = (id, e.signed.order.owner)) ∨
        e'.status = .cancelled ∧ e.status = .opened ∧
          (id', owner) = (id, e.signed.order.owner)) := by
  by_cases hid : id = id'
  · subst hid
    rw [OrderBook.cancel_self, he, Option.map_some]
    by_cases hc : e.status = .opened ∧ e.signed.order.owner = owner
    · rw [if_pos hc]
      exact ⟨_, rfl, rfl, .inr ⟨rfl, hc.1, by rw [hc.2]⟩⟩
    · rw [if_neg hc]
      exact ⟨e, rfl, rfl, .inl ⟨rfl, fun h => hc ⟨h.1, (congrArg Prod.snd h.2).symm⟩⟩⟩
  · rw [OrderBook.cancel_of_ne hid]
    exact ⟨e, he, rfl, .inl ⟨rfl, fun h => hid (congrArg Prod.fst h.2).symm⟩⟩

/-- A DELETE authorizes what its arguments name. -/
theorem authorizes_cancel_iff {path : String} {headers : Headers} {owner : Address} :
    Authorizes P id owner (.cancel path headers) ↔
      cancelArgs P path headers = .ok (id, owner) := by
  constructor
  · rintro ⟨path', headers', hreq, hargs⟩
    cases hreq
    exact hargs
  · exact fun hargs => ⟨path, headers, rfl, hargs⟩

/-- **What a request does to an entry**: the order stays, and its status changes only if it is open
and the request authorizes its cancellation. -/
theorem effect_entry (he : b id = some e) (clock : Clock) (req : Request) :
    ∃ e', req.effect P clock b id = some e' ∧ e'.signed = e.signed ∧
      (e'.status = e.status ∧
          ¬ (e.status = .opened ∧ Authorizes P id e.signed.order.owner req) ∨
        e'.status = .cancelled ∧ e.status = .opened ∧
          Authorizes P id e.signed.order.owner req) := by
  -- only a DELETE authorizes anything
  have stay : (∀ path headers, req ≠ .cancel path headers) →
      ¬ (e.status = .opened ∧ Authorizes P id e.signed.order.owner req) :=
    fun hno ⟨_, path, headers, hreq, _⟩ => hno path headers hreq
  cases req with
  | healthz => exact ⟨e, he, rfl, .inl ⟨rfl, stay fun _ _ h => by cases h⟩⟩
  | readyz => exact ⟨e, he, rfl, .inl ⟨rfl, stay fun _ _ h => by cases h⟩⟩
  | get path => exact ⟨e, he, rfl, .inl ⟨rfl, stay fun _ _ h => by cases h⟩⟩
  | list s b => exact ⟨e, he, rfl, .inl ⟨rfl, stay fun _ _ h => by cases h⟩⟩
  | submit s =>
      refine ⟨e, ?_, rfl, .inl ⟨rfl, stay fun _ _ h => by cases h⟩⟩
      simp only [Request.effect]
      split
      · rw [OrderBook.submit_apply, if_neg (fun h => by rw [he] at h; cases h.2), he]
      · exact he
  | cancel path headers =>
      simp only [Request.effect, authorizes_cancel_iff]
      cases hargs : cancelArgs P path headers with
      | error err => exact ⟨e, he, rfl, .inl ⟨rfl, fun h => by cases h.2⟩⟩
      | ok args =>
          obtain ⟨id', owner⟩ := args
          simp only [Except.ok.injEq]
          exact cancel_entry he id' owner

/-- **Over any requests** an order stays, and is cancelled in the end if and only if it was before,
or was open and a request authorized it. -/
theorem effects_entry : ∀ (reqs : List (Clock × Request)) {b : OrderBook} {e : Entry},
    b id = some e → ∃ e', Request.effects P reqs b id = some e' ∧ e'.signed = e.signed ∧
      (e'.status = .cancelled ↔ e.status = .cancelled ∨
        e.status = .opened ∧ ∃ cr ∈ reqs, Authorizes P id e.signed.order.owner cr.2)
  | [], _, e, he => ⟨e, he, rfl, by simp⟩
  | (clock, req) :: reqs, _, e, he => by
      obtain ⟨e₁, he₁, hs₁, h₁⟩ := effect_entry (P := P) he clock req
      obtain ⟨e', he', hs', h'⟩ := effects_entry reqs he₁
      refine ⟨e', he', hs'.trans hs₁, ?_⟩
      rw [h', hs₁]
      rcases h₁ with ⟨hst, hno⟩ | ⟨hst, ho, ha⟩
      · rw [hst]
        refine or_congr_right (and_congr_right fun ho => ?_)
        have hna : ¬ Authorizes P id e.signed.order.owner req := fun ha => hno ⟨ho, ha⟩
        simp [hna]
      · simp [hst, ho, ha]

/-- An identifier that is not in the book gets there by a submission only, as an open order. -/
theorem effect_new (hn : b id = none) (clock : Clock) (req : Request) :
    req.effect P clock b id = none ∨
      ∃ e, req.effect P clock b id = some e ∧ e.status = .opened := by
  cases req with
  | submit s =>
      simp only [Request.effect]
      split
      · rw [OrderBook.submit_apply]
        split
        · exact .inr ⟨_, rfl, rfl⟩
        · exact .inl hn
      · exact .inl hn
  | cancel path headers =>
      refine .inl ?_
      simp only [Request.effect]
      cases cancelArgs P path headers with
      | error err => exact hn
      | ok args =>
          show b.cancel args.1 args.2 id = none
          by_cases hid : id = args.1
          · rw [hid, OrderBook.cancel_self, ← hid, hn, Option.map_none]
          · rw [OrderBook.cancel_of_ne hid, hn]
  | healthz => exact .inl hn
  | readyz => exact .inl hn
  | get path => exact .inl hn
  | list s b => exact .inl hn

/-- An order that enters the book with the requests is cancelled only if one of them authorized
it. -/
theorem effects_new : ∀ (reqs : List (Clock × Request)) {b : OrderBook} {e' : Entry},
    b id = none → Request.effects P reqs b id = some e' → e'.status = .cancelled →
      ∃ cr ∈ reqs, Authorizes P id e'.signed.order.owner cr.2
  | [], _, _, hn, he', _ => by
      rw [Request.effects, hn] at he'
      cases he'
  | (clock, req) :: reqs, _, e', hn, he', hc => by
      rcases effect_new (P := P) hn clock req with h | ⟨e, he, ho⟩
      · obtain ⟨cr, hcr, ha⟩ := effects_new reqs h he' hc
        exact ⟨cr, List.mem_cons_of_mem _ hcr, ha⟩
      · obtain ⟨e'', he'', hs, h⟩ := effects_entry reqs he
        have : e'' = e' := Option.some.inj (he''.symm.trans he')
        subst this
        rcases h.mp hc with h | ⟨-, cr, hcr, ha⟩
        · rw [ho] at h
          cases h
        · exact ⟨cr, List.mem_cons_of_mem _ hcr, by rwa [hs]⟩

end

/-! ### Cancellation over the API -/

section
variable {P : Primitives} {σ : Type} {R : OrderRepository σ} {Sound : σ → Prop}
  {book : σ → OrderBook}

/-- **Who cancels.**  An order that the requests leave cancelled, and that was not before, was
cancelled by a request that names its identifier in the path and its owner in `X-Owner`.  An order
that is open when the requests start ends up cancelled exactly if there is one. -/
theorem cancelled_iff_authorized (hR : Implements P R Sound book) {st : σ} (hs : Sound st)
    (reqs : List (Clock × Request)) (id : OrderId) :
    (∀ e', ¬ (book st).IsCancelled id → book (serveAll P R reqs st) id = some e' →
      e'.status = .cancelled → ∃ cr ∈ reqs, Authorizes P id e'.signed.order.owner cr.2) ∧
    ∀ e, book st id = some e → e.status = .opened →
      ((book (serveAll P R reqs st)).IsCancelled id ↔
        ∃ cr ∈ reqs, Authorizes P id e.signed.order.owner cr.2) := by
  rw [(serveAll_book hR reqs hs).2]
  refine ⟨fun e' hnc he' hc => ?_, fun e he ho => ?_⟩
  · cases hb : book st id with
    | none => exact effects_new reqs hb he' hc
    | some e =>
        obtain ⟨e'', he'', hsig, h⟩ := effects_entry (P := P) reqs hb
        have : e'' = e' := Option.some.inj (he''.symm.trans he')
        subst this
        rcases h.mp hc with h | ⟨-, h⟩
        · exact absurd ⟨e, hb, h⟩ hnc
        · rwa [hsig]
  · obtain ⟨e', he', -, h⟩ := effects_entry (P := P) reqs he
    constructor
    · rintro ⟨e'', he'', hc⟩
      have : e' = e'' := Option.some.inj (he'.symm.trans he'')
      subst this
      rcases h.mp hc with h | ⟨-, h⟩
      · rw [ho] at h
        cases h
      · exact h
    · exact fun ha => ⟨e', he', h.mpr (.inr ⟨ho, ha⟩)⟩

end

/-! ### A stranger -/

section
open Sample

/-- The store after alice has submitted an order. -/
def Sample.submitted : InMemoryOrderRepository :=
  (serve primitives Sample.memory ⟨0, 0⟩ (.submit (sign alice150)) .new).2

/-- The path of alice's order. -/
def Sample.path : String := (alice150.id primitives).toHex primitives

/-- The request of somebody who has read a record. -/
def Sample.cancelRead (r : OrderRecord) : Request :=
  .cancel (r.id.toHex primitives)
    [("x-owner", (r.signed.order.owner.display primitives).toList.map fun c => UInt8.ofNat c.toNat)]

/-- **A stranger cancels.**  Somebody who has read alice's order from the API cancels it with what
the API has told them. -/
theorem stranger_cancels : ∃ r,
    (serve primitives Sample.memory ⟨1, 0⟩ (.get Sample.path) Sample.submitted).1 = .record r ∧
    r.signed = sign alice150 ∧ r.status = .opened ∧
    (serve primitives Sample.memory ⟨2, 0⟩ (Sample.cancelRead r) Sample.submitted).1 = .noContent ∧
    (InMemoryOrderRepository.book (serveAll primitives Sample.memory
      [(⟨1, 0⟩, .get Sample.path), (⟨2, 0⟩, Sample.cancelRead r)] Sample.submitted)).IsCancelled
        r.id :=
  ⟨InMemoryOrderRepository.fresh primitives 0 (sign alice150), by decide +kernel, by decide +kernel,
    by decide +kernel, by decide +kernel, ⟨sign alice150, .cancelled, 0, 0⟩, by decide +kernel,
    by decide +kernel⟩

/-- The rule at alice's order and these requests: the `DELETE` names her, so her order is
cancelled. -/
theorem cancelled_iff_authorized_alice :
    (InMemoryOrderRepository.book (serveAll primitives Sample.memory
      [(⟨1, 0⟩, .get Sample.path), (⟨2, 0⟩, Sample.cancelRead
        (InMemoryOrderRepository.fresh primitives 0 (sign alice150)))]
      Sample.submitted)).IsCancelled (alice150.id primitives) :=
  ((cancelled_iff_authorized (InMemoryOrderRepository.implements primitives (.id _))
      (serve_book (InMemoryOrderRepository.implements primitives (.id _))
        InMemoryOrderRepository.filed_new ⟨0, 0⟩ (.submit (sign alice150))).1
      _ (alice150.id primitives)).2 ⟨sign alice150, .opened, 0, 0⟩ (by decide +kernel) rfl).mpr
    ⟨(⟨2, 0⟩, _), .tail _ (.head _), _, _, rfl, by decide +kernel⟩

end

end OxDex
