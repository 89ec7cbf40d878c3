import OxDex.IntentPool.Handlers
import OxDex.Storage.Postgres

/-!
# Intent pool — Service

What the API is to its clients: a service over an order book.

`Contract` is what it promises.  A request that is wrong in itself is refused, whatever the book
holds (`Request.refusal`); any other is answered from the book.  `Answers` is what this asks of the
repository's return values, beside what `Implements` asks of its stores, and `serve_answer` says
that a handler over such a repository keeps the contract.

The in-memory store and Postgres are both such repositories.  Where they differ is `unknown`: what
they say to a cancellation of an order that is not there, which makes a `DELETE` answer 404 over the
one and 409 over the other.
-/

namespace OxDex
open Support

/-- The error of a check. -/
def errorOf {α : Type} : Except OxDexError α → Option OxDexError
  | .error e => some e
  | .ok _ => none

/-- The order is of the pair, if one is asked for. -/
def OfPair (pair : Option (Address × Address)) (o : Order) : Prop :=
  ∀ p ∈ pair, o.sellMint = p.1 ∧ o.buyMint = p.2

/-- The records are those of the book's open orders of the pair, each once. -/
structure OrderBook.Lists (b : OrderBook) (pair : Option (Address × Address))
    (rs : List OrderRecord) : Prop where
  nodup : (rs.map OrderRecord.id).Nodup
  sound : ∀ r ∈ rs, b r.id = some r.entry ∧ r.status = .opened ∧ OfPair pair r.signed.order
  complete : ∀ id e, b id = some e → e.status = .opened → OfPair pair e.signed.order →
    id ∈ rs.map OrderRecord.id

section
variable (P : Primitives)

/-- What is wrong with a request in itself, at this second. -/
def Request.refusal (secs : Int64) : Request → Option OxDexError
  | .healthz | .readyz => none
  | .submit s => (errorOf (s.order.validate secs)).or (errorOf (s.verify P))
  | .get path => errorOf (parseOrderId P path)
  | .list sellMint buyMint => errorOf (parsePair P sellMint buyMint)
  | .cancel path headers => errorOf (cancelArgs P path headers)

/-- The answer to a `DELETE` whose call of `cancel` returns this. -/
def cancelAnswer : RepoResult Bool → Response
  | .error e => apiError (e.toOxDexError P)
  | .ok true => .noContent
  | .ok false => apiError (.conflict "not cancellable")

/-- **The contract of the API**: what is answered to a request, on a book, at a clock reading. -/
inductive Contract (unknown : OrderId → RepoResult Bool) (clock : Clock) (b : OrderBook) :
    Request → Response → Prop where
  | healthz : Contract unknown clock b .healthz (.text "ok")
  | readyz : Contract unknown clock b .readyz (.text "ready")
  | refused {req : Request} {e : OxDexError} (h : req.refusal P clock.secs = some e) :
      Contract unknown clock b req (apiError e)
  | new {s : SignedOrder} (h : (Request.submit s).refusal P clock.secs = none)
      (hb : b (s.order.id P) = none) :
      Contract unknown clock b (.submit s) (.created (s.order.id P) OrderStatus.opened.asStr)
  | again {s : SignedOrder} {e : Entry} (h : (Request.submit s).refusal P clock.secs = none)
      (hb : b (s.order.id P) = some e) (hs : e.signed = s) :
      Contract unknown clock b (.submit s) (.created (s.order.id P) e.status.asStr)
  | taken {s : SignedOrder} {e : Entry} (h : (Request.submit s).refusal P clock.secs = none)
      (hb : b (s.order.id P) = some e) (hs : e.signed ≠ s) :
      Contract unknown clock b (.submit s)
        (apiError ((RepoError.duplicate (s.order.id P)).toOxDexError P))
  | record {path : String} {e : Entry} {r : OrderRecord} (h : parseOrderId P path = .ok r.id)
      (hb : b r.id = some e) (he : r.entry = e) : Contract unknown clock b (.get path) (.record r)
  | missing {path : String} {id : OrderId} (h : parseOrderId P path = .ok id) (hb : b id = none) :
      Contract unknown clock b (.get path) (apiError ((RepoError.notFound id).toOxDexError P))
  | listed {sellMint buyMint : Option String} {pair : Option (Address × Address)}
      {rs : List OrderRecord} (h : parsePair P sellMint buyMint = .ok pair)
      (hl : b.Lists pair rs) : Contract unknown clock b (.list sellMint buyMint) (.records rs)
  | cancelled {path : String} {headers : Headers} {id : OrderId} {owner : Address}
      (h : cancelArgs P path headers = .ok (id, owner)) (hc : b.Cancellable id owner) :
      Contract unknown clock b (.cancel path headers) .noContent
  | kept {path : String} {headers : Headers} {id : OrderId} {owner : Address} {e : Entry}
      (h : cancelArgs P path headers = .ok (id, owner)) (hb : b id = some e)
      (hc : ¬ b.Cancellable id owner) :
      Contract unknown clock b (.cancel path headers) (apiError (.conflict "not cancellable"))
  | unknown {path : String} {headers : Headers} {id : OrderId} {owner : Address}
      (h : cancelArgs P path headers = .ok (id, owner)) (hb : b id = none) :
      Contract unknown clock b (.cancel path headers) (cancelAnswer P (unknown id))

/-- **The repository answers from the book.** -/
structure Answers {σ : Type} (R : OrderRepository σ) (Sound : σ → Prop) (book : σ → OrderBook)
    (unknown : OrderId → RepoResult Bool) : Prop where
  insert_new : ∀ now s st, Sound st → book st (s.order.id P) = none →
    ∃ r, (R.insert now s st).1 = .ok r ∧ r.id = s.order.id P ∧ r.status = .opened
  insert_again : ∀ now s st e, Sound st → book st (s.order.id P) = some e → e.signed = s →
    ∃ r, (R.insert now s st).1 = .ok r ∧ r.id = s.order.id P ∧ r.status = e.status
  insert_taken : ∀ now s st e, Sound st → book st (s.order.id P) = some e → e.signed ≠ s →
    (R.insert now s st).1 = .error (.duplicate (s.order.id P))
  get_some : ∀ id st e, Sound st → book st id = some e →
    ∃ r, R.get id st = .ok r ∧ r.id = id ∧ r.entry = e
  get_none : ∀ id st, Sound st → book st id = none → R.get id st = .error (.notFound id)
  listOpen : ∀ pair st, Sound st → ∃ rs, R.listOpen pair st = .ok rs ∧ (book st).Lists pair rs
  cancel_some : ∀ now id owner st e, Sound st → book st id = some e →
    ¬ (book st).Cancellable id owner → (R.cancel now id owner st).1 = .ok false
  cancel_none : ∀ now id owner st, Sound st → book st id = none →
    (R.cancel now id owner st).1 = unknown id

end

/-! ### The handlers keep the contract -/

section
variable {P : Primitives} {σ : Type} {R : OrderRepository σ} {Sound : σ → Prop}
  {book : σ → OrderBook} {unknown : OrderId → RepoResult Bool}

/-- What `insert` returns is the answer to a submission that has passed the checks. -/
theorem insert_answer (hA : Answers P R Sound book unknown) {st : σ} (hs : Sound st) (clock : Clock)
    {s : SignedOrder} (h : (Request.submit s).refusal P clock.secs = none) :
    Contract P unknown clock (book st) (.submit s) (match (R.insert clock.nanos s st).1 with
      | .error e => apiError (e.toOxDexError P)
      | .ok rec => .created rec.id rec.status.asStr) := by
  cases hb : book st (s.order.id P) with
  | none =>
      obtain ⟨r, hr, hid, hst⟩ := hA.insert_new clock.nanos s st hs hb
      simp only [hr, hid, hst]
      exact .new h hb
  | some e =>
      by_cases hse : e.signed = s
      · obtain ⟨r, hr, hid, hst⟩ := hA.insert_again clock.nanos s st e hs hb hse
        simp only [hr, hid, hst]
        exact .again h hb hse
      · simp only [hA.insert_taken clock.nanos s st e hs hb hse]
        exact .taken h hb hse

/-- What `cancel` returns is the answer to a `DELETE`. -/
theorem cancel_answer (hR : Implements P R Sound book) (hA : Answers P R Sound book unknown)
    {st : σ} (hs : Sound st) (clock : Clock) {path : String} {headers : Headers} {id : OrderId}
    {owner : Address} (h : cancelArgs P path headers = .ok (id, owner)) :
    Contract P unknown clock (book st) (.cancel path headers)
      (cancelAnswer P (R.cancel clock.nanos id owner st).1) := by
  by_cases hc : (book st).Cancellable id owner
  · rw [(hR.cancel clock.nanos id owner st hs).2.2.mpr hc]
    exact .cancelled h hc
  · cases hb : book st id with
    | none =>
        rw [hA.cancel_none clock.nanos id owner st hs hb]
        exact .unknown h hb
    | some e =>
        rw [hA.cancel_some clock.nanos id owner st e hs hb hc]
        exact .kept h hb hc

/-- **Every handler keeps the contract.** -/
theorem serve_answer (hR : Implements P R Sound book) (hA : Answers P R Sound book unknown) {st : σ}
    (hs : Sound st) (clock : Clock) (req : Request) :
    Contract P unknown clock (book st) req (serve P R clock req st).1 := by
  cases req with
  | healthz => exact .healthz
  | readyz =>
      obtain ⟨rs, hrs, -⟩ := hA.listOpen none st hs
      simp only [serve, OxDex.readyz, hrs]
      exact .readyz
  | get path =>
      simp only [serve, getOrder]
      cases hid : parseOrderId P path with
      | error e => exact .refused (by rw [Request.refusal, hid]; rfl)
      | ok id =>
          cases hb : book st id with
          | none =>
              simp only [hA.get_none id st hs hb]
              exact .missing hid hb
          | some e =>
              obtain ⟨r, hr, rfl, he⟩ := hA.get_some id st e hs hb
              simp only [hr]
              exact .record hid hb he
  | list sellMint buyMint =>
      simp only [serve, listOrders]
      cases hp : parsePair P sellMint buyMint with
      | error e => exact .refused (by rw [Request.refusal, hp]; rfl)
      | ok pair =>
          obtain ⟨rs, hrs, hl⟩ := hA.listOpen pair st hs
          simp only [hrs]
          exact .listed hp hl
  | submit s =>
      simp only [serve, submitOrder]
      cases hv : s.order.validate clock.secs with
      | error e => exact .refused (by rw [Request.refusal, hv]; rfl)
      | ok _ =>
          cases hsig : s.verify P with
          | error e => exact .refused (by rw [Request.refusal, hv, hsig]; rfl)
          | ok _ =>
              have h := insert_answer hA hs clock (s := s) (by rw [Request.refusal, hv, hsig]; rfl)
              obtain ⟨res, st', hst⟩ : ∃ res st', R.insert clock.nanos s st = (res, st') :=
                ⟨_, _, rfl⟩
              rw [hst] at h
              cases res with
              | error e => simp only [hst]; exact h
              | ok rec => simp only [hst]; exact h
  | cancel path headers =>
      simp only [serve, cancelOrder]
      cases hargs : cancelArgs P path headers with
      | error e => exact .refused (by rw [Request.refusal, hargs]; rfl)
      | ok args =>
          obtain ⟨id, owner⟩ := args
          have h := cancel_answer hR hA hs clock hargs
          obtain ⟨res, st', hst⟩ : ∃ res st', R.cancel clock.nanos id owner st = (res, st') :=
            ⟨_, _, rfl⟩
          rw [hst] at h
          rcases res with e | _ | _ <;> simp only [hst] <;> exact h

end

/-! ### The repositories answer from the book -/

namespace InMemoryOrderRepository
variable {P : Primitives} {st : InMemoryOrderRepository}

theorem ofPair_iff {pair : Option (Address × Address)} {r : OrderRecord} :
    ofPair pair r = true ↔ OfPair pair r.signed.order := by
  cases pair <;> simp [ofPair, OfPair]

/-- The open records of a pair, in any order and with any times, are a listing. -/
theorem lists_of_iff (h : Filed P st) {pair : Option (Address × Address)} {rs : List OrderRecord}
    {f : OrderRecord → OrderRecord} (hf : ∀ r, (f r).id = r.id ∧ (f r).entry = r.entry)
    (hn : (rs.map OrderRecord.id).Nodup)
    (hrs : ∀ r', r' ∈ rs ↔
      ∃ r ∈ st.inner.values, (r.status = .opened ∧ ofPair pair r = true) ∧ f r = r') :
    st.book.Lists pair rs where
  nodup := hn
  sound := by
    intro r' hr'
    obtain ⟨r, hr, ⟨ho, hp⟩, rfl⟩ := (hrs r').mp hr'
    obtain ⟨id, hid⟩ := Table.mem_values_iff.mp hr
    obtain ⟨rfl, -⟩ := h id r hid
    have hentry := (hf r).2
    refine ⟨?_, (congrArg Entry.status hentry).trans ho, ?_⟩
    · rw [(hf r).1, hentry, book, hid, Option.map_some]
    · rw [show (f r).signed = r.signed from congrArg Entry.signed hentry]
      exact ofPair_iff.mp hp
  complete := by
    intro id e he ho hp
    obtain ⟨r, hr, rfl⟩ := book_eq_some.mp he
    have hmem : f r ∈ rs := (hrs _).mpr
      ⟨r, Table.mem_values_iff.mpr ⟨id, hr⟩, ⟨ho, ofPair_iff.mpr hp⟩, rfl⟩
    exact List.mem_map.mpr ⟨_, hmem, (hf r).1.trans (h id r hr).1⟩

/-- **The in-memory repository answers from the book**, and says of an order that is not there that
it is not found. -/
theorem answers (P : Primitives) (iter : IterOrder OrderRecord) :
    Answers P (repository P iter) (Filed P) book fun id => .error (.notFound id) where
  insert_new := by
    intro now s st _ hb
    exact ⟨_, congrArg Prod.fst (insert_of_none (Option.map_eq_none_iff.mp hb)), rfl, rfl⟩
  insert_again := by
    intro now s st e hs hb he
    obtain ⟨r, hr, rfl⟩ := book_eq_some.mp hb
    refine ⟨r, (congrArg Prod.fst (insert_of_some hr)).trans ?_, (hs _ r hr).1, rfl⟩
    exact if_pos he
  insert_taken := by
    intro now s st e _ hb he
    obtain ⟨r, hr, rfl⟩ := book_eq_some.mp hb
    exact (congrArg Prod.fst (insert_of_some hr)).trans (if_neg he)
  get_some := by
    intro id st e hs hb
    obtain ⟨r, hr, rfl⟩ := book_eq_some.mp hb
    exact ⟨r, by simp only [repository, get, hr], (hs id r hr).1, rfl⟩
  get_none := by
    intro id st _ hb
    simp only [repository, get, Option.map_eq_none_iff.mp hb]
  listOpen := by
    intro pair st hs
    obtain ⟨rs, hrs, hn, -⟩ := filed_listOpen hs iter
    cases hrs
    have hall (l : List OrderRecord) : l.filter (ofPair none) = l :=
      List.filter_eq_self.mpr fun _ _ => rfl
    rw [hall] at hn
    refine ⟨_, rfl, lists_of_iff hs (f := id) (fun _ => ⟨rfl, rfl⟩)
      (hn.sublist (List.filter_sublist.map _)) fun r' => ?_⟩
    simp only [List.mem_filter, iter.mem_iter, decide_eq_true_eq, id_eq, and_assoc]
    constructor
    · rintro ⟨hr, ho, hp⟩
      exact ⟨r', hr, ho, hp, rfl⟩
    · rintro ⟨r, hr, ho, hp, rfl⟩
      exact ⟨hr, ho, hp⟩
  cancel_some := by
    intro now id owner st e _ hb hc
    obtain ⟨r, hr, rfl⟩ := book_eq_some.mp hb
    refine (congrArg Prod.fst (cancel_of_some hr)).trans ?_
    rw [if_neg (fun h : r.status = .opened ∧ r.signed.order.owner = owner => hc ⟨_, hb, h⟩)]
  cancel_none := by
    intro now id owner st _ hb
    exact congrArg Prod.fst (cancel_of_none (Option.map_eq_none_iff.mp hb))

end InMemoryOrderRepository

/-- **Postgres answers from the book**, and says of an order that is not there that it has not been
cancelled. -/
theorem PgOrderRepository.answers {J : Type} (P : Primitives) (codec : JsonCodec J)
    (hj : ∀ s, codec.RoundTrips s) (iter : IterOrder (List UInt8 × Row J)) :
    Answers P (repository P codec iter) (Sound P codec) (book codec) fun _ => .ok false where
  insert_new := by
    rintro now s pg ⟨mem, hf, h⟩ hb
    rw [book_mirrors h] at hb
    exact ⟨_, (insert_mirrors_none h (hj s) now (Option.map_eq_none_iff.mp hb)).1, rfl, rfl⟩
  insert_again := by
    rintro now s pg e ⟨mem, hf, h⟩ hb he
    rw [book_mirrors h] at hb
    obtain ⟨r, hr, rfl⟩ := InMemoryOrderRepository.book_eq_some.mp hb
    refine ⟨r.toMicros, (insert_mirrors_some h (hj s) now hr).1.trans ?_, (hf _ r hr).1, rfl⟩
    exact if_pos he
  insert_taken := by
    rintro now s pg e ⟨mem, hf, h⟩ hb he
    rw [book_mirrors h] at hb
    obtain ⟨r, hr, rfl⟩ := InMemoryOrderRepository.book_eq_some.mp hb
    exact (insert_mirrors_some h (hj s) now hr).1.trans (if_neg he)
  get_some := by
    rintro id pg e ⟨mem, hf, h⟩ hb
    rw [book_mirrors h] at hb
    obtain ⟨r, hr, rfl⟩ := InMemoryOrderRepository.book_eq_some.mp hb
    exact ⟨r.toMicros, get_of_some h hr, (hf id r hr).1, rfl⟩
  get_none := by
    rintro id pg ⟨mem, hf, h⟩ hb
    rw [book_mirrors h] at hb
    exact get_of_none h (Option.map_eq_none_iff.mp hb)
  listOpen := by
    rintro pair pg ⟨mem, hf, h⟩
    obtain ⟨rs, hrs, hn, hmem⟩ := listOpen_mirrors h iter pair
    refine ⟨rs, hrs, ?_⟩
    rw [book_mirrors h]
    exact InMemoryOrderRepository.lists_of_iff hf (f := OrderRecord.toMicros)
      (fun _ => ⟨rfl, rfl⟩) hn hmem
  cancel_some := by
    rintro now id owner pg e ⟨mem, hf, h⟩ hb hc
    rw [book_mirrors h] at hb hc
    obtain ⟨r, hr, rfl⟩ := InMemoryOrderRepository.book_eq_some.mp hb
    have hm := (cancel_mirrors h now id owner).1.mpr (by rw [hr]; rfl)
    refine hm.symm.trans ((congrArg Prod.fst (InMemoryOrderRepository.cancel_of_some hr)).trans ?_)
    rw [if_neg (fun h : r.status = .opened ∧ r.signed.order.owner = owner => hc ⟨_, hb, h⟩)]
  cancel_none := by
    rintro now id owner pg ⟨mem, hf, h⟩ hb
    rw [book_mirrors h] at hb
    have hn : mem.inner.find? id = none := Option.map_eq_none_iff.mp hb
    have hm := (cancel_mirrors h now id owner).2.1.mp
    rw [InMemoryOrderRepository.cancel_of_none hn] at hm
    show (PgOrderRepository.cancel now id owner pg).1 = .ok false
    cases hc : (PgOrderRepository.cancel now id owner pg).1 with
    | error e => cases hc
    | ok done =>
        cases done with
        | false => rfl
        | true => cases hm hc

end OxDex
