import OxDex.Node.Crashes
import OxDex.Storage.Documents

/-!
# Node — Durability

An order that has been accepted stays, whatever happens (`accepted_is_kept`).

A client posts a document that carries the JSON of a signed order.  If `insert` accepts it, then at
any later time, after requests, rounds and crashes, `GET` of its identifier answers a record, and
whoever reads the document of this record reads the order as it was signed.  The status may have
changed.

Of the repository this takes that it keeps its book and reports it (`Implements`, `Reports`) and
survives the crashes (`Survives`), which the one over a `JSONB` column does.
-/

namespace OxDex
open Support

/-- The step inserts the signed order, and the answer is the record. -/
def Accepts {σ : Type} (R : OrderRepository σ) (p : Node σ × Event) (s : SignedOrder)
    (r : OrderRecord) : Prop :=
  ∃ now, p.2 = .act (.api (.insert now s)) ∧ (R.insert now s p.1.store).1 = .ok r

/-- **The order is there, as it was signed**: `GET` of its identifier answers a record of it, and
this is what is read off a document that carries the record. -/
def Fetched {σ : Type} (P : Primitives) (R : OrderRepository σ) (instant : Nat → String)
    (s : SignedOrder) (st : σ) : Prop :=
  ∃ r, getOrder P R ((s.order.id P).toHex P) st = .record r ∧ r.id = s.order.id P ∧
    ∀ doc, Json.Carries (r.toJson P instant) doc → (SubmitBody.serde P).dec doc = some s

section
variable {P : Primitives}

/-- The identifier is read back from its hex form. -/
theorem parseOrderId_toHex (h : Encodings P) (id : OrderId) :
    parseOrderId P (id.toHex P) = .ok id := by
  simp only [parseOrderId, OrderId.toHex, h.hex, id.bytes.length_eq, dite_true]

variable {σ : Type} {R : OrderRepository σ} {A : Auctioneer} {Sound : σ → Prop}
  {book : σ → OrderBook} {finds : σ → σ → Prop} {n n' : Node σ}

/-- **No order leaves the book over a crash**, nor over a step. -/
theorem crash_keeps (hR : Implements P R Sound book) (hv : Survives finds Sound book)
    (hs : Sound n.store) {ev : Event} (h : CrashStep P R A finds n ev n') :
    Sound n'.store ∧ Keeps (book n.store) (book n'.store) := by
  cases h with
  | act h =>
      obtain ⟨hs', hb⟩ := step_book hR hs h
      exact ⟨hs', hb ▸ effect_keeps _ _ _⟩
  | crash clock hf =>
      obtain ⟨hs', hb⟩ := hv _ _ hf hs
      exact ⟨hs', hb ▸ .refl _⟩

/-- What is in the book is fetched. -/
theorem fetched_of_book (hF : Reports P R Sound book) (hE : Encodings P) {instant : Nat → String}
    {st : σ} (hs : Sound st) {s : SignedOrder} {e : Entry}
    (he : book st (s.order.id P) = some e) (hes : e.signed = s) : Fetched P R instant s st := by
  obtain ⟨r, hr, hid, rfl⟩ := hF.get _ _ _ hs he
  refine ⟨r, ?_, hid, fun doc hdoc => ?_⟩
  · simp only [getOrder, parseOrderId_toHex hE, hr]
  · rw [OrderRecord.signed_of_toJson hE hdoc]
    exact congrArg some hes

/-- **What is accepted is kept.**  A document that carries the submission of a signed order is read
as that order; and once a step of a run has accepted the order, it is fetched at the end of the run,
as it was signed, if the store survives the crashes. -/
theorem accepted_is_kept (hR : Implements P R Sound book) (hF : Reports P R Sound book)
    (hv : Survives finds Sound book) (hE : Encodings P) {instant : Nat → String} {st : σ}
    (hs : Sound st) {clock : Int64} {tr : List (Node σ × Event)}
    (h : (crashing P R A finds).Run (.boot st clock) tr n) {s : SignedOrder} {body : Json}
    (hbody : Json.Carries ((SubmitBody.serde P).enc s) body) :
    (SubmitBody.serde P).dec body = some s ∧
      ∀ p ∈ tr, ∀ r, Accepts R p s r → Fetched P R instant s n.store := by
  refine ⟨SubmitBody.serde_faithful hE s body hbody, ?_⟩
  have hsound : Sound n.store :=
    h.inv (S := crashing P R A finds) (I := fun n => Sound n.store)
      (fun _ _ _ hs hstep => (crash_keeps hR hv hs hstep).1) hs
  -- an accepted order is in the book, and every later step leaves it there
  have kept := (h.pairwise (S := crashing P R A finds) (I := fun n => Sound n.store)
    (C := fun _ _ => True) (Q := fun _ _ => True)
    (L := fun p n => ∀ r, Accepts R p s r → ∃ e, book n.store (s.order.id P) = some e ∧
      e.signed = s)
    (fun _ _ _ hs _ hstep => (crash_keeps hR hv hs hstep).1)
    (fun n ev n' hs _ hstep r ha => by
      obtain ⟨now, rfl, hr⟩ := ha
      cases hstep with
      | act hstep => cases hstep with
        | api hstep => cases hstep with
          | insert _ _ =>
              obtain ⟨hid, hsig, hb⟩ := hF.insert now s n.store r hs hr
              exact ⟨r.entry, hid ▸ hb, hsig⟩)
    (fun p n ev n' hs _ hp hstep r ha => by
      obtain ⟨e, he, hes⟩ := hp r ha
      obtain ⟨e', he', hes'⟩ := (crash_keeps hR hv hs hstep).2 _ e he
      exact ⟨e', he', hes'.trans hes⟩)
    (fun _ _ _ _ _ _ _ _ => trivial) (fun _ _ => trivial) hs).2
  intro p hp r ha
  obtain ⟨e, he, hes⟩ := kept p hp r ha
  exact fetched_of_book hF hE hsound he hes

end

/-! ### Over Postgres -/

namespace Sample

theorem jsonb_roundTrips : ∀ s,
    (JsonCodec.serde primitivesWire jsonb fun _ => "invalid type").RoundTrips s :=
  serde_roundTrips primitivesWire_encodings fun _ => carries_jsonb _

theorem alice150_submits : (sign alice150).order.validate 50 = .ok () ∧
    (sign alice150).verify primitivesWire = .ok () := by
  decide +kernel

/-- alice's order comes in, and the node goes down. -/
theorem accept_run : ∃ tr n,
    (crashing primitivesWire postgresWire auctioneer PgOrderRepository.finds).Run
      (.boot .new 50) tr n ∧
    ∃ p ∈ tr, ∃ r, Accepts postgresWire p (sign alice150) r := by
  obtain ⟨hval, hver⟩ := alice150_submits
  have hv := Step.api (A := auctioneer) (ApiStep.validate (P := primitivesWire) (R := postgresWire)
    ⟨.new, 50, [], .idle⟩ (sign alice150))
  rw [if_pos hval] at hv
  have hw := Step.api (A := auctioneer) (ApiStep.verify (P := primitivesWire) (R := postgresWire)
    ⟨.new, 50, [⟨sign alice150, false⟩], .idle⟩ List.mem_cons_self)
  simp only [List.erase_cons_head, if_pos hver] at hw
  let n : Node (PgOrderRepository Json) := ⟨.new, 50, [⟨sign alice150, true⟩], .idle⟩
  have hi := Step.api (A := auctioneer) (ApiStep.insert (P := primitivesWire) (R := postgresWire)
    n 1 List.mem_cons_self)
  have hr : (postgresWire.insert 1 (sign alice150) n.store).1 =
      .ok (InMemoryOrderRepository.fresh primitivesWire 1 (sign alice150)).toMicros :=
    (insert_mirrors_none (mirrors_new _) (jsonb_roundTrips _) 1 rfl).1
  refine ⟨_, _, .more (.act hv) (.more (.act hw) (.more (.act hi) (.one (.crash 60 rfl)))),
    (n, .act (.api (.insert 1 (sign alice150)))), .tail _ (.tail _ (.head _)), _, 1, rfl, hr⟩

end Sample

section
open Sample

/-- After the crash alice's order is there, as she signed it. -/
theorem accepted_is_kept_alice : ∃ tr n,
    (crashing primitivesWire postgresWire auctioneer PgOrderRepository.finds).Run
      (.boot .new 50) tr n ∧
    Fetched primitivesWire postgresWire toString (sign alice150) n.store := by
  obtain ⟨tr, n, h, p, hp, r, ha⟩ := accept_run
  exact ⟨tr, n, h, (accepted_is_kept
    (PgOrderRepository.implements primitivesWire _ jsonb_roundTrips _)
    (PgOrderRepository.reports primitivesWire _ jsonb_roundTrips _)
    (PgOrderRepository.survives _ _) primitivesWire_encodings
    (PgOrderRepository.sound_new _ _) h (carries_jsonb _)).2 p hp r ha⟩

end

end OxDex
