import OxDex.Storage.Postgres
import OxDex.Types.Wire

/-!
# Storage — Documents

The documents of the store (`oxdex-storage`: `repository.rs`, `postgres.rs`): the JSON of a record,
and the `JSONB` column in which Postgres keeps a signed order.

A `JSONB` column keeps a document, not its text: it gives the fields back in an order of its own.
What Postgres reads is still what was stored (`serde_roundTrips`), so it keeps the book.

`Reports` is what the answers of a repository say of its book: an accepted order is in it as it was
signed, and what is in it is found.
-/

namespace OxDex
open Support

section
variable (P : Primitives)

/-- `Serialize` for `OrderRecord`, with the text of a `DateTime<Utc>`. -/
def OrderRecord.toJson (instant : Nat → String) (r : OrderRecord) : Json :=
  .obj [("id", OrderId.serde.enc r.id), ("signed", (SignedOrder.serde P).enc r.signed),
    ("status", .str r.status.asStr), ("filled_sell", u64Serde.enc r.filledSell),
    ("filled_buy", u64Serde.enc r.filledBuy), ("created_at", .str (instant r.createdAt)),
    ("updated_at", .str (instant r.updatedAt))]

/-- `serde_json::to_value` into the column, and `from_value` of what the column gives back. -/
def JsonCodec.serde (column : Json → Json) (errorText : Json → String) : JsonCodec Json where
  toValue s := .ok (column ((SignedOrder.serde P).enc s))
  fromValue j :=
    match (SignedOrder.serde P).dec j with
    | some s => .ok s
    | none => .error (errorText j)

end

section
variable {P : Primitives} (h : Encodings P)
include h

/-- **The signed order is read off the JSON of its record** as off a submission. -/
theorem OrderRecord.signed_of_toJson {instant : Nat → String} {r : OrderRecord} {doc : Json}
    (hdoc : Json.Carries (r.toJson P instant) doc) :
    (SubmitBody.serde P).dec doc = some r.signed :=
  SubmitBody.serde_faithful h r.signed doc <| hdoc.part fun name v hv => by
    obtain rfl : name = "signed" := by
      by_contra hn
      simp [Json.field, Record.field, Ne.symm hn] at hv
    exact hv

/-- **A signed order comes back from the column**, if the column keeps what the document has. -/
theorem serde_roundTrips {column : Json → Json} {errorText : Json → String}
    (hc : ∀ s, Json.Carries ((SignedOrder.serde P).enc s) (column ((SignedOrder.serde P).enc s)))
    (s : SignedOrder) : (JsonCodec.serde P column errorText).RoundTrips s := by
  refine ⟨_, rfl, ?_⟩
  simp only [JsonCodec.serde, SignedOrder.serde_faithful h s _ (hc s)]

end

/-! ### What the answers say of the book -/

/-- **The repository reports its book.**  The record of an accepted order is in the book, as the
order was signed, and what is in the book is found. -/
structure Reports {σ : Type} (P : Primitives) (R : OrderRepository σ) (Sound : σ → Prop)
    (book : σ → OrderBook) : Prop where
  insert : ∀ now s st r, Sound st → (R.insert now s st).1 = .ok r →
    r.id = s.order.id P ∧ r.signed = s ∧ book (R.insert now s st).2 r.id = some r.entry
  get : ∀ id st e, Sound st → book st id = some e → ∃ r, R.get id st = .ok r ∧ r.id = id ∧
    r.entry = e

/-- **The in-memory repository reports its book.** -/
theorem InMemoryOrderRepository.reports (P : Primitives) (iter : IterOrder OrderRecord) :
    Reports P (repository P iter) (Filed P) book where
  insert := by
    intro now s st r hf hr
    show r.id = _ ∧ _ ∧ book (insert P now s st).2 r.id = _
    change (insert P now s st).1 = .ok r at hr
    cases hs : st.inner.find? (s.order.id P) with
    | none =>
        rw [insert_of_none hs] at hr ⊢
        cases hr
        exact ⟨rfl, rfl, book_eq_some.mpr ⟨_, (Table.find?_insertNew hs).trans (if_pos rfl), rfl⟩⟩
    | some o =>
        rw [insert_of_some hs] at hr ⊢
        dsimp only at hr
        split at hr
        · next hsig =>
            cases hr
            have hid := (hf _ _ hs).1
            exact ⟨hid, hsig, book_eq_some.mpr ⟨_, hid ▸ hs, rfl⟩⟩
        · cases hr
  get := by
    intro id st e hf he
    obtain ⟨r, hr, rfl⟩ := book_eq_some.mp he
    refine ⟨r, ?_, (hf _ _ hr).1, rfl⟩
    show get id st = _
    simp only [get, hr]

namespace PgOrderRepository

variable {J : Type}

/-- **Postgres reports its book**, where signed orders come back from JSON as they went in. -/
theorem reports (P : Primitives) (codec : JsonCodec J) (hj : ∀ s, codec.RoundTrips s)
    (iter : IterOrder (List UInt8 × Row J)) :
    Reports P (repository P codec iter) (Sound P codec) (book codec) where
  insert := by
    rintro now s pg r ⟨mem, hf, h⟩ hr
    change (insert P codec now s pg).1 = .ok r at hr
    show r.id = _ ∧ _ ∧ book codec (insert P codec now s pg).2 r.id = _
    have hm := insert_mirrors (P := P) h (hj s) now
    rw [book_mirrors hm]
    have hmem := (InMemoryOrderRepository.reports P (.id _)).insert now s mem
    cases hs : mem.inner.find? (s.order.id P) with
    | none =>
        rw [(insert_mirrors_none h (hj s) now hs).1] at hr
        cases hr
        exact hmem (InMemoryOrderRepository.fresh P now s) hf
          (congrArg Prod.fst (InMemoryOrderRepository.insert_of_none hs))
    | some o =>
        rw [(insert_mirrors_some h (hj s) now hs).1] at hr
        split at hr
        · next hsig =>
            cases hr
            refine hmem o hf ((congrArg Prod.fst
              (InMemoryOrderRepository.insert_of_some hs)).trans (if_pos hsig))
        · cases hr
  get := by
    rintro id pg e ⟨mem, hf, h⟩ he
    rw [book_mirrors h] at he
    obtain ⟨r, hr, rfl⟩ := InMemoryOrderRepository.book_eq_some.mp he
    exact ⟨r.toMicros, get_of_some h hr, (hf _ _ hr).1, rfl⟩

end PgOrderRepository

/-! ### A column -/

namespace Sample

/-- Shorter names come first. -/
def sortFields (fs : List (String × Json)) : List (String × Json) :=
  fs.insertionSort fun f g => f.1.length < g.1.length ∨ (f.1.length = g.1.length ∧ f.1 ≤ g.1)

/-- What `JSONB` gives back, as deep as the document of a signed order is. -/
def jsonb : Json → Json
  | .obj fs => .obj <| sortFields <| fs.map fun f =>
      (f.1, match f.2 with
        | .obj gs => .obj (sortFields gs)
        | j => j)
  | j => j

theorem perm_sortFields (fs : List (String × Json)) : (fs ++ []).Perm (sortFields fs) := by
  rw [List.append_nil]
  exact (List.perm_insertionSort _ fs).symm

theorem carries_sortFields (fs : List (String × Json)) :
    Json.Carries (.obj fs) (.obj (sortFields fs)) :=
  .reordered (List.forall₂_same.mpr fun _ _ => ⟨rfl, .refl _⟩) (perm_sortFields fs)
    fun _ _ => List.not_mem_nil

/-- The column keeps what the document has. -/
theorem carries_jsonb (j : Json) : Json.Carries j (jsonb j) := by
  cases j with
  | obj fs =>
      refine .reordered ?_ (perm_sortFields _) fun _ _ => List.not_mem_nil
      rw [List.forall₂_map_right_iff]
      refine List.forall₂_same.mpr fun f _ => ⟨rfl, ?_⟩
      dsimp only
      split
      · next gs hg => exact hg ▸ carries_sortFields gs
      · exact .refl _
  | _ => exact .refl _

/-- The Postgres repository, over such a column. -/
def postgresWire : OrderRepository (PgOrderRepository Json) :=
  PgOrderRepository.repository primitivesWire (.serde primitivesWire jsonb fun _ => "invalid type")
    (.id _)

end Sample

end OxDex
