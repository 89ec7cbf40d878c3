import OxDex.Support.Table
import OxDex.Types.Solution

/-!
# Storage — Repository

The repository trait (`oxdex-storage`: `repository.rs`) and what it is for.

`OrderRepository σ` is the trait over a store of type `σ`: every method takes the store it runs on,
and those that write take the clock reading they stamp records with and return the store they
leave.

`OrderBook` is the purpose of a repository in its own terms: which orders are there, in which
status, with which filled amounts.  `Implements` says that a repository keeps such a book: every
method changes the book as the book's own operation does.  The results about the node's lifecycle
are proved of every repository that implements the book.
-/

namespace OxDex

/-- `OrderRecord`.  Times are in nanoseconds since the Unix epoch. -/
structure OrderRecord where
  id : OrderId
  signed : SignedOrder
  status : OrderStatus
  filledSell : UInt64
  filledBuy : UInt64
  createdAt : Nat
  updatedAt : Nat
  deriving DecidableEq

/-- `RepoError`. -/
inductive RepoError where
  | duplicate (id : OrderId)
  | notFound (id : OrderId)
  | backend (msg : String)
  deriving DecidableEq

/-- `From<RepoError> for OxDexError`. -/
def RepoError.toOxDexError (P : Primitives) : RepoError → OxDexError
  | .duplicate id => .conflict ("order " ++ id.toHex P ++ " exists")
  | .notFound id => .notFound ("order " ++ id.toHex P)
  | .backend s => .storage s

/-- `RepoResult`. -/
abbrev RepoResult (α : Type) := Except RepoError α

/-- `OrderRepository`, over stores of type `σ`.  The first argument of a method that writes is its
reading of the clock; `expireDue` is also given the seconds to expire by. -/
structure OrderRepository (σ : Type) where
  insert : Nat → SignedOrder → σ → RepoResult OrderRecord × σ
  get : OrderId → σ → RepoResult OrderRecord
  listOpen : Option (Address × Address) → σ → RepoResult (List OrderRecord)
  updateStatus : Nat → OrderId → OrderStatus → Option UInt64 → Option UInt64 → σ →
    RepoResult Unit × σ
  cancel : Nat → OrderId → Address → σ → RepoResult Bool × σ
  expireDue : Nat → Int64 → σ → RepoResult Nat × σ

/-! ### The order book -/

/-- What the book holds of an order. -/
structure Entry where
  signed : SignedOrder
  status : OrderStatus
  filledSell : UInt64
  filledBuy : UInt64
  deriving DecidableEq

/-- The book: an entry for every order that was ever inserted. -/
abbrev OrderBook := OrderId → Option Entry

namespace OrderBook

/-- A new order enters as open; an order that is there is left as it is. -/
def submit (P : Primitives) (b : OrderBook) (s : SignedOrder) : OrderBook :=
  if b (s.order.id P) = none then Function.update b (s.order.id P) (some ⟨s, .opened, 0, 0⟩) else b

/-- Set an order's status, and its filled amounts where they are given. -/
def mark (b : OrderBook) (id : OrderId) (status : OrderStatus) (fs fb : Option UInt64) :
    OrderBook :=
  Function.update b id ((b id).map fun e =>
    { e with
      status := status, filledSell := fs.getD e.filledSell, filledBuy := fb.getD e.filledBuy })

/-- `id` is open and belongs to `owner`. -/
def Cancellable (b : OrderBook) (id : OrderId) (owner : Address) : Prop :=
  ∃ e, b id = some e ∧ e.status = .opened ∧ e.signed.order.owner = owner

/-- Cancel an open order of `owner`. -/
def cancel (b : OrderBook) (id : OrderId) (owner : Address) : OrderBook :=
  Function.update b id ((b id).map fun e =>
    if e.status = .opened ∧ e.signed.order.owner = owner then { e with status := .cancelled }
    else e)

/-- An open entry whose order is no longer valid at `now`. -/
def Due (now : Int64) (e : Entry) : Prop := e.status = .opened ∧ e.signed.order.validTo ≤ now

instance (now : Int64) (e : Entry) : Decidable (Due now e) := inferInstanceAs (Decidable (_ ∧ _))

/-- Expire every entry that is due. -/
def sweep (b : OrderBook) (now : Int64) : OrderBook := fun id =>
  (b id).map fun e => if Due now e then { e with status := .expired } else e

/-- The order is there, and cancelled. -/
def IsCancelled (b : OrderBook) (id : OrderId) : Prop := ∃ e, b id = some e ∧ e.status = .cancelled

/-- The order is there, and no longer open. -/
def Gone (b : OrderBook) (id : OrderId) : Prop := ∃ e, b id = some e ∧ e.status ≠ .opened

variable {P : Primitives} {b : OrderBook} {id id' : OrderId}

theorem submit_apply (s : SignedOrder) : b.submit P s id =
    if s.order.id P = id ∧ b id = none then some ⟨s, .opened, 0, 0⟩ else b id := by
  unfold submit
  by_cases e : s.order.id P = id
  · subst e
    by_cases h : b (s.order.id P) = none
    · simp [h]
    · simp [h]
  · split
    · rw [Function.update_of_ne (Ne.symm e), if_neg (fun h => e h.1)]
    · rw [if_neg (fun h => e h.1)]

@[simp] theorem mark_self (status : OrderStatus) (fs fb : Option UInt64) :
    b.mark id status fs fb id = (b id).map fun e =>
      { e with
        status := status, filledSell := fs.getD e.filledSell, filledBuy := fb.getD e.filledBuy } :=
  Function.update_self ..

theorem mark_of_ne (h : id' ≠ id) (status : OrderStatus) (fs fb : Option UInt64) :
    b.mark id status fs fb id' = b id' :=
  Function.update_of_ne h ..

@[simp] theorem cancel_self (owner : Address) : b.cancel id owner id = (b id).map fun e =>
    if e.status = .opened ∧ e.signed.order.owner = owner then { e with status := .cancelled }
    else e :=
  Function.update_self ..

theorem cancel_of_ne (h : id' ≠ id) (owner : Address) : b.cancel id owner id' = b id' :=
  Function.update_of_ne h ..

/-- An entry that is there survives a submission as it is. -/
theorem submit_of_some {e : Entry} (h : b id = some e) (s : SignedOrder) :
    b.submit P s id = some e := by
  rw [submit_apply, if_neg (fun hn => by rw [h] at hn; cases hn.2), h]

/-- An entry that is no longer open survives a cancellation as it is. -/
theorem cancel_of_gone {e : Entry} (h : b id = some e) (he : e.status ≠ .opened) (id' : OrderId)
    (owner : Address) : b.cancel id' owner id = some e := by
  by_cases hid : id = id'
  · subst hid
    rw [cancel_self, h, Option.map_some, if_neg (fun hc => he hc.1)]
  · rw [cancel_of_ne hid, h]

/-- And a sweep. -/
theorem sweep_of_gone {e : Entry} (h : b id = some e) (he : e.status ≠ .opened) (now : Int64) :
    b.sweep now id = some e := by
  rw [sweep, h, Option.map_some, if_neg (fun hd : Due now e => he hd.1)]

theorem IsCancelled.gone (h : b.IsCancelled id) : b.Gone id := by
  obtain ⟨e, he, hs⟩ := h
  exact ⟨e, he, by rw [hs]; decide⟩

/-- What can be cancelled is not gone. -/
theorem Cancellable.not_gone {owner : Address} (h : b.Cancellable id owner) : ¬ b.Gone id := by
  rintro ⟨e', he', hs⟩
  obtain ⟨e, he, ho, -⟩ := h
  cases he.symm.trans he'
  exact hs ho

/-- What can be cancelled is cancelled. -/
theorem Cancellable.isCancelled {owner : Address} (h : b.Cancellable id owner) :
    (b.cancel id owner).IsCancelled id := by
  obtain ⟨e, he, hc⟩ := h
  refine ⟨{ e with status := .cancelled }, ?_, rfl⟩
  rw [cancel_self, he, Option.map_some, if_pos hc]

end OrderBook

/-- What the book keeps of a record. -/
def OrderRecord.entry (r : OrderRecord) : Entry := ⟨r.signed, r.status, r.filledSell, r.filledBuy⟩

/-! ### Keeping the book -/

/-- **The repository keeps a book.**  `Sound` is what it needs of its stores, and `book` reads the
book off one.  Every method keeps `Sound` and changes the book as the book's operation does. -/
structure Implements {σ : Type} (P : Primitives) (R : OrderRepository σ) (Sound : σ → Prop)
    (book : σ → OrderBook) : Prop where
  insert : ∀ now s st, Sound st → Sound (R.insert now s st).2 ∧
    book (R.insert now s st).2 = (book st).submit P s
  updateStatus : ∀ now id status fs fb st, Sound st →
    Sound (R.updateStatus now id status fs fb st).2 ∧
    book (R.updateStatus now id status fs fb st).2 = (book st).mark id status fs fb
  cancel : ∀ now id owner st, Sound st → Sound (R.cancel now id owner st).2 ∧
    book (R.cancel now id owner st).2 = (book st).cancel id owner ∧
    ((R.cancel now id owner st).1 = .ok true ↔ (book st).Cancellable id owner)
  expireDue : ∀ now secs st, Sound st → Sound (R.expireDue now secs st).2 ∧
    book (R.expireDue now secs st).2 = (book st).sweep secs
  listOpen : ∀ st, Sound st → ∃ rs, R.listOpen none st = .ok rs ∧ (rs.map OrderRecord.id).Nodup ∧
    (∀ r ∈ rs, book st r.id = some r.entry ∧ r.status = .opened ∧ r.signed.order.id P = r.id) ∧
    ∀ id e, book st id = some e → e.status = .opened → ∃ r ∈ rs, r.id = id

end OxDex
