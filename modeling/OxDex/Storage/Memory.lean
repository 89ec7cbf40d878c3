import OxDex.Storage.Repository
import OxDex.Support.Tally

/-!
# Storage — Memory

The in-memory repository (`oxdex-storage`: `memory.rs`): a hash map from order identifiers to
records.  The order in which the map is iterated is an `IterOrder`.

`implements`: it keeps the order book.  What it needs of a store is that every record is filed under
its own identifier, which is the identifier of its order.
-/

namespace OxDex
open Support

/-- `InMemoryOrderRepository`. -/
structure InMemoryOrderRepository where
  inner : Table OrderId OrderRecord

namespace InMemoryOrderRepository

/-- `InMemoryOrderRepository::new`. -/
def new : InMemoryOrderRepository := ⟨.empty⟩

/-- The record `insert` builds. -/
def fresh (P : Primitives) (now : Nat) (signed : SignedOrder) : OrderRecord where
  id := signed.order.id P
  signed := signed
  status := .opened
  filledSell := 0
  filledBuy := 0
  createdAt := now
  updatedAt := now

/-- `insert`. -/
def insert (P : Primitives) (now : Nat) (signed : SignedOrder) (st : InMemoryOrderRepository) :
    RepoResult OrderRecord × InMemoryOrderRepository :=
  let id := signed.order.id P
  let record := fresh P now signed
  match h : st.inner.find? id with
  | none => (.ok record, ⟨st.inner.insertNew id record h⟩)
  | some o => (if o.signed = record.signed then .ok o else .error (.duplicate id), st)

/-- `get`. -/
def get (id : OrderId) (st : InMemoryOrderRepository) : RepoResult OrderRecord :=
  match st.inner.find? id with
  | some r => .ok r
  | none => .error (.notFound id)

/-- The mint pair `list_open` filters by, if any. -/
def ofPair (pair : Option (Address × Address)) (r : OrderRecord) : Bool :=
  match pair with
  | none => true
  | some (s, b) => r.signed.order.sellMint = s ∧ r.signed.order.buyMint = b

/-- `list_open`. -/
def listOpen (iter : IterOrder OrderRecord) (pair : Option (Address × Address))
    (st : InMemoryOrderRepository) : RepoResult (List OrderRecord) :=
  .ok (((iter.iter st.inner.values).filter fun r => r.status = .opened).filter (ofPair pair))

/-- What `update_status` writes into an entry. -/
def marked (now : Nat) (status : OrderStatus) (filledSell filledBuy : Option UInt64)
    (entry : OrderRecord) : OrderRecord :=
  { entry with
    status := status
    filledSell := filledSell.getD entry.filledSell
    filledBuy := filledBuy.getD entry.filledBuy
    updatedAt := now }

/-- What `cancel` and `expire_due` write into an entry. -/
def closed (now : Nat) (status : OrderStatus) (entry : OrderRecord) : OrderRecord :=
  { entry with status := status, updatedAt := now }

/-- `update_status`. -/
def updateStatus (now : Nat) (id : OrderId) (status : OrderStatus)
    (filledSell filledBuy : Option UInt64) (st : InMemoryOrderRepository) :
    RepoResult Unit × InMemoryOrderRepository :=
  match st.inner.find? id with
  | none => (.error (.notFound id), st)
  | some _ => (.ok (), ⟨st.inner.modify id (marked now status filledSell filledBuy)⟩)

/-- `cancel`. -/
def cancel (now : Nat) (id : OrderId) (owner : Address) (st : InMemoryOrderRepository) :
    RepoResult Bool × InMemoryOrderRepository :=
  match st.inner.find? id with
  | none => (.error (.notFound id), st)
  | some entry =>
      if entry.signed.order.owner ≠ owner then (.ok false, st)
      else if entry.status ≠ .opened then (.ok false, st)
      else (.ok true, ⟨st.inner.modify id (closed now .cancelled)⟩)

/-- What `expire_due` expires. -/
def due (secs : Int64) (r : OrderRecord) : Bool :=
  r.status = .opened ∧ r.signed.order.validTo ≤ secs

/-- `expire_due`. -/
def expireDue (now : Nat) (secs : Int64) (st : InMemoryOrderRepository) :
    RepoResult Nat × InMemoryOrderRepository :=
  (.ok (st.inner.count (due secs)), ⟨st.inner.mapWith fun _ e =>
    if due secs e then closed now .expired e else e⟩)

/-- The trait implementation. -/
def repository (P : Primitives) (iter : IterOrder OrderRecord) :
    OrderRepository InMemoryOrderRepository where
  insert := insert P
  get := get
  listOpen := listOpen iter
  updateStatus := updateStatus
  cancel := cancel
  expireDue := expireDue

/-! ### The book it keeps -/

/-- Every record is filed under its own identifier, which is that of its order. -/
def Filed (P : Primitives) (st : InMemoryOrderRepository) : Prop :=
  ∀ id r, st.inner.find? id = some r → r.id = id ∧ r.signed.order.id P = id

/-- The book of a store. -/
def book (st : InMemoryOrderRepository) : OrderBook := fun id =>
  (st.inner.find? id).map OrderRecord.entry

variable {P : Primitives} {st : InMemoryOrderRepository}

@[simp] theorem book_new : book new = fun _ => none := rfl

theorem filed_new : Filed P new := fun _ _ h => by cases h

theorem book_eq_some {id : OrderId} {e : Entry} :
    book st id = some e ↔ ∃ r, st.inner.find? id = some r ∧ r.entry = e :=
  Option.map_eq_some_iff

theorem due_iff {secs : Int64} {r : OrderRecord} :
    due secs r = true ↔ OrderBook.Due secs r.entry := by
  simp [due, OrderBook.Due, OrderRecord.entry]

/-- Rewriting records without touching their identifiers and orders keeps them filed. -/
theorem Filed.mapWith (h : Filed P st) {f : OrderId → OrderRecord → OrderRecord}
    (hf : ∀ id r, (f id r).id = r.id ∧ (f id r).signed = r.signed) :
    Filed P ⟨st.inner.mapWith f⟩ := by
  intro id r hr
  rw [Table.find?_mapWith, Option.map_eq_some_iff] at hr
  obtain ⟨r', hr', rfl⟩ := hr
  rw [(hf id r').1, (hf id r').2]
  exact h id r' hr'

/-! ### What each method does -/

theorem insert_of_none {now : Nat} {s : SignedOrder} (h : st.inner.find? (s.order.id P) = none) :
    insert P now s st = (.ok (fresh P now s), ⟨st.inner.insertNew _ (fresh P now s) h⟩) := by
  simp only [insert]
  split
  · rfl
  · next o ho => rw [h] at ho; cases ho

theorem insert_of_some {now : Nat} {s : SignedOrder} {o : OrderRecord}
    (h : st.inner.find? (s.order.id P) = some o) : insert P now s st =
      (if o.signed = s then .ok o else .error (.duplicate (s.order.id P)), st) := by
  simp only [insert]
  split
  · next hn => rw [h] at hn; cases hn
  · next o' ho => rw [h] at ho; cases ho; rfl

theorem updateStatus_of_none {now : Nat} {id : OrderId} {status : OrderStatus}
    {fs fb : Option UInt64} (h : st.inner.find? id = none) :
    updateStatus now id status fs fb st = (.error (.notFound id), st) := by
  simp only [updateStatus, h]

theorem updateStatus_of_some {now : Nat} {id : OrderId} {status : OrderStatus}
    {fs fb : Option UInt64} {r : OrderRecord} (h : st.inner.find? id = some r) :
    updateStatus now id status fs fb st =
      (.ok (), ⟨st.inner.modify id (marked now status fs fb)⟩) := by
  simp only [updateStatus, h]

theorem cancel_of_none {now : Nat} {id : OrderId} {owner : Address}
    (h : st.inner.find? id = none) : cancel now id owner st = (.error (.notFound id), st) := by
  simp only [cancel, h]

/-- A stored order is cancelled if it is open and belongs to `owner`, and left alone otherwise. -/
theorem cancel_of_some {now : Nat} {id : OrderId} {owner : Address} {r : OrderRecord}
    (h : st.inner.find? id = some r) : cancel now id owner st =
      if r.status = .opened ∧ r.signed.order.owner = owner then
        (.ok true, ⟨st.inner.modify id (closed now .cancelled)⟩)
      else (.ok false, st) := by
  simp only [cancel, h]
  by_cases ho : r.signed.order.owner = owner <;> by_cases hs : r.status = .opened <;> simp [ho, hs]

/-! ### Every method keeps the book -/

theorem filed_insert (h : Filed P st) (now : Nat) (s : SignedOrder) :
    Filed P (insert P now s st).2 ∧ book (insert P now s st).2 = (book st).submit P s := by
  cases hf : st.inner.find? (s.order.id P) with
  | none =>
      rw [insert_of_none hf]
      refine ⟨fun id r hr => ?_, funext fun id => ?_⟩
      · rw [Table.find?_insertNew] at hr
        split at hr
        · next e => cases hr; exact ⟨e, e⟩
        · exact h id r hr
      · rw [OrderBook.submit_apply]
        simp only [book, Table.find?_insertNew]
        by_cases e : s.order.id P = id
        · subst e
          simp [hf, fresh, OrderRecord.entry]
        · simp [e]
  | some o =>
      rw [insert_of_some hf]
      refine ⟨h, funext fun id => ?_⟩
      show book st id = _
      rw [OrderBook.submit_apply, if_neg]
      rintro ⟨rfl, hb⟩
      simp [book, hf] at hb

theorem filed_updateStatus (h : Filed P st) (now : Nat) (id : OrderId) (status : OrderStatus)
    (fs fb : Option UInt64) : Filed P (updateStatus now id status fs fb st).2 ∧
      book (updateStatus now id status fs fb st).2 = (book st).mark id status fs fb := by
  cases hf : st.inner.find? id with
  | none =>
      rw [updateStatus_of_none hf]
      refine ⟨h, funext fun id' => ?_⟩
      by_cases e : id' = id
      · subst e; simp [book, hf]
      · rw [OrderBook.mark_of_ne e]
  | some r =>
      rw [updateStatus_of_some hf]
      refine ⟨h.mapWith fun id' r => by split <;> exact ⟨rfl, rfl⟩, funext fun id' => ?_⟩
      simp only [book, Table.find?_modify]
      by_cases e : id' = id
      · subst e; simp [book, hf, marked, OrderRecord.entry]
      · rw [OrderBook.mark_of_ne e, if_neg e]
        rfl

theorem filed_cancel (h : Filed P st) (now : Nat) (id : OrderId) (owner : Address) :
    Filed P (cancel now id owner st).2 ∧
      book (cancel now id owner st).2 = (book st).cancel id owner ∧
      ((cancel now id owner st).1 = .ok true ↔ (book st).Cancellable id owner) := by
  cases hf : st.inner.find? id with
  | none =>
      have hb : book st id = none := by simp [book, hf]
      rw [cancel_of_none hf]
      refine ⟨h, funext fun id' => ?_, by simp [OrderBook.Cancellable, hb]⟩
      by_cases e : id' = id
      · subst e; simp [hb]
      · rw [OrderBook.cancel_of_ne e]
  | some r =>
      have hb : book st id = some r.entry := by simp [book, hf]
      rw [cancel_of_some hf]
      by_cases hc : r.status = .opened ∧ r.signed.order.owner = owner
      · have hc' : r.entry.status = .opened ∧ r.entry.signed.order.owner = owner := hc
        rw [if_pos hc]
        refine ⟨h.mapWith fun id' r => by split <;> exact ⟨rfl, rfl⟩, funext fun id' => ?_,
          fun _ => ⟨r.entry, hb, hc'⟩, fun _ => rfl⟩
        simp only [book, Table.find?_modify]
        by_cases e : id' = id
        · subst e
          rw [OrderBook.cancel_self, hb, Option.map_some, if_pos hc', if_pos rfl, hf]
          rfl
        · rw [OrderBook.cancel_of_ne e, if_neg e]
          rfl
      · have hc' : ¬ (r.entry.status = .opened ∧ r.entry.signed.order.owner = owner) := hc
        rw [if_neg hc]
        refine ⟨h, funext fun id' => ?_, by simp, ?_⟩
        · by_cases e : id' = id
          · subst e
            rw [OrderBook.cancel_self, hb, Option.map_some, if_neg hc']
          · rw [OrderBook.cancel_of_ne e]
        · rintro ⟨e, he, hc₁⟩
          rw [hb] at he
          cases he
          exact absurd hc₁ hc'

theorem filed_expireDue (h : Filed P st) (now : Nat) (secs : Int64) :
    Filed P (expireDue now secs st).2 ∧
      book (expireDue now secs st).2 = (book st).sweep secs := by
  refine ⟨h.mapWith fun id r => by split <;> exact ⟨rfl, rfl⟩, funext fun id => ?_⟩
  simp only [book, expireDue, Table.find?_mapWith, OrderBook.sweep]
  cases st.inner.find? id with
  | none => rfl
  | some r =>
      simp only [Option.map_some]
      by_cases hd : OrderBook.Due secs r.entry
      · rw [if_pos hd, if_pos (due_iff.mpr hd)]
        rfl
      · rw [if_neg hd, if_neg (mt due_iff.mp hd)]

theorem filed_listOpen (h : Filed P st) (iter : IterOrder OrderRecord) :
    ∃ rs, listOpen iter none st = .ok rs ∧ (rs.map OrderRecord.id).Nodup ∧
      (∀ r ∈ rs, book st r.id = some r.entry ∧ r.status = .opened ∧ r.signed.order.id P = r.id) ∧
      ∀ id e, book st id = some e → e.status = .opened → ∃ r ∈ rs, r.id = id := by
  refine ⟨_, rfl, ?_, fun r hr => ?_, fun id e he hs => ?_⟩
  · have hids : (st.inner.values.map OrderRecord.id) = st.inner.entries.map Prod.fst := by
      rw [Table.values, List.map_map]
      exact List.map_congr_left fun e he => (h e.1 e.2 (Table.mem_entries_iff.mp he)).1
    have hn : ((iter.iter st.inner.values).map OrderRecord.id).Nodup :=
      ((iter.perm _).map _).nodup_iff.mpr (hids ▸ st.inner.nodup)
    exact hn.sublist ((List.filter_sublist.trans List.filter_sublist).map _)
  · obtain ⟨hr, -⟩ := List.mem_filter.mp hr
    obtain ⟨hr, hs⟩ := List.mem_filter.mp hr
    obtain ⟨id, hid⟩ := Table.mem_values_iff.mp (iter.mem_iter.mp hr)
    obtain ⟨rfl, hoid⟩ := h id r hid
    exact ⟨by simp [book, hid], of_decide_eq_true hs, hoid⟩
  · obtain ⟨r, hr, rfl⟩ := book_eq_some.mp he
    refine ⟨r, List.mem_filter.mpr ⟨List.mem_filter.mpr ⟨?_, decide_eq_true hs⟩, rfl⟩,
      (h id r hr).1⟩
    exact iter.mem_iter.mpr (Table.mem_values_iff.mpr ⟨id, hr⟩)

/-- **The in-memory repository keeps the book.** -/
theorem implements (P : Primitives) (iter : IterOrder OrderRecord) :
    Implements P (repository P iter) (Filed P) book where
  insert := fun now s _ h => filed_insert h now s
  updateStatus := fun now id status fs fb _ h => filed_updateStatus h now id status fs fb
  cancel := fun now id owner _ h => filed_cancel h now id owner
  expireDue := fun now secs _ h => filed_expireDue h now secs
  listOpen := fun _ h => filed_listOpen h iter

end InMemoryOrderRepository

/-- The repository the traders run on. -/
def Sample.memory : OrderRepository InMemoryOrderRepository :=
  InMemoryOrderRepository.repository Sample.primitives (.id _)

end OxDex
