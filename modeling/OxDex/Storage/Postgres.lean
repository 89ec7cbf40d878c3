import OxDex.Storage.Memory

/-!
# Storage — Postgres

The Postgres repository (`oxdex-storage`: `postgres.rs`, `migrations`): the table `orders` and the
statements run on it.

A row keeps the identifier and the addresses as bytes, the status as text, `u64` amounts as
`BIGINT`, times to the microsecond and the signed order as JSON.  The conversion of a signed order
to JSON and back is `serde_json`'s and a parameter, `JsonCodec`.

`Mirrors` relates a store of the in-memory repository to a table: the same entries in the same
order, each row representing its record.  Every method keeps it (`mirrors_insert` and its
siblings), and reading a row gives the record with its times cut to the microsecond (`get_of_some`).
So Postgres keeps the order book too (`implements`).
-/

namespace OxDex
open Support

/-- `serde_json::to_value` and `from_value` for signed orders, the errors as displayed. -/
structure JsonCodec (J : Type) where
  toValue : SignedOrder → Except String J
  fromValue : J → Except String SignedOrder

/-- A signed order comes back from JSON as it went in. -/
def JsonCodec.RoundTrips {J : Type} (codec : JsonCodec J) (s : SignedOrder) : Prop :=
  ∃ j, codec.toValue s = .ok j ∧ codec.fromValue j = .ok s

/-- A row of `orders`, without its primary key.  Times are in microseconds. -/
structure Row (J : Type) where
  owner : List UInt8
  sellMint : List UInt8
  buyMint : List UInt8
  validTo : Int64
  status : String
  filledSell : Int64
  filledBuy : Int64
  signed : J
  createdAt : Nat
  updatedAt : Nat

/-- `PgOrderRepository`: the table, under its primary key. -/
structure PgOrderRepository (J : Type) where
  orders : Table (List UInt8) (Row J)

/-- A time as `TIMESTAMPTZ` keeps it. -/
def timestamptz (nanos : Nat) : Nat := nanos / 1000

/-- `row_to_record`. -/
def rowToRecord {J : Type} (codec : JsonCodec J) (idBytes : List UInt8) (row : Row J) :
    RepoResult OrderRecord :=
  if h : idBytes.length = 32 then
    match codec.fromValue row.signed with
    | .error e => .error (.backend ("decode signed: " ++ e))
    | .ok signed =>
        match OrderStatus.fromDb row.status with
        | none => .error (.backend ("bad status " ++ row.status))
        | some status =>
            .ok {
              id := ⟨⟨idBytes, h⟩⟩
              signed := signed
              status := status
              filledSell := row.filledSell.toUInt64
              filledBuy := row.filledBuy.toUInt64
              createdAt := row.createdAt * 1000
              updatedAt := row.updatedAt * 1000 }
  else .error (.backend ("bad id length " ++ toString idBytes.length))

namespace PgOrderRepository

variable {J : Type}

/-- An empty table. -/
def new : PgOrderRepository J := ⟨.empty⟩

/-- `UPDATE orders SET … WHERE …`: the rows affected, and the table after it. -/
def updateWhere (cond : List UInt8 → Row J → Bool) (set : Row J → Row J)
    (st : PgOrderRepository J) : Nat × PgOrderRepository J :=
  (st.orders.entries.countP fun e => cond e.1 e.2,
    ⟨st.orders.mapWith fun id row => if cond id row then set row else row⟩)

/-- `get`. -/
def get (codec : JsonCodec J) (id : OrderId) (st : PgOrderRepository J) : RepoResult OrderRecord :=
  match st.orders.find? id.bytes.toList with
  | none => .error (.notFound id)
  | some row => rowToRecord codec id.bytes.toList row

/-- The row `insert` writes. -/
def freshRow (now : Nat) (signed : SignedOrder) (signedJson : J) : Row J where
  owner := signed.order.owner.bytes.toList
  sellMint := signed.order.sellMint.bytes.toList
  buyMint := signed.order.buyMint.bytes.toList
  validTo := signed.order.validTo
  status := "open"
  filledSell := 0
  filledBuy := 0
  signed := signedJson
  createdAt := timestamptz now
  updatedAt := timestamptz now

/-- `insert`: `ON CONFLICT (id) DO NOTHING`, and on a conflict the stored order is compared. -/
def insert (P : Primitives) (codec : JsonCodec J) (now : Nat) (signed : SignedOrder)
    (st : PgOrderRepository J) : RepoResult OrderRecord × PgOrderRepository J :=
  let id := signed.order.id P
  match codec.toValue signed with
  | .error e => (.error (.backend ("encode signed: " ++ e)), st)
  | .ok signedJson =>
      match h : st.orders.find? id.bytes.toList with
      | none =>
          let row := freshRow now signed signedJson
          (rowToRecord codec id.bytes.toList row,
            ⟨st.orders.insertNew id.bytes.toList row h⟩)
      | some _ =>
          (match get codec id st with
            | .error e => .error e
            | .ok existing =>
                if existing.signed = signed then .ok existing else .error (.duplicate id),
            st)

/-- The `WHERE` clause of `list_open`. -/
def openRow (pair : Option (Address × Address)) (row : Row J) : Bool :=
  match pair with
  | none => row.status = "open"
  | some (s, b) =>
      row.status = "open" ∧ row.sellMint = s.bytes.toList ∧ row.buyMint = b.bytes.toList

/-- `list_open`. -/
def listOpen (codec : JsonCodec J) (iter : IterOrder (List UInt8 × Row J))
    (pair : Option (Address × Address)) (st : PgOrderRepository J) :
    RepoResult (List OrderRecord) :=
  ((iter.iter st.orders.entries).filter fun e => openRow pair e.2).mapM fun e =>
    rowToRecord codec e.1 e.2

/-- The `SET` clause of `update_status`. -/
def marked (now : Nat) (status : OrderStatus) (filledSell filledBuy : Option UInt64) (row : Row J) :
    Row J :=
  { row with
    status := status.asStr
    filledSell := (filledSell.map UInt64.toInt64).getD row.filledSell
    filledBuy := (filledBuy.map UInt64.toInt64).getD row.filledBuy
    updatedAt := timestamptz now }

/-- The `SET` clauses of `cancel` and `expire_due`. -/
def closed (now : Nat) (status : String) (row : Row J) : Row J :=
  { row with status := status, updatedAt := timestamptz now }

/-- `WHERE id = $1`. -/
def whereId (id : OrderId) (id' : List UInt8) (_ : Row J) : Bool := id' = id.bytes.toList

/-- The `WHERE` clause of `cancel`. -/
def whereCancellable (id : OrderId) (owner : Address) (id' : List UInt8) (row : Row J) : Bool :=
  id' = id.bytes.toList ∧ row.owner = owner.bytes.toList ∧ row.status = "open"

/-- The `WHERE` clause of `expire_due`. -/
def whereDue (secs : Int64) (_ : List UInt8) (row : Row J) : Bool :=
  row.status = "open" ∧ row.validTo ≤ secs

/-- `update_status`. -/
def updateStatus (now : Nat) (id : OrderId) (status : OrderStatus)
    (filledSell filledBuy : Option UInt64) (st : PgOrderRepository J) :
    RepoResult Unit × PgOrderRepository J :=
  let res := st.updateWhere (whereId id) (marked now status filledSell filledBuy)
  (if res.1 = 0 then .error (.notFound id) else .ok (), res.2)

/-- `cancel`. -/
def cancel (now : Nat) (id : OrderId) (owner : Address) (st : PgOrderRepository J) :
    RepoResult Bool × PgOrderRepository J :=
  let res := st.updateWhere (whereCancellable id owner) (closed now "cancelled")
  (.ok (res.1 > 0), res.2)

/-- `expire_due`. -/
def expireDue (now : Nat) (secs : Int64) (st : PgOrderRepository J) :
    RepoResult Nat × PgOrderRepository J :=
  let res := st.updateWhere (whereDue secs) (closed now "expired")
  (.ok res.1, res.2)

/-- The trait implementation. -/
def repository (P : Primitives) (codec : JsonCodec J) (iter : IterOrder (List UInt8 × Row J)) :
    OrderRepository (PgOrderRepository J) where
  insert := insert P codec
  get := get codec
  listOpen := listOpen codec iter
  updateStatus := updateStatus
  cancel := cancel
  expireDue := expireDue

end PgOrderRepository

/-! ### A row and its record -/

/-- The record with its times cut to the microsecond. -/
def OrderRecord.toMicros (r : OrderRecord) : OrderRecord :=
  { r with
    createdAt := timestamptz r.createdAt * 1000
    updatedAt := timestamptz r.updatedAt * 1000 }

/-- The times of the record are whole microseconds. -/
def OrderRecord.WholeMicros (r : OrderRecord) : Prop :=
  r.createdAt % 1000 = 0 ∧ r.updatedAt % 1000 = 0

instance (r : OrderRecord) : Decidable r.WholeMicros := inferInstanceAs (Decidable (_ ∧ _))

theorem OrderRecord.toMicros_eq_iff {r : OrderRecord} : r.toMicros = r ↔ r.WholeMicros := by
  obtain ⟨_, _, _, _, _, c, u⟩ := r
  simp only [toMicros, timestamptz, WholeMicros, OrderRecord.mk.injEq, true_and]
  omega

theorem OrderRecord.toMicros_toMicros (r : OrderRecord) : r.toMicros.toMicros = r.toMicros := by
  rw [toMicros_eq_iff]
  exact ⟨Nat.mul_mod_left _ _, Nat.mul_mod_left _ _⟩

/-- The row `row` represents the record `r`. -/
structure Represents {J : Type} (codec : JsonCodec J) (r : OrderRecord) (row : Row J) : Prop where
  owner : row.owner = r.signed.order.owner.bytes.toList
  sellMint : row.sellMint = r.signed.order.sellMint.bytes.toList
  buyMint : row.buyMint = r.signed.order.buyMint.bytes.toList
  validTo : row.validTo = r.signed.order.validTo
  status : row.status = r.status.asStr
  filledSell : row.filledSell = r.filledSell.toInt64
  filledBuy : row.filledBuy = r.filledBuy.toInt64
  signed : codec.fromValue row.signed = .ok r.signed
  createdAt : row.createdAt = timestamptz r.createdAt
  updatedAt : row.updatedAt = timestamptz r.updatedAt

theorem bytes_eq_iff {a b : Address} : a.bytes.toList = b.bytes.toList ↔ a = b :=
  ⟨fun h => congrArg Address.mk (Bytes.toList_injective h), fun h => h ▸ rfl⟩

theorem key_eq_iff {a b : OrderId} : a.bytes.toList = b.bytes.toList ↔ a = b :=
  ⟨fun h => congrArg OrderId.mk (Bytes.toList_injective h), fun h => h ▸ rfl⟩

/-- A row that reads as a record has the record's key. -/
theorem rowToRecord_key {J : Type} {codec : JsonCodec J} {key : List UInt8} {row : Row J}
    {r : OrderRecord} (h : rowToRecord codec key row = .ok r) : r.id.bytes.toList = key := by
  unfold rowToRecord at h
  split at h
  · split at h
    · cases h
    · split at h
      · cases h
      · cases h; rfl
  · cases h

namespace Represents

variable {J : Type} {codec : JsonCodec J} {r : OrderRecord} {row : Row J}

/-- **Reading a row** gives the record it represents, with its times cut. -/
theorem rowToRecord (h : Represents codec r row) :
    rowToRecord codec r.id.bytes.toList row = .ok r.toMicros := by
  simp only [OxDex.rowToRecord, dif_pos r.id.bytes.length_eq, h.signed, h.status,
    OrderStatus.fromDb_asStr, h.filledSell, h.filledBuy, UInt64.toUInt64_toInt64, h.createdAt,
    h.updatedAt]
  rfl

theorem open_iff (h : Represents codec r row) : row.status = "open" ↔ r.status = .opened := by
  rw [h.status]
  exact OrderStatus.asStr_injective.eq_iff (b := .opened)

theorem openRow_eq (h : Represents codec r row) (pair : Option (Address × Address)) :
    PgOrderRepository.openRow pair row =
      (decide (r.status = .opened) && InMemoryOrderRepository.ofPair pair r) := by
  cases pair with
  | none => simp [PgOrderRepository.openRow, InMemoryOrderRepository.ofPair, h.open_iff]
  | some p =>
      simp [PgOrderRepository.openRow, InMemoryOrderRepository.ofPair, h.open_iff, h.sellMint,
        h.buyMint, bytes_eq_iff]

theorem marked (h : Represents codec r row) (now : Nat) (status : OrderStatus)
    (fs fb : Option UInt64) : Represents codec (InMemoryOrderRepository.marked now status fs fb r)
      (PgOrderRepository.marked now status fs fb row) :=
  { h with
    status := rfl
    filledSell := by
      cases fs <;> simp [PgOrderRepository.marked, InMemoryOrderRepository.marked, h.filledSell]
    filledBuy := by
      cases fb <;> simp [PgOrderRepository.marked, InMemoryOrderRepository.marked, h.filledBuy]
    updatedAt := rfl }

theorem closed (h : Represents codec r row) (now : Nat) (status : OrderStatus) :
    Represents codec (InMemoryOrderRepository.closed now status r)
      (PgOrderRepository.closed now status.asStr row) :=
  { h with
    status := rfl
    updatedAt := rfl }

end Represents

/-- A `WHERE` clause picks the rows of the records that satisfy `q`. -/
def Picks {J : Type} (codec : JsonCodec J) (cond : List UInt8 → Row J → Bool)
    (q : OrderRecord → Bool) : Prop :=
  ∀ r row, Represents codec r row → cond r.id.bytes.toList row = q r

section
variable {J : Type} (codec : JsonCodec J)

theorem picks_id (id : OrderId) : Picks codec (PgOrderRepository.whereId id) fun r => r.id = id :=
  fun _ _ _ => decide_eq_decide.mpr key_eq_iff

theorem picks_cancellable (id : OrderId) (owner : Address) :
    Picks codec (PgOrderRepository.whereCancellable id owner) fun r =>
      r.id = id ∧ r.signed.order.owner = owner ∧ r.status = .opened := by
  intro r row hr
  rw [PgOrderRepository.whereCancellable, hr.owner]
  exact decide_eq_decide.mpr (and_congr key_eq_iff (and_congr bytes_eq_iff hr.open_iff))

theorem picks_due (secs : Int64) :
    Picks codec (PgOrderRepository.whereDue secs) (InMemoryOrderRepository.due secs) := by
  intro r row hr
  rw [PgOrderRepository.whereDue, hr.validTo]
  exact decide_eq_decide.mpr (and_congr hr.open_iff Iff.rfl)

end

/-! ### A table and its store -/

/-- **The table mirrors the store**: the same entries in the same order, each row representing its
record. -/
structure Mirrors {J : Type} (codec : JsonCodec J) (mem : InMemoryOrderRepository)
    (pg : PgOrderRepository J) : Prop where
  entries : List.Forall₂
    (fun m p => p.1 = m.1.bytes.toList ∧ m.2.id = m.1 ∧ Represents codec m.2 p.2)
    mem.inner.entries pg.orders.entries

section
variable {J : Type} {codec : JsonCodec J} {mem : InMemoryOrderRepository}
  {pg : PgOrderRepository J}

theorem mirrors_new (codec : JsonCodec J) : Mirrors codec .new .new := ⟨.nil⟩

namespace Mirrors

/-- Looking an order up gives a record and a row that represents it, or nothing in either. -/
theorem find (h : Mirrors codec mem pg) (id : OrderId) :
    Option.Rel (fun r row => r.id = id ∧ Represents codec r row) (mem.inner.find? id)
      (pg.orders.find? id.bytes.toList) := by
  obtain ⟨h⟩ := h
  unfold Table.find?
  generalize mem.inner.entries = ms at h ⊢
  generalize pg.orders.entries = ps at h ⊢
  induction h with
  | nil => exact .none
  | @cons m p ms ps hmp _ ih =>
      obtain ⟨m₁, m₂⟩ := m
      obtain ⟨p₁, p₂⟩ := p
      obtain ⟨hk, hid, hr⟩ := hmp
      simp only at hk hid hr
      subst hk
      by_cases e : m₁ = id
      · subst e
        simp only [Table.findIn, if_pos]
        exact .some ⟨hid, hr⟩
      · simp only [Table.findIn, if_neg e, if_neg (mt key_eq_iff.mp e)]
        exact ih

theorem find_none (h : Mirrors codec mem pg) {id : OrderId} (hn : mem.inner.find? id = none) :
    pg.orders.find? id.bytes.toList = none := by
  have := h.find id
  rw [hn] at this
  cases hp : pg.orders.find? id.bytes.toList with
  | none => rfl
  | some row => rw [hp] at this; cases this

theorem find_some (h : Mirrors codec mem pg) {id : OrderId} {r : OrderRecord}
    (hr : mem.inner.find? id = some r) :
    r.id = id ∧ ∃ row, pg.orders.find? id.bytes.toList = some row ∧ Represents codec r row := by
  have := h.find id
  rw [hr] at this
  cases hp : pg.orders.find? id.bytes.toList with
  | none => rw [hp] at this; cases this
  | some row =>
      rw [hp] at this
      cases this with
      | some hrr => exact ⟨hrr.1, row, rfl, hrr.2⟩

/-- Appending an entry and a row that represents it. -/
theorem insertNew (h : Mirrors codec mem pg) {r : OrderRecord} {row : Row J}
    (hr : Represents codec r row) (hm : mem.inner.find? r.id = none)
    (hp : pg.orders.find? r.id.bytes.toList = none) :
    Mirrors codec ⟨mem.inner.insertNew r.id r hm⟩ ⟨pg.orders.insertNew r.id.bytes.toList row hp⟩ :=
  ⟨List.rel_append h.entries (.cons ⟨rfl, rfl, hr⟩ .nil)⟩

variable {q : OrderRecord → Bool} {cond : List UInt8 → Row J → Bool}

/-- **A mirrored update**: the `WHERE` clause picks the rows of the records that are rewritten. -/
theorem update (h : Mirrors codec mem pg) {f : OrderRecord → OrderRecord} {set : Row J → Row J}
    (hq : Picks codec cond q)
    (hf : ∀ r row, Represents codec r row → (f r).id = r.id ∧ Represents codec (f r) (set row)) :
    Mirrors codec ⟨mem.inner.mapWith fun _ r => if q r then f r else r⟩
      (pg.updateWhere cond set).2 := by
  refine ⟨?_⟩
  show List.Forall₂ _ (mem.inner.entries.map fun e => (e.1, if q e.2 then f e.2 else e.2))
    (pg.orders.entries.map fun e => (e.1, if cond e.1 e.2 then set e.2 else e.2))
  rw [List.forall₂_map_left_iff, List.forall₂_map_right_iff]
  refine h.entries.imp ?_
  rintro ⟨m₁, m₂⟩ ⟨p₁, p₂⟩ ⟨hk, hid, hr⟩
  simp only at hk hid hr ⊢
  subst hk
  subst hid
  rw [hq m₂ p₂ hr]
  refine ⟨rfl, ?_⟩
  split
  · exact hf m₂ p₂ hr
  · exact ⟨rfl, hr⟩

/-- The rows a `WHERE` clause picks are as many as the records. -/
theorem count (h : Mirrors codec mem pg) {g : Row J → Row J}
    (hq : Picks codec cond q) :
    (pg.updateWhere cond g).1 = mem.inner.count q := by
  show pg.orders.entries.countP (fun e => cond e.1 e.2) = (mem.inner.entries.map Prod.snd).countP q
  rw [List.countP_map]
  obtain ⟨h⟩ := h
  generalize mem.inner.entries = ms at h ⊢
  generalize pg.orders.entries = ps at h ⊢
  induction h with
  | nil => rfl
  | @cons m p ms ps hmp _ ih =>
      obtain ⟨m₁, m₂⟩ := m
      obtain ⟨p₁, p₂⟩ := p
      obtain ⟨hk, hid, hr⟩ := hmp
      simp only at hk hid hr
      subst hk
      subst hid
      rw [List.countP_cons, List.countP_cons, ih]
      simp only [hq m₂ p₂ hr, Function.comp_apply]

end Mirrors

/-! ### The methods -/

variable {P : Primitives} {iter : IterOrder OrderRecord} {iter' : IterOrder (List UInt8 × Row J)}

theorem get_of_none (h : Mirrors codec mem pg) {id : OrderId} (hn : mem.inner.find? id = none) :
    pg.get codec id = .error (.notFound id) := by
  simp only [PgOrderRepository.get, h.find_none hn]

/-- **Reading a mirrored record** gives it with its times cut to the microsecond. -/
theorem get_of_some (h : Mirrors codec mem pg) {id : OrderId} {r : OrderRecord}
    (hr : mem.inner.find? id = some r) : pg.get codec id = .ok r.toMicros := by
  obtain ⟨rfl, row, hrow, hrep⟩ := h.find_some hr
  simp only [PgOrderRepository.get, hrow, hrep.rowToRecord]

theorem represents_fresh {s : SignedOrder} {j : J} (hj : codec.fromValue j = .ok s) (now : Nat) :
    Represents codec (InMemoryOrderRepository.fresh P now s)
      (PgOrderRepository.freshRow now s j) where
  owner := rfl
  sellMint := rfl
  buyMint := rfl
  validTo := rfl
  status := rfl
  filledSell := rfl
  filledBuy := rfl
  signed := hj
  createdAt := rfl
  updatedAt := rfl

/-- `insert` of an order that is not there: both have the fresh record. -/
theorem insert_mirrors_none (h : Mirrors codec mem pg) {s : SignedOrder} (hj : codec.RoundTrips s)
    (now : Nat) (hn : mem.inner.find? (s.order.id P) = none) :
    (PgOrderRepository.insert P codec now s pg).1 =
        .ok (InMemoryOrderRepository.fresh P now s).toMicros ∧
      Mirrors codec (InMemoryOrderRepository.insert P now s mem).2
        (PgOrderRepository.insert P codec now s pg).2 := by
  obtain ⟨j, hto, hfrom⟩ := hj
  have hrep := represents_fresh (P := P) hfrom now
  rw [InMemoryOrderRepository.insert_of_none hn]
  simp only [PgOrderRepository.insert, hto]
  split
  · next hp => exact ⟨hrep.rowToRecord, h.insertNew hrep hn hp⟩
  · next row hp =>
      rw [h.find_none hn] at hp
      cases hp

/-- `insert` of an order that is there: neither store changes, and Postgres compares the stored
order. -/
theorem insert_mirrors_some (h : Mirrors codec mem pg) {s : SignedOrder} (hj : codec.RoundTrips s)
    (now : Nat) {o : OrderRecord} (ho : mem.inner.find? (s.order.id P) = some o) :
    (PgOrderRepository.insert P codec now s pg).1 =
        (if o.signed = s then .ok o.toMicros else .error (.duplicate (s.order.id P))) ∧
      Mirrors codec (InMemoryOrderRepository.insert P now s mem).2
        (PgOrderRepository.insert P codec now s pg).2 := by
  obtain ⟨j, hto, -⟩ := hj
  obtain ⟨-, row, hrow, -⟩ := h.find_some ho
  rw [InMemoryOrderRepository.insert_of_some ho]
  simp only [PgOrderRepository.insert, hto]
  split
  · next hp =>
      rw [hrow] at hp
      cases hp
  · rw [get_of_some h ho]
    exact ⟨rfl, h⟩

theorem insert_mirrors (h : Mirrors codec mem pg) {s : SignedOrder} (hj : codec.RoundTrips s)
    (now : Nat) : Mirrors codec (InMemoryOrderRepository.insert P now s mem).2
      (PgOrderRepository.insert P codec now s pg).2 := by
  cases hf : mem.inner.find? (s.order.id P) with
  | none => exact (insert_mirrors_none h hj now hf).2
  | some o => exact (insert_mirrors_some h hj now hf).2

/-- A record that satisfies `q` only at `id`: there is one if the record at `id` does. -/
theorem count_at_pos_iff (h : Mirrors codec mem pg) {id : OrderId} {q : OrderRecord → Bool}
    (hq : ∀ r, q r = true → r.id = id) :
    0 < mem.inner.count q ↔ ∃ r, mem.inner.find? id = some r ∧ q r = true := by
  rw [Table.count_pos_iff]
  constructor
  · rintro ⟨k, r, hr, hqr⟩
    have hk : k = id := (h.find_some hr).1.symm.trans (hq r hqr)
    exact ⟨r, hk ▸ hr, hqr⟩
  · rintro ⟨r, hr, hqr⟩
    exact ⟨id, r, hr, hqr⟩

/-- Rewriting the records that satisfy `q`, all of them at `id`, is rewriting the record at `id` if
it does. -/
theorem mapWith_at (h : Mirrors codec mem pg) {id : OrderId} {q : OrderRecord → Bool}
    {f : OrderRecord → OrderRecord} (hq : ∀ r, q r = true → r.id = id) :
    (mem.inner.mapWith fun _ r => if q r then f r else r) =
      if ∃ r, mem.inner.find? id = some r ∧ q r = true then mem.inner.modify id f
      else mem.inner := by
  split
  · next hex =>
      obtain ⟨r₀, hr₀, hq₀⟩ := hex
      refine Table.mapWith_congr fun k r hr => ?_
      by_cases e : k = id
      · subst e
        rw [hr₀] at hr
        cases hr
        rw [if_pos hq₀, if_pos rfl]
      · rw [if_neg e, if_neg fun hqr => e ((h.find_some hr).1.symm.trans (hq r hqr))]
  · next hno =>
      refine Table.mapWith_eq_self fun k r hr => if_neg fun hqr => hno ⟨r, ?_, hqr⟩
      rwa [← (h.find_some hr).1.symm.trans (hq r hqr)]

/-- `update_status` answers alike. -/
theorem updateStatus_mirrors (h : Mirrors codec mem pg) (now : Nat) (id : OrderId)
    (status : OrderStatus) (fs fb : Option UInt64) :
    (PgOrderRepository.updateStatus now id status fs fb pg).1 =
        (InMemoryOrderRepository.updateStatus now id status fs fb mem).1 ∧
      Mirrors codec (InMemoryOrderRepository.updateStatus now id status fs fb mem).2
        (PgOrderRepository.updateStatus now id status fs fb pg).2 := by
  have hup := h.update (picks_id codec id) (f := InMemoryOrderRepository.marked now status fs fb)
    fun r row hr => ⟨rfl, hr.marked now status fs fb⟩
  have hcount := h.count (picks_id codec id) (g := PgOrderRepository.marked now status fs fb)
  have hq : ∀ r : OrderRecord, decide (r.id = id) = true → r.id = id :=
    fun r hr => of_decide_eq_true hr
  have hpos := count_at_pos_iff h hq
  rw [mapWith_at h hq] at hup
  rw [← hcount] at hpos
  cases hf : mem.inner.find? id with
  | none =>
      have hno : ¬ ∃ r, mem.inner.find? id = some r ∧ decide (r.id = id) = true := by simp [hf]
      rw [if_neg hno] at hup
      rw [InMemoryOrderRepository.updateStatus_of_none hf]
      have hz := mt hpos.mp hno
      exact ⟨if_pos (by omega), hup⟩
  | some r =>
      have hex : ∃ r, mem.inner.find? id = some r ∧ decide (r.id = id) = true :=
        ⟨r, hf, decide_eq_true (h.find_some hf).1⟩
      rw [if_pos hex] at hup
      rw [InMemoryOrderRepository.updateStatus_of_some hf]
      have hz := hpos.mpr hex
      exact ⟨if_neg (by omega), hup⟩

/-- `cancel` says whether it cancelled; the in-memory repository refuses an order it does not
have. -/
theorem cancel_mirrors (h : Mirrors codec mem pg) (now : Nat) (id : OrderId) (owner : Address) :
    ((InMemoryOrderRepository.cancel now id owner mem).1 =
        (PgOrderRepository.cancel now id owner pg).1 ↔ (mem.inner.find? id).isSome) ∧
      ((PgOrderRepository.cancel now id owner pg).1 = .ok true ↔
        (InMemoryOrderRepository.cancel now id owner mem).1 = .ok true) ∧
      Mirrors codec (InMemoryOrderRepository.cancel now id owner mem).2
        (PgOrderRepository.cancel now id owner pg).2 := by
  let q : OrderRecord → Bool := fun r =>
    r.id = id ∧ r.signed.order.owner = owner ∧ r.status = .opened
  have hq : ∀ r, q r = true → r.id = id := fun r hr => (of_decide_eq_true hr).1
  have hup := h.update (picks_cancellable codec id owner)
    (f := InMemoryOrderRepository.closed now .cancelled) fun r row hr =>
      ⟨rfl, hr.closed now .cancelled⟩
  have hcount := h.count (picks_cancellable codec id owner)
    (g := PgOrderRepository.closed now "cancelled")
  have hpos := count_at_pos_iff h hq
  rw [← hcount] at hpos
  have hres : (PgOrderRepository.cancel now id owner pg).1 =
      .ok (decide (∃ r, mem.inner.find? id = some r ∧ q r = true)) :=
    congrArg Except.ok (decide_eq_decide.mpr hpos)
  rw [mapWith_at h hq] at hup
  rw [hres]
  cases hf : mem.inner.find? id with
  | none =>
      have hno : ¬ ∃ r, mem.inner.find? id = some r ∧ q r = true := by simp [hf]
      rw [if_neg hno] at hup
      rw [InMemoryOrderRepository.cancel_of_none hf]
      exact ⟨by simp, by simp, hup⟩
  | some r =>
      have hqr : (∃ r, mem.inner.find? id = some r ∧ q r = true) ↔
          r.status = .opened ∧ r.signed.order.owner = owner := by
        have hid := (h.find_some hf).1
        simp [hf, q, hid, and_comm]
      rw [InMemoryOrderRepository.cancel_of_some hf]
      by_cases hc : r.status = .opened ∧ r.signed.order.owner = owner
      · rw [if_pos (hqr.mpr hc)] at hup
        rw [if_pos hc]
        refine ⟨?_, ?_, hup⟩
        · simpa [hf] using hqr.mpr hc
        · simpa [hf] using hqr.mpr hc
      · rw [if_neg (mt hqr.mp hc)] at hup
        rw [if_neg hc]
        refine ⟨?_, ?_, hup⟩
        · simpa [hf] using mt hqr.mp hc
        · simpa [hf] using mt hqr.mp hc

/-- `expire_due` answers alike. -/
theorem expireDue_mirrors (h : Mirrors codec mem pg) (now : Nat) (secs : Int64) :
    (PgOrderRepository.expireDue now secs pg).1 =
        (InMemoryOrderRepository.expireDue now secs mem).1 ∧
      Mirrors codec (InMemoryOrderRepository.expireDue now secs mem).2
        (PgOrderRepository.expireDue now secs pg).2 :=
  ⟨congrArg Except.ok (h.count (picks_due codec secs)),
    h.update (picks_due codec secs) fun _ _ hr => ⟨rfl, hr.closed now .expired⟩⟩

/-- The records `list_open` returns: the mirrored open ones of the pair, with their times cut. -/
theorem listOpen_mirrors (h : Mirrors codec mem pg) (iter : IterOrder (List UInt8 × Row J))
    (pair : Option (Address × Address)) :
    ∃ rs, PgOrderRepository.listOpen codec iter pair pg = .ok rs ∧
      (rs.map OrderRecord.id).Nodup ∧
      ∀ r', r' ∈ rs ↔ ∃ r ∈ mem.inner.values, (r.status = .opened ∧
        InMemoryOrderRepository.ofPair pair r = true) ∧ r.toMicros = r' := by
  -- every row has a record it represents
  have read : ∀ e ∈ (iter.iter pg.orders.entries).filter fun e =>
        PgOrderRepository.openRow pair e.2,
      ∃ r ∈ mem.inner.values, (r.status = .opened ∧
        InMemoryOrderRepository.ofPair pair r = true) ∧
          rowToRecord codec e.1 e.2 = .ok r.toMicros := by
    intro e he
    obtain ⟨hm, ho⟩ := List.mem_filter.mp he
    obtain ⟨⟨k, r⟩, hr, hk, hid, hrep⟩ := partner_left h.entries.flip (iter.mem_iter.mp hm)
    simp only at hk hid hrep
    rw [hrep.openRow_eq, Bool.and_eq_true, decide_eq_true_eq] at ho
    refine ⟨r, List.mem_map.mpr ⟨_, hr, rfl⟩, ho, ?_⟩
    rw [hk, ← hid]
    exact hrep.rowToRecord
  obtain ⟨rs, hrs, hall⟩ := mapM_ok (f := fun e : List UInt8 × Row J => rowToRecord codec e.1 e.2)
    fun e he => (read e he).elim fun r hr => ⟨_, hr.2.2⟩
  refine ⟨rs, hrs, ?_, fun r' => ⟨fun hr' => ?_, ?_⟩⟩
  · have hkeys : (rs.map fun r => r.id.bytes.toList) = ((iter.iter pg.orders.entries).filter
        fun e => PgOrderRepository.openRow pair e.2).map Prod.fst := by
      rw [← List.forall₂_eq_eq_eq, List.forall₂_map_left_iff, List.forall₂_map_right_iff]
      exact hall.flip.imp fun _ _ he => rowToRecord_key he
    have hn : ((iter.iter pg.orders.entries).map Prod.fst).Nodup :=
      ((iter.perm _).map _).nodup_iff.mpr pg.orders.nodup
    refine List.Nodup.of_map (fun id : OrderId => id.bytes.toList) ?_
    rw [List.map_map]
    exact hkeys ▸ hn.sublist (List.filter_sublist.map _)
  · obtain ⟨e, he, hok⟩ := partner_left hall.flip hr'
    obtain ⟨r, hr, ho, hok'⟩ := read e he
    exact ⟨r, hr, ho, Except.ok.inj (hok'.symm.trans hok)⟩
  · rintro ⟨r, hr, ho, rfl⟩
    obtain ⟨⟨k, r⟩, hm, rfl⟩ := List.mem_map.mp hr
    obtain ⟨⟨k', row⟩, hp, hk, hid, hrep⟩ := partner_left h.entries hm
    simp only at hk hid hrep ho
    subst hid hk
    have hrow : (r.id.bytes.toList, row) ∈ (iter.iter pg.orders.entries).filter fun e =>
        PgOrderRepository.openRow pair e.2 :=
      List.mem_filter.mpr ⟨iter.mem_iter.mpr hp, by simp [hrep.openRow_eq, ho.1, ho.2]⟩
    obtain ⟨r', hr', hok⟩ := partner_left hall hrow
    rw [hrep.rowToRecord] at hok
    exact Except.ok.inj hok ▸ hr'

/-! ### Postgres keeps the book -/

namespace PgOrderRepository

/-- The table mirrors a store whose records are filed under their own identifiers. -/
def Sound (P : Primitives) (codec : JsonCodec J) (pg : PgOrderRepository J) : Prop :=
  ∃ mem, mem.Filed P ∧ Mirrors codec mem pg

/-- The book of a table, read row by row. -/
def book (codec : JsonCodec J) (pg : PgOrderRepository J) : OrderBook := fun id =>
  (pg.get codec id).toOption.map OrderRecord.entry

end PgOrderRepository

/-- A table and the store it mirrors keep one book. -/
theorem book_mirrors (h : Mirrors codec mem pg) : pg.book codec = mem.book := by
  funext id
  cases hf : mem.inner.find? id with
  | none =>
      simp only [PgOrderRepository.book, InMemoryOrderRepository.book, hf, get_of_none h hf]
      rfl
  | some r =>
      simp only [PgOrderRepository.book, InMemoryOrderRepository.book, hf, get_of_some h hf]
      rfl

theorem PgOrderRepository.sound_new (P : Primitives) (codec : JsonCodec J) :
    (new : PgOrderRepository J).Sound P codec :=
  ⟨.new, InMemoryOrderRepository.filed_new, mirrors_new codec⟩

/-- **Postgres keeps the book**, where signed orders come back from JSON as they went in. -/
theorem PgOrderRepository.implements (P : Primitives) (codec : JsonCodec J)
    (hj : ∀ s, codec.RoundTrips s) (iter : IterOrder (List UInt8 × Row J)) :
    Implements P (repository P codec iter) (Sound P codec) (book codec) where
  insert := by
    rintro now s pg ⟨mem, hf, h⟩
    have hm := insert_mirrors (P := P) h (hj s) now
    have hb := InMemoryOrderRepository.filed_insert hf now s
    refine ⟨⟨_, hb.1, hm⟩, ?_⟩
    rw [book_mirrors h, ← hb.2]
    exact book_mirrors hm
  updateStatus := by
    rintro now id status fs fb pg ⟨mem, hf, h⟩
    have hm := (updateStatus_mirrors h now id status fs fb).2
    have hb := InMemoryOrderRepository.filed_updateStatus hf now id status fs fb
    refine ⟨⟨_, hb.1, hm⟩, ?_⟩
    rw [book_mirrors h, ← hb.2]
    exact book_mirrors hm
  cancel := by
    rintro now id owner pg ⟨mem, hf, h⟩
    have hm := cancel_mirrors h now id owner
    have hb := InMemoryOrderRepository.filed_cancel hf now id owner
    refine ⟨⟨_, hb.1, hm.2.2⟩, ?_, ?_⟩
    · rw [book_mirrors h, ← hb.2.1]
      exact book_mirrors hm.2.2
    · rw [book_mirrors h]
      exact hm.2.1.trans hb.2.2
  expireDue := by
    rintro now secs pg ⟨mem, hf, h⟩
    have hm := (expireDue_mirrors h now secs).2
    have hb := InMemoryOrderRepository.filed_expireDue hf now secs
    refine ⟨⟨_, hb.1, hm⟩, ?_⟩
    rw [book_mirrors h, ← hb.2]
    exact book_mirrors hm
  listOpen := by
    rintro pg ⟨mem, hf, h⟩
    obtain ⟨rs, hrs, hn, hmem⟩ := listOpen_mirrors h iter none
    refine ⟨rs, hrs, hn, fun r' hr' => ?_, fun id e he hs => ?_⟩
    · obtain ⟨r, hr, ⟨ho, -⟩, rfl⟩ := (hmem r').mp hr'
      obtain ⟨id, hid⟩ := Table.mem_values_iff.mp hr
      obtain ⟨rfl, hoid⟩ := hf id r hid
      rw [book_mirrors h]
      exact ⟨InMemoryOrderRepository.book_eq_some.mpr ⟨r, hid, rfl⟩, ho, hoid⟩
    · rw [book_mirrors h] at he
      obtain ⟨r, hr, rfl⟩ := InMemoryOrderRepository.book_eq_some.mp he
      exact ⟨_, (hmem _).mpr ⟨r, Table.mem_values_iff.mpr ⟨id, hr⟩, ⟨hs, rfl⟩, rfl⟩, (hf id r hr).1⟩

end

end OxDex
