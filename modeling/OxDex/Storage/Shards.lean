import OxDex.Storage.Memory
import OxDex.Support.Footprint

/-!
# Storage — Shards

How `list_open` and `expire_due` go over the map of the in-memory repository.

The map is a `DashMap`: its entries are in shards, each under a lock of its own.  A call for one
order takes the lock of its shard, and an iteration takes one lock after the other.  So between two
shards of an iteration any other call may come.  Which shard an order is in, and how many there are,
is left open.
-/

namespace OxDex
open Support

/-- The shards of a map, in the order of its iterations. -/
structure Shards (ι : Type) where
  shard : OrderId → ι
  all : List ι
  nodup : all.Nodup
  covers : ∀ id, shard id ∈ all

/-- What a sweep makes of an entry. -/
def OrderBook.expiry (secs : Int64) (_ : OrderId) (v : Option Entry) : Option Entry :=
  v.map fun e => if Due secs e then { e with status := .expired } else e

namespace InMemoryOrderRepository

section
variable {ι : Type} [DecidableEq ι] (d : Shards ι) (i : ι)

/-- The records of a shard. -/
def inShard (st : InMemoryOrderRepository) : List OrderRecord :=
  (st.inner.entries.filter fun e => d.shard e.1 = i).map Prod.snd

/-- `list_open`, for all pairs, in one shard. -/
def listShard (st : InMemoryOrderRepository) : List OrderRecord :=
  (inShard d i st).filter fun r => r.status = .opened

/-- `expire_due` in one shard.  The clock is read at every record. -/
def expireShard (now : OrderId → Nat) (secs : Int64) (st : InMemoryOrderRepository) :
    Nat × InMemoryOrderRepository :=
  ((inShard d i st).countP (due secs), ⟨st.inner.mapWith fun id e =>
    if d.shard id = i ∧ due secs e then closed (now id) .expired e else e⟩)

end

section
variable {ι : Type} [DecidableEq ι] {d : Shards ι} {i : ι} {P : Primitives}
  {st : InMemoryOrderRepository}

/-- **`expire_due` in one shard** sweeps the orders of the shard. -/
theorem filed_expireShard (h : Filed P st) (now : OrderId → Nat) (secs : Int64) :
    Filed P (expireShard d i now secs st).2 ∧
      book (expireShard d i now secs st).2 =
        visit d.shard (OrderBook.expiry secs) i (book st) := by
  refine ⟨h.mapWith fun id r => by split <;> exact ⟨rfl, rfl⟩, funext fun id => ?_⟩
  simp only [book, expireShard, Table.find?_mapWith, visit, OrderBook.expiry]
  by_cases hi : d.shard id = i
  · rw [if_pos hi]
    cases st.inner.find? id with
    | none => rfl
    | some r =>
        simp only [Option.map_some]
        by_cases hd : OrderBook.Due secs r.entry
        · rw [if_pos hd, if_pos ⟨hi, due_iff.mpr hd⟩]
          rfl
        · rw [if_neg hd, if_neg fun h => hd (due_iff.mp h.2)]
  · simp [hi]

/-- **`list_open` in one shard** takes the open orders of the shard. -/
theorem filed_listShard (h : Filed P st) :
    ((listShard d i st).map OrderRecord.id).Nodup ∧
      (∀ r ∈ listShard d i st, book st r.id = some r.entry ∧ r.status = .opened ∧
        d.shard r.id = i) ∧
      ∀ id e, book st id = some e → e.status = .opened → d.shard id = i →
        ∃ r ∈ listShard d i st, r.id = id := by
  refine ⟨?_, fun r hr => ?_, fun id e he ho hi => ?_⟩
  · have hids : (inShard d i st).map OrderRecord.id =
        (st.inner.entries.filter fun e => d.shard e.1 = i).map Prod.fst := by
      rw [inShard, List.map_map]
      exact List.map_congr_left fun e he =>
        (h e.1 e.2 (Table.mem_entries_iff.mp (List.mem_of_mem_filter he))).1
    have hn : ((inShard d i st).map OrderRecord.id).Nodup :=
      hids ▸ st.inner.nodup.sublist (List.filter_sublist.map _)
    exact hn.sublist (List.filter_sublist.map _)
  · obtain ⟨hr, ho⟩ := List.mem_filter.mp hr
    obtain ⟨⟨id, r⟩, he, rfl⟩ := List.mem_map.mp hr
    obtain ⟨he, hi⟩ := List.mem_filter.mp he
    have hid := Table.mem_entries_iff.mp he
    obtain ⟨rfl, -⟩ := h id r hid
    exact ⟨by simp [book, hid], of_decide_eq_true ho, of_decide_eq_true hi⟩
  · obtain ⟨r, hr, rfl⟩ := book_eq_some.mp he
    refine ⟨r, List.mem_filter.mpr ⟨List.mem_map.mpr ⟨(id, r), List.mem_filter.mpr
      ⟨Table.mem_entries_iff.mpr hr, decide_eq_true hi⟩, rfl⟩, decide_eq_true ho⟩, (h id r hr).1⟩

end

end InMemoryOrderRepository

end OxDex
