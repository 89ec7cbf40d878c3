import OxDex.Auctioneer.Winner

/-!
# Auctioneer — Frame

A round over the in-memory repository that no client comes in between.

`round_frame` says when it delivers a solution and which, and what it leaves alone: a record that
the delivered trades do not name is at most expired by the sweep (`Aged`).  The answers are any, in
any order, and the store need not be one that requests have led to.
-/

namespace OxDex
open Support

/-- The record as it was, or expired at `secs`: open, due, and changed in its status and its
`updated_at` only. -/
def Aged (secs : Int64) (r r' : OrderRecord) : Prop :=
  r' = r ∨ r.status = .opened ∧ r.signed.order.validTo ≤ secs ∧
    ∃ now, r' = { r with status := .expired, updatedAt := now }

theorem isSome_eq_of_aged {secs : Int64} {x y : Option OrderRecord}
    (h : Option.Rel (Aged secs) x y) : y.isSome = x.isSome := by
  cases h <;> rfl

namespace InMemoryOrderRepository

variable {P : Primitives} {iter : IterOrder OrderRecord} {A : Auctioneer} {input : RoundInput}
  {st : InMemoryOrderRepository}

/-- An order is open once those that are due have expired. -/
def AnyOpen (secs : Int64) (st : InMemoryOrderRepository) : Prop :=
  ∃ id r, st.inner.find? id = some r ∧ r.status = .opened ∧ secs < r.signed.order.validTo

/-! ### The sweep and the marking -/

theorem find?_expireDue (now : Nat) (secs : Int64) (id : OrderId) :
    (expireDue now secs st).2.inner.find? id = (st.inner.find? id).map fun e =>
      if due secs e then closed now .expired e else e :=
  Table.find?_mapWith

theorem expireDue_aged (now : Nat) (secs : Int64) (id : OrderId) :
    Option.Rel (Aged secs) (st.inner.find? id) ((expireDue now secs st).2.inner.find? id) := by
  rw [find?_expireDue]
  cases st.inner.find? id with
  | none => exact .none
  | some r =>
      refine .some ?_
      dsimp only
      by_cases hd : due secs r = true
      · rw [if_pos hd]
        obtain ⟨ho, hv⟩ := due_iff.mp hd
        exact .inr ⟨ho, hv, now, rfl⟩
      · rw [if_neg hd]
        exact .inl rfl

/-- The sweep leaves an order open if it was open and is still valid. -/
theorem open_expireDue {now : Nat} {secs : Int64} :
    (∃ id r, (expireDue now secs st).2.inner.find? id = some r ∧ r.status = .opened) ↔
      AnyOpen secs st := by
  refine exists_congr fun id => ?_
  rw [find?_expireDue]
  cases st.inner.find? id with
  | none => simp
  | some r =>
      by_cases hd : due secs r = true
      · have hv : ¬ secs < r.signed.order.validTo := Int64.not_lt.mpr (due_iff.mp hd).2
        simp [hd, closed, hv]
      · have hv : r.status = .opened → secs < r.signed.order.validTo :=
          fun ho => Int64.not_le.mp fun hle => hd (due_iff.mpr ⟨ho, hle⟩)
        simpa [hd] using hv

/-- `list_open` lists something if an order is open. -/
theorem listOpen_isEmpty {rs : List OrderRecord} (h : listOpen iter none st = .ok rs) :
    rs.isEmpty = false ↔ ∃ id r, st.inner.find? id = some r ∧ r.status = .opened := by
  cases h
  rw [List.isEmpty_eq_false_iff_exists_mem]
  constructor
  · rintro ⟨r, hr⟩
    obtain ⟨hr, -⟩ := List.mem_filter.mp hr
    obtain ⟨hr, ho⟩ := List.mem_filter.mp hr
    obtain ⟨id, hid⟩ := Table.mem_values_iff.mp (iter.mem_iter.mp hr)
    exact ⟨id, r, hid, of_decide_eq_true ho⟩
  · rintro ⟨id, r, hr, ho⟩
    refine ⟨r, List.mem_filter.mpr ⟨List.mem_filter.mpr ⟨?_, decide_eq_true ho⟩, rfl⟩⟩
    exact iter.mem_iter.mpr (Table.mem_values_iff.mpr ⟨id, hr⟩)

variable (P iter A input st) in
/-- **When a batch is sealed**, and what that leaves of the records. -/
theorem sealBatch_memory :
    ((sealedBatch P (repository P iter) A input st).isSome ↔
      A.cfg.minSolvers ≤ A.solvers.length ∧ AnyOpen input.now st) ∧
    ∀ id, Option.Rel (Aged input.now) (st.inner.find? id)
      ((sealBatch P (repository P iter) A input st).2.inner.find? id) := by
  unfold sealedBatch sealBatch
  by_cases hmin : A.solvers.length < A.cfg.minSolvers
  · rw [if_pos hmin]
    refine ⟨⟨fun h => absurd h (by simp [Except.toOption]), fun h => absurd h.1 (not_le.mpr hmin)⟩,
      fun id => ?_⟩
    cases st.inner.find? id with
    | none => exact .none
    | some r => exact .some (.inl rfl)
  rw [if_neg hmin]
  obtain ⟨swept, hswept⟩ : ∃ swept, (expireDue (input.nanos 0) input.now st).2 = swept := ⟨_, rfl⟩
  obtain ⟨rs, hrs⟩ : ∃ rs, listOpen iter none swept = .ok rs := ⟨_, rfl⟩
  have hx : (repository P iter).expireDue (input.nanos 0) input.now st =
      (.ok (st.inner.count (due input.now)), swept) := hswept ▸ rfl
  have hl : (repository P iter).listOpen none swept = .ok rs := hrs
  have hopen : rs.isEmpty = false ↔ AnyOpen input.now st :=
    (listOpen_isEmpty hrs).trans (hswept ▸ open_expireDue)
  have haged : ∀ id, Option.Rel (Aged input.now) (st.inner.find? id) (swept.inner.find? id) :=
    fun id => hswept ▸ expireDue_aged _ _ id
  simp only [hx, hl]
  cases he : rs.isEmpty with
  | true =>
      have hno : ¬ AnyOpen input.now st := fun h => by simp [he] at hopen; exact hopen h
      simp [Except.toOption, hno, haged]
  | false =>
      have hyes : AnyOpen input.now st := hopen.mp he
      simp [Except.toOption, hyes, haged, not_lt.mp hmin]

/-- A marking leaves the other records alone. -/
theorem markOne_of_ne {now : Nat} {t : TradeExecution} {id : OrderId} (h : id ≠ t.orderId) :
    (markOne (repository P iter) now t st).inner.find? id = st.inner.find? id := by
  show (updateStatus now t.orderId .auctioned (some t.executedSell) (some t.executedBuy)
    st).2.inner.find? id = _
  cases hf : st.inner.find? t.orderId with
  | none => rw [updateStatus_of_none hf]
  | some r => rw [updateStatus_of_some hf, Table.find?_modify, if_neg h]

theorem markAll_of_not_mem {id : OrderId} : ∀ {trades : List TradeExecution} {nanos : Nat → Nat}
    {st : InMemoryOrderRepository}, id ∉ trades.map TradeExecution.orderId →
    (markAll (repository P iter) nanos trades st).inner.find? id = st.inner.find? id
  | [], _, _, _ => rfl
  | t :: ts, nanos, st, h => by
      rw [List.map_cons, List.mem_cons, not_or] at h
      rw [markAll, markAll_of_not_mem h.2, markOne_of_ne h.1]

/-- Markings add no record and lose none. -/
theorem isSome_markAll {id : OrderId} : ∀ {trades : List TradeExecution} {nanos : Nat → Nat}
    {st : InMemoryOrderRepository}, ((markAll (repository P iter) nanos trades st).inner.find?
      id).isSome = (st.inner.find? id).isSome
  | [], _, _ => rfl
  | t :: ts, nanos, st => by
      rw [markAll, isSome_markAll]
      show ((updateStatus _ t.orderId .auctioned (some t.executedSell) (some t.executedBuy)
        st).2.inner.find? id).isSome = _
      cases hf : st.inner.find? t.orderId with
      | none => rw [updateStatus_of_none hf]
      | some r => rw [updateStatus_of_some hf, Table.isSome_find?_modify]

/-! ### A round -/

variable (P A input) in
/-- The store a round leaves: what its first part leaves, with the winner's orders marked. -/
theorem runOneAuction_store {σ : Type} (R : OrderRepository σ) (st : σ) :
    (runOneAuction P R A input st).store = markAll R (fun k => input.nanos (k + 1))
      (runOneAuction P R A input st).marked (sealBatch P R A input st).2 := by
  unfold runOneAuction
  obtain ⟨res, st', hst⟩ : ∃ res st', sealBatch P R A input st = (res, st') := ⟨_, _, rfl⟩
  rw [hst]
  rcases res with e | _ | b
  · rfl
  · rfl
  · cases race input.answers <;> rfl

/-- **Winner and frame of a round.**  It delivers a solution exactly when the solvers are enough, an
order is open after the sweep and some solver returns a solution.  What it delivers is one of the
solutions returned, and none of them scores higher.  No record is added or lost, and one that the
delivered trades do not name is as it was or expired. -/
theorem round_frame (P : Primitives) (iter : IterOrder OrderRecord) (A : Auctioneer)
    (input : RoundInput) (st : InMemoryOrderRepository) :
    ((runOneAuction P (repository P iter) A input st).delivered.isSome ↔
      A.cfg.minSolvers ≤ A.solvers.length ∧ AnyOpen input.now st ∧
        ∃ a ∈ input.answers, ∃ sol, a.2 = .ok sol) ∧
    (∀ w, (runOneAuction P (repository P iter) A input st).delivered = some w →
      (∃ a ∈ input.answers, a.2 = .ok w) ∧
        ∀ a ∈ input.answers, ∀ sol, a.2 = .ok sol → sol.score ≤ w.score) ∧
    (∀ id, ((runOneAuction P (repository P iter) A input st).store.inner.find? id).isSome =
      (st.inner.find? id).isSome) ∧
    ∀ id, (∀ w, (runOneAuction P (repository P iter) A input st).delivered = some w →
        id ∉ w.orderIds) →
      Option.Rel (Aged input.now) (st.inner.find? id)
        ((runOneAuction P (repository P iter) A input st).store.inner.find? id) := by
  obtain ⟨hsealed, haged⟩ := sealBatch_memory P iter A input st
  obtain ⟨hdel, hmarked⟩ := runOneAuction_delivered (P := P) (R := repository P iter) A input st
  have hstore := runOneAuction_store P A input (repository P iter) st
  refine ⟨?_, fun w hw => ?_, fun id => ?_, fun id hid => ?_⟩
  · rw [hdel, ← and_assoc, ← hsealed, ← race_isSome]
    cases sealedBatch P (repository P iter) A input st <;> simp
  · rw [hdel, Option.bind_eq_some_iff] at hw
    obtain ⟨-, -, hrace⟩ := hw
    have hbest := race_eq_some.mp hrace
    exact ⟨mem_solutions.mp hbest.mem,
      fun a ha sol hsol => hbest.le (mem_solutions.mpr ⟨a, ha, hsol⟩)⟩
  · rw [hstore, isSome_markAll]
    exact isSome_eq_of_aged (haged id)
  · rw [hstore, markAll_of_not_mem]
    · exact haged id
    · rw [hmarked]
      cases hw : (runOneAuction P (repository P iter) A input st).delivered with
      | none => simp
      | some w => exact hid w hw

end InMemoryOrderRepository

end OxDex
