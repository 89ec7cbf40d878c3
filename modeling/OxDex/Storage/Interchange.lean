import OxDex.Storage.Postgres

/-!
# Storage — Interchange

Whether the two repositories can be told apart.

Both are run on one sequence of operations from empty stores, with one reading of the clock an
operation.  The table mirrors the in-memory store throughout (`mirrors_perform`), and the answers
to an operation agree exactly under a condition on the store before it (`sameOutcome_iff`): a
`cancel` must name an order that is there, and what is read or inserted must carry times in whole
microseconds.  `agree_iff` is the same for whole runs; with a clock in whole microseconds only the
cancels are left (`runAgrees_iff_cancelsKnown`), each of which must name an order inserted before it
(`agree_iff_inserted`).

`cancel_unknown_differs`: cancelling an order that was never inserted is an error in memory and an
unsuccessful cancel in Postgres.
-/

namespace OxDex
open Support

/-- An operation of the repository trait. -/
inductive RepoOp where
  | insert (signed : SignedOrder)
  | get (id : OrderId)
  | listOpen (pair : Option (Address × Address))
  | updateStatus (id : OrderId) (status : OrderStatus) (filledSell filledBuy : Option UInt64)
  | cancel (id : OrderId) (owner : Address)
  | expireDue (secs : Int64)

/-- What an operation answers. -/
inductive Outcome where
  | record (r : RepoResult OrderRecord)
  | records (r : RepoResult (List OrderRecord))
  | unit (r : RepoResult Unit)
  | bool (r : RepoResult Bool)
  | count (r : RepoResult Nat)
  deriving DecidableEq

/-- Run one operation at a reading of the clock. -/
def OrderRepository.perform {σ : Type} (R : OrderRepository σ) (now : Nat) :
    RepoOp → σ → Outcome × σ
  | .insert s, st => ((R.insert now s st).1 |> .record, (R.insert now s st).2)
  | .get id, st => (.record (R.get id st), st)
  | .listOpen pair, st => (.records (R.listOpen pair st), st)
  | .updateStatus id status fs fb, st =>
      (.unit (R.updateStatus now id status fs fb st).1, (R.updateStatus now id status fs fb st).2)
  | .cancel id owner, st => (.bool (R.cancel now id owner st).1, (R.cancel now id owner st).2)
  | .expireDue secs, st => (.count (R.expireDue now secs st).1, (R.expireDue now secs st).2)

/-- Run a sequence of operations, each with its reading of the clock. -/
def OrderRepository.performAll {σ : Type} (R : OrderRepository σ) :
    List (Nat × RepoOp) → σ → List Outcome × σ
  | [], st => ([], st)
  | (now, op) :: ops, st =>
      let step := R.perform now op st
      let rest := R.performAll ops step.2
      (step.1 :: rest.1, rest.2)

/-- Two answers are the same; lists are compared as sets. -/
def SameOutcome : Outcome → Outcome → Prop
  | .records (.ok l), .records (.ok l') => ∀ r, r ∈ l ↔ r ∈ l'
  | a, b => a = b

/-- **The runs agree**: the same answer at every operation, and the same records at the end. -/
structure Agree {σ τ : Type} (R : OrderRepository σ) (S : OrderRepository τ)
    (ops : List (Nat × RepoOp)) (st : σ) (st' : τ) : Prop where
  outcomes : List.Forall₂ SameOutcome (R.performAll ops st).1 (S.performAll ops st').1
  records : ∀ id, R.get id (R.performAll ops st).2 = S.get id (S.performAll ops st').2

/-- What an operation may meet in the store it runs on. -/
def OpAgrees (P : Primitives) (now : Nat) (st : InMemoryOrderRepository) : RepoOp → Prop
  | .insert s => (st.inner.find? (s.order.id P) = none → now % 1000 = 0) ∧
      ∀ o ∈ st.inner.find? (s.order.id P), o.signed = s → o.WholeMicros
  | .get id => ∀ r ∈ st.inner.find? id, r.WholeMicros
  | .listOpen pair => ∀ r ∈ st.inner.values, r.status = .opened →
      InMemoryOrderRepository.ofPair pair r = true → r.WholeMicros
  | .cancel id _ => (st.inner.find? id).isSome
  | .updateStatus .. => True
  | .expireDue _ => True

instance (P : Primitives) (now : Nat) (st : InMemoryOrderRepository) :
    DecidablePred (OpAgrees P now st)
  | .insert _ => inferInstanceAs (Decidable ((_ → _) ∧ ∀ o ∈ st.inner.find? _, _ → _))
  | .get _ => inferInstanceAs (Decidable (∀ r ∈ st.inner.find? _, _))
  | .listOpen _ => inferInstanceAs (Decidable (∀ r ∈ st.inner.values, _ → _ → _))
  | .cancel _ _ => inferInstanceAs (Decidable (Option.isSome _ = true))
  | .updateStatus .. => inferInstanceAs (Decidable True)
  | .expireDue _ => inferInstanceAs (Decidable True)

/-- Every operation of a run meets what it may, and the run ends with whole microseconds. -/
def RunAgrees (P : Primitives) : List (Nat × RepoOp) → InMemoryOrderRepository → Prop
  | [], st => ∀ r ∈ st.inner.values, r.WholeMicros
  | (now, op) :: ops, st => OpAgrees P now st op ∧
      RunAgrees P ops ((InMemoryOrderRepository.repository P (.id _)).perform now op st).2

instance instDecidableRunAgrees (P : Primitives) :
    ∀ (ops : List (Nat × RepoOp)) (st : InMemoryOrderRepository), Decidable (RunAgrees P ops st)
  | [], st => inferInstanceAs (Decidable (∀ r ∈ st.inner.values, _))
  | (_, _) :: ops, _ =>
      have := instDecidableRunAgrees P ops
      inferInstanceAs (Decidable (_ ∧ RunAgrees P ops _))

section
variable {J : Type} {P : Primitives} {codec : JsonCodec J} {mem : InMemoryOrderRepository}
  {pg : PgOrderRepository J} (iter : IterOrder OrderRecord)
  (iter' : IterOrder (List UInt8 × Row J))

/-- The orders an operation sends to JSON come back. -/
def RepoOp.RoundTrips (codec : JsonCodec J) : RepoOp → Prop
  | .insert s => codec.RoundTrips s
  | _ => True

/-- **Every operation keeps the mirror.** -/
theorem mirrors_perform (h : Mirrors codec mem pg) (now : Nat) {op : RepoOp}
    (hj : op.RoundTrips codec) :
    Mirrors codec ((InMemoryOrderRepository.repository P iter).perform now op mem).2
      ((PgOrderRepository.repository P codec iter').perform now op pg).2 := by
  cases op with
  | insert s => exact insert_mirrors h hj now
  | get id => exact h
  | listOpen pair => exact h
  | updateStatus id status fs fb => exact (updateStatus_mirrors h now id status fs fb).2
  | cancel id owner => exact (cancel_mirrors h now id owner).2.2
  | expireDue secs => exact (expireDue_mirrors h now secs).2

/-- When one insert is answered alike. -/
theorem insert_alike_iff (h : Mirrors codec mem pg) (now : Nat) {s : SignedOrder}
    (hj : codec.RoundTrips s) :
    (InMemoryOrderRepository.insert P now s mem).1 =
      (PgOrderRepository.insert P codec now s pg).1 ↔ OpAgrees P now mem (.insert s) := by
  rw [OpAgrees]
  cases hf : mem.inner.find? (s.order.id P) with
  | none =>
      rw [(insert_mirrors_none h hj now hf).1, InMemoryOrderRepository.insert_of_none hf,
        Except.ok.injEq, eq_comm, OrderRecord.toMicros_eq_iff]
      exact ⟨fun hw => ⟨fun _ => hw.1, fun o ho => by cases ho⟩,
        fun hw => ⟨hw.1 rfl, hw.1 rfl⟩⟩
  | some o =>
      rw [(insert_mirrors_some h hj now hf).1, InMemoryOrderRepository.insert_of_some hf]
      by_cases e : o.signed = s
      · rw [if_pos e, if_pos e, Except.ok.injEq, eq_comm, OrderRecord.toMicros_eq_iff]
        exact ⟨fun hw => ⟨fun hn => (Option.some_ne_none o hn).elim, fun _ ho _ =>
          Option.some.inj ho ▸ hw⟩, fun hw => hw.2 o rfl e⟩
      · simp [e]

/-- When one read is answered alike. -/
theorem get_alike_iff (h : Mirrors codec mem pg) (now : Nat) (id : OrderId) :
    mem.get id = pg.get codec id ↔ OpAgrees P now mem (.get id) := by
  rw [OpAgrees, InMemoryOrderRepository.get]
  cases hf : mem.inner.find? id with
  | none => simp [get_of_none h hf]
  | some r => simp [get_of_some h hf, eq_comm (a := r), OrderRecord.toMicros_eq_iff]

/-- The records the in-memory repository lists. -/
theorem mem_listed (pair : Option (Address × Address)) (r : OrderRecord) :
    r ∈ ((iter.iter mem.inner.values).filter fun r => r.status = .opened).filter
        (InMemoryOrderRepository.ofPair pair) ↔
      r ∈ mem.inner.values ∧ r.status = .opened ∧
        InMemoryOrderRepository.ofPair pair r = true := by
  rw [List.mem_filter, List.mem_filter, iter.mem_iter, decide_eq_true_eq, and_assoc]

/-- When one listing is answered alike. -/
theorem listOpen_alike_iff (h : Mirrors codec mem pg) (now : Nat)
    (pair : Option (Address × Address)) :
    SameOutcome (.records (InMemoryOrderRepository.listOpen iter pair mem))
      (.records (PgOrderRepository.listOpen codec iter' pair pg)) ↔
        OpAgrees P now mem (.listOpen pair) := by
  obtain ⟨rs, hrs, -, hmem⟩ := listOpen_mirrors h iter' pair
  rw [hrs]
  show (∀ r, r ∈ _ ↔ r ∈ rs) ↔ ∀ r ∈ mem.inner.values, _ → _ → _
  constructor
  · -- a listed record is one Postgres read, whose times are cut
    intro hset r hr ho hp
    obtain ⟨r', -, -, rfl⟩ :=
      (hmem r).mp ((hset r).mp ((mem_listed iter pair r).mpr ⟨hr, ho, hp⟩))
    exact OrderRecord.toMicros_eq_iff.mp (OrderRecord.toMicros_toMicros r')
  · intro hwhole r
    rw [mem_listed, hmem]
    constructor
    · rintro ⟨hr, ho, hp⟩
      exact ⟨r, hr, ⟨ho, hp⟩, OrderRecord.toMicros_eq_iff.mpr (hwhole r hr ho hp)⟩
    · rintro ⟨r', hr', ⟨ho, hp⟩, rfl⟩
      rw [OrderRecord.toMicros_eq_iff.mpr (hwhole r' hr' ho hp)]
      exact ⟨hr', ho, hp⟩

/-- **When one operation is answered alike.** -/
theorem sameOutcome_iff (h : Mirrors codec mem pg) (now : Nat) {op : RepoOp}
    (hj : op.RoundTrips codec) :
    SameOutcome ((InMemoryOrderRepository.repository P iter).perform now op mem).1
      ((PgOrderRepository.repository P codec iter').perform now op pg).1 ↔
        OpAgrees P now mem op := by
  cases op with
  | insert s =>
      show Outcome.record _ = Outcome.record _ ↔ _
      rw [Outcome.record.injEq]
      exact insert_alike_iff h now hj
  | get id =>
      show Outcome.record _ = Outcome.record _ ↔ _
      rw [Outcome.record.injEq]
      exact get_alike_iff h now id
  | listOpen pair => exact listOpen_alike_iff iter iter' h now pair
  | updateStatus id status fs fb =>
      exact iff_of_true (congrArg Outcome.unit (updateStatus_mirrors h now id status fs fb).1.symm)
        trivial
  | cancel id owner =>
      show Outcome.bool _ = Outcome.bool _ ↔ _
      rw [Outcome.bool.injEq]
      exact (cancel_mirrors h now id owner).1
  | expireDue secs =>
      exact iff_of_true (congrArg Outcome.count (expireDue_mirrors h now secs).1.symm) trivial

/-- The store an operation leaves does not depend on how the map is iterated. -/
theorem perform_store (now : Nat) (op : RepoOp) (mem : InMemoryOrderRepository) :
    ((InMemoryOrderRepository.repository P iter).perform now op mem).2 =
      ((InMemoryOrderRepository.repository P (.id _)).perform now op mem).2 := by
  cases op <;> rfl

/-- At the end of a run the records are the same if their times are whole microseconds. -/
theorem records_iff (h : Mirrors codec mem pg) :
    (∀ id, mem.get id = pg.get codec id) ↔ ∀ r ∈ mem.inner.values, r.WholeMicros := by
  constructor
  · intro hg r hr
    obtain ⟨id, hid⟩ := Table.mem_values_iff.mp hr
    have := hg id
    rw [get_of_some h hid, InMemoryOrderRepository.get, hid, Except.ok.injEq, eq_comm] at this
    exact OrderRecord.toMicros_eq_iff.mp this
  · intro hw id
    cases hf : mem.inner.find? id with
    | none => rw [get_of_none h hf, InMemoryOrderRepository.get, hf]
    | some r =>
        rw [get_of_some h hf, InMemoryOrderRepository.get, hf,
          OrderRecord.toMicros_eq_iff.mpr (hw r (Table.mem_values_iff.mpr ⟨id, hf⟩))]

/-- **When two mirrored runs agree.** -/
theorem agree_iff_of_mirrors : ∀ {ops : List (Nat × RepoOp)} {mem : InMemoryOrderRepository}
    {pg : PgOrderRepository J}, Mirrors codec mem pg → (∀ op ∈ ops, op.2.RoundTrips codec) →
      (Agree (InMemoryOrderRepository.repository P iter)
        (PgOrderRepository.repository P codec iter') ops mem pg ↔ RunAgrees P ops mem)
  | [], mem, pg, h, _ => ⟨fun hA => (records_iff h).mp hA.records,
      fun hr => ⟨.nil, (records_iff h).mpr hr⟩⟩
  | (now, op) :: ops, mem, pg, h, hj => by
      have hop := hj _ List.mem_cons_self
      have hjs : ∀ op ∈ ops, op.2.RoundTrips codec := fun op hm => hj op (List.mem_cons_of_mem _ hm)
      have ih := agree_iff_of_mirrors (mirrors_perform (P := P) iter iter' h now hop) hjs
      rw [RunAgrees, ← perform_store iter, ← ih, ← sameOutcome_iff iter iter' h now hop]
      constructor
      · rintro ⟨ho, hr⟩
        cases ho with
        | cons hs ht => exact ⟨hs, ht, hr⟩
      · rintro ⟨hs, ht, hr⟩
        exact ⟨.cons hs ht, hr⟩

/-- **When the two repositories agree** on a sequence of operations, from empty stores. -/
theorem agree_iff (ops : List (Nat × RepoOp)) (hj : ∀ op ∈ ops, op.2.RoundTrips codec) :
    Agree (InMemoryOrderRepository.repository P iter) (PgOrderRepository.repository P codec iter')
      ops .new .new ↔ RunAgrees P ops .new :=
  agree_iff_of_mirrors iter iter' (mirrors_new codec) hj

end

/-! ### A clock in whole microseconds -/

/-- Every `cancel` of a run names an order that is there. -/
def CancelsKnown (P : Primitives) : List (Nat × RepoOp) → InMemoryOrderRepository → Prop
  | [], _ => True
  | (now, op) :: ops, st => (∀ id owner, op = .cancel id owner → (st.inner.find? id).isSome) ∧
      CancelsKnown P ops ((InMemoryOrderRepository.repository P (.id _)).perform now op st).2

/-- Every record of a store has whole microseconds. -/
def AllWhole (st : InMemoryOrderRepository) : Prop :=
  ∀ id r, st.inner.find? id = some r → r.WholeMicros

theorem AllWhole.mapWith {st : InMemoryOrderRepository} (h : AllWhole st)
    {f : OrderId → OrderRecord → OrderRecord} (hf : ∀ id r, r.WholeMicros → (f id r).WholeMicros) :
    AllWhole ⟨st.inner.mapWith f⟩ := by
  intro id r hr
  rw [Table.find?_mapWith, Option.map_eq_some_iff] at hr
  obtain ⟨r', hr', rfl⟩ := hr
  exact hf id r' (h id r' hr')

/-- Every operation at a whole microsecond keeps the records whole. -/
theorem allWhole_perform {P : Primitives} {st : InMemoryOrderRepository} (h : AllWhole st)
    {now : Nat} (hn : now % 1000 = 0) (op : RepoOp) :
    AllWhole ((InMemoryOrderRepository.repository P (.id _)).perform now op st).2 := by
  cases op with
  | get id => exact h
  | listOpen pair => exact h
  | insert s =>
      show AllWhole (InMemoryOrderRepository.insert P now s st).2
      cases hf : st.inner.find? (s.order.id P) with
      | none =>
          rw [InMemoryOrderRepository.insert_of_none hf]
          intro id r hr
          rw [Table.find?_insertNew] at hr
          split at hr
          · cases hr; exact ⟨hn, hn⟩
          · exact h id r hr
      | some o => rw [InMemoryOrderRepository.insert_of_some hf]; exact h
  | updateStatus id status fs fb =>
      show AllWhole (InMemoryOrderRepository.updateStatus now id status fs fb st).2
      cases hf : st.inner.find? id with
      | none => rw [InMemoryOrderRepository.updateStatus_of_none hf]; exact h
      | some r =>
          rw [InMemoryOrderRepository.updateStatus_of_some hf]
          exact h.mapWith fun _ r hr => by split <;> first | exact ⟨hr.1, hn⟩ | exact hr
  | cancel id owner =>
      show AllWhole (InMemoryOrderRepository.cancel now id owner st).2
      cases hf : st.inner.find? id with
      | none => rw [InMemoryOrderRepository.cancel_of_none hf]; exact h
      | some r =>
          rw [InMemoryOrderRepository.cancel_of_some hf]
          split
          · exact h.mapWith fun _ r hr => by split <;> first | exact ⟨hr.1, hn⟩ | exact hr
          · exact h
  | expireDue secs =>
      exact h.mapWith fun _ r hr => by split <;> first | exact ⟨hr.1, hn⟩ | exact hr

/-- **With a clock in whole microseconds** the repositories agree if and only if every `cancel`
names an order that is there. -/
theorem runAgrees_iff_cancelsKnown {P : Primitives} :
    ∀ {ops : List (Nat × RepoOp)} {st : InMemoryOrderRepository}, AllWhole st →
      (∀ op ∈ ops, op.1 % 1000 = 0) → (RunAgrees P ops st ↔ CancelsKnown P ops st)
  | [], st, h, _ => iff_of_true (fun r hr => by
      obtain ⟨id, hid⟩ := Table.mem_values_iff.mp hr
      exact h id r hid) trivial
  | (now, op) :: ops, st, h, hn => by
      have hnow := hn _ List.mem_cons_self
      have ih := runAgrees_iff_cancelsKnown (P := P) (allWhole_perform (P := P) h hnow op)
        fun op hm => hn op (List.mem_cons_of_mem _ hm)
      refine and_congr ?_ ih
      cases op with
      | insert s =>
          exact iff_of_true ⟨fun _ => hnow, fun o ho _ => h _ o ho⟩ (fun _ _ e => by cases e)
      | get id => exact iff_of_true (fun r hr => h id r hr) (fun _ _ e => by cases e)
      | listOpen pair =>
          refine iff_of_true (fun r hr _ _ => ?_) (fun _ _ e => by cases e)
          obtain ⟨id, hid⟩ := Table.mem_values_iff.mp hr
          exact h id r hid
      | updateStatus => exact iff_of_true trivial (fun _ _ e => by cases e)
      | expireDue => exact iff_of_true trivial (fun _ _ e => by cases e)
      | cancel id owner =>
          exact ⟨fun hs _ _ e => by cases e; exact hs, fun hs => hs id owner rfl⟩

/-- An operation leaves the orders that were there, and an insertion adds its own. -/
theorem isSome_perform {P : Primitives} (st : InMemoryOrderRepository) (now : Nat) (op : RepoOp)
    (id : OrderId) :
    (((InMemoryOrderRepository.repository P (.id _)).perform now op st).2.inner.find? id).isSome ↔
      (st.inner.find? id).isSome ∨ ∃ s, op = .insert s ∧ s.order.id P = id := by
  cases op with
  | get _ => simp [OrderRepository.perform]
  | listOpen pair => simp [OrderRepository.perform]
  | insert s =>
      show ((InMemoryOrderRepository.insert P now s st).2.inner.find? id).isSome ↔ _
      cases hf : st.inner.find? (s.order.id P) with
      | none =>
          rw [InMemoryOrderRepository.insert_of_none hf, Table.find?_insertNew]
          by_cases e : s.order.id P = id
          · simp [e]
          · simp [e]
      | some o =>
          rw [InMemoryOrderRepository.insert_of_some hf]
          refine ⟨.inl, fun h => h.elim (fun h => h) ?_⟩
          rintro ⟨s', hs, rfl⟩
          cases hs
          simp [hf]
  | updateStatus id' status fs fb =>
      show ((InMemoryOrderRepository.updateStatus now id' status fs fb
        st).2.inner.find? id).isSome ↔ _
      cases hf : st.inner.find? id' with
      | none => simp [InMemoryOrderRepository.updateStatus_of_none hf]
      | some r => simp [InMemoryOrderRepository.updateStatus_of_some hf]
  | cancel id' owner =>
      show ((InMemoryOrderRepository.cancel now id' owner st).2.inner.find? id).isSome ↔ _
      cases hf : st.inner.find? id' with
      | none => simp [InMemoryOrderRepository.cancel_of_none hf]
      | some r =>
          rw [InMemoryOrderRepository.cancel_of_some hf]
          split <;> simp
  | expireDue secs =>
      show ((InMemoryOrderRepository.expireDue now secs st).2.inner.find? id).isSome ↔ _
      simp [InMemoryOrderRepository.expireDue, Table.find?_mapWith]

/-- An order is there when it is cancelled if it was at the start, or has been inserted since. -/
theorem cancelsKnown_iff {P : Primitives} : ∀ {ops : List (Nat × RepoOp)}
    {st : InMemoryOrderRepository}, CancelsKnown P ops st ↔
      ∀ pre post now id owner, ops = pre ++ (now, .cancel id owner) :: post →
        (st.inner.find? id).isSome ∨ ∃ op ∈ pre, ∃ s, op.2 = .insert s ∧ s.order.id P = id
  | [], st => by simp [CancelsKnown]
  | (now, op) :: ops, st => by
      rw [CancelsKnown, cancelsKnown_iff]
      constructor
      · rintro ⟨hop, hops⟩ pre post now' id owner h
        cases pre with
        | nil =>
            cases h
            exact .inl (hop id owner rfl)
        | cons p pre =>
            cases h
            rcases hops pre post now' id owner rfl with hk | ⟨q, hq, hs⟩
            · rcases (isSome_perform st now op id).mp hk with hk | ⟨s, rfl, hs⟩
              · exact .inl hk
              · exact .inr ⟨_, List.mem_cons_self, s, rfl, hs⟩
            · exact .inr ⟨q, List.mem_cons_of_mem _ hq, hs⟩
      · intro h
        refine ⟨fun id owner e => ?_, fun pre post now' id owner e => ?_⟩
        · subst e
          rcases h [] ops now id owner rfl with hk | ⟨q, hq, -⟩
          · exact hk
          · cases hq
        · rw [isSome_perform]
          rcases h ((now, op) :: pre) post now' id owner (by rw [e]; rfl) with hk | ⟨q, hq, s, hs⟩
          · exact .inl (.inl hk)
          · rcases List.mem_cons.mp hq with rfl | hq
            · exact .inl (.inr ⟨s, hs⟩)
            · exact .inr ⟨q, hq, s, hs⟩

/-- **Read off the operations**: with a clock in whole microseconds the repositories agree from
empty stores if and only if every `cancel` names an order that an earlier operation inserted. -/
theorem agree_iff_inserted {J : Type} {P : Primitives} {codec : JsonCodec J}
    (iter : IterOrder OrderRecord) (iter' : IterOrder (List UInt8 × Row J))
    {ops : List (Nat × RepoOp)} (hj : ∀ op ∈ ops, op.2.RoundTrips codec)
    (hn : ∀ op ∈ ops, op.1 % 1000 = 0) :
    Agree (InMemoryOrderRepository.repository P iter) (PgOrderRepository.repository P codec iter')
      ops .new .new ↔
        ∀ pre post now id owner, ops = pre ++ (now, .cancel id owner) :: post →
          ∃ op ∈ pre, ∃ s, op.2 = .insert s ∧ s.order.id P = id := by
  have whole : AllWhole .new := fun _ _ h => by cases h
  have absent : ∀ id, ¬ (InMemoryOrderRepository.new.inner.find? id).isSome := by
    intro id h
    cases h
  rw [agree_iff_of_mirrors iter iter' (mirrors_new codec) hj, runAgrees_iff_cancelsKnown whole hn,
    cancelsKnown_iff]
  simp only [absent, Bool.false_eq_true, false_or]

/-- JSON values taken as the data they carry. -/
def JsonCodec.plain : JsonCodec SignedOrder := ⟨.ok, .ok⟩

theorem JsonCodec.plain_roundTrips (s : SignedOrder) : plain.RoundTrips s := ⟨s, rfl, rfl⟩

section
open Sample

/-- An order is inserted, read, cancelled by its owner and inserted again. -/
theorem agree_cancelled : Agree (InMemoryOrderRepository.repository primitives (.id _))
    (PgOrderRepository.repository primitives .plain (.id _))
    [(1000, .insert (sign alice150)), (2000, .get (alice150.id primitives)),
      (3000, .cancel (alice150.id primitives) alice), (4000, .insert (sign alice150))] .new .new :=
  (agree_iff (.id _) (.id _) _ (by
    intro op hop
    cases op with
    | mk now op => cases op <;> first | exact JsonCodec.plain_roundTrips _ | trivial)).mpr
    (by decide +kernel)

/-- **Cancelling an order that is not there**: in memory an error, in Postgres an unsuccessful
cancel. -/
theorem cancel_unknown_differs : ¬ Agree (InMemoryOrderRepository.repository primitives (.id _))
    (PgOrderRepository.repository primitives .plain (.id _))
    [(1000, .cancel (alice150.id primitives) alice)] .new .new := by
  rintro ⟨h, -⟩
  cases h with
  | cons h _ => exact absurd h (by simp [SameOutcome, OrderRepository.perform]; decide +kernel)

end

end OxDex
