import OxDex.Storage.Interchange

/-!
# Storage — Retries

What it does to a run of the repository to insert orders again that are already there.

An `Attempt` is an operation of the run itself or a repeated insert.  `Repeats` says that every
repeated insert of a run meets an order that is stored by then, in whatever status and with
whatever signature.  `Harmless` compares the run with the one that leaves the repeats out: the same
store, the same answers to its own operations, and to each repeat the current record or a refusal.

`IgnoresRepeats` is all a repository needs for this (`IgnoresRepeats.harmless`), and both have it.
-/

namespace OxDex
open Support

/-- An operation of a run, with its reading of the clock: its own, or an insert repeated. -/
inductive Attempt where
  | own (now : Nat) (op : RepoOp)
  | again (now : Nat) (signed : SignedOrder)

namespace Attempt

/-- What is sent to the repository. -/
def sent : Attempt → Nat × RepoOp
  | own now op => (now, op)
  | again now s => (now, .insert s)

/-- What is left when the repeats are taken out. -/
def own? : Attempt → Option (Nat × RepoOp)
  | own now op => some (now, op)
  | again _ _ => none

end Attempt

/-- Of the answers to a run, those to its own operations. -/
def ownAnswers : List Attempt → List Outcome → List Outcome
  | .own _ _ :: run, a :: as => a :: ownAnswers run as
  | .again _ _ :: run, _ :: as => ownAnswers run as
  | _, _ => []

/-- What a repeated insert of `s` is answered when the order's record is `r`. -/
def repeatAnswer (P : Primitives) (s : SignedOrder) (r : OrderRecord) : RepoResult OrderRecord :=
  if r.signed = s then .ok r else .error (.duplicate (s.order.id P))

section
variable {σ : Type} (P : Primitives) (R : OrderRepository σ)

/-- The store has the order. -/
def OrderRepository.Stored (id : OrderId) (st : σ) : Prop := R.get id st ≠ .error (.notFound id)

/-- Every repeated insert of a run is of an order the store has by then. -/
def Repeats : List Attempt → σ → Prop
  | [], _ => True
  | .own now op :: run, st => Repeats run (R.perform now op st).2
  | .again now s :: run, st =>
      R.Stored (s.order.id P) st ∧ Repeats run (R.perform now (.insert s) st).2

/-- **The repeats of a run do no harm**: the run leaves the store, and gets the answers, that it
does without them, and a repeat is answered with the record as it then is, or refused. -/
structure Harmless (run : List Attempt) (st : σ) : Prop where
  store : (R.performAll (run.map Attempt.sent) st).2 =
    (R.performAll (run.filterMap Attempt.own?) st).2
  own : ownAnswers run (R.performAll (run.map Attempt.sent) st).1 =
    (R.performAll (run.filterMap Attempt.own?) st).1
  again : ∀ pre post now s, run = pre ++ .again now s :: post →
    ∃ r, R.get (s.order.id P) (R.performAll (pre.map Attempt.sent) st).2 = .ok r ∧
      (R.performAll (run.map Attempt.sent) st).1[pre.length]? = some (.record (repeatAnswer P s r))

/-- What makes repeats harmless: on stores that are `Sound`, which the operations sent to it keep,
an order that is there can be read, and inserting it changes nothing. -/
structure IgnoresRepeats (Sound : σ → Prop) (Sent : RepoOp → Prop) : Prop where
  perform : ∀ now op st, Sent op → Sound st → Sound (R.perform now op st).2
  read : ∀ id st, Sound st → R.Stored id st → ∃ r, R.get id st = .ok r
  insert : ∀ now s st r, Sent (.insert s) → Sound st → R.get (s.order.id P) st = .ok r →
    R.insert now s st = (repeatAnswer P s r, st)

end

section
variable {σ : Type} {P : Primitives} {R : OrderRepository σ} {run : List Attempt} {st : σ}
  {now : Nat}

namespace Harmless

/-- An operation of the run's own comes first. -/
theorem own_cons {op : RepoOp} (h : Harmless P R run (R.perform now op st).2) :
    Harmless P R (.own now op :: run) st where
  store := h.store
  own := congrArg _ h.own
  again := by
    intro pre post now' s e
    cases pre with
    | nil => cases e
    | cons a pre =>
        cases e
        exact h.again pre post now' s rfl

/-- A repeat comes first: it leaves the store as it was, so the rest of the run starts from it
too. -/
theorem again_cons {s : SignedOrder} {r : OrderRecord} (hget : R.get (s.order.id P) st = .ok r)
    (hstep : R.perform now (.insert s) st = (.record (repeatAnswer P s r), st))
    (h : Harmless P R run st) : Harmless P R (.again now s :: run) st := by
  have hall : ∀ ops, R.performAll ((now, .insert s) :: ops) st =
      (.record (repeatAnswer P s r) :: (R.performAll ops st).1, (R.performAll ops st).2) := by
    intro ops
    rw [OrderRepository.performAll, hstep]
  refine ⟨?_, ?_, ?_⟩
  · rw [List.map_cons, Attempt.sent, hall]
    exact h.store
  · rw [List.map_cons, Attempt.sent, hall]
    exact h.own
  · intro pre post now' s' e
    rw [List.map_cons, Attempt.sent, hall]
    cases pre with
    | nil =>
        cases e
        exact ⟨r, hget, rfl⟩
    | cons a pre =>
        cases e
        rw [List.map_cons, Attempt.sent, hall]
        exact h.again pre post now' s' rfl

end Harmless

namespace IgnoresRepeats

variable {Sound : σ → Prop} {Sent : RepoOp → Prop}

/-- One repeat: it is answered with the record or refused, and the store stays. -/
theorem again (h : IgnoresRepeats P R Sound Sent) {s : SignedOrder} (hs : Sent (.insert s))
    (hst : Sound st) (hid : R.Stored (s.order.id P) st) (now : Nat) :
    ∃ r, R.get (s.order.id P) st = .ok r ∧
      R.perform now (.insert s) st = (.record (repeatAnswer P s r), st) := by
  obtain ⟨r, hr⟩ := h.read _ st hst hid
  refine ⟨r, hr, ?_⟩
  rw [OrderRepository.perform, h.insert now s st r hs hst hr]

/-- **Repeats do no harm** to a repository that ignores them. -/
theorem harmless (h : IgnoresRepeats P R Sound Sent) (hs : ∀ a ∈ run, Sent a.sent.2)
    (hst : Sound st) (hr : Repeats P R run st) : Harmless P R run st := by
  induction run generalizing st with
  | nil => exact ⟨rfl, rfl, fun pre post now s e => by cases pre <;> cases e⟩
  | cons a run ih =>
      have hs' := fun b hb => hs b (List.mem_cons_of_mem _ hb)
      have hsa := hs a List.mem_cons_self
      cases a with
      | own now op => exact .own_cons (ih hs' (h.perform now op st hsa hst) hr)
      | again now s =>
          obtain ⟨hid, hr⟩ := hr
          obtain ⟨r, hget, hstep⟩ := h.again hsa hst hid now
          rw [hstep] at hr
          exact .again_cons hget hstep (ih hs' hst hr)

end IgnoresRepeats

end

/-! ### The two repositories -/

/-- The in-memory repository ignores repeats, on any store. -/
theorem InMemoryOrderRepository.ignoresRepeats (P : Primitives) (iter : IterOrder OrderRecord) :
    IgnoresRepeats P (repository P iter) (fun _ => True) (fun _ => True) where
  perform := fun _ _ _ _ _ => trivial
  read := by
    intro id st _ hid
    simp only [OrderRepository.Stored, repository, get] at hid
    cases hf : st.inner.find? id with
    | none =>
        rw [hf] at hid
        exact (hid rfl).elim
    | some r => exact ⟨r, by simp only [repository, get, hf]⟩
  insert := by
    intro now s st r _ _ hr
    simp only [repository, get] at hr
    cases hf : st.inner.find? (s.order.id P) with
    | none =>
        rw [hf] at hr
        cases hr
    | some o =>
        rw [hf] at hr
        cases hr
        exact insert_of_some hf

section
variable {J : Type} {P : Primitives} {codec : JsonCodec J}

/-- An insert of a stored order compares it with what is read, and leaves the table. -/
theorem PgOrderRepository.insert_of_get {s : SignedOrder} {st : PgOrderRepository J}
    {r : OrderRecord} (hj : codec.RoundTrips s) (hr : st.get codec (s.order.id P) = .ok r)
    (now : Nat) : insert P codec now s st = (repeatAnswer P s r, st) := by
  obtain ⟨j, hto, -⟩ := hj
  simp only [insert, hto]
  split
  · next hn =>
      simp only [get, hn] at hr
      cases hr
  · rw [hr]
    rfl

/-- The Postgres repository ignores repeats, on a table that mirrors some store. -/
theorem PgOrderRepository.ignoresRepeats (P : Primitives) (codec : JsonCodec J)
    (iter : IterOrder (List UInt8 × Row J)) :
    IgnoresRepeats P (repository P codec iter) (fun pg => ∃ mem, Mirrors codec mem pg)
      (fun op => op.RoundTrips codec) where
  perform := by
    rintro now op pg hj ⟨mem, h⟩
    exact ⟨_, mirrors_perform (.id _) iter h now hj⟩
  read := by
    rintro id pg ⟨mem, h⟩ hid
    cases hf : mem.inner.find? id with
    | none => exact (hid (get_of_none h hf)).elim
    | some r => exact ⟨_, get_of_some h hf⟩
  insert := fun now _ _ _ hj _ hr => insert_of_get hj hr now

end

/-- **Retries are harmless** in both repositories: in memory on any store, and in Postgres on any
table that mirrors a store, where the inserted orders come back from JSON as they went in. -/
theorem retries_harmless {J : Type} (P : Primitives) (codec : JsonCodec J)
    (iter : IterOrder OrderRecord) (iter' : IterOrder (List UInt8 × Row J)) (run : List Attempt) :
    (∀ st, Repeats P (InMemoryOrderRepository.repository P iter) run st →
      Harmless P (InMemoryOrderRepository.repository P iter) run st) ∧
    ∀ pg, (∃ mem, Mirrors codec mem pg) → (∀ a ∈ run, a.sent.2.RoundTrips codec) →
      Repeats P (PgOrderRepository.repository P codec iter') run pg →
        Harmless P (PgOrderRepository.repository P codec iter') run pg :=
  ⟨fun _ hr => (InMemoryOrderRepository.ignoresRepeats P iter).harmless (fun _ _ => trivial)
      trivial hr,
    fun _ hpg hj hr => (PgOrderRepository.ignoresRepeats P codec iter').harmless hj hpg hr⟩

section
open Sample

/-- An order is inserted, inserted again, cancelled, inserted again as it was and then with another
signature. -/
def retried : List Attempt :=
  [.own 1000 (.insert (sign alice150)), .again 2000 (sign alice150),
    .own 3000 (.cancel (alice150.id primitives) alice), .again 4000 (sign alice150),
    .again 5000 ⟨alice150, .replicate 64 7⟩]

theorem retries_harmless_cancelled :
    Harmless primitives (InMemoryOrderRepository.repository primitives (.id _)) retried .new ∧
      Harmless primitives (PgOrderRepository.repository primitives .plain (.id _)) retried
        .new := by
  obtain ⟨hmem, hpg⟩ := retries_harmless primitives .plain (.id _) (.id _) retried
  refine ⟨hmem .new ?_, hpg .new ⟨.new, mirrors_new _⟩ ?_ ?_⟩
  · simp only [Repeats, retried, OrderRepository.Stored]
    decide +kernel
  · intro a _
    cases a with
    | own now op => cases op <;> first | exact JsonCodec.plain_roundTrips _ | trivial
    | again now s => exact JsonCodec.plain_roundTrips s
  · simp only [Repeats, retried, OrderRepository.Stored]
    decide +kernel

end

end OxDex
