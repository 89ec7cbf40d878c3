import OxDex.Node.Backends
import OxDex.Node.Lifecycle
import OxDex.Node.Server
import OxDex.Storage.Shards

/-!
# Node — Sharded

The node over the in-memory repository as it is: `expire_due` and `list_open` go over the map shard
by shard, and requests come in between.

A listing is then no picture of the map at any time: of two orders it may have the one that was
inserted later and not the other, whose shard it had gone over.  To the node it makes no difference
(`sharded_run`).  A round may as well have swept and listed at one go, with the requests that came
for shards still to come before it and those for shards gone over after it.  So all that holds of
the runs of the machine holds here.

While a sweep or a listing is under way the machine is held back: it has made the requests of the
first kind, and owes those of the second (`Trails`).
-/

namespace OxDex
open Support

/-- A call of the auctioneer that is under way, and the shards that are still to come. -/
inductive ShardScan (ι : Type) where
  | expireDue (secs : Int64) (left : List ι) (count : Nat)
  | listOpen (left : List ι) (found : List OrderRecord)

/-- A node over a map in shards. -/
structure ShardedNode (ι : Type) where
  node : Node InMemoryOrderRepository
  scan : Option (ShardScan ι)

/-- A node that starts on the store it finds. -/
def ShardedNode.boot (ι : Type) (store : InMemoryOrderRepository) (clock : Int64) :
    ShardedNode ι :=
  ⟨.boot store clock, none⟩

/-- What happens in it. -/
inductive ShardedEvent (ι : Type) where
  | act (a : Action)
  | call
  | visit (i : ι)
  | ret

/-- The action goes over the map. -/
def Action.scans : Action → Bool
  | .round (.sweep _) | .round (.list _) | .round .listError => true
  | _ => false

section
variable (P : Primitives) (A : Auctioneer) {ι : Type} [DecidableEq ι] (d : Shards ι)

open InMemoryOrderRepository in
/-- A step: one of the node that does not go over the map, or a call that does, one of its shards,
or its return. -/
inductive ShardedStep : ShardedNode ι → ShardedEvent ι → ShardedNode ι → Prop where
  | act {n n' : Node InMemoryOrderRepository} {scan : Option (ShardScan ι)} {a : Action}
      (ha : a.scans = false) (h : Step P (repository P (.id _)) A n a n') :
      ShardedStep ⟨n, scan⟩ (.act a) ⟨n', scan⟩
  | callExpire {n : Node InMemoryOrderRepository} {secs : Int64} (hp : n.phase = .started secs) :
      ShardedStep ⟨n, none⟩ .call ⟨n, some (.expireDue secs d.all 0)⟩
  | visitExpire {n : Node InMemoryOrderRepository} {secs : Int64} {i : ι} {left : List ι}
      {count : Nat} (now : OrderId → Nat) :
      ShardedStep ⟨n, some (.expireDue secs (i :: left) count)⟩ (.visit i)
        ⟨{ n with store := (expireShard d i now secs n.store).2 },
          some (.expireDue secs left (count + (expireShard d i now secs n.store).1))⟩
  | returnExpire {n : Node InMemoryOrderRepository} {secs : Int64} {count : Nat} :
      ShardedStep ⟨n, some (.expireDue secs [] count)⟩ .ret
        ⟨{ n with phase := .afterSweep secs (.ok count) }, none⟩
  | callList {n : Node InMemoryOrderRepository} {secs : Int64} (hp : n.phase = .swept secs) :
      ShardedStep ⟨n, none⟩ .call ⟨n, some (.listOpen d.all [])⟩
  | visitList {n : Node InMemoryOrderRepository} {i : ι} {left : List ι}
      {found opened : List OrderRecord} (h : opened.Perm (listShard d i n.store)) :
      ShardedStep ⟨n, some (.listOpen (i :: left) found)⟩ (.visit i)
        ⟨n, some (.listOpen left (found ++ opened))⟩
  | returnList {n : Node InMemoryOrderRepository} {secs : Int64} {found : List OrderRecord}
      (hp : n.phase = .swept secs) :
      ShardedStep ⟨n, some (.listOpen [] found)⟩ .ret
        ⟨{ n with phase := .listed secs found }, none⟩

/-- The node over a map in shards, as a transition system. -/
def sharded : System (ShardedNode ι) (ShardedEvent ι) := ⟨ShardedStep P A d⟩

end

/-- The steps of the node in a run. -/
def nodeSteps {ι : Type} (tr : List (ShardedNode ι × ShardedEvent ι)) :
    List (Node InMemoryOrderRepository × Action) :=
  tr.filterMap fun p =>
    match p.2 with
    | .act a => some (p.1.node, a)
    | _ => none

/-! ### Requests and the orders they are for -/

/-- The order a request changes, if any. -/
def ApiAction.foot (P : Primitives) : ApiAction → Set OrderId
  | .insert _ s => {s.order.id P}
  | .cancel _ id _ => {id}
  | _ => ∅

/-- What a request takes off what is pending. -/
def ApiAction.takes : ApiAction → List Pending
  | .insert _ s => [⟨s, true⟩]
  | _ => []

section
variable {P : Primitives}

/-- **A request changes its own order only.** -/
theorem effect_on (a : ApiAction) : On (a.foot P) (a.effect P) := by
  cases a with
  | insert now s =>
      refine ⟨fun b id hid => ?_, fun b b' hb id hid => ?_⟩
      · simp only [ApiAction.effect, OrderBook.submit_apply]
        exact if_neg fun h => hid h.1.symm
      · simp only [ApiAction.effect, OrderBook.submit_apply]
        rw [hb hid]
  | cancel now id owner =>
      refine ⟨fun b id' hid => OrderBook.cancel_of_ne hid owner, fun b b' hb id' hid => ?_⟩
      have he := hb hid
      obtain rfl : id' = id := hid
      simp only [ApiAction.effect, OrderBook.cancel_self]
      rw [he]
  | validate s => exact .id _
  | verify s => exact .id _
  | read => exact .id _

theorem foot_subsingleton (a : ApiAction) : (a.foot P).Subsingleton := by
  cases a <;> simp [ApiAction.foot]

end

section
variable {P : Primitives} {τ : Type} {R' : OrderRepository τ} {A : Auctioneer}
  {Sound' : τ → Prop} {book' : τ → OrderBook} {c : Node τ}

/-- **What is owed can be made up for.** -/
theorem late_run (hR' : Implements P R' Sound' book') {late : List ApiAction}
    (hlate : ∀ a ∈ late, (a.foot P).Nonempty) {ps : List Pending} (hs : Sound' c.store)
    (hp : c.pending.Perm (ps ++ late.flatMap ApiAction.takes)) :
    ∃ tr c', (machine P R' A).Run c tr c' ∧ deliveries tr = [] ∧ Sound' c'.store ∧
      book' c'.store = late.foldl (fun b a => a.effect P b) (book' c.store) ∧
      c'.pending.Perm ps ∧ c'.clock = c.clock ∧ c'.phase = c.phase := by
  induction late generalizing c with
  | nil => exact ⟨[], c, .refl _, rfl, hs, rfl, by simpa using hp, rfl, rfl⟩
  | cons a late ih =>
      have rest := fun a ha => hlate a (List.mem_cons_of_mem _ ha)
      -- the first of them, then the others
      have go : ∀ {c₁ : Node τ}, ApiStep P R' c a c₁ → c₁.clock = c.clock →
          c₁.pending.Perm (ps ++ late.flatMap ApiAction.takes) →
          ∃ tr c', (machine P R' A).Run c tr c' ∧ deliveries tr = [] ∧ Sound' c'.store ∧
            book' c'.store = (a :: late).foldl (fun b a => a.effect P b) (book' c.store) ∧
            c'.pending.Perm ps ∧ c'.clock = c.clock ∧ c'.phase = c.phase := by
        intro c₁ h hc hp
        obtain ⟨hs₁, hb₁⟩ := api_book hR' hs h
        obtain ⟨tr, c', hrun, hd, hs', hb, hp', hc', hph⟩ := ih rest hs₁ hp
        refine ⟨_, c', .more (.api h) hrun, hd, hs', ?_, hp', hc'.trans hc,
          hph.trans h.phase_eq⟩
        rw [hb, hb₁]
        rfl
      cases a with
      | insert now s =>
          have hp : c.pending.Perm (⟨s, true⟩ :: (ps ++ late.flatMap ApiAction.takes)) :=
            hp.trans List.perm_middle
          exact go (.insert c now (hp.symm.subset List.mem_cons_self)) rfl (erase_perm hp)
      | cancel now id owner => exact go (.cancel c now id owner) rfl hp
      | validate s | verify s | read =>
          exact absurd (hlate _ List.mem_cons_self) Set.not_nonempty_empty

/-- A request's step on a node with more pending. -/
theorem api_beside {σ : Type} {R : OrderRepository σ} {n n₁ : Node σ} {a : ApiAction}
    (h : ApiStep P R n a n₁) (hc : n.clock = c.clock) {owed : List Pending}
    (hp : c.pending.Perm (n.pending ++ owed)) :
    ∃ c₁, ApiStep P R' c a c₁ ∧ c₁.clock = n₁.clock ∧ c₁.pending.Perm (n₁.pending ++ owed) := by
  have erased : ∀ {p : Pending}, p ∈ n.pending →
      p ∈ c.pending ∧ (c.pending.erase p).Perm (n.pending.erase p ++ owed) := by
    intro p hmem
    have hp : c.pending.Perm (p :: (n.pending.erase p ++ owed)) :=
      hp.trans ((List.perm_cons_erase hmem).append_right _)
    exact ⟨hp.symm.subset List.mem_cons_self, erase_perm hp⟩
  cases h with
  | validate s =>
      refine ⟨_, .validate c s, hc.symm, ?_⟩
      rw [hc]
      dsimp only
      split
      · exact hp.cons _
      · exact hp
  | @verify s hmem =>
      obtain ⟨hmem, hperm⟩ := erased hmem
      refine ⟨_, .verify c hmem, hc.symm, ?_⟩
      dsimp only
      split
      · exact hperm.cons _
      · exact hperm
  | insert now hmem =>
      obtain ⟨hmem, hperm⟩ := erased hmem
      exact ⟨_, .insert c now hmem, hc.symm, hperm⟩
  | cancel now id owner => exact ⟨_, .cancel c now id owner, hc.symm, hp⟩
  | read => exact ⟨_, .read c, hc.symm, hp⟩

end

/-! ### The machine behind it -/

/-- The shards a node has still to go over. -/
def ShardedNode.left {ι : Type} (d : Shards ι) (s : ShardedNode ι) : List ι :=
  match s.scan with
  | some (.expireDue _ left _) | some (.listOpen left _) => left
  | none => d.all

/-- What going over an order makes of its entry. -/
def ShardedNode.change {ι : Type} (s : ShardedNode ι) : OrderId → Option Entry → Option Entry :=
  match s.scan with
  | some (.expireDue secs _ _) => OrderBook.expiry secs
  | _ => fun _ v => v

/-- What a listing has found is what is open in the shards it has gone over. -/
structure Found {ι : Type} (d : Shards ι) (left : List ι) (found : List OrderRecord)
    (b : OrderBook) : Prop where
  nodup : (found.map OrderRecord.id).Nodup
  mem : ∀ r ∈ found, b r.id = some r.entry ∧ r.status = .opened ∧ d.shard r.id ∉ left
  all : ∀ id e, b id = some e → e.status = .opened → d.shard id ∉ left → ∃ r ∈ found, r.id = id

/-- Where a call stands that is under way. -/
def ShardedNode.Standing {ι : Type} (d : Shards ι) (s : ShardedNode ι) (b : OrderBook) : Prop :=
  match s.scan with
  | none => True
  | some (.expireDue secs left _) => s.node.phase = .started secs ∧ left.Nodup
  | some (.listOpen left found) =>
      (∃ secs, s.node.phase = .swept secs) ∧ left.Nodup ∧ Found d left found b

/-- **The machine trails the node**: it stands where the last call has been made or where the last
one has returned, and owes the requests of `late`. -/
structure Trails {ι τ : Type} [DecidableEq ι] (P : Primitives) (d : Shards ι) (Sound' : τ → Prop)
    (book' : τ → OrderBook) (s : ShardedNode ι) (c : Node τ) (late : List ApiAction) : Prop where
  filed : s.node.store.Filed P
  sound : Sound' c.store
  clock : s.node.clock = c.clock
  pending : c.pending.Perm (s.node.pending ++ late.flatMap ApiAction.takes)
  phase : s.node.phase.Alike c.phase
  amid : Amid d.shard s.change (ApiAction.foot P) (ApiAction.effect P) (s.left d) late
    (book' c.store) s.node.store.book
  standing : s.Standing d (book' c.store)

section
variable {P : Primitives} {ι : Type} {d : Shards ι} {i : ι} {left : List ι}
  {found : List OrderRecord} {b : OrderBook}

/-- A change of shards that are still to come leaves what has been found. -/
theorem Found.early (h : Found d left found b) {g : OrderBook → OrderBook}
    (hg : On {id | d.shard id ∈ left} g) : Found d left found (g b) where
  nodup := h.nodup
  mem := fun r hr => by
    obtain ⟨he, ho, hi⟩ := h.mem r hr
    exact ⟨(hg.frame b r.id hi).trans he, ho, hi⟩
  all := fun id e he ho hi => h.all id e ((hg.frame b id hi).symm.trans he) ho hi

/-- One more shard. -/
theorem Found.next [DecidableEq ι] {st : InMemoryOrderRepository} (hf : st.Filed P)
    (h : Found d (i :: left) found b) (hi : i ∉ left)
    (hb : ∀ id, d.shard id = i → st.book id = b id)
    {opened : List OrderRecord} (hp : opened.Perm (InMemoryOrderRepository.listShard d i st)) :
    Found d left (found ++ opened) b := by
  obtain ⟨hn, hmem, hall⟩ := InMemoryOrderRepository.filed_listShard (d := d) (i := i) hf
  have hmem : ∀ r ∈ opened, b r.id = some r.entry ∧ r.status = .opened ∧ d.shard r.id = i :=
    fun r hr => by
      obtain ⟨he, ho, hs⟩ := hmem r (hp.mem_iff.mp hr)
      exact ⟨hb _ hs ▸ he, ho, hs⟩
  refine ⟨?_, fun r hr => ?_, fun id e he ho hs => ?_⟩
  · rw [List.map_append]
    refine h.nodup.append ((hp.map _).nodup_iff.mpr hn) fun id hid hid' => ?_
    obtain ⟨r, hr, rfl⟩ := List.mem_map.mp hid
    obtain ⟨r', hr', hid'⟩ := List.mem_map.mp hid'
    exact (h.mem r hr).2.2 (hid' ▸ (hmem r' hr').2.2 ▸ List.mem_cons_self)
  · rcases List.mem_append.mp hr with hr | hr
    · obtain ⟨he, ho, hs⟩ := h.mem r hr
      exact ⟨he, ho, fun hl => hs (List.mem_cons_of_mem _ hl)⟩
    · obtain ⟨he, ho, hs⟩ := hmem r hr
      exact ⟨he, ho, hs ▸ hi⟩
  · by_cases hsi : d.shard id = i
    · obtain ⟨r, hr, hid⟩ := hall id e ((hb id hsi).trans he) ho hsi
      exact ⟨r, List.mem_append_right _ (hp.mem_iff.mpr hr), hid⟩
    · obtain ⟨r, hr, hid⟩ := h.all id e he ho fun hl => (List.mem_cons.mp hl).elim hsi hs
      exact ⟨r, List.mem_append_left _ hr, hid⟩

end

section
variable {P : Primitives} {ι τ : Type} [DecidableEq ι] {d : Shards ι} {R' : OrderRepository τ}
  {A : Auctioneer} {Sound' : τ → Prop} {book' : τ → OrderBook}

/-- Between two calls the machine owes nothing. -/
theorem Trails.caught_up {n : Node InMemoryOrderRepository} {c : Node τ} {late : List ApiAction}
    (ht : Trails P d Sound' book' ⟨n, none⟩ c late) :
    late = [] ∧ n.store.book = book' c.store := by
  have hlate : late = [] := ht.amid.late_eq_nil d.covers
  subst hlate
  exact ⟨rfl, ht.amid.state.trans (scanned_all d.covers _)⟩

/-- A machine that owes nothing trails a node between two calls. -/
theorem Trails.between {n : Node InMemoryOrderRepository} {c : Node τ} (hf : n.store.Filed P)
    (hs : Sound' c.store) (hb : n.store.book = book' c.store) (hc : n.clock = c.clock)
    (hp : c.pending.Perm n.pending) (hph : n.phase.Alike c.phase) :
    Trails P d Sound' book' ⟨n, none⟩ c [] where
  filed := hf
  sound := hs
  clock := hc
  pending := hp.trans (.of_eq (List.append_nil _).symm)
  phase := hph
  amid := hb ▸ .start d.covers _
  standing := trivial

variable {s s' : ShardedNode ι} {c : Node τ} {late : List ApiAction}

/-- What is under way has the node wait. -/
theorem Trails.waits {n n' : Node InMemoryOrderRepository} {scan : Option (ShardScan ι)}
    {a : RoundAction} {R : OrderRepository InMemoryOrderRepository}
    (ht : Trails P d Sound' book' ⟨n, scan⟩ c late) (h : RoundStep R A n a n')
    (ha : (Action.round a).scans = false) : scan = none := by
  -- a sweep or a listing is the only step where the call is made
  have hno : (∀ secs, n.phase ≠ .started secs) ∧ ∀ secs, n.phase ≠ .swept secs := by
    cases h with
    | sweep now hp | list hp hl h | listError hp hl => cases ha
    | start hp h | sealBatch id hp | answer hp hk h | choose hp | mark now hp | deliver hp =>
        rw [hp]
        exact ⟨fun _ h => (by cases h), fun _ h => (by cases h)⟩
  have hst := ht.standing
  rcases scan with _ | ⟨secs, left, count⟩ | ⟨left, found⟩
  · rfl
  · exact absurd hst.1 (hno.1 secs)
  · obtain ⟨⟨secs, hp⟩, -⟩ := hst
    exact absurd hp (hno.2 secs)

/-- **A request** is made at once if its shard is still to come, and owed if it is not. -/
theorem trails_api (hR' : Implements P R' Sound' book') {n n' : Node InMemoryOrderRepository}
    {scan : Option (ShardScan ι)} (ht : Trails P d Sound' book' ⟨n, scan⟩ c late) {a : ApiAction}
    {iter : IterOrder OrderRecord}
    (h : ApiStep P (InMemoryOrderRepository.repository P iter) n a n') :
    ∃ tr c' late', (machine P R' A).Run c tr c' ∧ deliveries tr = [] ∧
      Trails P d Sound' book' ⟨n', scan⟩ c' late' := by
  obtain ⟨hf, hb⟩ := api_book (InMemoryOrderRepository.implements P iter) ht.filed h
  have hclock : n'.clock = n.clock := by cases h <;> rfl
  by_cases hl : (a.foot P).Nonempty ∧
      ∀ id ∈ a.foot P, d.shard id ∉ ShardedNode.left d ⟨n, scan⟩
  · refine ⟨[], c, late ++ [a], .refl _, rfl, hf, ht.sound, hclock.trans ht.clock, ?_,
      h.phase_eq ▸ ht.phase, hb ▸ ht.amid.defer hl.1 hl.2, ?_⟩
    · have hp : n.pending.Perm (n'.pending ++ a.takes) := by
        cases h with
        | @insert s now hmem =>
            exact (List.perm_cons_erase hmem).trans (List.perm_append_singleton _ _).symm
        | cancel now id owner => exact .of_eq (List.append_nil _).symm
        | validate s | verify hmem | read => exact absurd hl.1 Set.not_nonempty_empty
      rw [List.flatMap_append, List.flatMap_singleton]
      refine ht.pending.trans ((hp.append_right _).trans ?_)
      rw [List.append_assoc]
      exact List.perm_append_comm.append_left _
    · have hst := ht.standing
      simp only [ShardedNode.Standing] at hst ⊢
      rw [h.phase_eq]
      exact hst
  · have hon : On {id | d.shard id ∈ ShardedNode.left d ⟨n, scan⟩} (a.effect P) := by
      refine (effect_on a).mono fun id hid => not_not.mp fun hno => hl ⟨⟨id, hid⟩, ?_⟩
      intro id' hid'
      rwa [foot_subsingleton a hid' hid]
    obtain ⟨c', h', hc', hp'⟩ : ∃ c', ApiStep P R' c a c' ∧ c'.clock = n'.clock ∧
        c'.pending.Perm (n'.pending ++ late.flatMap ApiAction.takes) :=
      api_beside h ht.clock ht.pending
    obtain ⟨hs', hb'⟩ := api_book hR' ht.sound h'
    refine ⟨_, c', late, .one (.api h'), rfl, hf, hs', hc'.symm, hp', ?_, ?_, ?_⟩
    · rw [h.phase_eq, h'.phase_eq]
      exact ht.phase
    · rw [hb, hb']
      exact ht.amid.early effect_on hon
    · have hst := ht.standing
      rw [hb']
      rcases scan with _ | ⟨secs, left, count⟩ | ⟨left, found⟩
      · trivial
      · exact ⟨h.phase_eq.trans hst.1, hst.2⟩
      · obtain ⟨⟨secs, hp⟩, hn, hfound⟩ := hst
        exact ⟨⟨secs, h.phase_eq.trans hp⟩, hn, hfound.early hon⟩

/-- Rounds that stand alike have the same winner. -/
theorem Phase.Alike.winner_eq {phase phase' : Phase} (h : phase.Alike phase') :
    phase'.winner = phase.winner := by
  cases h <;> rfl

/-- What happens alike delivers the same. -/
theorem delivery_alike {n : Node InMemoryOrderRepository} {a a' : Action}
    (hp : n.phase.Alike c.phase) (ha : (Event.act a).Alike (.act a')) :
    delivery (c, a') = delivery (n, a) := by
  cases ha with
  | same =>
      cases a with
      | round a =>
          cases a with
          | deliver => exact hp.winner_eq
          | _ => rfl
      | _ => rfl
  | list h => rfl

/-- **A round's step** is one of the machine. -/
theorem trails_round (hR' : Implements P R' Sound' book') (hx' : Sweeps R' Sound')
    {n n' : Node InMemoryOrderRepository} {scan : Option (ShardScan ι)}
    (ht : Trails P d Sound' book' ⟨n, scan⟩ c late) {a : RoundAction}
    (ha : (Action.round a).scans = false) {iter : IterOrder OrderRecord}
    (h : RoundStep (InMemoryOrderRepository.repository P iter) A n a n') :
    ∃ tr c', (machine P R' A).Run c tr c' ∧ deliveries tr = (delivery (n, .round a)).toList ∧
      Trails P d Sound' book' ⟨n', scan⟩ c' [] := by
  obtain rfl := ht.waits h ha
  obtain ⟨rfl, hb⟩ := ht.caught_up
  have hR := InMemoryOrderRepository.implements P iter
  have hn : n.Alike InMemoryOrderRepository.book book' { c with pending := n.pending } :=
    ⟨hb, ht.clock, rfl, ht.phase⟩
  have hs' : Sound' ({ c with pending := n.pending } : Node τ).store := ht.sound
  obtain ⟨a', c₁, halike, h', hc, -, hph⟩ := alike_round hR hR'
    (InMemoryOrderRepository.sweeps P iter) hx' ht.filed hs' hn h
  have hstep := round_pending h' c.pending
  obtain ⟨hf, hb₁⟩ := round_book hR ht.filed h
  obtain ⟨hs', hb₁'⟩ := round_book hR' ht.sound hstep
  have hclock : n'.clock = n.clock := by cases h <;> rfl
  refine ⟨_, _, .one (.round hstep), ?_, .between hf hs' ?_ (hclock.trans ht.clock) ?_ hph⟩
  · rw [← delivery_alike ht.phase halike]
    show List.filterMap delivery [(c, .round a')] = _
    rw [List.filterMap_cons]
    cases delivery (c, .round a') <;> rfl
  · rw [hb₁, hb₁', hb]
    exact effect_alike (P := P) ht.phase halike _
  · rw [h.pending_eq]
    exact ht.pending.trans (.of_eq (List.append_nil _))

/-- **The call of a sweep returns**: the machine sweeps, and makes up for what it owes. -/
theorem trails_expired (hR' : Implements P R' Sound' book') (hx' : Sweeps R' Sound')
    {n : Node InMemoryOrderRepository} {secs : Int64} {count : Nat}
    (ht : Trails P d Sound' book' ⟨n, some (.expireDue secs [] count)⟩ c late) :
    ∃ tr c', (machine P R' A).Run c tr c' ∧ deliveries tr = [] ∧ Trails P d Sound' book'
      ⟨{ n with phase := .afterSweep secs (.ok count) }, none⟩ c' [] := by
  have hp : c.phase = .started secs := by
    have hph := ht.phase
    rw [show n.phase = .started secs from ht.standing.1] at hph
    exact hph.eq (fun _ _ h => by cases h)
  have hsweep := RoundStep.sweep (R := R') (A := A) 0 hp
  obtain ⟨k, hk⟩ := hx' 0 secs _ ht.sound
  rw [hk] at hsweep
  obtain ⟨hs₁, hb₁⟩ := hR'.expireDue 0 secs _ ht.sound
  obtain ⟨tr, c', hrun, hd, hs', hb', hp', hc', hph'⟩ := late_run (P := P) (A := A)
    (c := { c with store := (R'.expireDue 0 secs c.store).2, phase := .afterSweep secs (.ok k) })
    hR' (fun a ha => (ht.amid.passed a ha).1) hs₁ ht.pending
  refine ⟨_, c', .more (.round hsweep) hrun, hd, .between ht.filed hs' ?_
    (ht.clock.trans hc'.symm) hp' (hph' ▸ .same _)⟩
  rw [hb', hb₁]
  exact ht.amid.done

/-- **The call of a listing returns**: the machine lists the same orders, and makes up for what it
owes. -/
theorem trails_listed (hR' : Implements P R' Sound' book') {n : Node InMemoryOrderRepository}
    {secs : Int64} (hp : n.phase = .swept secs) {found : List OrderRecord}
    (ht : Trails P d Sound' book' ⟨n, some (.listOpen [] found)⟩ c late) :
    ∃ tr c', (machine P R' A).Run c tr c' ∧ deliveries tr = [] ∧ Trails P d Sound' book'
      ⟨{ n with phase := .listed secs found }, none⟩ c' [] := by
  obtain ⟨-, -, hfound⟩ := ht.standing
  have hpc : c.phase = .swept secs := by
    have hph := ht.phase
    rw [hp] at hph
    exact hph.eq (fun _ _ h => by cases h)
  obtain ⟨rs, opened, hl, hperm, hsame⟩ := lists_alike hR' ht.sound hfound.nodup
    (fun r hr => ⟨(hfound.mem r hr).1, (hfound.mem r hr).2.1⟩)
    fun id e he ho => hfound.all id e he ho List.not_mem_nil
  have hlist := RoundStep.list (R := R') (A := A) hpc hl hperm
  obtain ⟨tr, c', hrun, hd, hs', hb', hp', hc', hph'⟩ := late_run (P := P) (A := A)
    (c := { c with phase := .listed secs opened }) hR'
    (fun a ha => (ht.amid.passed a ha).1) ht.sound ht.pending
  refine ⟨_, c', .more (.round hlist) hrun, hd, .between ht.filed hs' ?_
    (ht.clock.trans hc'.symm) hp' (hph' ▸ .listed secs hsame)⟩
  rw [hb']
  exact ht.amid.done

/-- **Every step is matched by some of the machine.** -/
theorem trails_step (hR' : Implements P R' Sound' book') (hx' : Sweeps R' Sound')
    (ht : Trails P d Sound' book' s c late) {ev : ShardedEvent ι} (h : ShardedStep P A d s ev s') :
    ∃ tr c' late', (machine P R' A).Run c tr c' ∧
      deliveries tr = deliveries (nodeSteps [(s, ev)]) ∧
      Trails P d Sound' book' s' c' late' := by
  have hact := effect_on (P := P)
  cases h with
  | @act n n' scan a ha h =>
      cases h with
      | @tick clock hle =>
          have hc : n.clock = c.clock := ht.clock
          exact ⟨_, { c with clock := clock }, late, .one (.tick c (hc ▸ hle)), rfl, ht.filed,
            ht.sound, rfl, ht.pending, ht.phase, ht.amid, ht.standing⟩
      | api h => exact trails_api hR' ht h
      | @round _ a h =>
          obtain ⟨tr, c', hrun, hd, ht'⟩ := trails_round hR' hx' ht ha h
          refine ⟨tr, c', [], hrun, hd.trans ?_, ht'⟩
          show _ = List.filterMap delivery [(n, .round a)]
          rw [List.filterMap_cons]
          cases delivery (n, .round a) <;> rfl
  | callExpire hp =>
      obtain ⟨rfl, hb⟩ := ht.caught_up
      exact ⟨[], c, [], .refl _, rfl, ht.filed, ht.sound, ht.clock, ht.pending, ht.phase,
        hb ▸ .start d.covers _, hp, d.nodup⟩
  | callList hp =>
      obtain ⟨rfl, hb⟩ := ht.caught_up
      exact ⟨[], c, [], .refl _, rfl, ht.filed, ht.sound, ht.clock, ht.pending, ht.phase,
        hb ▸ .start d.covers _, ⟨_, hp⟩, d.nodup, .nil, fun r hr => absurd hr List.not_mem_nil,
        fun id e _ _ hi => absurd (d.covers id) hi⟩
  | @visitExpire n secs i left count now =>
      obtain ⟨hp, hn⟩ := ht.standing
      obtain ⟨hi, hn⟩ := List.nodup_cons.mp hn
      obtain ⟨hf, hb⟩ := InMemoryOrderRepository.filed_expireShard (d := d) (i := i) ht.filed now
        secs
      exact ⟨[], c, late, .refl _, rfl, hf, ht.sound, ht.clock, ht.pending, ht.phase,
        hb ▸ ht.amid.next hact hi, hp, hn⟩
  | @visitList n i left found opened hperm =>
      obtain ⟨hp, hn, hfound⟩ := ht.standing
      obtain ⟨hi, hn⟩ := List.nodup_cons.mp hn
      have hsame : visit d.shard (fun _ v => v) i n.store.book = n.store.book := by
        funext id
        exact ite_self _
      have hnext := ht.amid.next hact hi
      have hahead : ∀ id, d.shard id = i → n.store.book id = book' c.store id :=
        fun id hid => ht.amid.ahead hact (hid ▸ List.mem_cons_self)
      exact ⟨[], c, late, .refl _, rfl, ht.filed, ht.sound, ht.clock, ht.pending, ht.phase,
        hsame ▸ hnext, hp, hn, hfound.next ht.filed hi hahead hperm⟩
  | returnExpire =>
      obtain ⟨tr, c', hrun, hd, ht'⟩ := trails_expired hR' hx' ht
      exact ⟨tr, c', [], hrun, hd, ht'⟩
  | returnList hp =>
      obtain ⟨tr, c', hrun, hd, ht'⟩ := trails_listed hR' hp ht
      exact ⟨tr, c', [], hrun, hd, ht'⟩

/-- **Shard by shard is as good as at one go.**  Whatever a node does over the in-memory map, with
requests between the shards of its sweeps and listings, the machine does over any repository that
keeps the book, from the same book: it delivers the same solutions in the same order, and where no
sweep or listing is under way it has the same book, clock and phase, and the same requests
pending. -/
theorem sharded_run (hR' : Implements P R' Sound' book') (hx' : Sweeps R' Sound')
    {st : InMemoryOrderRepository} {st' : τ} (hf : st.Filed P) (hs' : Sound' st')
    (hb : st.book = book' st') {clock : Int64}
    {tr : List (ShardedNode ι × ShardedEvent ι)} {s : ShardedNode ι}
    (h : (sharded P A d).Run (.boot ι st clock) tr s) :
    ∃ tr' c, (machine P R' A).Run (.boot st' clock) tr' c ∧
      deliveries tr' = deliveries (nodeSteps tr) ∧
      (s.scan = none → s.node.store.book = book' c.store ∧ s.node.clock = c.clock ∧
        s.node.phase.Alike c.phase ∧ c.pending.Perm s.node.pending) := by
  have start : Trails P d Sound' book' (.boot ι st clock) (.boot st' clock) [] :=
    .between hf hs' hb rfl (.refl _) (.same _)
  obtain ⟨tr', c, late, hrun, hd, ht⟩ := h.inv_history (S := sharded P A d)
    (I := fun tr s => ∃ tr' c late, (machine P R' A).Run (.boot st' clock) tr' c ∧
      deliveries tr' = deliveries (nodeSteps tr) ∧ Trails P d Sound' book' s c late)
    (fun tr s ev s' hi hstep => by
      obtain ⟨tr₁, c, late, hrun, hd, ht⟩ := hi
      obtain ⟨tr₂, c', late', hrun', hd', ht'⟩ := trails_step hR' hx' ht hstep
      refine ⟨_, c', late', hrun.append hrun', ?_, ht'⟩
      rw [deliveries, List.filterMap_append, ← deliveries, ← deliveries, hd, hd']
      simp only [nodeSteps, deliveries, List.filterMap_append])
    ⟨[], _, [], .refl _, rfl, start⟩
  refine ⟨tr', c, hrun, hd, fun hscan => ?_⟩
  obtain ⟨n, scan⟩ := s
  obtain rfl : scan = none := hscan
  obtain ⟨rfl, hb⟩ := ht.caught_up
  exact ⟨hb, ht.clock, ht.phase, ht.pending.trans (.of_eq (List.append_nil _))⟩

end

/-! ### An order that comes in late -/

namespace Sample

/-- alice's order is in a shard, all others are in another. -/
def twoShards : Shards Bool where
  shard := fun id => id = alice150.id primitives
  all := [true, false]
  nodup := by decide
  covers := fun id => by cases decide (id = alice150.id primitives) <;> decide

/-- alice's order comes in when a sweep has gone over its shard, and is listed. -/
theorem late_insert_run : ∃ tr s,
    (sharded primitives auctioneer twoShards).Run (.boot Bool .new 50) tr s ∧ s.scan = none ∧
    [.visit true, .act (.api (.insert 1 (sign alice150))), .visit false] <:+: tr.map Prod.snd := by
  have hv := Step.api (A := auctioneer) (ApiStep.validate (P := primitives) (R := memory)
    ⟨.new, 50, [], .idle⟩ (sign alice150))
  rw [if_pos (by decide +kernel)] at hv
  have hw := Step.api (A := auctioneer) (ApiStep.verify (P := primitives) (R := memory)
    ⟨.new, 50, [⟨sign alice150, false⟩], .idle⟩ List.mem_cons_self)
  rw [if_pos (by decide +kernel)] at hw
  have hs : Step primitives memory auctioneer ⟨.new, 50, [⟨sign alice150, true⟩], .idle⟩ _ _ :=
    .round (.start rfl (by decide +kernel))
  have hrun : (sharded primitives auctioneer twoShards).Run (.boot Bool .new 50) _ _ :=
    .more (.act rfl hv) <| .more (.act rfl hw) <| .more (.act rfl hs) <|
    .more (.callExpire rfl) <| .more (.visitExpire fun _ => 2) <|
    .more (.act rfl (.api (.insert _ (s := sign alice150) 1 List.mem_cons_self))) <|
    .more (.visitExpire fun _ => 3) <| .more .returnExpire <|
    .more (.callList rfl) <| .more (.visitList (.refl _)) <| .more (.visitList (.refl _)) <|
    .one (.returnList rfl)
  exact ⟨_, _, hrun, rfl, [_, _, _, _], [_, _, _, _, _], rfl⟩

end Sample

section
open Sample

/-- The machine sweeps before it inserts alice's order. -/
theorem sharded_run_two : ∃ tr s tr' c,
    (sharded primitives auctioneer twoShards).Run (.boot Bool .new 50) tr s ∧
    (machine primitives memory auctioneer).Run (.boot .new 50) tr' c ∧
    s.node.store.book = c.store.book ∧ s.node.phase.Alike c.phase := by
  obtain ⟨tr, s, h, hscan, -⟩ := late_insert_run
  obtain ⟨tr', c, hrun, -, hend⟩ := sharded_run (InMemoryOrderRepository.implements primitives _)
    (InMemoryOrderRepository.sweeps primitives _) InMemoryOrderRepository.filed_new
    InMemoryOrderRepository.filed_new rfl h
  obtain ⟨hb, -, hph, -⟩ := hend hscan
  exact ⟨tr, s, tr', c, h, hrun, hb, hph⟩

end

end OxDex
