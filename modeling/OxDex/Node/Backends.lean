import OxDex.Node.Crashes

/-!
# Node — Backends

The node starts on Postgres, and on the in-memory store where Postgres is out of reach (`main.rs`).
What it does then is the same (`backends_alike`): whatever a node does over one repository that
keeps the book, it may do over another, step by step, with the same book, the same batches and the
same deliveries.  Crashes are included where both find the same book again, as two tables do, or two
maps; after a crash Postgres has its orders and the map in memory has none.

What may differ is the order in which open orders are listed, as far as the repository leaves it
open, and what the records hold besides the signed orders, such as times.  Of that the round takes
nothing (`Node.Alike`).
-/

namespace OxDex
open Support

/-- `expire_due` never fails. -/
def Sweeps {σ : Type} (R : OrderRepository σ) (Sound : σ → Prop) : Prop :=
  ∀ now secs st, Sound st → ∃ k, (R.expireDue now secs st).1 = .ok k

/-- Where the one process finds a store again after a crash, the other may find one with the same
book. -/
def FindsAlike {σ τ : Type} (finds : σ → σ → Prop) (Sound : σ → Prop) (book : σ → OrderBook)
    (finds' : τ → τ → Prop) (Sound' : τ → Prop) (book' : τ → OrderBook) : Prop :=
  ∀ st st₁ st', finds st st₁ → Sound st → Sound' st' → book st = book' st' →
    ∃ st₁', finds' st' st₁' ∧ Sound st₁ ∧ Sound' st₁' ∧ book st₁ = book' st₁'

/-- The records are of the same signed orders. -/
def SameSigned (rs rs' : List OrderRecord) : Prop :=
  rs.map OrderRecord.signed = rs'.map OrderRecord.signed

/-- The rounds stand at the same point, with the same orders. -/
inductive Phase.Alike : Phase → Phase → Prop where
  | same (phase : Phase) : Alike phase phase
  | listed (secs : Int64) {rs rs' : List OrderRecord} (h : SameSigned rs rs') :
      Alike (.listed secs rs) (.listed secs rs')

/-- The same happens. -/
inductive Event.Alike : Event → Event → Prop where
  | same (ev : Event) : Alike ev ev
  | list {rs rs' : List OrderRecord} (h : SameSigned rs rs') :
      Alike (.act (.round (.list rs))) (.act (.round (.list rs')))

/-- The nodes have one book and stand at the same point. -/
structure Node.Alike {σ τ : Type} (book : σ → OrderBook) (book' : τ → OrderBook) (n : Node σ)
    (n' : Node τ) : Prop where
  book : book n.store = book' n'.store
  clock : n.clock = n'.clock
  pending : n.pending = n'.pending
  phase : n.phase.Alike n'.phase

/-- What is under distinct keys can be put in the order in which others have the same keys. -/
theorem exists_perm_forall₂ {α β κ : Type*} {f : α → κ} {g : β → κ} {l : List α} {l' : List β}
    (hf : (l.map f).Nodup) (hg : (l'.map g).Nodup) (h : ∀ k, k ∈ l.map f ↔ k ∈ l'.map g) :
    ∃ w, w.Perm l' ∧ List.Forall₂ (fun a b => f a = g b) l w := by
  have hperm : (l.map f).Perm (l'.map g) := (List.perm_ext_iff_of_nodup hf hg).mpr h
  have hall : List.Forall₂ (fun k b => k = g b) (l'.map g) l' :=
    List.forall₂_map_left_iff.mpr (List.forall₂_same.mpr fun _ _ => rfl)
  obtain ⟨w, hw, hp⟩ := List.perm_comp_forall₂ hperm hall
  exact ⟨w, hp, List.forall₂_map_left_iff.mp hw⟩

section
variable {P : Primitives} {σ τ : Type} {R : OrderRepository σ} {R' : OrderRepository τ}
  {A : Auctioneer} {Sound : σ → Prop} {Sound' : τ → Prop} {book : σ → OrderBook}
  {book' : τ → OrderBook} {finds : σ → σ → Prop} {finds' : τ → τ → Prop} {n n₁ : Node σ}
  {n' : Node τ}

/-- **A repository may list any list of the open orders of its book**, as far as the signed orders
go. -/
theorem lists_alike (hR' : Implements P R' Sound' book') {st' : τ} (hs' : Sound' st')
    {opened : List OrderRecord} (hn : (opened.map OrderRecord.id).Nodup)
    (hmem : ∀ r ∈ opened, book' st' r.id = some r.entry ∧ r.status = .opened)
    (hall : ∀ id e, book' st' id = some e → e.status = .opened → ∃ r ∈ opened, r.id = id) :
    ∃ rs' opened', R'.listOpen none st' = .ok rs' ∧ opened'.Perm rs' ∧
      SameSigned opened opened' := by
  obtain ⟨rs', hrs', hn', hmem', hall'⟩ := hR'.listOpen st' hs'
  have hkeys : ∀ id, id ∈ opened.map OrderRecord.id ↔ id ∈ rs'.map OrderRecord.id := by
    intro id
    constructor
    · intro hid
      obtain ⟨r, hr, rfl⟩ := List.mem_map.mp hid
      obtain ⟨he, ho⟩ := hmem r hr
      obtain ⟨r', hr', hid'⟩ := hall' r.id r.entry he ho
      exact List.mem_map.mpr ⟨r', hr', hid'⟩
    · intro hid
      obtain ⟨r', hr', rfl⟩ := List.mem_map.mp hid
      obtain ⟨he, ho, -⟩ := hmem' r' hr'
      obtain ⟨r, hr, hid⟩ := hall r'.id r'.entry he ho
      exact List.mem_map.mpr ⟨r, hr, hid⟩
  obtain ⟨opened', hperm, hids⟩ := exists_perm_forall₂ hn hn' hkeys
  refine ⟨rs', opened', hrs', hperm, ?_⟩
  rw [SameSigned, ← List.forall₂_eq_eq_eq, List.forall₂_map_left_iff, List.forall₂_map_right_iff]
  -- records with one identifier are of one entry of the book
  have hentry : ∀ r ∈ opened, ∀ r' ∈ opened', r.id = r'.id → r.signed = r'.signed := by
    intro r hr r' hr' hid
    have he := (hmem r hr).1
    have he' := (hmem' r' (hperm.mem_iff.mp hr')).1
    rw [← hid, he] at he'
    exact congrArg Entry.signed (Option.some.inj he')
  clear hkeys hperm hmem hall hn
  induction hids with
  | nil => exact .nil
  | cons hid _ ih =>
      exact .cons (hentry _ List.mem_cons_self _ List.mem_cons_self hid)
        (ih fun r hr r' hr' => hentry r (List.mem_cons_of_mem _ hr) r' (List.mem_cons_of_mem _ hr'))

/-- **What one repository lists, the other may list**, as far as the signed orders go. -/
theorem list_alike (hR : Implements P R Sound book) (hR' : Implements P R' Sound' book') {st : σ}
    {st' : τ} (hs : Sound st) (hs' : Sound' st') (hb : book st = book' st')
    {rs opened : List OrderRecord} (hl : R.listOpen none st = .ok rs) (hp : opened.Perm rs) :
    ∃ rs' opened', R'.listOpen none st' = .ok rs' ∧ opened'.Perm rs' ∧
      SameSigned opened opened' := by
  obtain ⟨rs₀, hrs₀, hn, hmem, hall⟩ := hR.listOpen st hs
  rw [hl] at hrs₀
  cases hrs₀
  refine lists_alike hR' hs' ((hp.map _).nodup_iff.mpr hn) (fun r hr => ?_) fun id e he ho => ?_
  · obtain ⟨he, ho, -⟩ := hmem r (hp.mem_iff.mp hr)
    exact ⟨hb ▸ he, ho⟩
  · obtain ⟨r, hr, hid⟩ := hall id e (hb ▸ he) ho
    exact ⟨r, hp.mem_iff.mpr hr, hid⟩

/-- What happens alike does the same to the book. -/
theorem effect_alike {phase phase' : Phase} (hp : phase.Alike phase') {a a' : Action}
    (ha : (Event.act a).Alike (.act a')) (b : OrderBook) :
    a.effect P phase b = a'.effect P phase' b := by
  cases hp with
  | same =>
      cases ha with
      | same => rfl
      | list h => cases phase <;> rfl
  | listed secs h =>
      cases ha with
      | same =>
          cases a with
          | round a => cases a <;> rfl
          | _ => rfl
      | list h => rfl

/-- **A request's step over one repository is one over the other.** -/
theorem alike_api (R' : OrderRepository τ) (hn : n.Alike book book' n') {a : ApiAction}
    (h : ApiStep P R n a n₁) :
    ∃ n₁', ApiStep P R' n' a n₁' ∧ n₁.clock = n₁'.clock ∧ n₁.pending = n₁'.pending ∧
      n₁.phase.Alike n₁'.phase := by
  obtain ⟨-, hc, hpend, hphase⟩ := hn
  cases h with
  | validate s => exact ⟨_, .validate n' s, hc, by rw [hc, hpend], hphase⟩
  | verify h => exact ⟨_, .verify n' (hpend ▸ h), hc, by rw [hpend], hphase⟩
  | insert now h => exact ⟨_, .insert n' now (hpend ▸ h), hc, by rw [hpend], hphase⟩
  | cancel now id owner => exact ⟨_, .cancel n' now id owner, hc, hpend, hphase⟩
  | read => exact ⟨_, .read n', hc, hpend, hphase⟩

/-- The phase of a node alike, where it is not that of a listing. -/
theorem Phase.Alike.eq {phase phase' : Phase} (h : phase.Alike phase')
    (hp : ∀ secs rs, phase ≠ .listed secs rs) : phase' = phase := by
  cases h with
  | same => rfl
  | listed secs h => exact absurd rfl (hp _ _)

/-- **A round's step over one repository is one over the other.** -/
theorem alike_round (hR : Implements P R Sound book) (hR' : Implements P R' Sound' book')
    (hx : Sweeps R Sound) (hx' : Sweeps R' Sound') (hs : Sound n.store) (hs' : Sound' n'.store)
    (hn : n.Alike book book' n') {a : RoundAction} (h : RoundStep R A n a n₁) :
    ∃ a' n₁', (Event.act (.round a)).Alike (.act (.round a')) ∧ RoundStep R' A n' a' n₁' ∧
      n₁.clock = n₁'.clock ∧ n₁.pending = n₁'.pending ∧ n₁.phase.Alike n₁'.phase := by
  obtain ⟨hb, hc, hpend, hphase⟩ := hn
  -- away from a listing the two nodes are in the same phase
  have eq : ∀ {phase : Phase}, n.phase = phase → (∀ secs rs, phase ≠ .listed secs rs) →
      n'.phase = phase :=
    fun hp hne => (hphase.eq (hp ▸ hne)).trans hp
  cases h with
  | start hp h =>
      refine ⟨_, _, .same _, .start (eq hp (by simp)) h, hc, hpend, ?_⟩
      rw [hc]
      exact .same _
  | @sweep secs now hp =>
      refine ⟨_, _, .same _, .sweep now (eq hp (by simp)), hc, hpend, ?_⟩
      obtain ⟨k, hk⟩ := hx now secs _ hs
      obtain ⟨k', hk'⟩ := hx' now secs _ hs'
      dsimp only
      rw [hk, hk']
      exact .same _
  | list hp hl hperm =>
      obtain ⟨rs', opened', hl', hperm', hsame⟩ := list_alike hR hR' hs hs' hb hl hperm
      exact ⟨_, _, .list hsame, .list (eq hp (by simp)) hl' hperm', hc, hpend, .listed _ hsame⟩
  | listError hp hl =>
      obtain ⟨rs, hrs, -⟩ := hR.listOpen _ hs
      rw [hl] at hrs
      cases hrs
  | @sealBatch secs opened id hp =>
      rw [hp] at hphase
      have sealed : ∀ {rs rs' : List OrderRecord}, SameSigned rs rs' →
          Phase.afterList A id secs rs = Phase.afterList A id secs rs' := by
        intro rs rs' h
        have hempty : rs.isEmpty = rs'.isEmpty := by
          rw [← List.isEmpty_map (f := OrderRecord.signed), h, List.isEmpty_map]
        rw [Phase.afterList, Phase.afterList, hempty, h]
      cases hq : n'.phase with
      | listed secs' rs' =>
          rw [hq] at hphase
          cases hphase with
          | same => exact ⟨_, _, .same _, .sealBatch id hq, hc, hpend, .same _⟩
          | listed _ h =>
              exact ⟨_, _, .same _, .sealBatch id hq, hc, hpend, sealed h ▸ .same _⟩
      | _ => rw [hq] at hphase; cases hphase
  | answer hp hk h =>
      exact ⟨_, _, .same _, .answer (eq hp (by simp)) hk h, hc, hpend, .same _⟩
  | choose hp => exact ⟨_, _, .same _, .choose (eq hp (by simp)), hc, hpend, .same _⟩
  | mark now hp => exact ⟨_, _, .same _, .mark now (eq hp (by simp)), hc, hpend, .same _⟩
  | deliver hp => exact ⟨_, _, .same _, .deliver (eq hp (by simp)), hc, hpend, .same _⟩

/-- **Every step over one repository is matched over the other.** -/
theorem alike_step (hR : Implements P R Sound book) (hR' : Implements P R' Sound' book')
    (hx : Sweeps R Sound) (hx' : Sweeps R' Sound') (hs : Sound n.store) (hs' : Sound' n'.store)
    (hn : n.Alike book book' n') {a : Action} (h : Step P R A n a n₁) :
    ∃ a' n₁', (Event.act a).Alike (.act a') ∧ Step P R' A n' a' n₁' ∧ n₁.Alike book book' n₁' := by
  have whole : ∀ {a' : Action} {n₁' : Node τ}, (Event.act a).Alike (.act a') →
      Step P R' A n' a' n₁' → n₁.clock = n₁'.clock → n₁.pending = n₁'.pending →
      n₁.phase.Alike n₁'.phase → n₁.Alike book book' n₁' := by
    intro a' n₁' ha h' hc hp hph
    refine ⟨?_, hc, hp, hph⟩
    rw [(step_book hR hs h).2, (step_book hR' hs' h').2, ← hn.book]
    exact effect_alike hn.phase ha _
  cases h with
  | tick hle =>
      have h' : Step P R' A n' (.tick _) _ := .tick n' (hn.clock ▸ hle)
      exact ⟨_, _, .same _, h', whole (.same _) h' rfl hn.pending hn.phase⟩
  | api h =>
      obtain ⟨n₁', h', hc, hp, hph⟩ := alike_api R' hn h
      exact ⟨_, n₁', .same _, .api h', whole (.same _) (.api h') hc hp hph⟩
  | round h =>
      obtain ⟨a', n₁', ha, h', hc, hp, hph⟩ := alike_round hR hR' hx hx' hs hs' hn h
      exact ⟨_, n₁', ha, .round h', whole ha (.round h') hc hp hph⟩

/-- Nodes that are alike have marked the same. -/
theorem Phase.Alike.marked_eq {phase phase' : Phase} (h : phase.Alike phase') :
    phase.marked = phase'.marked := by
  cases h <;> rfl

theorem Event.Alike.ends_eq {ev ev' : Event} (h : ev.Alike ev') : ev.ends = ev'.ends := by
  cases h <;> rfl

/-- Runs that are alike end the same rounds. -/
theorem rounds_alike {tr : List (Node σ × Event)} {tr' : List (Node τ × Event)}
    (h : List.Forall₂ (fun p q => p.1.Alike book book' q.1 ∧ p.2.Alike q.2) tr tr') :
    rounds tr = rounds tr' := by
  induction h with
  | nil => rfl
  | @cons p q tr tr' hpq _ ih =>
      have hends := hpq.2.ends_eq
      have hmarked := hpq.1.phase.marked_eq
      rw [rounds, rounds] at ih ⊢
      rw [List.filter_cons, List.filter_cons, hends]
      split
      · rw [List.map_cons, List.map_cons, ih, hmarked]
      · exact ih

/-- **Two repositories that keep the book are alike.**  Every run of a node over the one is matched
by a run over the other from a store with the same book, crashes included where both find the same
book again: step by step the same happens, up to the order of listings, with the same book, and the
same rounds are marked and ended. -/
theorem backends_alike (hR : Implements P R Sound book) (hR' : Implements P R' Sound' book')
    (hx : Sweeps R Sound) (hx' : Sweeps R' Sound')
    (hf : FindsAlike finds Sound book finds' Sound' book') {st : σ} {st' : τ} (hs : Sound st)
    (hs' : Sound' st') (hb : book st = book' st') {clock : Int64} {tr : List (Node σ × Event)}
    (h : (crashing P R A finds).Run (.boot st clock) tr n) :
    ∃ tr' n', (crashing P R' A finds').Run (.boot st' clock) tr' n' ∧ n.Alike book book' n' ∧
      List.Forall₂ (fun p q => p.1.Alike book book' q.1 ∧ p.2.Alike q.2) tr tr' ∧
      rounds tr = rounds tr' := by
  have start : (Node.boot st clock).Alike book book' (Node.boot st' clock) :=
    ⟨hb, rfl, rfl, .same _⟩
  obtain ⟨tr', n', h', ⟨-, -, hn⟩, hall⟩ := h.simulate (S := crashing P R A finds)
    (T := crashing P R' A finds')
    (A := fun n n' => Sound n.store ∧ Sound' n'.store ∧ n.Alike book book' n') (L := Event.Alike)
    (fun n n' ev n₁ hrel hstep => by
      obtain ⟨hs, hs', hn⟩ := hrel
      cases hstep with
      | act hstep =>
          obtain ⟨a', n₁', ha, h', hn'⟩ := alike_step hR hR' hx hx' hs hs' hn hstep
          exact ⟨_, n₁', ha, .act h', (step_book hR hs hstep).1, (step_book hR' hs' h').1, hn'⟩
      | crash clock hfind =>
          obtain ⟨st₁', hfind', h₁, h₁', hb₁⟩ := hf _ _ _ hfind hs hs' hn.book
          exact ⟨_, _, .same _, .crash clock hfind', h₁, h₁', ⟨hb₁, rfl, rfl, .same _⟩⟩)
    ⟨hs, hs', start⟩
  have hall' := hall.imp fun p q hpq => And.intro hpq.1.2.2 hpq.2
  exact ⟨tr', n', h', hn, hall', rounds_alike hall'⟩

end

/-! ### Memory and Postgres -/

theorem InMemoryOrderRepository.sweeps (P : Primitives) (iter : IterOrder OrderRecord) :
    Sweeps (repository P iter) (Filed P) := fun _ _ _ _ => ⟨_, rfl⟩

theorem PgOrderRepository.sweeps {J : Type} (P : Primitives) (codec : JsonCodec J)
    (iter : IterOrder (List UInt8 × Row J)) :
    Sweeps (repository P codec iter) (Sound P codec) := fun _ _ _ _ => ⟨_, rfl⟩

/-- Two tables are there again. -/
theorem PgOrderRepository.findsAlike {J J' : Type} (P : Primitives) (codec : JsonCodec J)
    (codec' : JsonCodec J') :
    FindsAlike finds (Sound P codec) (book codec) finds (Sound P codec') (book codec') := by
  rintro st _ st' rfl hs hs' hb
  exact ⟨st', rfl, hs, hs', hb⟩

/-- Two maps are both empty again. -/
theorem InMemoryOrderRepository.findsAlike (P : Primitives) :
    FindsAlike finds (Filed P) book finds (Filed P) book := by
  rintro st _ st' rfl - - -
  exact ⟨_, rfl, filed_new, filed_new, rfl⟩

section
open Sample

/-- The round that has run in memory, without a crash, runs over Postgres. -/
theorem backends_alike_two : ∃ tr n, (crashing primitives postgres auctioneer
      PgOrderRepository.finds).Run (.boot .new 50) tr n ∧
    (Node.boot settled 50).Alike InMemoryOrderRepository.book (PgOrderRepository.book .plain) n ∧
    ∃ tr', (machine primitives memory auctioneer).Run (.boot .new 50) tr' (.boot settled 50) ∧
      rounds (tr'.map fun p => (p.1, Event.act p.2)) = rounds tr := by
  obtain ⟨tr, h, -⟩ := settled_run
  have hnone := h.relabel (T := crashing primitives memory auctioneer fun _ _ => False)
    fun _ _ _ hstep => .act hstep
  obtain ⟨tr', n', h', hn, -, hr⟩ := backends_alike
    (InMemoryOrderRepository.implements primitives _) postgres_implements
    (InMemoryOrderRepository.sweeps primitives _) (PgOrderRepository.sweeps primitives _ _)
    (fun _ _ _ hf => hf.elim) InMemoryOrderRepository.filed_new (PgOrderRepository.sound_new _ _)
    rfl hnone
  exact ⟨tr', n', h', hn, tr, h, hr⟩

end

end OxDex
