import OxDex.Node.Lifecycle

/-!
# Node — Liveness

Rounds end, whatever requests come in between their steps.

A round that has read `m` orders takes at most `m` and a few more steps for each solver: an answer
of each, a marking of each order that is traded.  So the steps of all rounds of a run are bounded by
the orders they read (`rounds_end`), which the potential `Phase.left` of the round under way pays
for.  And a round is never stuck, if the solvers answer: from every state that a run reaches, steps
of the auctioneer alone end the round.
-/

namespace OxDex
open Support

/-- The solvers answer every batch, if only that the deadline has passed. -/
def Auctioneer.Responds (A : Auctioneer) : Prop :=
  ∀ s ∈ A.solvers, ∀ batch, ∃ res, s.solve batch A.cfg.solverTimeoutMs res

/-- The steps that a round may still take, not counting those for the orders it has yet to read. -/
def Phase.left (A : Auctioneer) : Phase → Nat
  | .idle => 0
  | .started _ => A.solvers.length + 5
  | .swept _ => A.solvers.length + 4
  | .listed _ opened => A.solvers.length + opened.length + 3
  | .racing batch waiting _ => waiting.length + batch.orders.length + 2
  | .marking _ _ todo => todo.length + 1

/-- What a step allows the auctioneer: the start of a round some steps, a listing one for each
order. -/
def Action.allows (A : Auctioneer) : Action → Nat
  | .round .start => A.solvers.length + 6
  | .round (.list opened) => opened.length
  | _ => 0

/-- The steps of the auctioneer. -/
def Action.takes : Action → Nat
  | .round _ => 1
  | _ => 0

/-- How far a round is from reading the orders. -/
def Phase.stage : Phase → Nat
  | .started _ => 2
  | .swept _ => 1
  | _ => 0

section
variable {P : Primitives} {σ : Type} {R : OrderRepository σ} {A : Auctioneer} {Sound : σ → Prop}
  {book : σ → OrderBook} {n n' : Node σ}

/-- A solution trades each order of its batch once at most. -/
theorem trades_length_le (hA : A.NamesBatch P) (hO : A.NamesOnce P) {b : OrderBook} {batch : Batch}
    {w : Solution} (hst : Stored P b batch.orders) (hw : A.Answers batch w) :
    w.trades.length ≤ batch.orders.length := by
  have hn : w.orderIds.Nodup := hO batch w hst.nodup hw
  have hle := (hn.subperm fun id hid => hA batch w hw id hid).length_le
  simpa [Solution.orderIds, Batch.orderIds] using hle

/-- **A step of the auctioneer** is paid for by what it is allowed and what is left of the round. -/
theorem left_round (hA : A.NamesBatch P) (hO : A.NamesOnce P) {b : OrderBook}
    (ht : Tracks P A b n.phase) {a : RoundAction} (h : RoundStep R A n a n') :
    1 + n'.phase.left A ≤ (Action.round a).allows A + n.phase.left A := by
  cases h with
  | start hp h =>
      rw [hp]
      simp only [Phase.left, Action.allows]
      omega
  | @sweep secs now hp =>
      rw [hp]
      dsimp only
      cases (R.expireDue now secs n.store).1 <;>
        simp only [Phase.afterSweep, Phase.left, Action.allows] <;> omega
  | list hp hl h =>
      rw [hp]
      simp only [Phase.left, Action.allows]
      omega
  | listError hp hl =>
      rw [hp]
      simp only [Phase.left, Action.allows]
      omega
  | sealBatch id hp =>
      rw [hp]
      simp only [Phase.afterList, Action.allows]
      split
      · simp only [Phase.left]
        omega
      · simp only [Phase.left, List.length_map]
        omega
  | @answer batch waiting best k s res hp hk h =>
      rw [hp]
      obtain ⟨hlt, -⟩ := List.getElem?_eq_some_iff.mp hk
      simp only [Phase.left, Action.allows, List.length_eraseIdx_of_lt hlt]
      omega
  | @choose batch best hp =>
      rw [hp] at ht ⊢
      cases best with
      | none =>
          simp only [Phase.afterRace, Phase.left, Action.allows]
          omega
      | some w =>
          have hle := trades_length_le hA hO ht.1 (ht.2.2 w rfl)
          simp only [Phase.afterRace, Phase.left, Action.allows, List.length_nil]
          omega
  | mark now hp =>
      rw [hp]
      simp only [Phase.left, Action.allows, List.length_cons]
      omega
  | deliver hp =>
      rw [hp]
      simp only [Phase.left, Action.allows, List.length_nil]
      omega

/-- Every step is. -/
theorem left_step (hA : A.NamesBatch P) (hO : A.NamesOnce P) {b : OrderBook}
    (ht : Tracks P A b n.phase) {a : Action} (h : Step P R A n a n') :
    a.takes + n'.phase.left A ≤ a.allows A + n.phase.left A := by
  cases h with
  | tick h => exact le_rfl
  | api h =>
      rw [h.phase_eq]
      exact le_rfl
  | round h => exact left_round hA hO ht h

/-- **A round goes on**: first towards the reading of the orders, then down to its end. -/
theorem rank_round (hA : A.NamesBatch P) (hO : A.NamesOnce P) {b : OrderBook}
    (ht : Tracks P A b n.phase) {a : RoundAction} (h : RoundStep R A n a n')
    (hi : n.phase ≠ .idle) :
    Prod.Lex (· < ·) (· < ·) (n'.phase.stage, n'.phase.left A) (n.phase.stage, n.phase.left A) := by
  have hleft := left_round hA hO ht h
  have down : (Action.round a).allows A = 0 → n'.phase.stage = n.phase.stage →
      Prod.Lex (· < ·) (· < ·) (n'.phase.stage, n'.phase.left A)
        (n.phase.stage, n.phase.left A) := by
    intro hno hst
    rw [hst]
    exact .right _ (by omega)
  have read : n'.phase.stage < n.phase.stage → Prod.Lex (· < ·) (· < ·)
      (n'.phase.stage, n'.phase.left A) (n.phase.stage, n.phase.left A) := .left _ _
  cases h with
  | start hp h => exact absurd hp hi
  | @sweep secs now hp =>
      refine read ?_
      rw [hp]
      dsimp only
      cases (R.expireDue now secs n.store).1
      · exact Nat.zero_lt_two
      · exact Nat.one_lt_two
  | list hp hl h | listError hp hl =>
      refine read ?_
      rw [hp]
      exact Nat.zero_lt_one
  | @sealBatch secs opened id hp =>
      refine down rfl ?_
      rw [hp]
      dsimp only [Phase.afterList]
      split <;> rfl
  | answer hp hk h | mark now hp | deliver hp =>
      refine down rfl ?_
      rw [hp]
      rfl
  | @choose batch best hp =>
      refine down rfl ?_
      rw [hp]
      cases best <;> rfl

/-- **A round is never stuck.** -/
theorem goes_on (hR : Implements P R Sound book) (hresp : A.Responds) (hs : Sound n.store)
    (ht : Tracks P A (book n.store) n.phase) (hi : n.phase ≠ .idle) :
    ∃ a n', RoundStep R A n a n' := by
  cases hp : n.phase with
  | idle => exact absurd hp hi
  | started secs => exact ⟨_, _, .sweep 0 hp⟩
  | swept secs =>
      obtain ⟨rs, hl, -⟩ := hR.listOpen n.store hs
      exact ⟨_, _, .list hp hl (.refl _)⟩
  | listed secs opened => exact ⟨_, _, .sealBatch ⟨.replicate 16 0⟩ hp⟩
  | racing batch waiting best =>
      cases waiting with
      | nil => exact ⟨_, _, .choose hp⟩
      | cons s waiting =>
          rw [hp] at ht
          obtain ⟨res, hsolve⟩ := hresp s (ht.2.1 s List.mem_cons_self) batch
          exact ⟨_, _, .answer (k := 0) hp rfl hsolve⟩
  | marking batch w todo =>
      cases todo with
      | nil => exact ⟨_, _, .deliver hp⟩
      | cons t todo => exact ⟨_, _, .mark 0 hp⟩

/-- **Rounds end.**  In every run the auctioneer takes no more steps than its rounds are allowed: a
few and one for each solver at the start of a round, and one for each order it reads.  And from
every state that a run reaches, some steps of the auctioneer alone end the round. -/
theorem rounds_end (hR : Implements P R Sound book) (hA : A.NamesBatch P) (hO : A.NamesOnce P)
    (hresp : A.Responds) {st : σ} (hs : Sound st) {clock : Int64} {tr : List (Node σ × Action)}
    (h : (machine P R A).Run (.boot st clock) tr n) :
    (tr.map fun p => p.2.takes).sum ≤ (tr.map fun p => p.2.allows A).sum ∧
      ∃ tr' n', (machine P R A).Run n tr' n' ∧ (∀ p ∈ tr', ∃ a, p.2 = .round a) ∧
        n'.phase = .idle := by
  let I : Node σ → Prop := fun n => Sound n.store ∧ Tracks P A (book n.store) n.phase
  have hI : ∀ n a n', I n → (machine P R A).step n a n' → I n' := fun n a n' hi hstep =>
    ⟨(step_book hR hi.1 hstep).1, tracks_step hR hi.1 hstep hi.2⟩
  have start : I (.boot st clock) := ⟨hs, trivial⟩
  constructor
  · have hsum := h.amortize (Φ := fun n => n.phase.left A) (fun p => p.2.takes)
      (fun p => p.2.allows A) hI
      (fun n a n' hi hstep => left_step hA hO hi.2 hstep) start
    have hzero : (Node.boot st clock).phase.left A = 0 := rfl
    omega
  · refine System.Run.reaches (S := machine P R A) (I := I)
      (WellFounded.prod_lex Nat.lt_wfRel.wf Nat.lt_wfRel.wf)
      (fun n => (n.phase.stage, n.phase.left A)) (fun a => ∃ r, a = .round r)
      (fun n hi hidle => ?_) n (h.inv hI start)
    obtain ⟨a, n', hstep⟩ := goes_on hR hresp hi.1 hi.2 hidle
    exact ⟨_, n', .round hstep, ⟨a, rfl⟩, hI _ _ _ hi (.round hstep),
      rank_round hA hO hi.2 hstep hidle⟩

end

section
open Sample

/-- A round over two orders with one solver. -/
theorem rounds_end_two : ∃ tr,
    (machine primitives memory auctioneer).Run (.boot .new 50) tr (.boot settled 50) ∧
    (∃ p ∈ tr, Delivers p solution) ∧
    (tr.map fun p => p.2.takes).sum ≤ (tr.map fun p => p.2.allows auctioneer).sum := by
  obtain ⟨tr, h, hd⟩ := settled_run
  have hresp : auctioneer.Responds := fun s hs batch => by
    obtain rfl := List.mem_singleton.mp hs
    exact ⟨_, .timeout⟩
  exact ⟨tr, h, hd, (rounds_end (InMemoryOrderRepository.implements primitives _)
    auctioneer_reference.namesBatch auctioneer_reference.namesOnce hresp
    InMemoryOrderRepository.filed_new h).1⟩

end

end OxDex
