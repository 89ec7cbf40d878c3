import OxDex.Matching.Iterations
import OxDex.Matching.Limits
import OxDex.Matching.Within

/-!
# Matching — Bystander

The fill loop with and without an order that does not trade.

An order that sells nothing is passed once it is a head (`idle_turn_ab`, `idle_turn_ba`).  Before
and after that the loops with it and without it take the same iterations; while it is a head they
may not.  On the way it can make the loop pass an order of the other direction that forbids partial
fills, and it can be the last to cross.  Where it does neither (`StandsBy`) the loops sell the same
and stop at the same midpoint (`sameFills_ab`, `sameFills_ba`).
-/

namespace OxDex
open Support

/-! ### What the loop leaves ahead, and what it keeps -/

section
variable {xs ys : List Order} {x : Order}

/-- The orders at and ahead of the A→B pointer have something left. -/
def Unspent (s : MatchState xs ys) : Prop :=
  ∀ k : Fin xs.length, s.i ≤ k.val → s.aRemaining.get k ≠ 0

theorem unspent_init (h : SortedBook xs ys) : Unspent (.init xs ys) := by
  intro k _
  rw [MatchState.init, get_sellAmounts]
  exact (h.a_wf _ (List.get_mem xs k)).sell_pos.ne'

/-- **Every iteration keeps it.** -/
theorem unspent_turn {s s' : MatchState xs ys} (hs : Ledger s) (hu : Unspent s)
    (h : turn xs ys s = some s') : Unspent s' := by
  obtain ⟨i, j, hi, hj, -, hm⟩ := turn_met hs h
  cases hm with
  | spent _ => exact fun k hk => hu k ((Nat.le_succ _).trans hk)
  | dust _ _ => exact hu
  | killA _ _ _ => exact fun k hk => hu k ((Nat.le_succ _).trans hk)
  | killB _ _ _ _ _ => exact hu
  | filled t u _ _ _ _ _ =>
      intro k hk
      have hk : (if s.aRemaining.get i - t = 0 then s.i + 1 else s.i) ≤ k.val := hk
      show (s.aRemaining.set i (s.aRemaining.get i - t) i.2).get k ≠ 0
      rw [get_set]
      split at hk
      · rw [if_neg fun e => by subst e; omega]
        exact hu k (by omega)
      · next hne =>
          split
          · exact hne
          · exact hu k hk

theorem unspent_visits (h : SortedBook xs ys) {s : MatchState xs ys}
    (hv : Loop.Visits (turn xs ys) (.init xs ys) s) : Unspent s :=
  (hv.inv (P := fun s => Ledger s ∧ Unspent s)
    (fun _ _ hs ht => ⟨ledger_turn hs.1 ht, unspent_turn hs.1 hs.2 ht⟩)
    ⟨ledger_init xs ys, unspent_init h⟩).2

/-! ### An order that stands by -/

/-- While `x` is a head, the loop passes no order of the other side that forbids partial fills; and
if something is filled, `x` is not a head of the last iteration. -/
structure StandsBy (x : Order) (xs ys : List Order) : Prop where
  passB : ∀ s s', Loop.Visits (turn xs ys) (.init xs ys) s → turn xs ys s = some s' →
    ∀ (i : Fin xs.length) (j : Fin ys.length), s.i = i → s.j = j → xs.get i = x →
      (ys.get j).partialFill = false → s'.j = s.j
  passA : ∀ s s', Loop.Visits (turn xs ys) (.init xs ys) s → turn xs ys s = some s' →
    ∀ (i : Fin xs.length) (j : Fin ys.length), s.i = i → s.j = j → ys.get j = x →
      (xs.get i).partialFill = false → s'.i = s.i
  last : (fillLoop xs ys).fillsAb ≠ [] → ∀ s, Loop.Visits (turn xs ys) (.init xs ys) s →
    turn xs ys s = some (fillLoop xs ys) → ∀ (i : Fin xs.length) (j : Fin ys.length),
      s.i = i → s.j = j → xs.get i ≠ x ∧ ys.get j ≠ x

section
variable (bk : SortedBook xs ys) (hb : StandsBy x xs ys) {s s' : MatchState xs ys}
  (hv : Loop.Visits (turn xs ys) (.init xs ys) s) (ht : turn xs ys s = some s')
  {i : Fin xs.length} {j : Fin ys.length} (hi : s.i = i) (hj : s.j = j)
include bk hb hv ht hi hj

/-- **An iteration with an A→B head that sells nothing**: what the other head has left buys no unit
of A and it is passed, or the head itself is. -/
theorem idle_turn_ab (hx : xs.get i = x) (hno : ∀ f ∈ (fillLoop xs ys).fillsAb, xs.get f.idx ≠ x) :
    let c := s.cross (xs.get i).limitPrice (ys.get j).limitPrice
    (aCapacity (ys.get j) (s.bRemaining.get j) = 0 ∧ s' = { c with j := s.j + 1 }) ∨
      s' = { c with i := s.i + 1 } := by
  have hf := (fills_kept (hv.next ht)).1.subset
  have hkB := hb.passB s s' hv ht i j hi hj hx
  obtain ⟨i', j', hi', hj', -, hm⟩ := turn_met (ledger_visits hv) ht
  obtain rfl : i' = i := Fin.ext (hi'.symm.trans hi)
  obtain rfl : j' = j := Fin.ext (hj'.symm.trans hj)
  cases hm with
  | spent ha => exact absurd ha (unspent_visits bk hv i' hi.le)
  | dust _ hc => exact .inl ⟨hc, rfl⟩
  | killA _ _ _ => exact .inr rfl
  | killB _ _ _ hp _ =>
      have : s.j + 1 = s.j := hkB hp
      omega
  | filled t u _ _ _ _ _ => exact absurd hx (hno _ (hf List.mem_concat_self))

/-- **An iteration with a B→A head that sells nothing**: the head is passed. -/
theorem idle_turn_ba (hy : ys.get j = x) (hno : ∀ g ∈ (fillLoop xs ys).fillsBa, ys.get g.idx ≠ x) :
    s' = { s.cross (xs.get i).limitPrice (ys.get j).limitPrice with j := s.j + 1 } := by
  have hf := (fills_kept (hv.next ht)).2.subset
  have hkA := hb.passA s s' hv ht i j hi hj hy
  have hl := ledger_visits hv
  obtain ⟨i', j', hi', hj', -, hm⟩ := turn_met hl ht
  obtain rfl : i' = i := Fin.ext (hi'.symm.trans hi)
  obtain rfl : j' = j := Fin.ext (hj'.symm.trans hj)
  cases hm with
  | spent ha => exact absurd ha (unspent_visits bk hv i' hi.le)
  | dust _ hc => rfl
  | killA _ hp _ =>
      have : s.i + 1 = s.i := hkA hp
      omega
  | killB _ _ _ _ _ => rfl
  | filled t u _ _ _ _ _ => exact absurd hy (hno _ (hf List.mem_concat_self))

end

/-- An iteration at a B→A head that buys no unit of A. -/
theorem meet_dust {s : MatchState xs ys} (h : s.lastCross.isSome = true) {i : Fin xs.length}
    {j : Fin ys.length} (ha : s.aRemaining.get i ≠ 0)
    (hcap : aCapacity (ys.get j) (s.bRemaining.get j) = 0) :
    meet s h i j = { s with j := s.j + 1 } := by
  simp only [meet, hcap, Nat.min_zero, if_pos, if_neg ha]

theorem turn_dust {s : MatchState xs ys} {i : Fin xs.length} {j : Fin ys.length} (hi : s.i = i)
    (hj : s.j = j) (hc : Crosses (xs.get i) (ys.get j)) (ha : s.aRemaining.get i ≠ 0)
    (hcap : aCapacity (ys.get j) (s.bRemaining.get j) = 0) : turn xs ys s =
      some { s.cross (xs.get i).limitPrice (ys.get j).limitPrice with j := s.j + 1 } := by
  rw [turn_of_crosses hi hj hc]
  exact congrArg some (meet_dust rfl ha hcap)

end

/-! ### With and without an A→B order -/

/-- The pointer with the order at `k` is where the pointer without it is, or at that order while
the other is at the one that follows it. -/
def Beside (k n n' : Nat) : Prop := n = Within.past k n' ∨ n = k ∧ n' = k

theorem Beside.zero (k : Nat) : Beside k 0 0 := by
  simp only [Beside, Within.past]
  split <;> omega

theorem Beside.of_inStep {k n n' m m' : Nat} (h : InStep n' n m' m) (e : n = Within.past k n') :
    Beside k m m' := by
  rcases h with ⟨rfl, rfl⟩ | ⟨rfl, rfl⟩
  · exact .inl e
  · simp only [Beside, Within.past] at *
    split at e <;> split <;> omega

/-- The last iteration had the order at `k` as its A→B head. -/
def FromA (xs ys : List Order) (k : Nat) (s : MatchState xs ys) : Prop :=
  ∃ t, Loop.Visits (turn xs ys) (.init xs ys) t ∧ turn xs ys t = some s ∧ t.i = k

/-- The last iteration had the order at `k` as its B→A head. -/
def FromB (xs ys : List Order) (k : Nat) (s : MatchState xs ys) : Prop :=
  ∃ t, Loop.Visits (turn xs ys) (.init xs ys) t ∧ turn xs ys t = some s ∧ t.j = k

section
variable {u v ys : List Order} {x : Order}

/-- The loops with `x` and without it.  Either they are at the same orders, or the one is at `x`; or
the one without it is left, and the other has no iteration left but those at `x`. -/
structure FollowsA (s : MatchState (u ++ x :: v) ys) (s' : MatchState (u ++ v) ys) : Prop where
  mirror : Mirror (Within.skip u x v).place (Within.refl ys).place s' s
  place : s.j = s'.j ∧ Beside u.length s.i s'.i ∨
    turn (u ++ v) ys s' = none ∧ (s.i = u.length ∨ s.i = u.length + 1) ∧
      ∀ (i : Fin (u ++ x :: v).length) (j : Fin ys.length), i.val = u.length + 1 → s.j ≤ j.val →
        ¬ Crosses ((u ++ x :: v).get i) (ys.get j)
  last : s'.lastCross = s.lastCross ∨ FromA (u ++ x :: v) ys u.length s

/-- The place of the order that is left out. -/
def leftOut (u : List Order) (x : Order) (v : List Order) : Fin (u ++ x :: v).length :=
  ⟨u.length, by simp⟩

@[simp] theorem get_leftOut (u : List Order) (x : Order) (v : List Order) :
    (u ++ x :: v).get (leftOut u x v) = x := by
  simp [leftOut]

variable (bk : SortedBook (u ++ x :: v) ys) (hb : StandsBy x (u ++ x :: v) ys)
  (hno : ∀ f ∈ (fillLoop (u ++ x :: v) ys).fillsAb, (u ++ x :: v).get f.idx ≠ x)
include bk hb hno

/-- **An iteration at `x`**, from the same place. -/
theorem followsA_idle {s t : MatchState (u ++ x :: v) ys} {s' : MatchState (u ++ v) ys}
    (hv : Loop.Visits (turn (u ++ x :: v) ys) (.init _ _) s)
    (h : Mirror (Within.skip u x v).place (Within.refl ys).place s' s) (hj : s.j = s'.j)
    (hi : s.i = u.length) (hi' : s'.i = u.length) (ht : turn (u ++ x :: v) ys s = some t) :
    ∃ t', (∀ e, Loop.Ends (turn (u ++ v) ys) t' e → Loop.Ends (turn (u ++ v) ys) s' e) ∧
      FollowsA t t' := by
  have hfrom : FromA (u ++ x :: v) ys u.length t := ⟨s, hv, ht, hi⟩
  obtain ⟨-, j, -, hsj, -, -⟩ := turn_eq_some ht
  have hsi : s.i = leftOut u x v := hi
  rcases idle_turn_ab bk hb hv ht hsi hsj (get_leftOut u x v) hno with ⟨hcap, rfl⟩ | rfl
  · -- the order that follows `x` finds the same head and passes it, or does not cross it
    have next : ∀ i : Fin (u ++ v).length, i.val = u.length →
        ((Within.skip u x v).place i).val = u.length + 1 := fun i hik => by
      simp [Within.place, Within.skip, Within.past, hik]
    cases hn : turn (u ++ v) ys s' with
    | none =>
        refine ⟨s', fun e he => he, h.congr ⟨rfl, rfl, rfl, rfl⟩ ⟨rfl, rfl, rfl, rfl⟩,
          .inr ⟨hn, .inl hi, fun i l hik hl hc => ?_⟩, .inr hfrom⟩
        obtain ⟨i', hi''⟩ : ∃ i' : Fin (u ++ v).length, i'.val = u.length :=
          ⟨⟨u.length, by simpa [hik] using i.2⟩, rfl⟩
        obtain rfl : i = (Within.skip u x v).place i' := Fin.ext (hik.trans (next i' hi'').symm)
        have hjl : j ≤ l := Fin.le_def.mpr (hsj ▸ (Nat.le_succ s.j).trans hl)
        have hc := bk.crosses le_rfl hjl hc
        rw [Within.get_place] at hc
        rw [turn_of_crosses (hi'.trans hi''.symm) (hj.symm.trans hsj) hc] at hn
        cases hn
    | some t' =>
        obtain ⟨i', j', hi'', hj', hc', -⟩ := turn_eq_some hn
        obtain rfl : j' = j := Fin.ext (hj'.symm.trans (hj.symm.trans hsj))
        have ha : s'.aRemaining.get i' ≠ 0 := by
          rw [← h.aRemaining i' (Within.get_place _ i')]
          exact unspent_visits bk hv _ (by rw [hi, next i' (hi''.symm.trans hi')]; omega)
        have hcap' : aCapacity (ys.get j') (s'.bRemaining.get j') = 0 := by
          rw [← h.bRemaining j' (Within.get_place _ j')]
          exact hcap
        rw [turn_dust hi'' hj' hc' ha hcap'] at hn
        obtain rfl := Option.some.inj hn
        exact ⟨_, fun e he => .next (turn_dust hi'' hj' hc' ha hcap') he,
          h.congr ⟨rfl, rfl, rfl, rfl⟩ ⟨rfl, rfl, rfl, rfl⟩,
          .inl ⟨congrArg (· + 1) hj, .inr ⟨hi, hi'⟩⟩, .inr hfrom⟩
  · exact ⟨s', fun e he => he, h.congr ⟨rfl, rfl, rfl, rfl⟩ ⟨rfl, rfl, rfl, rfl⟩,
      .inl ⟨hj, .inl (by simp [Within.past, hi, hi'])⟩, .inr hfrom⟩

/-- **An iteration with `x`.** -/
theorem followsA_next (s t : MatchState (u ++ x :: v) ys) (s' : MatchState (u ++ v) ys)
    (hv : Loop.Visits (turn (u ++ x :: v) ys) (.init _ _) s) (h : FollowsA s s')
    (ht : turn (u ++ x :: v) ys s = some t) :
    ∃ t', (∀ e, Loop.Ends (turn (u ++ v) ys) t' e → Loop.Ends (turn (u ++ v) ys) s' e) ∧
      FollowsA t t' := by
  rcases h.place with ⟨hj, hi | ⟨hi, hi'⟩⟩ | ⟨hn, hi | hi, hno'⟩
  · -- at the same orders
    rcases turn_within h.mirror hi hj with ⟨hn, -⟩ | ⟨t₁, t', h₁, ht', hl, hm⟩
    · rw [ht] at hn
      cases hn
    · obtain rfl := Option.some.inj (ht.symm.trans h₁)
      exact ⟨t', fun e he => .next ht' he, hm.mirror, .inl ⟨hm.j.eq hj, .of_inStep hm.i hi⟩,
        .inl hl⟩
  · exact followsA_idle bk hb hno hv h.mirror hj hi hi' ht
  · -- the loop without `x` is left, and this one passes `x` or its other head
    obtain ⟨-, j, -, hsj, -, -⟩ := turn_eq_some ht
    have hsi : s.i = leftOut u x v := hi
    have hfrom : FromA (u ++ x :: v) ys u.length t := ⟨s, hv, ht, hi⟩
    rcases idle_turn_ab bk hb hv ht hsi hsj (get_leftOut u x v) hno with ⟨-, rfl⟩ | rfl
    · exact ⟨s', fun e he => he, h.mirror.congr ⟨rfl, rfl, rfl, rfl⟩ ⟨rfl, rfl, rfl, rfl⟩,
        .inr ⟨hn, .inl hi, fun i l hik hl => hno' i l hik ((Nat.le_succ _).trans hl)⟩,
        .inr hfrom⟩
    · exact ⟨s', fun e he => he, h.mirror.congr ⟨rfl, rfl, rfl, rfl⟩ ⟨rfl, rfl, rfl, rfl⟩,
        .inr ⟨hn, .inr (congrArg (· + 1) hi), hno'⟩, .inr hfrom⟩
  · obtain ⟨i, j, hsi, hsj, hc, -⟩ := turn_eq_some ht
    exact absurd hc (hno' i j (hsi.symm.trans hi) hsj.le)

omit hb hno in
/-- Where the loop with `x` is left, the one without it is. -/
theorem followsA_left {s : MatchState (u ++ x :: v) ys} {s' : MatchState (u ++ v) ys}
    (h : FollowsA s s') (ht : turn (u ++ x :: v) ys s = none) : turn (u ++ v) ys s' = none := by
  rcases h.place with ⟨hj, hi | ⟨hi, hi'⟩⟩ | ⟨hn, -, -⟩
  · rcases turn_within h.mirror hi hj with ⟨-, hn⟩ | ⟨_, _, h₁, -⟩
    · exact hn
    · rw [ht] at h₁
      cases h₁
  · cases hn : turn (u ++ v) ys s' with
    | none => rfl
    | some t' =>
        -- the order that follows `x` crosses, so `x` does
        obtain ⟨i', j, hi'', hj', hc, -⟩ := turn_eq_some hn
        rw [← (Within.skip u x v).get_place i'] at hc
        have hle : leftOut u x v ≤ (Within.skip u x v).place i' := by
          rw [Fin.le_def]
          simp [leftOut, Within.place, Within.skip, Within.past, ← hi'', hi']
        have hc := bk.crosses hle le_rfl hc
        rw [turn_of_crosses (show s.i = leftOut u x v from hi) (hj.trans hj') hc] at ht
        cases ht
  · exact hn

/-- **The loop without `x`** ends with the same books. -/
theorem followsA_fillLoop : Mirror (Within.skip u x v).place (Within.refl ys).place
    (fillLoop (u ++ v) ys) (fillLoop (u ++ x :: v) ys) ∧ ((fillLoop (u ++ v) ys).lastCross =
      (fillLoop (u ++ x :: v) ys).lastCross ∨
        FromA (u ++ x :: v) ys u.length (fillLoop (u ++ x :: v) ys)) := by
  have hinit : FollowsA (x := x) (.init (u ++ x :: v) ys) (.init (u ++ v) ys) :=
    ⟨.init, .inl ⟨rfl, Beside.zero _⟩, .inl rfl⟩
  exact fillLoop_follows
    (F := fun s s' => Mirror (Within.skip u x v).place (Within.refl ys).place s' s ∧
      (s'.lastCross = s.lastCross ∨ FromA (u ++ x :: v) ys u.length s))
    hinit (followsA_next bk hb hno)
    fun _ _ h ht => ⟨followsA_left bk h ht, h.mirror, h.last⟩

/-- **Without an A→B order that stands by** the loop sells the same, and stops at the same
midpoint. -/
theorem sameFills_ab : SameFills (fillLoop (u ++ x :: v) ys) (fillLoop (u ++ v) ys) := by
  obtain ⟨hs, hl⟩ := followsA_fillLoop bk hb hno
  refine sameFills_within hs fun hf => hl.resolve_right ?_
  rintro ⟨t, hv, ht, hi⟩
  obtain ⟨-, j, -, hj, -, -⟩ := turn_eq_some ht
  exact (hb.last hf t hv ht (leftOut u x v) j hi hj).1 (get_leftOut u x v)

end

/-! ### With and without a B→A order -/

section
variable {xs u v : List Order} {x : Order}

/-- The loops with `x` and without it: at the same orders, or the one at `x`. -/
structure FollowsB (s : MatchState xs (u ++ x :: v)) (s' : MatchState xs (u ++ v)) : Prop where
  mirror : Mirror (Within.refl xs).place (Within.skip u x v).place s' s
  i : s.i = s'.i
  j : Beside u.length s.j s'.j
  last : s'.lastCross = s.lastCross ∨ FromB xs (u ++ x :: v) u.length s

variable (bk : SortedBook xs (u ++ x :: v)) (hb : StandsBy x xs (u ++ x :: v))
  (hno : ∀ g ∈ (fillLoop xs (u ++ x :: v)).fillsBa, (u ++ x :: v).get g.idx ≠ x)
include bk hb hno

/-- **An iteration with `x`.** -/
theorem followsB_next (s t : MatchState xs (u ++ x :: v)) (s' : MatchState xs (u ++ v))
    (hv : Loop.Visits (turn xs (u ++ x :: v)) (.init _ _) s) (h : FollowsB s s')
    (ht : turn xs (u ++ x :: v) s = some t) :
    ∃ t', (∀ e, Loop.Ends (turn xs (u ++ v)) t' e → Loop.Ends (turn xs (u ++ v)) s' e) ∧
      FollowsB t t' := by
  rcases h.j with hj | ⟨hj, hj'⟩
  · -- at the same orders
    rcases turn_within h.mirror h.i hj with ⟨hn, -⟩ | ⟨t₁, t', h₁, ht', hl, hm⟩
    · rw [ht] at hn
      cases hn
    · obtain rfl := Option.some.inj (ht.symm.trans h₁)
      exact ⟨t', fun e he => .next ht' he, hm.mirror, hm.i.eq h.i, .of_inStep hm.j hj, .inl hl⟩
  · -- `x` is passed, and the loop without it waits
    have hfrom : FromB xs (u ++ x :: v) u.length t := ⟨s, hv, ht, hj⟩
    obtain ⟨i, -, hsi, -, -, -⟩ := turn_eq_some ht
    have hsj : s.j = leftOut u x v := hj
    obtain rfl := idle_turn_ba bk hb hv ht hsi hsj (get_leftOut u x v) hno
    exact ⟨s', fun e he => he, h.mirror.congr ⟨rfl, rfl, rfl, rfl⟩ ⟨rfl, rfl, rfl, rfl⟩, h.i,
      .inl (by simp [Within.past, hj, hj']), .inr hfrom⟩

omit hb hno in
/-- Where the loop with `x` is left, the one without it is. -/
theorem followsB_left {s : MatchState xs (u ++ x :: v)} {s' : MatchState xs (u ++ v)}
    (h : FollowsB s s') (ht : turn xs (u ++ x :: v) s = none) : turn xs (u ++ v) s' = none := by
  rcases h.j with hj | ⟨hj, hj'⟩
  · rcases turn_within h.mirror h.i hj with ⟨-, hn⟩ | ⟨_, _, h₁, -⟩
    · exact hn
    · rw [ht] at h₁
      cases h₁
  · cases hn : turn xs (u ++ v) s' with
    | none => rfl
    | some t' =>
        -- the order that follows `x` crosses, so `x` does
        obtain ⟨i, j', hi, hj'', hc, -⟩ := turn_eq_some hn
        rw [← (Within.skip u x v).get_place j'] at hc
        have hle : leftOut u x v ≤ (Within.skip u x v).place j' := by
          rw [Fin.le_def]
          simp [leftOut, Within.place, Within.skip, Within.past, ← hj'', hj']
        have hc := bk.crosses le_rfl hle hc
        rw [turn_of_crosses (h.i.trans hi) (show s.j = leftOut u x v from hj) hc] at ht
        cases ht

/-- **The loop without `x`** ends with the same books. -/
theorem followsB_fillLoop : Mirror (Within.refl xs).place (Within.skip u x v).place
    (fillLoop xs (u ++ v)) (fillLoop xs (u ++ x :: v)) ∧ ((fillLoop xs (u ++ v)).lastCross =
      (fillLoop xs (u ++ x :: v)).lastCross ∨
        FromB xs (u ++ x :: v) u.length (fillLoop xs (u ++ x :: v))) := by
  have hinit : FollowsB (x := x) (.init xs (u ++ x :: v)) (.init xs (u ++ v)) :=
    ⟨.init, rfl, Beside.zero _, .inl rfl⟩
  exact fillLoop_follows
    (F := fun s s' => Mirror (Within.refl xs).place (Within.skip u x v).place s' s ∧
      (s'.lastCross = s.lastCross ∨ FromB xs (u ++ x :: v) u.length s))
    hinit (followsB_next bk hb hno)
    fun _ _ h ht => ⟨followsB_left bk h ht, h.mirror, h.last⟩

/-- **Without a B→A order that stands by** the loop sells the same, and stops at the same
midpoint. -/
theorem sameFills_ba : SameFills (fillLoop xs (u ++ x :: v)) (fillLoop xs (u ++ v)) := by
  obtain ⟨hs, hl⟩ := followsB_fillLoop bk hb hno
  refine sameFills_within hs fun hf => hl.resolve_right ?_
  rintro ⟨t, hv, ht, hj⟩
  obtain ⟨i, -, hi, -, -, -⟩ := turn_eq_some ht
  exact (hb.last hf t hv ht i (leftOut u x v) hi hj).2 (get_leftOut u x v)

end

end OxDex
