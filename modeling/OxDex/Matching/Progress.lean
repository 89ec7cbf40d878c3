import OxDex.Matching.Iterations
import OxDex.Matching.Limits

/-!
# Matching — Progress

Whether every iteration of the fill loop moves a pointer.

A fill moves a pointer only where it sells out one of its two orders.  The A of a fill is what the
B→A head can still buy, rounded down, and the B it is debited is that A at the head's own price,
rounded down again; so the head can be left with some B although the A→B head has more to sell.
Neither pointer moves then, and the next iteration meets the same two orders.  That is the only way
(`moves_iff`): an iteration moves a pointer if and only if the heads are not `Stalled`.

So the loop makes progress exactly as long as it comes to no stalled heads, and there are then no
more fills than orders (`pointerProgress_iff`).  Otherwise the number of fills is bounded by the
amounts alone: in `stalls` 94 A are sold, 3 at a time, for no B at all.
-/

namespace OxDex
open Support

variable {aToB bToA : List Order}

/-- Neither head forbids partial fills, the A→B head has more left than the other buys, which is
some, and what the B→A head has left is not a whole number of A at its own price. -/
structure Stalled (s : MatchState aToB bToA) (i : Fin aToB.length) (j : Fin bToA.length) :
    Prop where
  a_partial : (aToB.get i).partialFill = true
  b_partial : (bToA.get j).partialFill = true
  some_a : aCapacity (bToA.get j) (s.bRemaining.get j) ≠ 0
  more_a : aCapacity (bToA.get j) (s.bRemaining.get j) < s.aRemaining.get i
  uneven : ¬ (bToA.get j).sellAmount.toNat ∣
    s.bRemaining.get j * (bToA.get j).buyAmount.toNat

/-- Every iteration moves a pointer, and there are no more fills than orders. -/
structure PointerProgress (aToB bToA : List Order) : Prop where
  advances : ∀ s s', Loop.Visits (turn aToB bToA) (.init aToB bToA) s →
    turn aToB bToA s = some s' → s.i < s'.i ∨ s.j < s'.j
  fillsAb : (fillLoop aToB bToA).fillsAb.length ≤ aToB.length + bToA.length
  fillsBa : (fillLoop aToB bToA).fillsBa.length ≤ aToB.length + bToA.length

/-- Wherever the loop comes, crossing heads are not stalled. -/
def NeverStalled (aToB bToA : List Order) : Prop :=
  ∀ s, Loop.Visits (turn aToB bToA) (.init aToB bToA) s → ∀ (i : Fin aToB.length)
    (j : Fin bToA.length), s.i = i.val → s.j = j.val → Crosses (aToB.get i) (bToA.get j) →
    ¬ Stalled s i j

/-! ### When the B→A head is sold out -/

/-- **Selling all that can be bought** sells out the head if and only if what it has left is a whole
number of A at its own price. -/
theorem bookedB_aCapacity {ob : Order} (ho : ob.WellFormed) {b : Nat} (hb : b ≤ u64Max)
    (hc : aCapacity ob b ≤ u64Max) :
    bookedB ob (aCapacity ob b) = b ↔ ob.sellAmount.toNat ∣ b * ob.buyAmount.toNat := by
  rw [bookedB_eq hc, aCapacity_eq hb, max_eq_left ho.sell_pos, max_eq_left ho.buy_pos]
  set c := b * ob.buyAmount.toNat / ob.sellAmount.toNat with hc
  have hle : c * ob.sellAmount.toNat ≤ b * ob.buyAmount.toNat := Nat.div_mul_le_self _ _
  constructor
  · intro h
    have hge : b * ob.buyAmount.toNat ≤ c * ob.sellAmount.toNat :=
      (Nat.le_div_iff_mul_le ho.buy_pos).mp h.ge
    exact Dvd.intro_left c (Nat.le_antisymm hle hge)
  · intro h
    rw [Nat.div_mul_cancel h]
    exact Nat.mul_div_cancel b ho.buy_pos

section
variable {s s' : MatchState aToB bToA}

/-- A pointer that may move. -/
theorem bump_bounds (c : Prop) [Decidable c] (k : Nat) :
    k ≤ (if c then k + 1 else k) ∧ (if c then k + 1 else k) ≤ k + 1 := by
  split <;> omega

/-- An iteration moves no pointer back, and books a fill at most. -/
theorem turn_forward (hs : Ledger s) (ht : turn aToB bToA s = some s') :
    s.i ≤ s'.i ∧ s.j ≤ s'.j ∧ s'.fillsAb.length ≤ s.fillsAb.length + 1 ∧
      s'.i ≤ aToB.length ∧ s'.j ≤ bToA.length := by
  obtain ⟨i, j, hi, hj, -, hm⟩ := turn_met hs ht
  have hi' := i.2
  have hj' := j.2
  cases hm with
  | spent _ => simp only [MatchState.cross]; omega
  | dust _ _ => simp only [MatchState.cross]; omega
  | killA _ _ _ => simp only [MatchState.cross]; omega
  | killB _ _ _ _ _ => simp only [MatchState.cross]; omega
  | filled t u _ _ _ _ _ =>
      have hi := bump_bounds (s.aRemaining.get i - t = 0) s.i
      have hj := bump_bounds (s.bRemaining.get j - u = 0) s.j
      exact ⟨hi.1, hj.1, (List.length_append ..).le, hi.2.trans (by omega), hj.2.trans (by omega)⟩

/-- A fill that stands sells out one of the heads if and only if they are not stalled. -/
theorem soldOut_iff (hs : Ledger s) {i : Fin aToB.length} {j : Fin bToA.length}
    (ho : (bToA.get j).WellFormed) {t u : Nat}
    (ht : t = min (s.aRemaining.get i) (aCapacity (bToA.get j) (s.bRemaining.get j))) (h0 : t ≠ 0)
    (hu : u = bookedB (bToA.get j) t)
    (hA : (aToB.get i).partialFill = false → t = s.aRemaining.get i)
    (hB : (bToA.get j).partialFill = false → u = s.bRemaining.get j) :
    t = s.aRemaining.get i ∨ u = s.bRemaining.get j ↔ ¬ Stalled s i j := by
  -- if the A→B head has more, the other sells all it can, and is sold out if that comes out even
  have even : aCapacity (bToA.get j) (s.bRemaining.get j) < s.aRemaining.get i →
      (u = s.bRemaining.get j ↔
        (bToA.get j).sellAmount.toNat ∣ s.bRemaining.get j * (bToA.get j).buyAmount.toNat) := by
    intro hlt
    have ht' : t = aCapacity (bToA.get j) (s.bRemaining.get j) := by omega
    rw [hu, ht']
    exact bookedB_aCapacity ho (hs.b_le j) (hlt.le.trans (hs.a_le i))
  constructor
  · rintro (h | h) hst
    · have := hst.more_a
      omega
    · exact hst.uneven ((even hst.more_a).mp h)
  · intro hst
    by_contra hno
    rw [not_or] at hno
    have hlt : aCapacity (bToA.get j) (s.bRemaining.get j) < s.aRemaining.get i := by omega
    refine hst ⟨?_, ?_, by omega, hlt, fun hd => hno.2 ((even hlt).mpr hd)⟩
    · by_contra hp
      exact hno.1 (hA (Bool.eq_false_of_not_eq_true hp))
    · by_contra hp
      exact hno.2 (hB (Bool.eq_false_of_not_eq_true hp))

/-- **An iteration moves a pointer** if and only if the heads are not stalled. -/
theorem moves_iff (hs : Ledger s) {i : Fin aToB.length} {j : Fin bToA.length} (hi : s.i = i.val)
    (hj : s.j = j.val) (ho : (bToA.get j).WellFormed) (ht : turn aToB bToA s = some s') :
    s.i < s'.i ∨ s.j < s'.j ↔ ¬ Stalled s i j := by
  obtain ⟨i', j', hi', hj', -, hm⟩ := turn_met hs ht
  obtain rfl : i' = i := Fin.ext (hi'.symm.trans hi)
  obtain rfl : j' = j := Fin.ext (hj'.symm.trans hj)
  cases hm with
  | spent ha =>
      have ha : s.aRemaining.get i' = 0 := ha
      refine iff_of_true (.inl (Nat.lt_succ_self _)) fun h => ?_
      have := h.more_a
      omega
  | dust _ hc => exact iff_of_true (.inr (Nat.lt_succ_self _)) fun h => h.some_a hc
  | killA _ hp _ =>
      refine iff_of_true (.inl (Nat.lt_succ_self _)) fun h => ?_
      rw [h.a_partial] at hp
      cases hp
  | killB _ _ _ hp _ =>
      refine iff_of_true (.inr (Nat.lt_succ_self _)) fun h => ?_
      rw [h.b_partial] at hp
      cases hp
  | filled t u htr h0 hu hA hB =>
      have htr : t = min (s.aRemaining.get i') (aCapacity (bToA.get j') (s.bRemaining.get j')) :=
        htr
      have hle : t ≤ s.aRemaining.get i' := by omega
      have huB : u ≤ s.bRemaining.get j' :=
        hu ▸ bookedB_le (hs.b_le j') (hle.trans (hs.a_le i')) (by omega) h0
      -- a pointer moves where a head is sold out
      have moved : (s.i < if s.aRemaining.get i' - t = 0 then s.i + 1 else s.i) ∨
          (s.j < if s.bRemaining.get j' - u = 0 then s.j + 1 else s.j) ↔
          t = s.aRemaining.get i' ∨ u = s.bRemaining.get j' := by
        refine or_congr ?_ ?_ <;> split <;> omega
      exact moved.trans (soldOut_iff hs ho htr h0 hu hA hB)

end

/-! ### Runs -/

/-- **Where every iteration moves a pointer**, there are no more fills than pointer moves. -/
theorem fills_le_moves (h : ∀ s s', Loop.Visits (turn aToB bToA) (.init aToB bToA) s →
    turn aToB bToA s = some s' → s.i < s'.i ∨ s.j < s'.j) {s : MatchState aToB bToA}
    (hv : Loop.Visits (turn aToB bToA) (.init aToB bToA) s) :
    s.fillsAb.length ≤ s.i + s.j ∧ s.i ≤ aToB.length ∧ s.j ≤ bToA.length := by
  induction hv with
  | start => exact ⟨Nat.zero_le _, Nat.zero_le _, Nat.zero_le _⟩
  | next hv ht ih =>
      obtain ⟨hi, hj, hf, hi', hj'⟩ := turn_forward (ledger_visits hv) ht
      have hmove := h _ _ hv ht
      exact ⟨by omega, hi', hj'⟩

/-- **Pointer progress** if and only if the loop comes to no stalled heads. -/
theorem progress_iff_neverStalled (hw : ∀ o ∈ bToA, o.WellFormed) :
    PointerProgress aToB bToA ↔ NeverStalled aToB bToA := by
  constructor
  · intro h s hv i j hi hj hc
    have ht := turn_of_crosses hi hj hc
    exact (moves_iff (ledger_visits hv) hi hj (hw _ (List.get_mem _ _)) ht).mp
      (h.advances s _ hv ht)
  · intro h
    have moves : ∀ s s', Loop.Visits (turn aToB bToA) (.init aToB bToA) s →
        turn aToB bToA s = some s' → s.i < s'.i ∨ s.j < s'.j := by
      intro s s' hv ht
      obtain ⟨i, j, hi, hj, hc, -⟩ := turn_eq_some ht
      exact (moves_iff (ledger_visits hv) hi hj (hw _ (List.get_mem _ _)) ht).mpr
        (h s hv i j hi hj hc)
    have hv : Loop.Visits (turn aToB bToA) (.init aToB bToA) (fillLoop aToB bToA) :=
      .run _ .start
    obtain ⟨hf, hi, hj⟩ := fills_le_moves moves hv
    have hlen := (ledger_visits hv).booked.length_eq
    exact ⟨moves, by omega, by omega⟩

/-- A side that asks for a whole number of A for each B stalls no loop. -/
theorem neverStalled_of_dvd (h : ∀ o ∈ bToA, o.sellAmount.toNat ∣ o.buyAmount.toNat) :
    NeverStalled aToB bToA :=
  fun _ _ _ j _ _ _ hst => hst.uneven ((h _ (List.get_mem bToA j)).mul_left _)

/-- **The loops of a batch make pointer progress** if and only if none of them comes to stalled
heads. -/
theorem pointerProgress_iff {orders : List SignedOrder} (hv : Validated orders) :
    (∀ m, PointerProgress (abSide orders m) (baSide orders m)) ↔
      ∀ m, NeverStalled (abSide orders m) (baSide orders m) :=
  forall_congr' fun _ => progress_iff_neverStalled fun _ ho => hv.wellFormed (mem_baSide ho).1

section
open Sample

/-- For alice's 150 and bob's 200. -/
theorem pointerProgress_two :
    (∀ m, PointerProgress (abSide [sign alice150, sign bob200] m)
        (baSide [sign alice150, sign bob200] m)) ↔
      ∀ m, NeverStalled (abSide [sign alice150, sign bob200] m)
        (baSide [sign alice150, sign bob200] m) :=
  pointerProgress_iff fun s hs => ⟨0, by revert s; decide +kernel⟩

/-- Two sellers of A, who want a quarter of a B for one A and a little more, and a seller of 3 B
who wants 10 A. -/
def stalling : List SignedOrder :=
  [sign (order alice mintA mintB 4 1 Int64.maxValue),
    sign (order alice mintA mintB 100 26 Int64.maxValue),
    sign (order bob mintB mintA 3 10 Int64.maxValue)]

/-- **The loop stalls**: three valid orders give 34 fills, the last 32 of them for no B. -/
theorem stalls :
    (∀ s ∈ stalling, s.order.validate 0 = .ok ()) ∧
      (pairFills stalling (mintA, mintB)).fillsAb.length = 34 ∧
      ¬ PointerProgress (abSide stalling (mintA, mintB)) (baSide stalling (mintA, mintB)) := by
  have fills : (pairFills stalling (mintA, mintB)).fillsAb.length = 34 := by decide +kernel
  have sides : (abSide stalling (mintA, mintB)).length + (baSide stalling (mintA, mintB)).length =
      3 := by decide +kernel
  refine ⟨by decide +kernel, fills, fun h => ?_⟩
  have := h.fillsAb
  rw [pairFills] at fills
  omega

end

end OxDex
