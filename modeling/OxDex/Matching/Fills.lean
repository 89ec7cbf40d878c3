import OxDex.Matching.Engine

/-!
# Matching — Fills

What one iteration of the fill loop can do, and what the loop keeps.

* `Met s h i j s'` lists the five things an iteration does at crossing heads: skip a spent A→B head,
  skip a B→A head reduced to dust, skip a fill-or-kill head on either side, or book a fill.
  `meet_cases` says the code does one of these; in the two fill-or-kill cases the rollback restores
  the state exactly (`rollback_fill`).
* `turn_measure_lt`: a measure falls at every iteration, so the loop is left of its own accord
  (`fillLoop_left`).
* `Ledger s`: what an order has sold and what remains add up to its sell amount; a fill-or-kill
  order is untouched or sold out; the two fill lists book the same exchanges from the two sides;
  and every fill lies at or before the last crossing pair.  It holds at the start
  (`ledger_init`), every iteration keeps it (`ledger_turn`), so it holds after the loop
  (`ledger_fillLoop`).

None of this needs the orders to be valid.
-/

namespace OxDex
open Support

/-! ### What an order sold -/

/-- What the order at index `k` sold over a list of fills. -/
def soldOf {n : Nat} (fills : List (Fill n)) (k : Fin n) : Nat :=
  ((fills.filter fun f => f.idx = k).map Fill.sold).sum

@[simp] theorem soldOf_nil {n : Nat} (k : Fin n) : soldOf [] k = 0 := rfl

theorem soldOf_concat {n : Nat} (fills : List (Fill n)) (f : Fill n) (k : Fin n) :
    soldOf (fills ++ [f]) k = soldOf fills k + if f.idx = k then f.sold else 0 := by
  by_cases h : f.idx = k <;> simp [soldOf, List.filter_append, h]

theorem soldOf_mono {n : Nat} {fills fills' : List (Fill n)} (h : fills <+: fills') (k : Fin n) :
    soldOf fills k ≤ soldOf fills' k := by
  obtain ⟨rest, rfl⟩ := h
  simp [soldOf]

theorem le_soldOf {n : Nat} {fills : List (Fill n)} {f : Fill n} (h : f ∈ fills) :
    f.sold ≤ soldOf fills f.idx :=
  List.le_sum_of_mem (List.mem_map.mpr ⟨f, List.mem_filter.mpr ⟨h, decide_eq_true rfl⟩, rfl⟩)

/-- **The hash map of a side** has one entry for every order with a fill, and the entry is what the
order sold. -/
theorem mem_soldPerOrder {n : Nat} {fills : List (Fill n)} {k : Fin n} {v : Nat} :
    (k, v) ∈ soldPerOrder fills ↔ (∃ f ∈ fills, f.idx = k) ∧ v = soldOf fills k := by
  rw [soldPerOrder, mem_tally_iff, soldOf, List.sum_eq_foldl, List.foldl_map]

/-! ### The debits are covered -/

section
variable {ob : Order} {b t : Nat}

theorem aCapacity_eq (hb : b ≤ u64Max) :
    aCapacity ob b = b * ob.buyAmount.toNat / max ob.sellAmount.toNat 1 := by
  rw [aCapacity, satMul_u64 hb (toNat_le_u64Max _)]

theorem aCapacity_zero (ob : Order) : aCapacity ob 0 = 0 := by
  rw [aCapacity_eq (Nat.zero_le _), Nat.zero_mul, Nat.zero_div]

theorem bookedB_eq (ht : t ≤ u64Max) :
    bookedB ob t = t * ob.sellAmount.toNat / max ob.buyAmount.toNat 1 := by
  rw [bookedB, satMul_u64 ht (toNat_le_u64Max _)]

/-- The B booked for an A amount the head can still buy is B the head still has.  Both divisions
round down, so no more is debited than remains. -/
theorem bookedB_le (hb : b ≤ u64Max) (ht : t ≤ u64Max) (hc : t ≤ aCapacity ob b) (h0 : t ≠ 0) :
    bookedB ob t ≤ b := by
  rw [aCapacity_eq hb] at hc
  rw [bookedB_eq ht]
  -- a head with a zero amount on either side has no capacity
  have hbuy : 0 < ob.buyAmount.toNat := by
    by_contra h
    simp only [Nat.eq_zero_of_not_pos h, Nat.mul_zero, Nat.zero_div] at hc
    omega
  rw [max_eq_left hbuy]
  rcases Nat.eq_zero_or_pos ob.sellAmount.toNat with hs | hs
  · simp [hs]
  · rw [max_eq_left hs] at hc
    calc t * ob.sellAmount.toNat / ob.buyAmount.toNat
        ≤ b * ob.buyAmount.toNat / ob.sellAmount.toNat * ob.sellAmount.toNat /
            ob.buyAmount.toNat := Nat.div_le_div_right (Nat.mul_le_mul_right _ hc)
      _ ≤ b := scaled_back_le _ _ _

end

variable {aToB bToA : List Order}

/-! ### Reading a vector -/

section
variable {n : Nat} (v : Vector Nat n) (i k : Fin n)

@[simp] theorem get_set (x : Nat) : (v.set i x i.2).get k = if i = k then x else v.get k := by
  show (v.set i x i.2)[k.1] = if i = k then x else v[k.1]
  rw [Vector.getElem_set]
  exact if_congr Fin.ext_iff.symm rfl rfl

theorem set_get : v.set i (v.get i) i.2 = v := Vector.set_getElem_self _

@[simp] theorem get_sellAmounts (side : List Order) (k : Fin side.length) :
    (sellAmounts side).get k = (side.get k).sellAmount.toNat := by
  show (sellAmounts side)[k.1] = side[k.1].sellAmount.toNat
  simp [sellAmounts]

end

/-! ### Rolling a fill back -/

/-- Taking away and adding back is exact on `u64` remainders. -/
theorem satAdd_sub {x y : Nat} (h : y ≤ x) (hx : x ≤ u64Max) : satAdd (x - y) y = x := by
  have hs : x - y + y = x := Nat.sub_add_cancel h
  rw [satAdd_eq (hs.trans_le (hx.trans u64Max_le_u128Max)), hs]

/-- **A rollback undoes its fill exactly**: no saturating operation bites, and both remainders and
both fill lists are as they were. -/
theorem rollback_fill {s : MatchState aToB bToA} (h : s.lastCross.isSome = true)
    {i : Fin aToB.length} {j : Fin bToA.length} {t u : Nat} (hA : s.aRemaining.get i ≤ u64Max)
    (hB : s.bRemaining.get j ≤ u64Max) (ht : t ≤ s.aRemaining.get i) (hu : u ≤ s.bRemaining.get j) :
    (s.fill h i j t u).rollback i j t u = s := by
  obtain ⟨i₀, j₀, ar, br, fa, fb, lc, hc⟩ := s
  simp only [MatchState.rollback, MatchState.fill, get_set, if_pos, Vector.set_set,
    satAdd_sub ht hA, satAdd_sub hu hB, set_get, List.dropLast_concat]

/-! ### One iteration -/

/-- What an iteration does at the heads `i` and `j`, from a state that has recorded their
crossing. -/
inductive Met (s : MatchState aToB bToA) (h : s.lastCross.isSome = true) (i : Fin aToB.length)
    (j : Fin bToA.length) : MatchState aToB bToA → Prop where
  /-- The A→B head has nothing left. -/
  | spent (ha : s.aRemaining.get i = 0) : Met s h i j { s with i := s.i + 1 }
  /-- What the B→A head has left buys no unit of A. -/
  | dust (ha : s.aRemaining.get i ≠ 0) (hc : aCapacity (bToA.get j) (s.bRemaining.get j) = 0) :
      Met s h i j { s with j := s.j + 1 }
  /-- The A→B head forbids partial fills and would be filled partially. -/
  | killA (hc : aCapacity (bToA.get j) (s.bRemaining.get j) ≠ 0)
      (hp : (aToB.get i).partialFill = false)
      (hlt : aCapacity (bToA.get j) (s.bRemaining.get j) < s.aRemaining.get i) :
      Met s h i j { s with i := s.i + 1 }
  /-- The B→A head forbids partial fills and would be filled partially. -/
  | killB (t : Nat)
      (ht : t = min (s.aRemaining.get i) (aCapacity (bToA.get j) (s.bRemaining.get j)))
      (h0 : t ≠ 0) (hp : (bToA.get j).partialFill = false)
      (hlt : bookedB (bToA.get j) t < s.bRemaining.get j) :
      Met s h i j { s with j := s.j + 1 }
  /-- A fill is booked. -/
  | filled (t u : Nat)
      (ht : t = min (s.aRemaining.get i) (aCapacity (bToA.get j) (s.bRemaining.get j)))
      (h0 : t ≠ 0) (hu : u = bookedB (bToA.get j) t)
      (hA : (aToB.get i).partialFill = false → t = s.aRemaining.get i)
      (hB : (bToA.get j).partialFill = false → u = s.bRemaining.get j) :
      Met s h i j { s.fill h i j t u with
        i := if s.aRemaining.get i - t = 0 then s.i + 1 else s.i
        j := if s.bRemaining.get j - u = 0 then s.j + 1 else s.j }

/-- **What one iteration can do.** -/
theorem meet_cases {s : MatchState aToB bToA} (h : s.lastCross.isSome = true)
    (i : Fin aToB.length) (j : Fin bToA.length) (hA : s.aRemaining.get i ≤ u64Max)
    (hB : s.bRemaining.get j ≤ u64Max) : Met s h i j (meet s h i j) := by
  simp only [meet]
  generalize ht : min (s.aRemaining.get i) (aCapacity (bToA.get j) (s.bRemaining.get j)) = t
  by_cases h0 : t = 0
  · rw [if_pos h0]
    by_cases ha : s.aRemaining.get i = 0
    · rw [if_pos ha]; exact .spent ha
    · rw [if_neg ha]; exact .dust ha (by omega)
  rw [if_neg h0]
  have htA : t ≤ s.aRemaining.get i := by omega
  have huB : bookedB (bToA.get j) t ≤ s.bRemaining.get j :=
    bookedB_le hB (htA.trans hA) (by omega) h0
  have remA : (s.fill h i j t (bookedB (bToA.get j) t)).aRemaining.get i =
      s.aRemaining.get i - t := by
    simp [MatchState.fill]
  have remB : (s.fill h i j t (bookedB (bToA.get j) t)).bRemaining.get j =
      s.bRemaining.get j - bookedB (bToA.get j) t := by
    simp [MatchState.fill]
  rw [rollback_fill h hA hB htA huB, remA, remB]
  split
  · next hk => exact .killA (by omega) hk.1 (by omega)
  · next hk =>
    split
    · next hk' => exact .killB t ht.symm h0 hk'.1 (by omega)
    · next hk' =>
      -- a fill-or-kill order that is not rolled back was filled to the end
      refine .filled t _ ht.symm h0 rfl (fun hp => ?_) (fun hp => ?_)
      · have : ¬ s.aRemaining.get i - t ≠ 0 := fun hne => hk ⟨hp, hne⟩
        omega
      · have : ¬ s.bRemaining.get j - bookedB (bToA.get j) t ≠ 0 := fun hne => hk' ⟨hp, hne⟩
        omega

/-! ### What the loop keeps -/

/-- A fill as the two sides record it: what one sold the other was booked to buy, at the B→A
order's own limit, and their limits cross.  Rounding can book no B at all, but not where the B→A
order must be filled to the end. -/
structure Booked (f : Fill aToB.length) (g : Fill bToA.length) : Prop where
  bought_eq : g.bought = f.sold
  sold_eq : g.sold = f.bought
  pos : 0 < f.sold
  price : f.bought = bookedB (bToA.get g.idx) f.sold
  crosses : Crosses (aToB.get f.idx) (bToA.get g.idx)
  kill_pos : (bToA.get g.idx).partialFill = false → 0 < g.sold

/-- The invariant of the fill loop. -/
structure Ledger (s : MatchState aToB bToA) : Prop where
  a_sum : ∀ k, s.aRemaining.get k + soldOf s.fillsAb k = (aToB.get k).sellAmount.toNat
  b_sum : ∀ k, s.bRemaining.get k + soldOf s.fillsBa k = (bToA.get k).sellAmount.toNat
  a_kill : ∀ k, (aToB.get k).partialFill = false → soldOf s.fillsAb k = 0 ∨ s.aRemaining.get k = 0
  b_kill : ∀ k, (bToA.get k).partialFill = false → soldOf s.fillsBa k = 0 ∨ s.bRemaining.get k = 0
  a_idx : ∀ f ∈ s.fillsAb, f.idx.1 ≤ s.i
  b_idx : ∀ g ∈ s.fillsBa, g.idx.1 ≤ s.j
  booked : List.Forall₂ Booked s.fillsAb s.fillsBa
  last : ∀ p q, s.lastCross = some (p, q) → ∃ (i : Fin aToB.length) (j : Fin bToA.length),
    p = (aToB.get i).limitPrice ∧ q = (bToA.get j).limitPrice ∧ Crosses (aToB.get i) (bToA.get j) ∧
      (∀ f ∈ s.fillsAb, f.idx ≤ i) ∧ ∀ g ∈ s.fillsBa, g.idx ≤ j

namespace Ledger

variable {s : MatchState aToB bToA}

theorem a_le (hs : Ledger s) (k : Fin aToB.length) : s.aRemaining.get k ≤ u64Max :=
  (Nat.le.intro (hs.a_sum k)).trans (toNat_le_u64Max _)

theorem b_le (hs : Ledger s) (k : Fin bToA.length) : s.bRemaining.get k ≤ u64Max :=
  (Nat.le.intro (hs.b_sum k)).trans (toNat_le_u64Max _)

/-- Moving the pointers forward keeps the ledger. -/
theorem skip (hs : Ledger s) {i' j' : Nat} (hi : s.i ≤ i') (hj : s.j ≤ j') :
    Ledger { s with i := i', j := j' } where
  a_sum := hs.a_sum
  b_sum := hs.b_sum
  a_kill := hs.a_kill
  b_kill := hs.b_kill
  a_idx := fun f hf => (hs.a_idx f hf).trans hi
  b_idx := fun g hg => (hs.b_idx g hg).trans hj
  booked := hs.booked
  last := hs.last

/-- Recording the crossing of the heads keeps the ledger. -/
theorem cross (hs : Ledger s) {i : Fin aToB.length} {j : Fin bToA.length} (hi : s.i = i)
    (hj : s.j = j) (hc : Crosses (aToB.get i) (bToA.get j)) :
    Ledger (s.cross (aToB.get i).limitPrice (bToA.get j).limitPrice) where
  a_sum := hs.a_sum
  b_sum := hs.b_sum
  a_kill := hs.a_kill
  b_kill := hs.b_kill
  a_idx := hs.a_idx
  b_idx := hs.b_idx
  booked := hs.booked
  last := by
    rintro p q h
    cases h
    exact ⟨i, j, rfl, rfl, hc, fun f hf => Fin.le_def.mpr (hi ▸ hs.a_idx f hf),
      fun g hg => Fin.le_def.mpr (hj ▸ hs.b_idx g hg)⟩

end Ledger

/-- A debit and its fill leave the sum of what remains and what was sold unchanged. -/
theorem remaining_add_sold {n : Nat} {v : Vector Nat n} {fills : List (Fill n)} {i : Fin n}
    {t u : Nat} (ht : t ≤ v.get i) (k : Fin n) :
    (v.set i (v.get i - t) i.2).get k + soldOf (fills ++ [⟨i, t, u⟩]) k =
      v.get k + soldOf fills k := by
  rw [get_set, soldOf_concat]
  by_cases e : i = k
  · subst e; simp only [if_pos]; omega
  · simp [e]

/-- An order that forbids partial fills is untouched or sold out after a fill that sells out its
own. -/
theorem kill_step {n : Nat} {v : Vector Nat n} {fills : List (Fill n)} {i k : Fin n} {t u : Nat}
    (hk : soldOf fills k = 0 ∨ v.get k = 0) (ht : i = k → t = v.get i) :
    soldOf (fills ++ [⟨i, t, u⟩]) k = 0 ∨ (v.set i (v.get i - t) i.2).get k = 0 := by
  rw [get_set, soldOf_concat]
  by_cases e : i = k
  · right; rw [if_pos e, ht e]; exact Nat.sub_self _
  · simpa [e] using hk

theorem ledger_init (aToB bToA : List Order) : Ledger (.init aToB bToA) where
  a_sum := fun k => by simp [MatchState.init]
  b_sum := fun k => by simp [MatchState.init]
  a_kill := fun _ _ => .inl rfl
  b_kill := fun _ _ => .inl rfl
  a_idx := fun f hf => absurd hf List.not_mem_nil
  b_idx := fun g hg => absurd hg List.not_mem_nil
  booked := .nil
  last := fun p q h => by cases h

/-- **An iteration at crossing heads keeps the ledger.** -/
theorem ledger_met {s s' : MatchState aToB bToA} {h : s.lastCross.isSome = true}
    {i : Fin aToB.length} {j : Fin bToA.length} (hs : Ledger s) (hi : s.i = i) (hj : s.j = j)
    (hc : Crosses (aToB.get i) (bToA.get j))
    (hl : s.lastCross = some ((aToB.get i).limitPrice, (bToA.get j).limitPrice))
    (hm : Met s h i j s') :
    Ledger s' := by
  cases hm with
  | spent _ => exact hs.skip (Nat.le_succ _) le_rfl
  | dust _ _ => exact hs.skip le_rfl (Nat.le_succ _)
  | killA _ _ _ => exact hs.skip (Nat.le_succ _) le_rfl
  | killB _ _ _ _ _ => exact hs.skip le_rfl (Nat.le_succ _)
  | filled t u ht h0 hu hA hB =>
      have htA : t ≤ s.aRemaining.get i := by omega
      have huB : u ≤ s.bRemaining.get j :=
        hu ▸ bookedB_le (hs.b_le j) (htA.trans (hs.a_le i)) (by omega) h0
      -- a head that still buys some A has some B left
      have hB0 : s.bRemaining.get j ≠ 0 := fun e => h0 (by rw [ht, e, aCapacity_zero, Nat.min_zero])
      have key : Ledger (s.fill h i j t u) := {
        a_sum := fun k => (remaining_add_sold htA k).trans (hs.a_sum k)
        b_sum := fun k => (remaining_add_sold huB k).trans (hs.b_sum k)
        a_kill := fun k hk => kill_step (hs.a_kill k hk) fun e => hA (e ▸ hk)
        b_kill := fun k hk => kill_step (hs.b_kill k hk) fun e => hB (e ▸ hk)
        a_idx := by
          intro f hf
          rcases List.mem_append.mp hf with hf | hf
          · exact hs.a_idx f hf
          · rw [List.mem_singleton.mp hf]; exact hi.ge
        b_idx := by
          intro g hg
          rcases List.mem_append.mp hg with hg | hg
          · exact hs.b_idx g hg
          · rw [List.mem_singleton.mp hg]; exact hj.ge
        booked := List.rel_append hs.booked
          (.cons ⟨rfl, rfl, Nat.pos_of_ne_zero h0, hu, hc,
            fun hk => Nat.pos_of_ne_zero (hB hk ▸ hB0)⟩ .nil)
        last := by
          intro p q hpq
          have hpq : s.lastCross = some (p, q) := hpq
          rw [hl] at hpq
          cases hpq
          refine ⟨i, j, rfl, rfl, hc, fun f hf => ?_, fun g hg => ?_⟩
          · rcases List.mem_append.mp hf with hf | hf
            · exact Fin.le_def.mpr (hi ▸ hs.a_idx f hf)
            · rw [List.mem_singleton.mp hf]
          · rcases List.mem_append.mp hg with hg | hg
            · exact Fin.le_def.mpr (hj ▸ hs.b_idx g hg)
            · rw [List.mem_singleton.mp hg] }
      refine key.skip ?_ ?_
      · show s.i ≤ _
        split <;> omega
      · show s.j ≤ _
        split <;> omega

/-- At heads that cross, the iteration meets them. -/
theorem turn_of_crosses {s : MatchState aToB bToA} {i : Fin aToB.length} {j : Fin bToA.length}
    (hi : s.i = i) (hj : s.j = j) (hc : Crosses (aToB.get i) (bToA.get j)) :
    turn aToB bToA s =
      some (meet (s.cross (aToB.get i).limitPrice (bToA.get j).limitPrice) rfl i j) := by
  obtain ⟨_, j₀, ar, br, fa, fb, lc, cr⟩ := s
  subst hi hj
  rw [turn, dif_pos ⟨i.2, j.2⟩]
  exact if_pos hc

/-- At heads that do not, the loop is left. -/
theorem turn_of_not_crosses {s : MatchState aToB bToA} {i : Fin aToB.length}
    {j : Fin bToA.length} (hi : s.i = i) (hj : s.j = j)
    (hc : ¬ Crosses (aToB.get i) (bToA.get j)) : turn aToB bToA s = none := by
  obtain ⟨_, j₀, ar, br, fa, fb, lc, cr⟩ := s
  subst hi hj
  rw [turn, dif_pos ⟨i.2, j.2⟩]
  exact if_neg hc

/-- What a step of the loop is: the heads exist and cross, and the iteration meets them. -/
theorem turn_eq_some {s s' : MatchState aToB bToA} (h : turn aToB bToA s = some s') :
    ∃ (i : Fin aToB.length) (j : Fin bToA.length), s.i = i ∧ s.j = j ∧
      Crosses (aToB.get i) (bToA.get j) ∧
      meet (s.cross (aToB.get i).limitPrice (bToA.get j).limitPrice) rfl i j = s' := by
  simp only [turn] at h
  split at h
  case isFalse => cases h
  case isTrue hij =>
    split at h
    case isFalse => cases h
    case isTrue hc => exact ⟨⟨s.i, hij.1⟩, ⟨s.j, hij.2⟩, rfl, rfl, hc, Option.some.inj h⟩

/-- The same, with what the iteration did. -/
theorem turn_met {s s' : MatchState aToB bToA} (hs : Ledger s) (h : turn aToB bToA s = some s') :
    ∃ (i : Fin aToB.length) (j : Fin bToA.length), s.i = i ∧ s.j = j ∧
      Crosses (aToB.get i) (bToA.get j) ∧
      Met (s.cross (aToB.get i).limitPrice (bToA.get j).limitPrice) rfl i j s' := by
  obtain ⟨i, j, hi, hj, hc, rfl⟩ := turn_eq_some h
  exact ⟨i, j, hi, hj, hc, meet_cases rfl i j (hs.a_le i) (hs.b_le j)⟩

/-- **Every iteration keeps the ledger.** -/
theorem ledger_turn {s s' : MatchState aToB bToA} (hs : Ledger s)
    (h : turn aToB bToA s = some s') : Ledger s' := by
  obtain ⟨i, j, hi, hj, hc, hm⟩ := turn_met hs h
  exact ledger_met (hs.cross hi hj hc) hi hj hc rfl hm

/-- **The ledger holds after the loop.** -/
theorem ledger_fillLoop (aToB bToA : List Order) : Ledger (fillLoop aToB bToA) :=
  Loop.run_inv (fun _ _ hs h => ledger_turn hs h) _ _ (ledger_init aToB bToA)

/-! ### The loop ends -/

/-- What is left to do: the orders ahead of the two pointers and the A that remains. -/
def turnMeasure (s : MatchState aToB bToA) : Nat :=
  (aToB.length - s.i) + (bToA.length - s.j) + s.aRemaining.toList.sum

/-- **Every iteration lowers the measure.**  It moves a pointer, or it sells some A. -/
theorem turn_measure_lt {s s' : MatchState aToB bToA} (hs : Ledger s)
    (h : turn aToB bToA s = some s') : turnMeasure s' < turnMeasure s := by
  obtain ⟨i, j, hi, hj, -, hm⟩ := turn_met hs h
  have hi' := i.2
  have hj' := j.2
  cases hm with
  | spent _ => simp only [turnMeasure, MatchState.cross]; omega
  | dust _ _ => simp only [turnMeasure, MatchState.cross]; omega
  | killA _ _ _ => simp only [turnMeasure, MatchState.cross]; omega
  | killB _ _ _ _ _ => simp only [turnMeasure, MatchState.cross]; omega
  | filled t u ht h0 _ _ _ =>
      have ht : t ≤ s.aRemaining.get i := by
        change t = min (s.aRemaining.get i) _ at ht
        omega
      have hsum : (s.aRemaining.set i (s.aRemaining.get i - t) i.2).toList.sum +
          s.aRemaining.get i = s.aRemaining.toList.sum + (s.aRemaining.get i - t) := by
        have := sum_set_add (i := i) (x := s.aRemaining.get i - t) (l := s.aRemaining.toList)
          (by simp)
        have hget : s.aRemaining.get i = s.aRemaining[i.1] := rfl
        simpa [Vector.toList_set, hget] using this
      have hi'' : s.i ≤ if s.aRemaining.get i - t = 0 then s.i + 1 else s.i := by split <;> omega
      have hj'' : s.j ≤ if s.bRemaining.get j - u = 0 then s.j + 1 else s.j := by split <;> omega
      change aToB.length - (if s.aRemaining.get i - t = 0 then s.i + 1 else s.i) +
        (bToA.length - if s.bRemaining.get j - u = 0 then s.j + 1 else s.j) +
          (s.aRemaining.set i (s.aRemaining.get i - t) i.2).toList.sum < _
      simp only [turnMeasure]
      omega

/-- **The loop is left of its own accord**: the bound on its iterations is never reached. -/
theorem fillLoop_left (aToB bToA : List Order) : turn aToB bToA (fillLoop aToB bToA) = none := by
  refine Loop.run_halts (P := Ledger) (fun _ _ hs h => ledger_turn hs h)
    (fun _ _ hs h => turn_measure_lt hs h) _ _ (ledger_init aToB bToA) ?_
  simp [turnMeasure, fillBound, MatchState.init, sellAmounts]

end OxDex
