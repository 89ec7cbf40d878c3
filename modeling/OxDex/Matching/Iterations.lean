import OxDex.Matching.Clearing

/-!
# Matching — Iterations

What the fill loop does at any iteration, on any list of orders, valid or not.

The states the loop passes through are `Loop.Visits`, and the ledger holds at all of them
(`ledger_visits`).  So no iteration debits more than remains (`Ledger.exactDebits`), one that rolls
its fill back leaves remainders and fills as they were (`rollsBack_turn`), and one that books it
adds it to those of the iterations before (`turn_books`, `books_turn`).  Over the batch: no
trade sells more than its order offers and no order is named twice (`no_overfill`), and an order
that forbids partial fills trades all it sells (`fill_or_kill`).
-/

namespace OxDex
open Support

variable {aToB bToA : List Order}

namespace MatchState

/-- `trade_a`, at the heads `i` and `j`. -/
def tradeA (s : MatchState aToB bToA) (i : Fin aToB.length) (j : Fin bToA.length) : Nat :=
  min (s.aRemaining.get i) (aCapacity (bToA.get j) (s.bRemaining.get j))

/-- `trade_b`, at the heads `i` and `j`. -/
def tradeB (s : MatchState aToB bToA) (i : Fin aToB.length) (j : Fin bToA.length) : Nat :=
  bookedB (bToA.get j) (s.tradeA i j)

/-- The saturating operations on the remainders are exact at the heads: subtracting takes no more
than there is, and adding back gives what there was. -/
structure ExactDebits (s : MatchState aToB bToA) : Prop where
  a_le : ∀ i j, s.i = i.val → s.j = j.val → s.tradeA i j ≤ s.aRemaining.get i
  b_le : ∀ i j, s.i = i.val → s.j = j.val → s.tradeB i j ≤ s.bRemaining.get j
  a_back : ∀ i j, s.i = i.val → s.j = j.val →
    satAdd (s.aRemaining.get i - s.tradeA i j) (s.tradeA i j) = s.aRemaining.get i
  b_back : ∀ i j, s.i = i.val → s.j = j.val →
    satAdd (s.bRemaining.get j - s.tradeB i j) (s.tradeB i j) = s.bRemaining.get j

/-- The fill at the heads leaves an order partially filled that forbids it. -/
def RollsBack (s : MatchState aToB bToA) (i : Fin aToB.length) (j : Fin bToA.length) : Prop :=
  s.tradeA i j ≠ 0 ∧
    ((aToB.get i).partialFill = false ∧ s.aRemaining.get i - s.tradeA i j ≠ 0 ∨
      (bToA.get j).partialFill = false ∧ s.bRemaining.get j - s.tradeB i j ≠ 0)

/-- The iteration at the heads `i` and `j` books their fill. -/
structure Books (s : MatchState aToB bToA) (i : Fin aToB.length) (j : Fin bToA.length) :
    Prop where
  headA : s.i = i.val
  headB : s.j = j.val
  crosses : Crosses (aToB.get i) (bToA.get j)
  trades : s.tradeA i j ≠ 0
  stands : ¬ s.RollsBack i j

/-- Both remainders and both fill lists are the same. -/
structure SameBooks (s s' : MatchState aToB bToA) : Prop where
  aRemaining : s'.aRemaining = s.aRemaining
  bRemaining : s'.bRemaining = s.bRemaining
  fillsAb : s'.fillsAb = s.fillsAb
  fillsBa : s'.fillsBa = s.fillsBa

end MatchState

/-- **The ledger holds wherever the loop comes.** -/
theorem ledger_visits {s : MatchState aToB bToA}
    (h : Loop.Visits (turn aToB bToA) (.init aToB bToA) s) : Ledger s :=
  h.inv (fun _ _ hs ht => ledger_turn hs ht) (ledger_init aToB bToA)

section
variable {s : MatchState aToB bToA} (hs : Ledger s) (i : Fin aToB.length) (j : Fin bToA.length)

theorem tradeA_le : s.tradeA i j ≤ s.aRemaining.get i := Nat.min_le_left _ _

include hs

theorem tradeB_le : s.tradeB i j ≤ s.bRemaining.get j := by
  rw [MatchState.tradeB]
  by_cases h0 : s.tradeA i j = 0
  · rw [h0, bookedB_eq (Nat.zero_le _), Nat.zero_mul, Nat.zero_div]
    exact Nat.zero_le _
  · exact bookedB_le (hs.b_le j) ((tradeA_le i j).trans (hs.a_le i)) (Nat.min_le_right _ _) h0

/-- **Every debit is covered**, and adding it back restores the remainder. -/
theorem Ledger.exactDebits : s.ExactDebits where
  a_le := fun i j _ _ => tradeA_le i j
  b_le := fun i j _ _ => tradeB_le hs i j
  a_back := fun i j _ _ => satAdd_sub (tradeA_le i j) (hs.a_le i)
  b_back := fun i j _ _ => satAdd_sub (tradeB_le hs i j) (hs.b_le j)

/-- **A fill that is rolled back leaves no trace** in the remainders and the fills. -/
theorem rollsBack_turn {s' : MatchState aToB bToA} (hi : s.i = i.val) (hj : s.j = j.val)
    (hr : s.RollsBack i j) (ht : turn aToB bToA s = some s') : s.SameBooks s' := by
  obtain ⟨i', j', hi', hj', -, hm⟩ := turn_met hs ht
  obtain rfl : i' = i := Fin.ext (hi'.symm.trans hi)
  obtain rfl : j' = j := Fin.ext (hj'.symm.trans hj)
  cases hm with
  | spent _ => exact ⟨rfl, rfl, rfl, rfl⟩
  | dust _ _ => exact ⟨rfl, rfl, rfl, rfl⟩
  | killA _ _ _ => exact ⟨rfl, rfl, rfl, rfl⟩
  | killB _ _ _ _ _ => exact ⟨rfl, rfl, rfl, rfl⟩
  | filled t u htr _ hu hA hB =>
      -- a fill that stands has sold out the orders that forbid partial fills
      have htr : t = s.tradeA i' j' := htr
      have hu : u = s.tradeB i' j' := by rw [hu, htr]; rfl
      rcases hr.2 with ⟨hp, hne⟩ | ⟨hp, hne⟩
      · have hA : t = s.aRemaining.get i' := hA hp
        exact absurd (by omega) hne
      · have hB : u = s.bRemaining.get j' := hB hp
        exact absurd (by omega) hne

variable {i j} in
/-- An iteration that books the fill of its heads adds it to both lists. -/
theorem books_turn (hb : s.Books i j) : ∃ s', turn aToB bToA s = some s' ∧
    s'.fillsAb = s.fillsAb ++ [⟨i, s.tradeA i j, s.tradeB i j⟩] ∧
      s'.fillsBa = s.fillsBa ++ [⟨j, s.tradeB i j, s.tradeA i j⟩] := by
  obtain ⟨s', ht⟩ : ∃ s', turn aToB bToA s = some s' :=
    ⟨_, turn_of_crosses hb.headA hb.headB hb.crosses⟩
  obtain ⟨i', j', hi, hj, -, hm⟩ := turn_met hs ht
  obtain rfl : i' = i := Fin.ext (hi.symm.trans hb.headA)
  obtain rfl : j' = j := Fin.ext (hj.symm.trans hb.headB)
  refine ⟨s', ht, ?_⟩
  have h0 := hb.trades
  cases hm with
  | spent ha => exact absurd (Nat.eq_zero_of_le_zero ((tradeA_le i' j').trans ha.le)) h0
  | dust _ hc => exact absurd (Nat.eq_zero_of_le_zero ((Nat.min_le_right _ _).trans hc.le)) h0
  | killA _ hp hlt =>
      refine absurd ⟨h0, .inl ⟨hp, ?_⟩⟩ hb.stands
      exact (Nat.sub_pos_of_lt ((Nat.min_le_right _ _).trans_lt hlt)).ne'
  | killB t htr _ hp hlt =>
      obtain rfl : t = s.tradeA i' j' := htr
      exact absurd ⟨h0, .inr ⟨hp, (Nat.sub_pos_of_lt hlt).ne'⟩⟩ hb.stands
  | filled t u htr _ hu _ _ =>
      obtain rfl : t = s.tradeA i' j' := htr
      exact ⟨by rw [hu]; rfl, by rw [hu]; rfl⟩

/-- **What an iteration does to the fills**: it books that of its heads, or leaves them. -/
theorem turn_books {s' : MatchState aToB bToA} (ht : turn aToB bToA s = some s') :
    (s'.fillsAb = s.fillsAb ∧ s'.fillsBa = s.fillsBa) ∨
      ∃ i j, s.Books i j ∧ s'.fillsAb = s.fillsAb ++ [⟨i, s.tradeA i j, s.tradeB i j⟩] ∧
        s'.fillsBa = s.fillsBa ++ [⟨j, s.tradeB i j, s.tradeA i j⟩] := by
  obtain ⟨i, j, hi, hj, hc, hm⟩ := turn_met hs ht
  cases hm with
  | spent _ | dust _ _ | killA _ _ _ | killB _ _ _ _ _ => exact .inl ⟨rfl, rfl⟩
  | filled t u htr h0 hu hA hB =>
      obtain rfl : t = s.tradeA i j := htr
      obtain rfl : u = s.tradeB i j := hu
      refine .inr ⟨i, j, ⟨hi, hj, hc, h0, ?_⟩, rfl, rfl⟩
      rintro ⟨-, ⟨hp, hne⟩ | ⟨hp, hne⟩⟩
      · exact hne (Nat.sub_eq_zero_of_le (hA hp).ge)
      · exact hne (Nat.sub_eq_zero_of_le (hB hp).ge)

end

/-- No iteration takes a fill back. -/
theorem fills_kept {s : MatchState aToB bToA}
    (hv : Loop.Visits (turn aToB bToA) (.init aToB bToA) s) :
    s.fillsAb <+: (fillLoop aToB bToA).fillsAb ∧ s.fillsBa <+: (fillLoop aToB bToA).fillsBa := by
  have he := hv.ends (Loop.ends_run (fillLoop_left aToB bToA))
  refine (Loop.Ends.inv (P := fun s' => Ledger s' ∧ s.fillsAb <+: s'.fillsAb ∧
    s.fillsBa <+: s'.fillsBa) ?_ he ⟨ledger_visits hv, List.prefix_rfl, List.prefix_rfl⟩).2
  rintro s₁ s₂ ⟨hs, ha, hb⟩ ht
  refine ⟨ledger_turn hs ht, ?_⟩
  rcases turn_books hs ht with ⟨h₁, h₂⟩ | ⟨i, j, -, h₁, h₂⟩
  · rw [h₁, h₂]
    exact ⟨ha, hb⟩
  · rw [h₁, h₂]
    exact ⟨ha.trans (List.prefix_append _ _), hb.trans (List.prefix_append _ _)⟩

section
variable (P : Primitives) (env : HashOrders) (cfg : MatcherConfig) (id : BatchId)
  (solver : Address) (orders : List SignedOrder)

/-- **No overfill, no duplicate, no stranger.**  Every trade names an order of the batch and sells
no more than it offers, no order is named twice, and no iteration debits more than remains. -/
theorem no_overfill (h : (orders.map fun s => s.order.id P).Nodup) :
    (∀ t ∈ (matchBatch P env cfg id solver orders).trades, ∃ s ∈ orders,
        t.orderId = s.order.id P ∧ t.executedSell ≤ s.order.sellAmount) ∧
      (matchBatch P env cfg id solver orders).orderIds.Nodup ∧
      ∀ m s, Loop.Visits (turn (abSide orders m) (baSide orders m)) (.init _ _) s →
        s.ExactDebits := by
  refine ⟨fun t ht => ?_, orderIds_nodup P env cfg id solver h,
    fun m s hv => (ledger_visits hv).exactDebits⟩
  obtain ⟨s, hs, hid, hle, -⟩ := mem_trades_order P env cfg id solver ht
  exact ⟨s, hs, hid.symm, UInt64.le_iff_toNat_le.mpr hle⟩

/-- **Fill or kill.**  The trade of an order that forbids partial fills sells all it offers, and a
fill that is rolled back leaves remainders and fills as they were. -/
theorem fill_or_kill (h : (orders.map fun s => s.order.id P).Nodup) :
    (∀ s ∈ orders, s.order.partialFill = false →
        ∀ t ∈ (matchBatch P env cfg id solver orders).trades, t.orderId = s.order.id P →
          t.executedSell = s.order.sellAmount) ∧
      ∀ m s s', Loop.Visits (turn (abSide orders m) (baSide orders m)) (.init _ _) s →
        turn (abSide orders m) (baSide orders m) s = some s' →
        ∀ i j, s.i = i.val → s.j = j.val → s.RollsBack i j → s.SameBooks s' := by
  refine ⟨fun s hs hp t ht hid => ?_,
    fun m s s' hv ht i j hi hj hr => rollsBack_turn (ledger_visits hv) i j hi hj hr ht⟩
  obtain ⟨s', hs', hid', -, hk⟩ := mem_trades_order P env cfg id solver ht
  have : s'.order = s.order := noCollision_of_nodup h s' hs' s hs (hid'.trans hid)
  rw [← this]
  exact hk (this ▸ hp)

end

namespace Sample

/-- Sells 100 A for at least 150 B, all or nothing. -/
def aliceAll : Order := { alice150 with partialFill := false }

/-- The traders' data and the digest of `aliceAll`. -/
def primitivesAll : Primitives :=
  { primitives with
    sha256 := fun m =>
      if m = Order.domainTag ++ aliceAll.bincode encodings then
        .ofNat 32 0x057372c08284bc2c4750873bb799d5eda03f3a2d9867c38796ad9b78fa2ca0cb
      else primitives.sha256 m }

end Sample

section
open Sample

/-- alice's 150 and bob's 200 against each other. -/
theorem no_overfill_two :
    (matchBatch primitives .insertion ⟨true⟩ ⟨.replicate 16 0⟩ .zero
      [sign alice150, sign bob200]).orderIds.Nodup :=
  (no_overfill primitives .insertion ⟨true⟩ ⟨.replicate 16 0⟩ .zero [sign alice150, sign bob200]
    (by decide +kernel)).2.1

/-- All of alice's 100 A are sold, for 175 B. -/
theorem fill_or_kill_all : (100 : UInt64) = aliceAll.sellAmount :=
  (fill_or_kill primitivesAll .insertion ⟨true⟩ ⟨.replicate 16 0⟩ .zero
    [⟨aliceAll, .replicate 64 0⟩, sign bob200] (by decide +kernel)).1
    ⟨aliceAll, .replicate 64 0⟩ List.mem_cons_self rfl
    ⟨aliceAll.id primitivesAll, 100, 175⟩ (by decide +kernel) rfl

end

end OxDex
