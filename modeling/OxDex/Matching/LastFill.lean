import OxDex.Matching.Executions
import OxDex.Matching.Iterations
import OxDex.Matching.Priority

/-!
# Matching — LastFill

Which orders a solution can leave with an empty trade.

An order that is sold out gets what it asks for, at least.  A B→A order that has too little B left
to buy an A has sold for more than what it asks for less one unit, and one that asks for one unit is
sold out by any fill.  So of the filled orders of a pair only one that the loop leaves with
something to trade can have sold for less than a unit, and that is a head of the last fill
(`LastFill.last_or_passed_ab`).  No trade of a solution is empty if and only if, in each pair, a
head that the last fill leaves with something to trade has a unit's worth sold (`noEmpty_iff`).
-/

namespace OxDex
open Support

/-! ### The last fill -/

section
variable {aToB bToA : List Order}

/-- The iteration at the heads `i` and `j` of `s` books the last fill of the loop. -/
structure LastFill (s : MatchState aToB bToA) (i : Fin aToB.length) (j : Fin bToA.length) :
    Prop where
  visits : Loop.Visits (turn aToB bToA) (.init aToB bToA) s
  books : s.Books i j
  ab : (fillLoop aToB bToA).fillsAb = s.fillsAb ++ [⟨i, s.tradeA i j, s.tradeB i j⟩]
  ba : (fillLoop aToB bToA).fillsBa = s.fillsBa ++ [⟨j, s.tradeB i j, s.tradeA i j⟩]

/-- Wherever the loop comes with fills, an iteration has booked the last of them. -/
theorem last_visited {s : MatchState aToB bToA}
    (h : Loop.Visits (turn aToB bToA) (.init aToB bToA) s) (hf : s.fillsAb ≠ []) :
    ∃ (s₀ : MatchState aToB bToA) (i : Fin aToB.length) (j : Fin bToA.length),
      Loop.Visits (turn aToB bToA) (.init aToB bToA) s₀ ∧ s₀.Books i j ∧
        s.fillsAb = s₀.fillsAb ++ [⟨i, s₀.tradeA i j, s₀.tradeB i j⟩] ∧
        s.fillsBa = s₀.fillsBa ++ [⟨j, s₀.tradeB i j, s₀.tradeA i j⟩] := by
  induction h with
  | start => exact absurd rfl hf
  | @next s s' hv ht ih =>
      rcases turn_books (ledger_visits hv) ht with ⟨ha, hb⟩ | ⟨i, j, hbook, ha, hb⟩
      · rw [ha, hb]
        exact ih (ha ▸ hf)
      · exact ⟨s, i, j, hv, hbook, ha, hb⟩

/-- **A loop that ends with fills has a last fill.** -/
theorem exists_lastFill (hf : (fillLoop aToB bToA).fillsAb ≠ []) :
    ∃ (s : MatchState aToB bToA) (i : Fin aToB.length) (j : Fin bToA.length), LastFill s i j := by
  obtain ⟨s, i, j, hv, hbook, ha, hb⟩ := last_visited (Loop.Visits.run _ .start) hf
  exact ⟨s, i, j, hv, hbook, ha, hb⟩

/-- Of fills up to the last one's order, any is of that order or of one before the end. -/
theorem last_or_before {n e : Nat} {fills : List (Fill n)} {l : Fill n}
    (hle : ∀ f ∈ fills, f.idx.val ≤ l.idx.val) (he : l.idx.val ≤ e) {f : Fill n}
    (hf : f ∈ fills ++ [l]) : f.idx.val < e ∨ f.idx = l.idx := by
  rcases List.mem_append.mp hf with hf | hf
  · rcases (hle f hf).lt_or_eq with hlt | heq
    · exact .inl (hlt.trans_le he)
    · exact .inr (Fin.ext heq)
  · exact .inr (List.mem_singleton.mp hf ▸ rfl)

namespace LastFill

variable {s : MatchState aToB bToA} {i : Fin aToB.length} {j : Fin bToA.length}
  (h : LastFill s i j)
include h

theorem ne_nil : (fillLoop aToB bToA).fillsAb ≠ [] := by
  rw [h.ab]
  exact List.concat_ne_nil _ _

/-- What its A→B head has sold with it. -/
theorem sold_ab : soldOf (fillLoop aToB bToA).fillsAb i =
    (aToB.get i).sellAmount.toNat - s.aRemaining.get i + s.tradeA i j := by
  have hsum := (ledger_visits h.visits).a_sum i
  rw [h.ab, soldOf_concat, if_pos rfl]
  show soldOf s.fillsAb i + s.tradeA i j = _
  omega

/-- What its B→A head has sold with it. -/
theorem sold_ba : soldOf (fillLoop aToB bToA).fillsBa j =
    (bToA.get j).sellAmount.toNat - s.bRemaining.get j + s.tradeB i j := by
  have hsum := (ledger_visits h.visits).b_sum j
  rw [h.ba, soldOf_concat, if_pos rfl]
  show soldOf s.fillsBa j + s.tradeB i j = _
  omega

/-- Where the last fill takes all that is left of its A→B head, this is sold out. -/
theorem soldOut_ab (heq : s.tradeA i j = s.aRemaining.get i) :
    soldOf (fillLoop aToB bToA).fillsAb i = (aToB.get i).sellAmount.toNat := by
  have hsum := (ledger_visits h.visits).a_sum i
  have hsold := h.sold_ab
  omega

/-- What the loop leaves of the B→A head is what the last fill leaves. -/
theorem bRemaining_eq : (fillLoop aToB bToA).bRemaining.get j =
    s.bRemaining.get j - s.tradeB i j := by
  have hsum := (ledger_visits h.visits).b_sum j
  have hend := (ledger_fillLoop aToB bToA).b_sum j
  have hle := tradeB_le (ledger_visits h.visits) i j
  have hsold := h.sold_ba
  omega

/-- **A filled A→B order that the loop has not passed** is the head of the last fill. -/
theorem last_or_passed_ab {f : Fill aToB.length} (hf : f ∈ (fillLoop aToB bToA).fillsAb) :
    f.idx.val < (fillLoop aToB bToA).i ∨ f.idx = i := by
  have hi := (ledger_fillLoop aToB bToA).a_idx ⟨i, s.tradeA i j, s.tradeB i j⟩
    (h.ab ▸ List.mem_append_right _ (List.mem_singleton_self _))
  rw [h.ab] at hf
  exact last_or_before (fun f hf => h.books.headA ▸ (ledger_visits h.visits).a_idx f hf) hi hf

/-- **A filled B→A order that the loop has not passed** is the head of the last fill. -/
theorem last_or_passed_ba {g : Fill bToA.length} (hg : g ∈ (fillLoop aToB bToA).fillsBa) :
    g.idx.val < (fillLoop aToB bToA).j ∨ g.idx = j := by
  have hj := (ledger_fillLoop aToB bToA).b_idx ⟨j, s.tradeB i j, s.tradeA i j⟩
    (h.ba ▸ List.mem_append_right _ (List.mem_singleton_self _))
  rw [h.ba] at hg
  exact last_or_before (fun g hg => h.books.headB ▸ (ledger_visits h.visits).b_idx g hg) hj hg

end LastFill

end

/-! ### What is worth a unit -/

section
variable {x y o : Order} (hx : x.WellFormed) (hy : y.WellFormed) (ho : o.WellFormed)
  (hc : Crosses x y) {sold : Nat} (hs : sold ≤ o.sellAmount.toNat)
  (hw : o.sellAmount.toNat ≤ sold * o.buyAmount.toNat)
include hx hy ho hc hs hw

/-- What is worth a unit at an A→B order's own limit is worth one at the price. -/
theorem worth_ab (hl : o.limitPrice ≤ x.limitPrice) :
    Worth (clearingPrice x.limitPrice y.limitPrice) sold := by
  rw [← apply_pos_iff]
  exact (Nat.div_pos hw ho.sell_pos).trans_le (apply_clearingPrice_ge hx hy ho hc hs hl)

/-- What is worth a unit at a B→A order's own limit is worth one at the price. -/
theorem worth_ba (hl : o.limitPrice ≤ y.limitPrice) :
    Worth (reciprocal (clearingPrice x.limitPrice y.limitPrice)) sold := by
  rcases Nat.lt_or_ge u128Max (2 * (x.sellAmount.toNat * y.buyAmount.toNat)) with hbig | hfit
  · -- the price saturates, and a unit of B is worth a unit of A
    have hnum : (reciprocal (clearingPrice x.limitPrice y.limitPrice)).num = u128Max :=
      (clearing_den_eq hx hy).trans (min_eq_right hbig.le)
    have hpos : 0 < sold := by
      by_contra h0
      rw [Nat.eq_zero_of_not_pos h0, Nat.zero_mul] at hw
      exact absurd ho.sell_pos (not_lt.mpr hw)
    rw [Worth, hnum]
    exact (Price.den_le _).trans (Nat.le_mul_of_pos_left _ hpos)
  · rw [← apply_pos_iff]
    exact (Nat.div_pos hw ho.sell_pos).trans_le
      (apply_reciprocal_ge hx hy ho hc hs hl fun _ => hfit)

end

section
variable {orders : List SignedOrder} {m : Address × Address}

/-- A passed A→B order with a fill has sold a unit's worth at its own limit: all it sells. -/
theorem passed_pays_ab (hv : Validated orders) {f : Fill (abSide orders m).length}
    (hf : f ∈ (pairFills orders m).fillsAb) (hp : f.idx.val < (pairFills orders m).i) :
    ((abSide orders m).get f.idx).sellAmount.toNat ≤
      soldOf (pairFills orders m).fillsAb f.idx *
        ((abSide orders m).get f.idx).buyAmount.toNat := by
  have ho := hv.wellFormed (mem_abSide (List.get_mem (abSide orders m) f.idx)).1
  have hsold : soldOf (pairFills orders m).fillsAb f.idx =
      ((abSide orders m).get f.idx).sellAmount.toNat := by
    cases hk : ((abSide orders m).get f.idx).partialFill with
    | false => exact soldOf_ab_kill hf hk
    | true =>
        have hrem := (passed orders m).a f.idx hp hk
        have hsum := (ledger orders m).a_sum f.idx
        omega
  rw [hsold]
  exact Nat.le_mul_of_pos_right _ ho.buy_pos

/-- **A filled B→A order whose rest buys no A** has sold a unit's worth at its own limit: what it has
left is worth less than a unit, and an order that asks for a single unit is sold out. -/
theorem dust_pays (hv : Validated orders) {g : Fill (baSide orders m).length}
    (hg : g ∈ (pairFills orders m).fillsBa)
    (hcap : aCapacity ((baSide orders m).get g.idx)
      ((pairFills orders m).bRemaining.get g.idx) = 0) :
    ((baSide orders m).get g.idx).sellAmount.toNat ≤
      soldOf (pairFills orders m).fillsBa g.idx *
        ((baSide orders m).get g.idx).buyAmount.toNat := by
  have ho := hv.wellFormed (mem_baSide (List.get_mem (baSide orders m) g.idx)).1
  have hsum := (ledger orders m).b_sum g.idx
  rcases Nat.lt_or_ge ((baSide orders m).get g.idx).buyAmount.toNat 2 with h1 | h2
  · -- any fill of an order that asks for one unit sells it out
    have hbuy : ((baSide orders m).get g.idx).buyAmount.toNat = 1 := by
      have := ho.buy_pos
      omega
    obtain ⟨f, hf, hb⟩ := partner_left (ledger orders m).booked.flip hg
    have hu : g.sold = f.sold * ((baSide orders m).get g.idx).sellAmount.toNat := by
      rw [hb.sold_eq, hb.price,
        bookedB_eq ((le_soldOf hf).trans (soldOf_ab_u64 _)), hbuy, Nat.max_self, Nat.div_one]
    have hle := le_soldOf hg
    have hpos := Nat.le_mul_of_pos_left ((baSide orders m).get g.idx).sellAmount.toNat hb.pos
    rw [hbuy, Nat.mul_one]
    omega
  · rw [aCapacity_eq ((ledger orders m).b_le g.idx), max_eq_left ho.sell_pos,
      Nat.div_eq_zero_iff_lt ho.sell_pos] at hcap
    have hmul := Nat.mul_le_mul_left ((baSide orders m).get g.idx).sellAmount.toNat h2
    have hsplit := congrArg (· * ((baSide orders m).get g.idx).buyAmount.toNat) hsum
    simp only [Nat.add_mul] at hsplit
    omega

/-- A passed B→A order with a fill has sold a unit's worth at its own limit. -/
theorem passed_pays_ba (hv : Validated orders) {g : Fill (baSide orders m).length}
    (hg : g ∈ (pairFills orders m).fillsBa) (hp : g.idx.val < (pairFills orders m).j) :
    ((baSide orders m).get g.idx).sellAmount.toNat ≤
      soldOf (pairFills orders m).fillsBa g.idx *
        ((baSide orders m).get g.idx).buyAmount.toNat := by
  cases hk : ((baSide orders m).get g.idx).partialFill with
  | false =>
      have ho := hv.wellFormed (mem_baSide (List.get_mem (baSide orders m) g.idx)).1
      rw [soldOf_ba_kill hg hk]
      exact Nat.le_mul_of_pos_right _ ho.buy_pos
  | true => exact dust_pays hv hg ((passed orders m).b g.idx hp hk)

end

/-! ### No empty execution -/

/-- A head that the last fill of a pair leaves with something to trade has sold for a unit with it,
at the midpoint of the limits that crossed last. -/
def LastFillPays (orders : List SignedOrder) (m : Address × Address) : Prop :=
  ∀ (s : MatchState (abSide orders m) (baSide orders m)) i j, LastFill s i j →
    ∀ x y, CrossedLast orders m x y →
      (s.tradeA i j < s.aRemaining.get i → Worth (clearingPrice x.limitPrice y.limitPrice)
        (((abSide orders m).get i).sellAmount.toNat - s.aRemaining.get i + s.tradeA i j)) ∧
      (aCapacity ((baSide orders m).get j) (s.bRemaining.get j - s.tradeB i j) ≠ 0 →
        Worth (reciprocal (clearingPrice x.limitPrice y.limitPrice))
          (((baSide orders m).get j).sellAmount.toNat - s.bRemaining.get j + s.tradeB i j))

/-- **No empty execution**, if and only if the last fill of each pair leaves no head, that has
something left to trade, with less than a unit's worth sold. -/
theorem noEmpty_iff (P : Primitives) (env : HashOrders) (cfg : MatcherConfig) (id : BatchId)
    (solver : Address) {orders : List SignedOrder} (hv : Validated orders) :
    NoEmpty (matchBatch P env cfg id solver orders) ↔ ∀ m, LastFillPays orders m := by
  rw [noEmpty_iff_worth]
  constructor
  · intro h m s i j hl x y hxy
    have hne : (pairFills orders m).fillsAb ≠ [] := hl.ne_nil
    rw [← hl.sold_ab, ← hl.sold_ba, ← hxy.price_eq hne]
    have hab : ⟨i, s.tradeA i j, s.tradeB i j⟩ ∈ (pairFills orders m).fillsAb :=
      hl.ab ▸ List.mem_append_right _ (List.mem_singleton_self _)
    have hba : ⟨j, s.tradeB i j, s.tradeA i j⟩ ∈ (pairFills orders m).fillsBa :=
      hl.ba ▸ List.mem_append_right _ (List.mem_singleton_self _)
    exact ⟨fun _ => h _ _ _ ⟨m, hne, .inl ⟨_, hab, rfl, rfl, rfl⟩⟩,
      fun _ => h _ _ _ ⟨m, hne, .inr ⟨_, hba, rfl, rfl, rfl⟩⟩⟩
  · rintro h o price sold ⟨m, hne, hside⟩
    obtain ⟨s, i, j, hl⟩ := exists_lastFill hne
    obtain ⟨x, y, hxy, hc, hxs, hys⟩ := exists_crossedLast hne
    have hx := hv.wellFormed (mem_abSide hxy.1).1
    have hy := hv.wellFormed (mem_baSide hxy.2.1).1
    obtain ⟨hpayA, hpayB⟩ := h m s i j hl x y hxy
    rw [← hl.sold_ab] at hpayA
    rw [← hl.sold_ba] at hpayB
    rw [hxy.price_eq hne] at hside
    rcases hside with ⟨f, hf, rfl, rfl, rfl⟩ | ⟨g, hg, rfl, rfl, rfl⟩
    · have ho := hv.wellFormed (mem_abSide (List.get_mem (abSide orders m) f.idx)).1
      rcases hl.last_or_passed_ab hf with hp | rfl
      · exact worth_ab hx hy ho hc (soldOf_ab_le _) (passed_pays_ab hv hf hp) (hxs f hf)
      · rcases (tradeA_le f.idx j).lt_or_eq with hlt | heq
        · exact hpayA hlt
        · exact worth_ab hx hy ho hc (soldOf_ab_le _)
            ((hl.soldOut_ab heq).ge.trans (Nat.le_mul_of_pos_right _ ho.buy_pos)) (hxs f hf)
    · have ho := hv.wellFormed (mem_baSide (List.get_mem (baSide orders m) g.idx)).1
      rcases hl.last_or_passed_ba hg with hp | rfl
      · exact worth_ba hx hy ho hc (soldOf_ba_le _) (passed_pays_ba hv hg hp) (hys g hg)
      · by_cases hcap : aCapacity ((baSide orders m).get g.idx)
          (s.bRemaining.get g.idx - s.tradeB i g.idx) = 0
        · rw [← hl.bRemaining_eq] at hcap
          exact worth_ba hx hy ho hc (soldOf_ba_le _) (dust_pays hv hg hcap) (hys g hg)
        · exact hpayB hcap

section
open Sample

/-- alice's 150 and bob's 200: the last fill is the only one, and pays both. -/
theorem noEmpty_iff_two : LastFillPays [sign alice150, sign bob200] alice150.pair :=
  (noEmpty_iff primitives .insertion ⟨true⟩ ⟨.replicate 16 0⟩ .zero
    (fun s hs => ⟨0, by revert s; decide +kernel⟩)).mp (by unfold NoEmpty; decide +kernel) _

end

end OxDex
