import OxDex.Matching.Mirror
import OxDex.Matching.Repricing

/-!
# Matching — Ties

What is left of the order in which orders arrive once the sides of a pair are sorted.

Two arrangements of a side (`Arranged`) have orders of one limit price at every index
(`Arranged.tied`), so they differ among tied orders only.  `Alike` relates the fill loop on two
arrangements of its sides: the pointers, the last crossing and the fills are the same, and so is
what remains of the orders that stand at one index in both.  An iteration whose heads do keeps it
(`alike_turn`); so where all heads that cross do, the loops end alike (`alike_fillLoop`).
-/

namespace OxDex
open Support

/-- Two orders with the same limit price, as the sort compares them. -/
def Tied (x y : Order) : Prop := x.limitPrice ≤ y.limitPrice ∧ y.limitPrice ≤ x.limitPrice

instance (x y : Order) : Decidable (Tied x y) := inferInstanceAs (Decidable (_ ∧ _))

theorem tied_iff {x y : Order} : Tied x y ↔ x.limitPrice.toRat = y.limitPrice.toRat := by
  rw [Tied, Price.le_iff_cross x.limitPrice_isU64 y.limitPrice_isU64,
    Price.le_iff_cross y.limitPrice_isU64 x.limitPrice_isU64, ← Price.toRat_le_iff,
    ← Price.toRat_le_iff, le_antisymm_iff]

theorem Tied.symm {x y : Order} (h : Tied x y) : Tied y x := ⟨h.2, h.1⟩

/-- Whether two orders cross is a matter of their limits. -/
theorem crosses_iff_toRat {x y : Order} :
    Crosses x y ↔ x.limitPrice.toRat * y.limitPrice.toRat ≤ 1 := by
  have hx := x.limitPrice_isU64
  have hy := y.limitPrice_isU64
  rw [Crosses, satMul_u64 hx.1 hy.1, satMul_u64 hx.2 hy.2, Price.toRat, Price.toRat,
    div_mul_div_comm, div_le_one (mul_pos (Nat.cast_pos.mpr x.limitPrice.den_pos)
      (Nat.cast_pos.mpr y.limitPrice.den_pos))]
  exact_mod_cast Iff.rfl

/-- Tied orders cross the same orders. -/
theorem Tied.crosses_congr {x x' y y' : Order} (hx : Tied x x') (hy : Tied y y') :
    Crosses x y ↔ Crosses x' y' := by
  rw [crosses_iff_toRat, crosses_iff_toRat, tied_iff.mp hx, tied_iff.mp hy]

/-! ### Arrangements of a side -/

/-- Two arrangements of one side, both sorted by limit price. -/
structure Arranged (side side' : List Order) : Prop where
  perm : side'.Perm side
  sorted : side.Pairwise fun x y => x.limitPrice ≤ y.limitPrice
  sorted' : side'.Pairwise fun x y => x.limitPrice ≤ y.limitPrice

theorem arranged_sortByLimit {side side' : List Order} (h : side'.Perm side) :
    Arranged (sortByLimit side) (sortByLimit side') where
  perm := (List.perm_insertionSort _ _).trans (h.trans (List.perm_insertionSort _ _).symm)
  sorted := sortByLimit_pairwise side
  sorted' := sortByLimit_pairwise side'

namespace Arranged

variable {side side' : List Order} (h : Arranged side side')
include h

theorem length_eq : side.length = side'.length := h.perm.length_eq.symm

/-- The limits stand in one order in both arrangements. -/
theorem limits_eq : side'.map (fun o => o.limitPrice.toRat) =
    side.map fun o => o.limitPrice.toRat := by
  have key : ∀ {l : List Order}, l.Pairwise (fun x y => x.limitPrice ≤ y.limitPrice) →
      (l.map fun o => o.limitPrice.toRat).Pairwise (· ≤ ·) := by
    intro l hl
    refine List.pairwise_map.mpr (hl.imp fun {x y} hxy => ?_)
    rw [Price.toRat_le_iff]
    exact (Price.le_iff_cross x.limitPrice_isU64 y.limitPrice_isU64).mp hxy
  exact (h.perm.map _).eq_of_pairwise' (key h.sorted') (key h.sorted)

/-- **The orders at one index are tied.** -/
theorem tied (k : Fin side.length) : Tied (side.get k) (side'.get (k.cast h.length_eq)) := by
  rw [tied_iff]
  have hk := List.get_of_eq h.limits_eq.symm ⟨k, by simp⟩
  simpa using hk

/-- An order no other is tied with stands at one index in both arrangements. -/
theorem get_eq {k : Fin side.length} (ha : ∀ l, Tied (side.get l) (side.get k) → l = k) :
    side'.get (k.cast h.length_eq) = side.get k := by
  obtain ⟨l, hl⟩ := List.get_of_mem (h.perm.mem_iff.mp (List.get_mem side' (k.cast h.length_eq)))
  rw [← hl, ha l (hl ▸ (h.tied k).symm)]

end Arranged

/-! ### Fills at other indices -/

/-- A fill of a side read as one of a side of the same length. -/
def Fill.cast {n n' : Nat} (h : n = n') (f : Fill n) : Fill n' := ⟨f.idx.cast h, f.sold, f.bought⟩

/-! ### Two loops in step -/

section
variable {xs ys xs' ys' : List Order}

/-- The fill loop on two arrangements of its sides, at the same place with the same fills.  `k` is
the same order in both where `xs'.get (k.cast _) = xs.get k`. -/
structure Alike (hx : xs.length = xs'.length) (hy : ys.length = ys'.length)
    (s : MatchState xs ys) (s' : MatchState xs' ys') : Prop where
  i : s'.i = s.i
  j : s'.j = s.j
  aRemaining : ∀ k, xs'.get (k.cast hx) = xs.get k →
    s'.aRemaining.get (k.cast hx) = s.aRemaining.get k
  bRemaining : ∀ k, ys'.get (k.cast hy) = ys.get k →
    s'.bRemaining.get (k.cast hy) = s.bRemaining.get k
  fillsAb : s'.fillsAb = s.fillsAb.map (Fill.cast hx)
  fillsBa : s'.fillsBa = s.fillsBa.map (Fill.cast hy)
  lastCross : s'.lastCross = s.lastCross
  sameAb : ∀ f ∈ s.fillsAb, xs'.get (f.idx.cast hx) = xs.get f.idx
  sameBa : ∀ g ∈ s.fillsBa, ys'.get (g.idx.cast hy) = ys.get g.idx

namespace Alike

variable {hx : xs.length = xs'.length} {hy : ys.length = ys'.length} {s : MatchState xs ys}
  {s' : MatchState xs' ys'}

/-- Before the loop. -/
theorem init : Alike hx hy (.init xs ys) (.init xs' ys') where
  i := rfl
  j := rfl
  aRemaining := fun k hk => by
    rw [MatchState.init, MatchState.init, get_sellAmounts, get_sellAmounts, hk]
  bRemaining := fun k hk => by
    rw [MatchState.init, MatchState.init, get_sellAmounts, get_sellAmounts, hk]
  fillsAb := rfl
  fillsBa := rfl
  lastCross := rfl
  sameAb := fun f hf => absurd hf List.not_mem_nil
  sameBa := fun g hg => absurd hg List.not_mem_nil

/-- What is alike mirrors. -/
theorem mirror (h : Alike hx hy s s') : Mirror (Fin.cast hx) (Fin.cast hy) s s' :=
  ⟨h.aRemaining, h.bRemaining, h.fillsAb, h.fillsBa⟩

/-- **An iteration at the same heads.** -/
theorem meet (h : Alike hx hy s s') {i : Fin xs.length} {j : Fin ys.length}
    (hi : xs'.get (i.cast hx) = xs.get i) (hj : ys'.get (j.cast hy) = ys.get j) (p q : Price) :
    Alike hx hy (OxDex.meet (s.cross p q) rfl i j)
      (OxDex.meet (s'.cross p q) rfl (i.cast hx) (j.cast hy)) := by
  have hm := (h.mirror.cross p q).meet (Fin.cast_injective hx) (Fin.cast_injective hy) hi hj rfl rfl
  obtain ⟨hab, hba⟩ := meet_fills (s.cross p q) i j rfl
  refine ⟨hm.i.eq h.i, hm.j.eq h.j, hm.mirror.aRemaining, hm.mirror.bRemaining, hm.mirror.fillsAb,
    hm.mirror.fillsBa, (meet_lastCross s' _ _ p q).trans (meet_lastCross s i j p q).symm,
    fun f hf => ?_, fun g hg => ?_⟩
  · rcases hab f hf with hf | e
    · exact h.sameAb f hf
    · rw [e]
      exact hi
  · rcases hba g hg with hg | e
    · exact h.sameBa g hg
    · rw [e]
      exact hj

end Alike

/-- The heads of every iteration stand at one index in both arrangements. -/
def SameHeads (hx : xs.length = xs'.length) (hy : ys.length = ys'.length) : Prop :=
  ∀ s, Loop.Visits (turn xs ys) (.init xs ys) s → ∀ (i : Fin xs.length) (j : Fin ys.length),
    s.i = i → s.j = j → Crosses (xs.get i) (ys.get j) →
      xs'.get (i.cast hx) = xs.get i ∧ ys'.get (j.cast hy) = ys.get j

section
variable (ha : Arranged xs xs') (hb : Arranged ys ys')

/-- **An iteration in step.** -/
theorem alike_turn (hs : SameHeads ha.length_eq hb.length_eq) (s : MatchState xs ys)
    (s' : MatchState xs' ys') (hv : Loop.Visits (turn xs ys) (.init xs ys) s)
    (h : Alike ha.length_eq hb.length_eq s s') :
    Option.Rel (Alike ha.length_eq hb.length_eq) (turn xs ys s) (turn xs' ys' s') := by
  have hx := ha.length_eq
  have hy := hb.length_eq
  have hi' : ∀ i : Fin xs.length, s.i = i → s'.i = i.cast hx := fun i hi => h.i.trans hi
  have hj' : ∀ j : Fin ys.length, s.j = j → s'.j = j.cast hy := fun j hj => h.j.trans hj
  by_cases hij : s.i < xs.length ∧ s.j < ys.length
  · obtain ⟨i, hi⟩ : ∃ i : Fin xs.length, s.i = i := ⟨⟨s.i, hij.1⟩, rfl⟩
    obtain ⟨j, hj⟩ : ∃ j : Fin ys.length, s.j = j := ⟨⟨s.j, hij.2⟩, rfl⟩
    have hcr := (ha.tied i).crosses_congr (hb.tied j)
    by_cases hc : Crosses (xs.get i) (ys.get j)
    · obtain ⟨hsi, hsj⟩ := hs s hv i j hi hj hc
      rw [turn_of_crosses hi hj hc, turn_of_crosses (hi' i hi) (hj' j hj) (hcr.mp hc), hsi, hsj]
      exact .some (h.meet hsi hsj _ _)
    · rw [turn_of_not_crosses hi hj hc, turn_of_not_crosses (hi' i hi) (hj' j hj) (mt hcr.mpr hc)]
      exact .none
  · rw [turn, dif_neg hij, turn, dif_neg (by rw [h.i, h.j, ← hx, ← hy]; exact hij)]
    exact .none

/-- The bound on the iterations is the same. -/
theorem Arranged.fillBound_eq (ha : Arranged xs xs') (hb : Arranged ys ys') :
    fillBound xs' ys' = fillBound xs ys := by
  rw [fillBound, fillBound, ha.length_eq, hb.length_eq, (ha.perm.map _).sum_eq]

/-- **The loop ends alike** on two arrangements with the same heads. -/
theorem alike_fillLoop (hs : SameHeads ha.length_eq hb.length_eq) :
    Alike ha.length_eq hb.length_eq (fillLoop xs ys) (fillLoop xs' ys') := by
  rw [fillLoop, fillLoop, ha.fillBound_eq hb]
  exact Loop.run_related (alike_turn ha hb hs) _ .start .init

end

end

end OxDex
