import OxDex.Matching.Arrival
import OxDex.Matching.Bystander

/-!
# Matching — Removal

Whether an order that does not trade shows in the solution.

Taking an order out of a batch takes it out of one side of its pair and leaves the other pairs
alone.  So an order that does not trade can be taken out where it stands by
(`removable_of_standsBy`), above all where it crosses no order of the other direction
(`StandsBy.of_apart`).

Elsewhere an order that does not trade moves the market (`unfilled_moves`): it can be the last to
cross, and the price is the midpoint of the limits that cross last; and it can be the one for which
an order that must be filled to the end is passed.
-/

namespace OxDex
open Support

/-- **An order that does not trade can be taken out**: where no trade names `s`, the batch has the
same result without it, on any thread pool and with any iteration orders. -/
def Removable (P : Primitives) (id : BatchId) (solver : Address) (l₁ : List SignedOrder)
    (s : SignedOrder) (l₂ : List SignedOrder) : Prop :=
  ∀ (env env' : HashOrders) (cfg cfg' : MatcherConfig),
    (∀ t ∈ (matchBatch P env cfg id solver (l₁ ++ s :: l₂)).trades, t.orderId ≠ s.order.id P) →
      SameResult (matchBatch P env cfg id solver (l₁ ++ s :: l₂))
        (matchBatch P env' cfg' id solver (l₁ ++ l₂))

section
variable {l₁ l₂ : List SignedOrder} {s : SignedOrder} {m : Address × Address}

/-! ### The sides of the smaller batch -/

theorem markets_remove : markets (l₁ ++ l₂) ⊆ markets (l₁ ++ s :: l₂) := by
  intro m hm
  obtain ⟨t, ht, rfl⟩ := mem_markets.mp hm
  refine mem_markets.mpr ⟨t, ?_, rfl⟩
  rcases List.mem_append.mp ht with ht | ht
  · exact List.mem_append_left _ ht
  · exact List.mem_append_right _ (List.mem_cons_of_mem _ ht)

/-- A side without the orders it does not have. -/
theorem filter_remove_of_not {q : Order → Bool} (h : ¬ (s.order.pair = m ∧ q s.order = true)) :
    (pairOrders (l₁ ++ s :: l₂) m).filter q = (pairOrders (l₁ ++ l₂) m).filter q := by
  have hs : ofSide m q s = false := by
    by_contra ht
    have ht := Bool.and_eq_true_iff.mp (Bool.eq_true_of_not_eq_false ht)
    exact h ⟨of_decide_eq_true ht.1, ht.2⟩
  rw [pairOrders_filter, pairOrders_filter, List.filter_append, List.filter_append,
    List.filter_cons_of_neg (by simp [hs])]

variable (l₁ l₂) in
/-- **A side without one of its orders.** -/
theorem side_remove (q : Order → Bool) (hm : s.order.pair = m) (hq : q s.order = true) :
    ∃ u v, sortByLimit ((pairOrders (l₁ ++ s :: l₂) m).filter q) = u ++ s.order :: v ∧
      sortByLimit ((pairOrders (l₁ ++ l₂) m).filter q) = u ++ v := by
  have hs : ofSide m q s = true := Bool.and_eq_true_iff.mpr ⟨decide_eq_true hm, hq⟩
  rw [pairOrders_filter, pairOrders_filter, List.filter_append, List.filter_append,
    List.filter_cons_of_pos hs, List.map_append, List.map_append, List.map_cons]
  exact sortByLimit_remove _ _ _

/-! ### Orders that do not trade -/

section
variable {P : Primitives} {orders : List SignedOrder} {env : HashOrders} {cfg : MatcherConfig}
  {id : BatchId} {solver : Address} {o : Order}
  (h : ∀ t ∈ (matchBatch P env cfg id solver orders).trades, t.orderId ≠ o.id P)
include h

/-- An order that no trade names has no fill. -/
theorem no_fill_ab : ∀ f ∈ (pairFills orders m).fillsAb, (abSide orders m).get f.idx ≠ o := by
  rintro f hf rfl
  have hne : (pairFills orders m).fillsAb ≠ [] := List.ne_nil_of_mem hf
  exact h _ ((mem_trades P env cfg id solver).mpr ⟨m, hne, .inl ⟨f, hf, rfl⟩⟩) rfl

theorem no_fill_ba : ∀ g ∈ (pairFills orders m).fillsBa, (baSide orders m).get g.idx ≠ o := by
  rintro g hg rfl
  obtain ⟨f, hf, -⟩ := partner_left (ledger orders m).booked.flip hg
  have hne : (pairFills orders m).fillsAb ≠ [] := List.ne_nil_of_mem hf
  exact h _ ((mem_trades P env cfg id solver).mpr ⟨m, hne, .inr ⟨g, hg, rfl⟩⟩) rfl

end

/-- Loops on the same sides. -/
theorem sameFills_of_eq {xs ys xs' ys' : List Order} (hx : xs = xs') (hy : ys = ys') :
    SameFills (fillLoop xs ys) (fillLoop xs' ys') := by
  subst hx hy
  exact .refl _

section
variable {P : Primitives} {env : HashOrders} {cfg : MatcherConfig} {id : BatchId}
  {solver : Address} (hv : Validated (l₁ ++ s :: l₂))
  (hb : StandsBy s.order (abSide (l₁ ++ s :: l₂) s.order.pair)
    (baSide (l₁ ++ s :: l₂) s.order.pair))
include hv hb

/-- **The loops of the two batches** sell the same and stop at the same midpoints. -/
theorem sameFills_remove (h : ∀ t ∈ (matchBatch P env cfg id solver (l₁ ++ s :: l₂)).trades,
    t.orderId ≠ s.order.id P) (m : Address × Address) :
    SameFills (pairFills (l₁ ++ s :: l₂) m) (pairFills (l₁ ++ l₂) m) := by
  by_cases hA : s.order.pair = m ∧ sellsAForB m.1 m.2 s.order = true
  · -- the order is on the A→B side, and the other is the same
    obtain ⟨rfl, hA⟩ := hA
    have bk := sortedBook hv s.order.pair
    have hno := no_fill_ab (m := s.order.pair) h
    obtain ⟨u, v, hx, hx'⟩ := side_remove l₁ l₂ _ rfl hA
    have hy : baSide (l₁ ++ s :: l₂) s.order.pair = baSide (l₁ ++ l₂) s.order.pair :=
      congrArg sortByLimit (filter_remove_of_not (by simp [hA]))
    rw [pairFills, abSide, hx] at hno
    rw [abSide, hx] at bk hb
    rw [pairFills, pairFills, abSide, abSide, hx, hx', ← hy]
    exact sameFills_ab bk hb hno
  by_cases hB : s.order.pair = m ∧
      (!sellsAForB m.1 m.2 s.order && sellsAForB m.2 m.1 s.order) = true
  · -- the order is on the B→A side
    obtain ⟨rfl, hB⟩ := hB
    have bk := sortedBook hv s.order.pair
    have hno := no_fill_ba (m := s.order.pair) h
    obtain ⟨u, v, hy, hy'⟩ := side_remove l₁ l₂
      (fun o => !sellsAForB _ _ o && sellsAForB _ _ o) rfl hB
    have hx : abSide (l₁ ++ s :: l₂) s.order.pair = abSide (l₁ ++ l₂) s.order.pair :=
      congrArg sortByLimit (filter_remove_of_not hA)
    rw [pairFills, baSide, hy] at hno
    rw [baSide, hy] at bk hb
    rw [pairFills, pairFills, baSide, baSide, hy, hy', ← hx]
    exact sameFills_ba bk hb hno
  · exact sameFills_of_eq (congrArg sortByLimit (filter_remove_of_not hA))
      (congrArg sortByLimit (filter_remove_of_not hB))

/-- **An order that stands by can be taken out.** -/
theorem removable_of_standsBy (P : Primitives) (id : BatchId) (solver : Address) :
    Removable P id solver l₁ s l₂ := by
  intro env env' cfg cfg' h
  exact sameResult_of_sameFills markets_remove (sameFills_remove hv hb h) env env' cfg cfg' id
    solver

end

end

/-- An order that crosses no order of the other side stands by. -/
theorem StandsBy.of_apart {x : Order} {xs ys : List Order} (hx : ∀ y ∈ ys, ¬ Crosses x y)
    (hy : ∀ z ∈ xs, ¬ Crosses z x) : StandsBy x xs ys := by
  -- no iteration has it as a head
  have key : ∀ s s', turn xs ys s = some s' → ∀ (i : Fin xs.length) (j : Fin ys.length),
      s.i = i → s.j = j → xs.get i ≠ x ∧ ys.get j ≠ x := by
    intro s s' h i j hi hj
    obtain ⟨i', j', hi', hj', hc, -⟩ := turn_eq_some h
    obtain rfl : i' = i := Fin.ext (hi'.symm.trans hi)
    obtain rfl : j' = j := Fin.ext (hj'.symm.trans hj)
    refine ⟨?_, ?_⟩
    · rintro rfl
      exact hx _ (List.get_mem ys j') hc
    · rintro rfl
      exact hy _ (List.get_mem xs i') hc
  exact ⟨fun s s' _ h i j hi hj e => absurd e (key s s' h i j hi hj).1,
    fun s s' _ h i j hi hj e => absurd e (key s s' h i j hi hj).2,
    fun _ s _ h i j hi hj => key s _ h i j hi hj⟩

/-- What `StandsBy` asks of an iteration from `s`. -/
def StandsByAt {xs ys : List Order} (x : Order) (s : MatchState xs ys) : Prop :=
  ∀ s' ∈ turn xs ys s, ∀ (i : Fin xs.length) (j : Fin ys.length), s.i = i → s.j = j →
    (xs.get i = x → (ys.get j).partialFill = false → s'.j = s.j) ∧
    (ys.get j = x → (xs.get i).partialFill = false → s'.i = s.i) ∧
    (turn xs ys s' = none → xs.get i ≠ x ∧ ys.get j ≠ x)

instance {xs ys : List Order} (x : Order) (s : MatchState xs ys) : Decidable (StandsByAt x s) :=
  inferInstanceAs (Decidable (∀ s' ∈ turn xs ys s, _))

/-- Whether an order stands by can be seen by running the loop. -/
theorem StandsBy.of_run {x : Order} {xs ys : List Order} {n : Nat}
    (hend : turn xs ys (Loop.run (turn xs ys) n (.init xs ys)) = none)
    (h : ∀ k ≤ n, StandsByAt x (Loop.run (turn xs ys) k (.init xs ys))) : StandsBy x xs ys where
  passB := fun _ s' hv ht i j hi hj hx hk => ((hv.of_run hend h s' ht i j hi hj).1 hx) hk
  passA := fun _ s' hv ht i j hi hj hx hk => ((hv.of_run hend h s' ht i j hi hj).2.1 hx) hk
  last := fun _ _ hv ht i j hi hj =>
    (hv.of_run hend h _ ht i j hi hj).2.2 (fillLoop_left xs ys)

namespace Sample

/-- Sells 200 A for at least 400 B, all or nothing. -/
def aliceKill : Order :=
  { order alice mintA mintB 200 400 Int64.maxValue with partialFill := false }

/-- Sells 10 A for at least 10 B. -/
def alice10 : Order := order alice mintA mintB 10 10 Int64.maxValue

/-- Sells 200 B for at least 100 A, all or nothing. -/
def bobKill : Order := { bob200 with partialFill := false }

/-- The traders' data and the digests of these orders. -/
def primitivesKill : Primitives :=
  primitivesWith
    [(aliceKill, .ofNat 32 0xee7e98f3dab2b72a4ee19d5055bbed98f47b220b15e1a5d0c41b5f5ca497c61e),
      (alice10, .ofNat 32 0xa7679c61ae19212d172ce6992de6bcdac440d0e18c1a1ea1a8cd1d31602e2d52),
      (bobKill, .ofNat 32 0x0c8e6bfe680ac6a8e8658f660fe3eaf2c4db98ef5af60780758b43220529c56b),
      (bob500, .ofNat 32 0xba9d5692f3c1a225aaf07c5d6e0ed643702b64d18b4cd689a0544f9c0cf49c85)]

end Sample

section
open Sample

/-- alice's 200 A are ahead of her 100 A at the same limit, cross bob's 200 B and are passed, since
these cannot fill them.  Without them the batch trades the same. -/
theorem removable_kill : Removable primitivesKill ⟨.replicate 16 0⟩ .zero []
    (sign aliceKill) [sign alice200, sign bob200] :=
  removable_of_standsBy
    (show Validated ([] ++ sign aliceKill :: [sign alice200, sign bob200]) from
      fun s hs => ⟨0, by revert s; decide +kernel⟩)
    (.of_run (n := 2) (by decide +kernel) (by decide +kernel)) primitivesKill ⟨.replicate 16 0⟩
    .zero

/-- **An order that is not filled moves the market.**  Without alice's 200 A, which bob's 500 B
cannot fill, her 100 A are paid 200 B and not 225; and without her 10 A, which do not fill bob's
200 B to the end, her 100 A trade and not nothing. -/
theorem unfilled_moves :
    ((∀ s ∈ [sign alice150] ++ sign aliceKill :: [sign bob500], s.order.validate 0 = .ok ()) ∧
      ¬ Removable primitivesKill ⟨.replicate 16 0⟩ .zero [sign alice150] (sign aliceKill)
        [sign bob500]) ∧
    (∀ s ∈ [] ++ sign alice10 :: [sign alice150, sign bobKill], s.order.validate 0 = .ok ()) ∧
      ¬ Removable primitivesKill ⟨.replicate 16 0⟩ .zero [] (sign alice10)
        [sign alice150, sign bobKill] := by
  refine ⟨⟨by decide +kernel, fun h => ?_⟩, by decide +kernel, fun h => ?_⟩
  · have hr := h .insertion .insertion ⟨true⟩ ⟨true⟩ (by decide +kernel)
    exact absurd hr.trades (by decide +kernel)
  · have hr := h .insertion .insertion ⟨true⟩ ⟨true⟩ (by decide +kernel)
    exact absurd hr.trades (by decide +kernel)

end

end OxDex
