import OxDex.Matching.Anonymous
import OxDex.Matching.Ties

/-!
# Matching — Arrival

Whether the order in which a batch lists its orders shows in the solution.

The sides of a pair are sorted by limit price, and the sort leaves tied orders in the order they
arrived in.  So the permutations of a batch are the arrangements of its sides (`exists_arrival`),
and the solution depends on them exactly where the loop comes to tied orders and it makes a
difference which of them it finds (`arrivalFree_iff`).  A batch in which it comes to none has one
result whatever the order, and a batch with one result whatever the order gives twins, orders on the
same terms, the same trades (`arrivalFree_of_noTiesMet`).

Where it does make a difference, the first to arrive is served first (`arrival_pays`).
-/

namespace OxDex
open Support

/-- Two solutions with the same trades, clearing prices and score, up to order. -/
structure SameResult (x y : Solution) : Prop where
  trades : x.trades.Perm y.trades
  clearingPrices : x.clearingPrices.Perm y.clearingPrices
  score : x.score = y.score

/-- **Arrival order is not a profit vector**: every permutation of the batch has the same result,
on any thread pool and with any iteration orders. -/
def ArrivalFree (P : Primitives) (id : BatchId) (solver : Address) (orders : List SignedOrder) :
    Prop :=
  ∀ orders', orders'.Perm orders → ∀ (env env' : HashOrders) (cfg cfg' : MatcherConfig),
    SameResult (matchBatch P env cfg id solver orders) (matchBatch P env' cfg' id solver orders')

section
variable {xs ys xs' ys' : List Order}

/-- Which of the tied orders the loop finds makes no difference: on every arrangement of the sides
with another order at a head the loop comes to, the loop sells the same of every order and stops at
the same midpoint. -/
def TiesIdle (xs ys : List Order) : Prop :=
  ∀ xs' ys' (ha : Arranged xs xs') (hb : Arranged ys ys'), ¬ SameHeads ha.length_eq hb.length_eq →
    SameFills (fillLoop xs ys) (fillLoop xs' ys')

/-- No other order of the side is tied with the one at `k`. -/
def Alone (side : List Order) (k : Fin side.length) : Prop :=
  ∀ l, Tied (side.get l) (side.get k) → l = k

/-- No iteration of the loop comes to a tied order. -/
def NoTiesMet (xs ys : List Order) : Prop :=
  ∀ s, Loop.Visits (turn xs ys) (.init xs ys) s → ∀ (i : Fin xs.length) (j : Fin ys.length),
    s.i = i → s.j = j → Crosses (xs.get i) (ys.get j) → Alone xs i ∧ Alone ys j

/-- **Ties the loop does not come to** are idle. -/
theorem NoTiesMet.tiesIdle (h : NoTiesMet xs ys) : TiesIdle xs ys := by
  intro xs' ys' ha hb hne
  refine absurd (fun s hv i j hi hj hc => ?_) hne
  obtain ⟨hai, hbj⟩ := h s hv i j hi hj hc
  exact ⟨ha.get_eq hai, hb.get_eq hbj⟩

/-- Loops that end alike sell the same. -/
theorem Alike.sameFills {hx : xs.length = xs'.length} {hy : ys.length = ys'.length}
    {s : MatchState xs ys} {s' : MatchState xs' ys'} (h : Alike hx hy s s') : SameFills s s' :=
  h.mirror.sameFills (Fin.cast_injective hx) (Fin.cast_injective hy) h.sameAb h.sameBa
    fun _ => h.lastCross

/-- **Idle ties** make no difference on any arrangement. -/
theorem TiesIdle.sameFills (h : TiesIdle xs ys) (ha : Arranged xs xs') (hb : Arranged ys ys') :
    SameFills (fillLoop xs ys) (fillLoop xs' ys') := by
  by_cases hs : SameHeads ha.length_eq hb.length_eq
  · exact (alike_fillLoop ha hb hs).sameFills
  · exact h xs' ys' ha hb hs

end

section
variable {P : Primitives} {orders orders' : List SignedOrder} {m : Address × Address}

/-! ### The sides of a permuted batch -/

theorem pairOrders_perm (h : orders'.Perm orders) (m : Address × Address) :
    (pairOrders orders' m).Perm (pairOrders orders m) :=
  (h.filter _).map _

theorem arranged_abSide (h : orders'.Perm orders) (m : Address × Address) :
    Arranged (abSide orders m) (abSide orders' m) :=
  arranged_sortByLimit ((pairOrders_perm h m).filter _)

theorem arranged_baSide (h : orders'.Perm orders) (m : Address × Address) :
    Arranged (baSide orders m) (baSide orders' m) :=
  arranged_sortByLimit ((pairOrders_perm h m).filter _)

theorem markets_perm (h : orders'.Perm orders) : (markets orders').Perm (markets orders) := by
  refine (List.perm_ext_iff_of_nodup (markets_nodup _) (markets_nodup _)).mpr fun m => ?_
  simp only [mem_markets, h.mem_iff]

/-- In a pair that the batch does not have nothing trades. -/
theorem matchPair_nothing {env : HashOrders} (h : m ∉ markets orders) :
    matchPair P env m.1 m.2 (pairOrders orders m) = .nothing := by
  rw [matchPair_eq, dif_pos]
  by_contra hf
  exact h (mem_markets_of_fills hf)

/-- **The result of a batch** is a matter of what the loops of its pairs sell and where they
stop. -/
theorem sameResult_of_sameFills (h : markets orders' ⊆ markets orders)
    (hs : ∀ m, SameFills (pairFills orders m) (pairFills orders' m)) (env env' : HashOrders)
    (cfg cfg' : MatcherConfig) (id : BatchId) (solver : Address) :
    SameResult (matchBatch P env cfg id solver orders)
      (matchBatch P env' cfg' id solver orders') := by
  -- the other pairs of the larger batch add nothing
  obtain ⟨rest, hm, hrest⟩ := exists_perm_append (markets_nodup orders) (markets_nodup orders') h
  have key : ∀ m ∈ rest, matchPair P env' m.1 m.2 (pairOrders orders' m) = .nothing :=
    fun m hr => matchPair_nothing (hrest m hr)
  have empty : ∀ {β : Type} (g : PairOutcome → List β), g .nothing = [] →
      (rest.flatMap fun m => g (matchPair P env' m.1 m.2 (pairOrders orders' m))) = [] :=
    fun g hg => List.flatMap_eq_nil_iff.mpr fun m hr => by rw [key m hr, hg]
  refine ⟨?_, ?_, ?_⟩
  · refine (trades_perm P env cfg id solver orders).trans
      (.trans ?_ (trades_perm P env' cfg' id solver orders').symm)
    refine (List.Perm.flatMap_left _ fun m _ => ((hs m).same P env env').trades).trans
      ((hm.flatMap_right _).trans (.of_eq ?_))
    rw [List.flatMap_append, empty PairOutcome.trades rfl, List.append_nil]
  · refine (clearingPrices_perm P env cfg id solver orders).trans
      (.trans ?_ (clearingPrices_perm P env' cfg' id solver orders').symm)
    refine (List.Perm.flatMap_left _ fun m _ => .of_eq ((hs m).same P env env').clearing).trans
      ((hm.flatMap_right _).trans (.of_eq ?_))
    rw [List.flatMap_append, empty PairOutcome.clearing rfl, List.append_nil]
  · have hzero : (rest.map fun m =>
        (matchPair P env' m.1 m.2 (pairOrders orders' m)).surplus).sum = 0 := by
      refine List.sum_eq_zero fun v hv => ?_
      obtain ⟨m, hr, rfl⟩ := List.mem_map.mp hv
      rw [key m hr]
      rfl
    rw [score_eq P env env cfg id solver orders, score_eq P env' env' cfg' id solver orders',
      List.map_congr_left fun m _ => ((hs m).same P env env').surplus, (hm.map _).sum_eq,
      List.map_append, List.sum_append, hzero, Nat.add_zero]

/-! ### Every arrangement arrives -/

/-- An order of the pair `m` that satisfies `q`. -/
def ofSide (m : Address × Address) (q : Order → Bool) (s : SignedOrder) : Bool :=
  decide (s.order.pair = m) && q s.order

theorem pairOrders_filter (q : Order → Bool) :
    (pairOrders orders m).filter q = (orders.filter (ofSide m q)).map SignedOrder.order := by
  rw [pairOrders, List.filter_map, List.filter_filter]
  refine congrArg (List.map _) (List.filter_congr fun s _ => ?_)
  rw [ofSide, Bool.and_comm]
  rfl

/-- A rearrangement of the orders of a side comes from one of the signed orders. -/
theorem arranged_signed {q : Order → Bool} {side : List Order}
    (h : Arranged (sortByLimit ((pairOrders orders m).filter q)) side) :
    ∃ signed : List SignedOrder, signed.Perm (orders.filter (ofSide m q)) ∧
      signed.map SignedOrder.order = side ∧ sortByLimit side = side := by
  have hp := h.perm.trans (List.perm_insertionSort _ _)
  rw [pairOrders_filter] at hp
  obtain ⟨signed, rfl, hs⟩ := (congrFun₂ (List.eq_map_comp_perm SignedOrder.order) side _).mpr hp
  exact ⟨signed, hs, rfl, h.sorted'.insertionSort_eq⟩

/-- **Every arrangement of the sides of one pair** is what some permutation of the batch sorts
them to, which leaves the other pairs alone. -/
theorem exists_arrival {xs ys : List Order} (ha : Arranged (abSide orders m) xs)
    (hb : Arranged (baSide orders m) ys) : ∃ orders', orders'.Perm orders ∧
      abSide orders' m = xs ∧ baSide orders' m = ys ∧
      ∀ m', m' ≠ m → pairOrders orders' m' = pairOrders orders m' := by
  obtain ⟨as, has, rfl, hxs⟩ := arranged_signed ha
  obtain ⟨bs, hbs, rfl, hys⟩ := arranged_signed hb
  have apart : ∀ s, ofSide m (fun o => !sellsAForB m.1 m.2 o && sellsAForB m.2 m.1 o) s = true →
      ofSide m (sellsAForB m.1 m.2) s = false := by
    intro s hs
    simp only [ofSide, Bool.and_eq_true, Bool.not_eq_true'] at hs ⊢
    rw [hs.2.1, Bool.and_false]
  obtain ⟨orders', hp, hfa, hfb, hother⟩ := exists_perm_filters apart has hbs
  refine ⟨orders', hp, ?_, ?_, fun m' hm => ?_⟩
  · rw [abSide, pairOrders_filter, hfa]
    exact hxs
  · rw [baSide, pairOrders_filter, hfb]
    exact hys
  · have other : ∀ q s, ofSide m q s = true → decide (s.order.pair = m') = false := by
      intro q s hs
      have hp : s.order.pair = m := of_decide_eq_true (Bool.and_eq_true_iff.mp hs).1
      exact decide_eq_false fun h => hm (h.symm.trans hp)
    exact congrArg (List.map _) (hother _ (other _) (other _))

/-! ### What the trades tell of the loops -/

/-- Different orders of a side have different entries. -/
theorem sales_nodup {side : List Order} (h : (side.map (Order.id P)).Nodup)
    (fills : List (Fill side.length)) : (sales side fills).Nodup := by
  refine List.Nodup.of_map (fun e : Order × Nat => e.1.id P) ?_
  rw [sales, List.map_map]
  exact sums_ids_nodup h (.id _)

/-- Two arrangements of a side with the same sales of each order. -/
theorem sales_perm_of_iff {side side' : List Order} {fills : List (Fill side.length)}
    {fills' : List (Fill side'.length)} (hp : side'.Perm side)
    (hn : (side.map (Order.id P)).Nodup)
    (h : ∀ o ∈ side, ∀ v, (o, v) ∈ sales side' fills' ↔ (o, v) ∈ sales side fills) :
    (sales side' fills').Perm (sales side fills) := by
  have hn' : (side'.map (Order.id P)).Nodup := (hp.map _).nodup_iff.mpr hn
  refine (List.perm_ext_iff_of_nodup (sales_nodup hn' _) (sales_nodup hn _)).mpr ?_
  rintro ⟨o, v⟩
  by_cases ho : o ∈ side
  · exact h o ho v
  · exact iff_of_false (fun hs => ho (hp.mem_iff.mp (mem_of_sale hs))) fun hs => ho (mem_of_sale hs)

/-- Two batches with the same trades sell the same of the orders of a pair. -/
theorem sales_perm {env env' : HashOrders} {cfg cfg' : MatcherConfig} {id : BatchId}
    {solver : Address} (hid : (orders.map fun s => s.order.id P).Nodup) (h : orders'.Perm orders)
    (ht : (matchBatch P env cfg id solver orders).trades.Perm
      (matchBatch P env' cfg' id solver orders').trades) :
    (sales (abSide orders' m) (pairFills orders' m).fillsAb).Perm
        (sales (abSide orders m) (pairFills orders m).fillsAb) ∧
      (sales (baSide orders' m) (pairFills orders' m).fillsBa).Perm
        (sales (baSide orders m) (pairFills orders m).fillsBa) := by
  have hid' : (orders'.map fun s => s.order.id P).Nodup := (h.map _).nodup_iff.mpr hid
  have ha := (arranged_abSide h m).perm
  have hb := (arranged_baSide h m).perm
  refine ⟨sales_perm_of_iff ha (abSide_ids_nodup hid) fun o ho v => ?_,
    sales_perm_of_iff hb (baSide_ids_nodup hid) fun o ho v => ?_⟩
  · rw [mem_sales_ab env' cfg' id solver hid' (ha.mem_iff.mpr ho),
      mem_sales_ab env cfg id solver hid ho]
    simp only [ht.mem_iff]
  · rw [mem_sales_ba env' cfg' id solver hid' (hb.mem_iff.mpr ho),
      mem_sales_ba env cfg id solver hid ho]
    simp only [ht.mem_iff]

/-- The two mints of a pair that trades are different. -/
theorem mints_ne (h : (pairFills orders m).fillsAb ≠ []) : m.1 ≠ m.2 := by
  intro e
  have hb : baSide orders m ≠ [] := fun he => h (fillLoop_isEmpty (.inr he))
  obtain ⟨o, ho⟩ := List.exists_mem_of_ne_nil _ hb
  have hs := (List.mem_filter.mp (mem_sortByLimit.mp ho)).2
  rw [e, Bool.and_eq_true, Bool.not_eq_true'] at hs
  rw [hs.1] at hs
  exact absurd hs.2 (by decide)

/-- The clearing prices of a pair that trades, and those of the other pairs. -/
theorem clearing_split (env : HashOrders) (cfg : MatcherConfig) (id : BatchId) (solver : Address)
    (h : (pairFills orders m).fillsAb ≠ []) :
    (matchBatch P env cfg id solver orders).clearingPrices.Perm
      ([⟨m.1, reciprocal ((pairFills orders m).price h)⟩, ⟨m.2, (pairFills orders m).price h⟩] ++
        ((markets orders).erase m).flatMap fun m' =>
          (matchPair P env m'.1 m'.2 (pairOrders orders m')).clearing) := by
  refine (clearingPrices_perm P env cfg id solver orders).trans
    (((List.perm_cons_erase (mem_markets_of_fills h)).flatMap_right _).trans (.of_eq ?_))
  rw [List.flatMap_cons, matchPair_eq, dif_neg h]
  rfl

/-- Of two prices listed with different mints, the second can be told. -/
theorem price_eq_of_perm {a b : Address} {p p' r r' : Price} (hab : a ≠ b)
    (h : [ClearingPrice.mk a r, ⟨b, p⟩].Perm [⟨a, r'⟩, ⟨b, p'⟩]) : p' = p := by
  have hm : ClearingPrice.mk b p' ∈ [ClearingPrice.mk a r, ⟨b, p⟩] :=
    h.mem_iff.mpr (List.mem_cons_of_mem _ List.mem_cons_self)
  rcases List.mem_cons.mp hm with he | he
  · exact absurd (congrArg ClearingPrice.mint he).symm hab
  · exact congrArg ClearingPrice.price (List.mem_singleton.mp he)

/-- **Two batches with the same clearing prices** that differ in one pair only have the same price
there. -/
theorem price_eq_of_clearing {env : HashOrders} {cfg : MatcherConfig} {id : BatchId}
    {solver : Address} (h : orders'.Perm orders)
    (hc : (matchBatch P env cfg id solver orders).clearingPrices.Perm
      (matchBatch P env cfg id solver orders').clearingPrices)
    (ho : ∀ m', m' ≠ m → pairOrders orders' m' = pairOrders orders m')
    (hf : (pairFills orders m).fillsAb ≠ []) (hf' : (pairFills orders' m).fillsAb ≠ []) :
    (pairFills orders' m).price hf' = (pairFills orders m).price hf := by
  have others : (((markets orders').erase m).flatMap fun m' =>
      (matchPair P env m'.1 m'.2 (pairOrders orders' m')).clearing).Perm
      (((markets orders).erase m).flatMap fun m' =>
        (matchPair P env m'.1 m'.2 (pairOrders orders m')).clearing) := by
    refine (((markets_perm h).erase m).flatMap_right _).trans (.of_eq ?_)
    refine List.flatMap_congr fun m' hm' => ?_
    rw [ho m' ((markets_nodup orders).mem_erase_iff.mp hm').1]
  have hp := ((clearing_split env cfg id solver hf).symm.trans
    (hc.trans (clearing_split env cfg id solver hf'))).trans (others.append_left _)
  exact price_eq_of_perm (mints_ne hf) ((List.perm_append_right_iff _).mp hp)

/-! ### When arrival order does not pay -/

/-- **Where ties are idle**, every permutation has the same result. -/
theorem arrivalFree_of_tiesIdle (h : ∀ m, TiesIdle (abSide orders m) (baSide orders m))
    (id : BatchId) (solver : Address) : ArrivalFree P id solver orders := by
  intro orders' hp env env' cfg cfg'
  have hs : ∀ m, SameFills (pairFills orders m) (pairFills orders' m) := fun m =>
    (h m).sameFills (arranged_abSide hp m) (arranged_baSide hp m)
  exact sameResult_of_sameFills (markets_perm hp).subset hs env env' cfg cfg' id solver

/-- **When arrival order does not pay**: if and only if the loops come to no tied orders of which it
makes a difference which one they find. -/
theorem arrivalFree_iff (id : BatchId) (solver : Address)
    (hid : (orders.map fun s => s.order.id P).Nodup) :
    ArrivalFree P id solver orders ↔ ∀ m, TiesIdle (abSide orders m) (baSide orders m) := by
  refine ⟨fun h m xs ys ha hb _ => ?_, fun h => arrivalFree_of_tiesIdle h id solver⟩
  obtain ⟨orders', hp, rfl, rfl, ho⟩ := exists_arrival ha hb
  have hr := h orders' hp .insertion .insertion ⟨true⟩ ⟨true⟩
  obtain ⟨hab, hba⟩ := sales_perm (m := m) hid hp hr.trades
  exact ⟨hab, hba, fun hf hf' => price_eq_of_clearing hp hr.clearingPrices ho hf hf'⟩

/-- Orders on the same terms trade the same amounts, or none does. -/
def TwinsAlike (P : Primitives) (orders : List SignedOrder) (sol : Solution) : Prop :=
  ∀ s ∈ orders, ∀ t ∈ orders, SameTerms s.order t.order → ∀ sell buy,
    ⟨s.order.id P, sell, buy⟩ ∈ sol.trades → ⟨t.order.id P, sell, buy⟩ ∈ sol.trades

/-- Exchanging two orders of a batch rearranges it. -/
theorem exchange_perm (hn : orders.Nodup) {s t : SignedOrder} (hs : s ∈ orders)
    (ht : t ∈ orders) : (orders.map (Equiv.swap s t)).Perm orders := by
  refine (List.perm_ext_iff_of_nodup (hn.map (Equiv.swap s t).injective) hn).mpr fun u => ?_
  have key : ∀ u ∈ orders, Equiv.swap s t u ∈ orders := by
    intro u hu
    rw [Equiv.swap_apply_def]
    split
    · exact ht
    · split
      · exact hs
      · exact hu
  constructor
  · intro hu
    obtain ⟨v, hv, rfl⟩ := List.mem_map.mp hu
    exact key v hv
  · exact fun hu => List.mem_map.mpr ⟨_, key u hu, Equiv.swap_apply_self s t u⟩

/-- **Twins trade alike**, if the order of arrival does not pay: exchanged, each has the other's
trade. -/
theorem ArrivalFree.twinsAlike {id : BatchId} {solver : Address}
    (hid : (orders.map fun s => s.order.id P).Nodup) (h : ArrivalFree P id solver orders)
    (env : HashOrders) (cfg : MatcherConfig) :
    TwinsAlike P orders (matchBatch P env cfg id solver orders) := by
  intro s hs t ht hst sell buy htr
  let T : Order → Order → Prop := fun x y =>
    ∃ u ∈ orders, x = u.order ∧ y = (Equiv.swap s t u).order
  have hT : ∀ x y, T x y → SameTerms x y := by
    rintro x y ⟨u, -, rfl, rfl⟩
    rw [Equiv.swap_apply_def]
    split
    · next e => exact e ▸ hst
    · split
      · next e => exact e ▸ hst.symm
      · exact .refl _
  have hrel : List.Forall₂ (fun u u' => T u.order u'.order) orders
      (orders.map (Equiv.swap s t)) :=
    List.forall₂_map_right_iff.mpr (List.forall₂_same.mpr fun u hu => ⟨u, hu, rfl, rfl⟩)
  have hcopy : ∃ ts, ts.Perm (matchBatch P env cfg id solver
      (orders.map (Equiv.swap s t))).trades ∧
      List.Forall₂ (TradeExecution.Copied P P T) (matchBatch P env cfg id solver orders).trades
        ts :=
    copied_trades hT hrel env env cfg cfg id id solver solver
  obtain ⟨ts, hts, hcop⟩ := hcopy
  obtain ⟨⟨i, a, b⟩, ht', ⟨x, y, ⟨u, hu, rfl, rfl⟩, hx, hy⟩, hsell, hbuy⟩ := partner_left hcop htr
  -- the trade is `s`'s, so its copy is `t`'s
  obtain rfl : s = u := List.inj_on_of_nodup_map hid hs hu hx
  rw [Equiv.swap_apply_left] at hy
  obtain rfl : i = t.order.id P := hy
  obtain rfl : a = sell := hsell
  obtain rfl : b = buy := hbuy
  exact (h _ (exchange_perm hid.of_map hs ht) env env cfg cfg).trades.mem_iff.mpr
    (hts.mem_iff.mp ht')

/-- **When arrival order does not pay**: if the loops come to no tied orders; and only if orders on
the same terms trade alike. -/
theorem arrivalFree_of_noTiesMet (id : BatchId) (solver : Address)
    (hid : (orders.map fun s => s.order.id P).Nodup) :
    ((∀ m, NoTiesMet (abSide orders m) (baSide orders m)) → ArrivalFree P id solver orders) ∧
      (ArrivalFree P id solver orders → ∀ env cfg,
        TwinsAlike P orders (matchBatch P env cfg id solver orders)) :=
  ⟨fun h => arrivalFree_of_tiesIdle (fun m => (h m).tiesIdle) id solver,
    fun h env cfg => h.twinsAlike hid env cfg⟩

/-- No two orders of a batch that trade the same mints in one direction have one limit price. -/
def Untied (orders : List SignedOrder) : Prop :=
  ∀ s ∈ orders, ∀ t ∈ orders, s.order.sellMint = t.order.sellMint →
    s.order.buyMint = t.order.buyMint → Tied s.order t.order → s.order = t.order

instance (orders : List SignedOrder) : Decidable (Untied orders) :=
  inferInstanceAs (Decidable (∀ s ∈ orders, ∀ t ∈ orders, _ → _ → _ → _))

/-- In a batch without ties there are none for a loop to come to. -/
theorem Untied.noTiesMet (h : Untied orders) (hid : (orders.map fun s => s.order.id P).Nodup)
    (m : Address × Address) : NoTiesMet (abSide orders m) (baSide orders m) := by
  have alone : ∀ {side : List Order} {a b : Address}, (side.map (Order.id P)).Nodup →
      (∀ o ∈ side, (∃ s ∈ orders, s.order = o) ∧ o.sellMint = a ∧ o.buyMint = b) →
        ∀ k, Alone side k := by
    intro side a b hn hside k l ht
    obtain ⟨⟨s, hs, hsl⟩, hsa, hsb⟩ := hside _ (List.get_mem side l)
    obtain ⟨⟨t, ht', htk⟩, hta, htb⟩ := hside _ (List.get_mem side k)
    have he := h s hs t ht' (by rw [hsl, htk, hsa, hta]) (by rw [hsl, htk, hsb, htb])
      (by rw [hsl, htk]; exact ht)
    rw [hsl, htk] at he
    exact (List.Nodup.get_inj_iff hn.of_map).mp he
  intro s _ i j _ _ _
  exact ⟨alone (abSide_ids_nodup hid) (fun o ho => ⟨(mem_abSide ho).1, (mem_abSide ho).2.2⟩) i,
    alone (baSide_ids_nodup hid) (fun o ho => ⟨(mem_baSide ho).1, (mem_baSide ho).2.2⟩) j⟩

/-- **A batch without ties** has one result, whatever the order. -/
theorem arrivalFree_of_untied (h : Untied orders)
    (hid : (orders.map fun s => s.order.id P).Nodup) (id : BatchId) (solver : Address) :
    ArrivalFree P id solver orders :=
  arrivalFree_of_tiesIdle (fun m => (h.noTiesMet hid m).tiesIdle) id solver

end

section
open Sample

/-- alice's two limits against bob's. -/
theorem arrivalFree_three : ArrivalFree primitives ⟨.replicate 16 0⟩ .zero
    [sign alice150, sign alice200, sign bob200] :=
  have hid : ([sign alice150, sign alice200, sign bob200].map fun s =>
      s.order.id primitives).Nodup := by decide +kernel
  (arrivalFree_of_noTiesMet _ _ hid).1 (Untied.noTiesMet (by decide +kernel) hid)

/-- **The first to arrive is served first**: of two orders with one limit price, the one listed
first trades, and the other does not. -/
theorem arrival_pays :
    (∀ s ∈ [sign alice150, sign aliceSoon, sign bob200], s.order.validate 0 = .ok ()) ∧
      ([sign alice150, sign aliceSoon, sign bob200].map fun s => s.order.id primitives).Nodup ∧
      ¬ ArrivalFree primitives ⟨.replicate 16 0⟩ .zero
        [sign alice150, sign aliceSoon, sign bob200] := by
  refine ⟨by decide +kernel, by decide +kernel, fun h => ?_⟩
  have hr := h [sign aliceSoon, sign alice150, sign bob200] (.swap _ _ _) .insertion .insertion
    ⟨true⟩ ⟨true⟩
  have hno : ¬ (matchBatch primitives .insertion ⟨true⟩ ⟨.replicate 16 0⟩ .zero
      [sign alice150, sign aliceSoon, sign bob200]).trades.Perm
      (matchBatch primitives .insertion ⟨true⟩ ⟨.replicate 16 0⟩ .zero
        [sign aliceSoon, sign alice150, sign bob200]).trades := by decide +kernel
  exact hno hr.trades

end

end OxDex
