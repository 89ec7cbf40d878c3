import OxDex.Matching.Mirror

/-!
# Matching — Within

The fill loop on a side with one order less.

Sorting a side less one of its orders gives the sorted side less that order (`sortByLimit_remove`).
`Within` says where the orders of the smaller side stand in the larger.  Where the pointers are at
the same orders the loops on the two take the same iteration (`turn_within`).
-/

namespace OxDex
open Support

/-! ### Sorting with an order left out -/

/-- A list with one element less. -/
theorem exists_of_sublist_succ {α : Type} {as bs : List α} (h : as.Sublist bs)
    (hl : bs.length = as.length + 1) : ∃ u y v, bs = u ++ y :: v ∧ as = u ++ v := by
  induction h with
  | slnil => cases hl
  | @cons as bs y h _ =>
      have he : as = bs := h.eq_of_length (by simpa using hl.symm)
      exact ⟨[], y, bs, rfl, he⟩
  | cons_cons y _ ih =>
      obtain ⟨u, z, v, rfl, rfl⟩ := ih (by simpa using hl)
      exact ⟨y :: u, z, v, rfl, rfl⟩

/-- **A side less one of its orders** is sorted to the sorted side less that order. -/
theorem sortByLimit_remove (l₁ l₂ : List Order) (x : Order) :
    ∃ u v, sortByLimit (l₁ ++ x :: l₂) = u ++ x :: v ∧ sortByLimit (l₁ ++ l₂) = u ++ v := by
  have : IsTrans Order fun x y => x.limitPrice ≤ y.limitPrice :=
    ⟨fun x y z => Price.le_trans x.limitPrice_isU64 y.limitPrice_isU64 z.limitPrice_isU64⟩
  have hsub : (sortByLimit (l₁ ++ l₂)).Sublist (sortByLimit (l₁ ++ x :: l₂)) := by
    induction l₁ with
    | nil => exact List.sublist_orderedInsert _ _
    | cons o l₁ ih => exact ih.orderedInsert_sublist o (sortByLimit_pairwise _)
  have hp : (sortByLimit (l₁ ++ x :: l₂)).Perm (x :: sortByLimit (l₁ ++ l₂)) :=
    (List.perm_insertionSort _ _).trans
      (List.perm_middle.trans ((List.perm_insertionSort _ _).symm.cons x))
  obtain ⟨u, y, v, hy, huv⟩ := exists_of_sublist_succ hsub (by simpa using hp.length_eq)
  -- the element that is missing is `x`
  rw [hy, huv] at hp
  have hyx : y = x := by
    have hm : (u ++ y :: v).Perm (y :: (u ++ v)) := List.perm_middle
    have hyx : ([y] ++ (u ++ v)).Perm ([x] ++ (u ++ v)) := hm.symm.trans hp
    exact List.singleton_perm_singleton.mp ((List.perm_append_right_iff _).mp hyx)
  exact ⟨u, v, hyx ▸ hy, huv⟩

/-! ### A side within another -/

/-- Where the orders of a side stand in another. -/
structure Within (side' side : List Order) where
  pos : Nat → Nat
  lt_iff : ∀ n, pos n < side.length ↔ n < side'.length
  inj : Function.Injective pos
  get? : ∀ k : Fin side'.length, side[pos k]? = some (side'.get k)

namespace Within

/-- The place of an order. -/
def place {side' side : List Order} (w : Within side' side) (k : Fin side'.length) :
    Fin side.length :=
  ⟨w.pos k, (w.lt_iff k).mpr k.2⟩

theorem get_place {side' side : List Order} (w : Within side' side) (k : Fin side'.length) :
    side.get (w.place k) = side'.get k := by
  obtain ⟨_, h⟩ := List.getElem?_eq_some_iff.mp (w.get? k)
  exact h

theorem place_inj {side' side : List Order} (w : Within side' side) :
    Function.Injective w.place :=
  fun _ _ h => Fin.ext (w.inj (congrArg Fin.val h))

theorem getElem?_get (side : List Order) (k : Fin side.length) :
    side[k.val]? = some (side.get k) :=
  List.getElem?_eq_getElem k.2

/-- A side within itself. -/
def refl (side : List Order) : Within side side where
  pos := id
  lt_iff := fun _ => Iff.rfl
  inj := Function.injective_id
  get? := getElem?_get side

/-- The index of what stands at `n` once the order at `k` is left out. -/
def past (k n : Nat) : Nat := if n < k then n else n + 1

/-- A side less an order within the side. -/
def skip (u : List Order) (x : Order) (v : List Order) : Within (u ++ v) (u ++ x :: v) where
  pos := past u.length
  lt_iff := fun n => by
    simp only [past, List.length_append, List.length_cons]
    split <;> omega
  inj := fun m n h => by
    simp only [past] at h
    split at h <;> split at h <;> omega
  get? := fun k => by
    rw [← getElem?_get]
    simp only [past]
    by_cases hk : k.val < u.length
    · rw [if_pos hk, List.getElem?_append_left hk, List.getElem?_append_left hk]
    · have hsub : k.val + 1 - u.length = k.val - u.length + 1 := by omega
      rw [if_neg hk, List.getElem?_append_right (by omega), List.getElem?_append_right (by omega),
        hsub, List.getElem?_cons_succ]

end Within

/-! ### Two loops in step -/

/-- **An iteration in step.**  Where the pointers are at the same orders, both loops are left, or
both take the same iteration. -/
theorem turn_within {xs ys xs' ys' : List Order} {a : Within xs' xs} {b : Within ys' ys}
    {s : MatchState xs ys} {s' : MatchState xs' ys'} (h : Mirror a.place b.place s' s)
    (hi : s.i = a.pos s'.i) (hj : s.j = b.pos s'.j) :
    (turn xs ys s = none ∧ turn xs' ys' s' = none) ∨
      ∃ t t', turn xs ys s = some t ∧ turn xs' ys' s' = some t' ∧ t'.lastCross = t.lastCross ∧
        SameTurn a.place b.place s' t' s t := by
  by_cases hij : s'.i < xs'.length ∧ s'.j < ys'.length
  · obtain ⟨i, hi'⟩ : ∃ i : Fin xs'.length, s'.i = i := ⟨⟨s'.i, hij.1⟩, rfl⟩
    obtain ⟨j, hj'⟩ : ∃ j : Fin ys'.length, s'.j = j := ⟨⟨s'.j, hij.2⟩, rfl⟩
    have hi : s.i = a.place i := hi.trans (congrArg a.pos hi')
    have hj : s.j = b.place j := hj.trans (congrArg b.pos hj')
    have hx := a.get_place i
    have hy := b.get_place j
    by_cases hc : Crosses (xs'.get i) (ys'.get j)
    · rw [turn_of_crosses hi hj (hx ▸ hy ▸ hc), turn_of_crosses hi' hj' hc, hx, hy]
      have hmeet := (h.cross (xs'.get i).limitPrice (ys'.get j).limitPrice).meet a.place_inj
        b.place_inj hx hy rfl rfl
      exact .inr ⟨_, _, rfl, rfl,
        (meet_lastCross s' i j _ _).trans (meet_lastCross s _ _ _ _).symm,
        hmeet.mirror, hmeet.i, hmeet.j⟩
    · rw [turn_of_not_crosses hi hj (hx ▸ hy ▸ hc), turn_of_not_crosses hi' hj' hc]
      exact .inl ⟨rfl, rfl⟩
  · have hno : ¬ (s.i < xs.length ∧ s.j < ys.length) := by
      rw [hi, hj, a.lt_iff, b.lt_iff]
      exact hij
    refine .inl ⟨?_, ?_⟩
    · rw [turn, dif_neg hno]
    · rw [turn, dif_neg hij]

/-- **A fill loop that follows another**: for every iteration of the first the second takes any
number of its own to a related state, and where the first is left the second is. -/
theorem fillLoop_follows {xs ys xs' ys' : List Order}
    {R F : MatchState xs ys → MatchState xs' ys' → Prop}
    (init : R (.init xs ys) (.init xs' ys'))
    (next : ∀ s t s', Loop.Visits (turn xs ys) (.init xs ys) s → R s s' →
      turn xs ys s = some t →
        ∃ t', (∀ e, Loop.Ends (turn xs' ys') t' e → Loop.Ends (turn xs' ys') s' e) ∧ R t t')
    (left : ∀ s s', R s s' → turn xs ys s = none → turn xs' ys' s' = none ∧ F s s') :
    F (fillLoop xs ys) (fillLoop xs' ys') := by
  obtain ⟨e, he, hf⟩ := Loop.ends_simulated next
    (fun s s' _ h ht => ⟨s', .left (left s s' h ht).1, (left s s' h ht).2⟩)
    (Loop.ends_run (fillLoop_left xs ys)) .start init
  obtain rfl := he.unique (Loop.ends_run (fillLoop_left xs' ys'))
  exact hf

/-- Loops with the same books sell the same, and stop at the same midpoint where they stop at the
same crossing. -/
theorem sameFills_within {xs ys xs' ys' : List Order} {a : Within xs' xs} {b : Within ys' ys}
    {s : MatchState xs ys} {s' : MatchState xs' ys'} (h : Mirror a.place b.place s' s)
    (hl : s.fillsAb ≠ [] → s'.lastCross = s.lastCross) : SameFills s s' := by
  refine (h.sameFills a.place_inj b.place_inj (fun f _ => a.get_place f.idx)
    (fun g _ => b.get_place g.idx) fun hf => (hl fun he => hf ?_).symm).symm
  rw [h.fillsAb] at he
  exact List.map_eq_nil_iff.mp he

end OxDex
