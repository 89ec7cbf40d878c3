import OxDex.Matching.Iterations
import OxDex.Matching.Score

/-!
# Matching — Mirror

The fill loop on two pairs of sides, the orders of the one at other places in the other.

`Mirror ea eb s s'`: what remains of an order that stands at its place in both is the same, and the
fills are, up to the places.  An iteration at the same heads keeps it and moves the pointers alike
(`Mirror.meet`).  Loops that end so sell the same (`Mirror.sameFills`).
-/

namespace OxDex
open Support

/-! ### Fills at other places -/

/-- A fill of an order that stands somewhere else. -/
def Fill.rename {n n' : Nat} (e : Fin n → Fin n') (f : Fill n) : Fill n' :=
  ⟨e f.idx, f.sold, f.bought⟩

theorem soldPerOrder_rename {n n' : Nat} {e : Fin n → Fin n'} (he : Function.Injective e)
    (fills : List (Fill n)) : soldPerOrder (fills.map (Fill.rename e)) =
      (soldPerOrder fills).map fun p => (e p.1, p.2) := by
  rw [soldPerOrder, soldPerOrder]
  refine tally_map he (fun f => ?_) (fun b f => ?_) fills
  · rfl
  · rfl

/-- **The same sales**: the fills of a side at the places of its orders in another. -/
theorem sales_rename {side side' : List Order} {e : Fin side.length → Fin side'.length}
    (he : Function.Injective e) {fills : List (Fill side.length)}
    (hs : ∀ f ∈ fills, side'.get (e f.idx) = side.get f.idx) :
    sales side' (fills.map (Fill.rename e)) = sales side fills := by
  rw [sales, soldPerOrder_rename he, List.map_map]
  refine List.map_congr_left ?_
  rintro ⟨k, v⟩ hk
  obtain ⟨⟨f, hfm, rfl⟩, -⟩ := mem_soldPerOrder.mp hk
  exact congrArg (fun o => (o, v)) (hs f hfm)

/-! ### What an iteration leaves -/

section
variable {xs ys : List Order} (s : MatchState xs ys) (i : Fin xs.length) (j : Fin ys.length)

/-- The crossing of the heads stays recorded. -/
theorem meet_lastCross (p q : Price) :
    (meet (s.cross p q) rfl i j).lastCross = some (p, q) := by
  simp only [meet]
  split
  · split <;> rfl
  · split
    · rfl
    · split <;> rfl

/-- The fills, and at most one of the heads. -/
theorem meet_fills (h : s.lastCross.isSome = true) :
    (∀ f ∈ (meet s h i j).fillsAb, f ∈ s.fillsAb ∨ f.idx = i) ∧
      ∀ g ∈ (meet s h i j).fillsBa, g ∈ s.fillsBa ∨ g.idx = j := by
  have hfill : ∀ t u, (∀ f ∈ (s.fill h i j t u).fillsAb, f ∈ s.fillsAb ∨ f.idx = i) ∧
      ∀ g ∈ (s.fill h i j t u).fillsBa, g ∈ s.fillsBa ∨ g.idx = j := by
    intro t u
    simp only [MatchState.fill, List.mem_append, List.mem_singleton]
    exact ⟨fun f hf => hf.imp_right fun e => by rw [e], fun g hg => hg.imp_right fun e => by rw [e]⟩
  have hroll : ∀ t u, (∀ f ∈ ((s.fill h i j t u).rollback i j t u).fillsAb,
      f ∈ s.fillsAb ∨ f.idx = i) ∧
      ∀ g ∈ ((s.fill h i j t u).rollback i j t u).fillsBa, g ∈ s.fillsBa ∨ g.idx = j :=
    fun t u => ⟨fun f hf => (hfill t u).1 f (List.mem_of_mem_dropLast hf),
      fun g hg => (hfill t u).2 g (List.mem_of_mem_dropLast hg)⟩
  simp only [meet]
  split
  · split
    · exact ⟨fun _ => .inl, fun _ => .inl⟩
    · exact ⟨fun _ => .inl, fun _ => .inl⟩
  · split
    · exact hroll _ _
    · split
      · exact hroll _ _
      · exact hfill _ _

end

/-! ### Two loops in step -/

section
variable {xs ys xs' ys' : List Order}

/-- The fill loop on two pairs of sides, where the order at `k` stands at `ea k`, or `eb k`, in the
other: what remains of it is the same, where it is the same order, and the fills are. -/
structure Mirror (ea : Fin xs.length → Fin xs'.length) (eb : Fin ys.length → Fin ys'.length)
    (s : MatchState xs ys) (s' : MatchState xs' ys') : Prop where
  aRemaining : ∀ k, xs'.get (ea k) = xs.get k → s'.aRemaining.get (ea k) = s.aRemaining.get k
  bRemaining : ∀ k, ys'.get (eb k) = ys.get k → s'.bRemaining.get (eb k) = s.bRemaining.get k
  fillsAb : s'.fillsAb = s.fillsAb.map (Fill.rename ea)
  fillsBa : s'.fillsBa = s.fillsBa.map (Fill.rename eb)

/-- Two pointers that both stay or both move on. -/
def InStep (n n' m m' : Nat) : Prop := m = n ∧ m' = n' ∨ m = n + 1 ∧ m' = n' + 1

theorem InStep.eq {n n' m m' : Nat} (h : InStep n n' m m') (e : n' = n) : m' = m := by
  rcases h with ⟨rfl, rfl⟩ | ⟨rfl, rfl⟩
  · exact e
  · exact congrArg (· + 1) e

/-- One and the same iteration of both loops. -/
structure SameTurn (ea : Fin xs.length → Fin xs'.length) (eb : Fin ys.length → Fin ys'.length)
    (s t : MatchState xs ys) (s' t' : MatchState xs' ys') : Prop where
  mirror : Mirror ea eb t t'
  i : InStep s.i s'.i t.i t'.i
  j : InStep s.j s'.j t.j t'.j

namespace Mirror

variable {ea : Fin xs.length → Fin xs'.length} {eb : Fin ys.length → Fin ys'.length}
  {s : MatchState xs ys} {s' : MatchState xs' ys'}

/-- Before the loop. -/
theorem init : Mirror ea eb (.init xs ys) (.init xs' ys') where
  aRemaining := fun k hk => by
    rw [MatchState.init, MatchState.init, get_sellAmounts, get_sellAmounts, hk]
  bRemaining := fun k hk => by
    rw [MatchState.init, MatchState.init, get_sellAmounts, get_sellAmounts, hk]
  fillsAb := rfl
  fillsBa := rfl

/-- Only the books count. -/
theorem congr (h : Mirror ea eb s s') {t : MatchState xs ys} {t' : MatchState xs' ys'}
    (hs : s.SameBooks t) (hs' : s'.SameBooks t') : Mirror ea eb t t' where
  aRemaining := by rw [hs.aRemaining, hs'.aRemaining]; exact h.aRemaining
  bRemaining := by rw [hs.bRemaining, hs'.bRemaining]; exact h.bRemaining
  fillsAb := by rw [hs.fillsAb, hs'.fillsAb]; exact h.fillsAb
  fillsBa := by rw [hs.fillsBa, hs'.fillsBa]; exact h.fillsBa

/-- Recording one and the same crossing. -/
theorem cross (h : Mirror ea eb s s') (p q : Price) : Mirror ea eb (s.cross p q) (s'.cross p q) :=
  h.congr ⟨rfl, rfl, rfl, rfl⟩ ⟨rfl, rfl, rfl, rfl⟩

/-- **The same books sell the same**, and at the same midpoint where the loops stop at the same
crossing. -/
theorem sameFills (h : Mirror ea eb s s') (ha : Function.Injective ea)
    (hb : Function.Injective eb) (hab : ∀ f ∈ s.fillsAb, xs'.get (ea f.idx) = xs.get f.idx)
    (hba : ∀ g ∈ s.fillsBa, ys'.get (eb g.idx) = ys.get g.idx)
    (hl : s.fillsAb ≠ [] → s'.lastCross = s.lastCross) : SameFills s s' where
  ab := by rw [h.fillsAb, sales_rename ha hab]
  ba := by rw [h.fillsBa, sales_rename hb hba]
  price := fun hf _ => by simp only [MatchState.price, hl hf]

/-- Writing one and the same amount for an order. -/
theorem get_set_place {n n' : Nat} {e : Fin n → Fin n'} (he : Function.Injective e)
    {v : Vector Nat n} {v' : Vector Nat n'} {k : Fin n} (hv : v'.get (e k) = v.get k) (i : Fin n)
    (x : Nat) : (v'.set (e i) x (e i).2).get (e k) = (v.set i x i.2).get k := by
  rw [get_set, get_set, hv]
  exact if_congr he.eq_iff rfl rfl

variable (h : Mirror ea eb s s') (ha : Function.Injective ea) (hb : Function.Injective eb)
  {i : Fin xs.length} {j : Fin ys.length} (hi : xs'.get (ea i) = xs.get i)
  (hj : ys'.get (eb j) = ys.get j)
include h ha hb hi hj

/-- Booking one and the same fill. -/
theorem fill (hc : s.lastCross.isSome = true) (hc' : s'.lastCross.isSome = true) (t u : Nat) :
    Mirror ea eb (s.fill hc i j t u) (s'.fill hc' (ea i) (eb j) t u) where
  aRemaining := fun k hk => by
    simp only [MatchState.fill]
    rw [h.aRemaining i hi]
    exact get_set_place ha (h.aRemaining k hk) i _
  bRemaining := fun k hk => by
    simp only [MatchState.fill]
    rw [h.bRemaining j hj]
    exact get_set_place hb (h.bRemaining k hk) j _
  fillsAb := by
    simp only [MatchState.fill, h.fillsAb, List.map_append]
    rfl
  fillsBa := by
    simp only [MatchState.fill, h.fillsBa, List.map_append]
    rfl

/-- Rolling one and the same fill back. -/
theorem rollback (t u : Nat) :
    Mirror ea eb (s.rollback i j t u) (s'.rollback (ea i) (eb j) t u) where
  aRemaining := fun k hk => by
    simp only [MatchState.rollback]
    rw [h.aRemaining i hi]
    exact get_set_place ha (h.aRemaining k hk) i _
  bRemaining := fun k hk => by
    simp only [MatchState.rollback]
    rw [h.bRemaining j hj]
    exact get_set_place hb (h.bRemaining k hk) j _
  fillsAb := by
    simp only [MatchState.rollback, h.fillsAb, List.map_dropLast]
  fillsBa := by
    simp only [MatchState.rollback, h.fillsBa, List.map_dropLast]

/-- What follows one and the same fill: it is rolled back for the one head or the other, or the
pointers move on from what is sold out. -/
theorem afterFill (oa ob : Order) (t u : Nat) : SameTurn ea eb s
    (if oa.partialFill = false ∧ s.aRemaining.get i ≠ 0 then
      { s.rollback i j t u with i := s.i + 1 }
    else if ob.partialFill = false ∧ s.bRemaining.get j ≠ 0 then
      { s.rollback i j t u with j := s.j + 1 }
    else
      { s with
        i := if s.aRemaining.get i = 0 then s.i + 1 else s.i
        j := if s.bRemaining.get j = 0 then s.j + 1 else s.j })
    s'
    (if oa.partialFill = false ∧ s'.aRemaining.get (ea i) ≠ 0 then
      { s'.rollback (ea i) (eb j) t u with i := s'.i + 1 }
    else if ob.partialFill = false ∧ s'.bRemaining.get (eb j) ≠ 0 then
      { s'.rollback (ea i) (eb j) t u with j := s'.j + 1 }
    else
      { s' with
        i := if s'.aRemaining.get (ea i) = 0 then s'.i + 1 else s'.i
        j := if s'.bRemaining.get (eb j) = 0 then s'.j + 1 else s'.j }) := by
  have hr := h.rollback ha hb hi hj t u
  rw [h.aRemaining i hi, h.bRemaining j hj]
  split
  · exact ⟨hr.congr ⟨rfl, rfl, rfl, rfl⟩ ⟨rfl, rfl, rfl, rfl⟩, .inr ⟨rfl, rfl⟩, .inl ⟨rfl, rfl⟩⟩
  · split
    · exact ⟨hr.congr ⟨rfl, rfl, rfl, rfl⟩ ⟨rfl, rfl, rfl, rfl⟩, .inl ⟨rfl, rfl⟩,
        .inr ⟨rfl, rfl⟩⟩
    · refine ⟨h.congr ⟨rfl, rfl, rfl, rfl⟩ ⟨rfl, rfl, rfl, rfl⟩, ?_, ?_⟩
      · dsimp only
        split
        · exact .inr ⟨rfl, rfl⟩
        · exact .inl ⟨rfl, rfl⟩
      · dsimp only
        split
        · exact .inr ⟨rfl, rfl⟩
        · exact .inl ⟨rfl, rfl⟩

/-- **An iteration at the same heads.** -/
theorem meet (hc : s.lastCross.isSome = true) (hc' : s'.lastCross.isSome = true) :
    SameTurn ea eb s (OxDex.meet s hc i j) s' (OxDex.meet s' hc' (ea i) (eb j)) := by
  simp only [OxDex.meet, hi, hj, h.aRemaining i hi, h.bRemaining j hj]
  split
  · split
    · exact ⟨h.congr ⟨rfl, rfl, rfl, rfl⟩ ⟨rfl, rfl, rfl, rfl⟩, .inr ⟨rfl, rfl⟩, .inl ⟨rfl, rfl⟩⟩
    · exact ⟨h.congr ⟨rfl, rfl, rfl, rfl⟩ ⟨rfl, rfl, rfl, rfl⟩, .inl ⟨rfl, rfl⟩, .inr ⟨rfl, rfl⟩⟩
  · have ht := fun t u => (h.fill ha hb hi hj hc hc' t u).afterFill ha hb hi hj (xs.get i)
      (ys.get j) t u
    exact ⟨(ht _ _).mirror, (ht _ _).i, (ht _ _).j⟩

end Mirror

end

end OxDex
