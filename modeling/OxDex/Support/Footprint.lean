import Mathlib.Data.Set.Function
import Mathlib.Tactic

/-!
# Support — Footprint

Changes of a map that touch certain keys only, and scans that go over a map part by part while such
changes are made to it.

* `On.comm`: changes of disjoint sets of keys commute.
* `Amid`: a scan has still to go over the parts of `left`, and changes have been made in between.  A
  change to parts that are still to come may as well have been made before the scan, and one to
  parts that have been gone over after it (`Amid.early`, `Amid.defer`).  So when the scan is over,
  it could have gone over the map at one go (`Amid.done`), between the changes that came early and
  those that came late, each in their order.

It is not said that the changes keep their order: one that comes late for the scan may be followed
by one that comes early.
-/

namespace Support

variable {κ ν ι ω : Type*}

/-- The change is one of the keys of `K`: it leaves the others, and does not depend on them. -/
structure On (K : Set κ) (g : (κ → ν) → κ → ν) : Prop where
  frame : ∀ b, ∀ k ∉ K, g b k = b k
  reads : ∀ b b', Set.EqOn b b' K → Set.EqOn (g b) (g b') K

namespace On

variable {K K' : Set κ} {g g' : (κ → ν) → κ → ν}

theorem mono (h : On K g) (hK : K ⊆ K') : On K' g where
  frame := fun b k hk => h.frame b k fun hk' => hk (hK hk')
  reads := fun b b' hb k hk => by
    by_cases hk' : k ∈ K
    · exact h.reads b b' (hb.mono hK) hk'
    · rw [h.frame b k hk', h.frame b' k hk', hb hk]

/-- **Changes of disjoint sets of keys commute.** -/
theorem comm (h : On K g) (h' : On K' g') (hd : ∀ k ∈ K, k ∉ K') (b : κ → ν) :
    g (g' b) = g' (g b) := by
  funext k
  by_cases hk : k ∈ K
  · rw [h'.frame _ k (hd k hk)]
    exact h.reads _ _ (fun l hl => h'.frame b l (hd l hl)) hk
  · rw [h.frame _ k hk]
    by_cases hk' : k ∈ K'
    · exact (h'.reads _ _ (fun l hl => h.frame b l fun hl' => hd l hl' hl) hk').symm
    · rw [h'.frame _ k hk', h'.frame _ k hk', h.frame _ k hk]

/-- What does nothing is a change of any set of keys. -/
theorem id (K : Set κ) : On K fun b : κ → ν => b where
  frame := fun _ _ _ => rfl
  reads := fun _ _ h => h

/-- Changes of `K`, one after the other. -/
theorem foldl {act : ω → (κ → ν) → κ → ν} {os : List ω} (h : ∀ o ∈ os, On K (act o)) :
    On K fun b => os.foldl (fun b o => act o b) b := by
  induction os with
  | nil => exact .id K
  | cons o os ih =>
      have ho := h o List.mem_cons_self
      have hos := ih fun o ho => h o (List.mem_cons_of_mem _ ho)
      exact ⟨fun b k hk => (hos.frame _ k hk).trans (ho.frame b k hk),
        fun b b' hb => hos.reads _ _ (ho.reads b b' hb)⟩

end On

/-! ### Scans, part by part -/

section
variable [DecidableEq ι] (part : κ → ι) (f : κ → ν → ν)

/-- The scan goes over the part `i`. -/
def visit (i : ι) (b : κ → ν) : κ → ν := fun k => if part k = i then f k (b k) else b k

/-- What a scan has made of the map when the parts of `left` are still to come. -/
def scanned (left : List ι) (b : κ → ν) : κ → ν := fun k => if part k ∈ left then b k else f k (b k)

theorem visit_on (i : ι) : On {k | part k = i} (visit part f i) where
  frame := fun _ _ hk => if_neg hk
  reads := fun b b' hb k hk => by
    have hk : part k = i := hk
    rw [visit, visit, if_pos hk, if_pos hk, hb hk]

theorem scanned_on (left : List ι) : On {k | part k ∉ left} (scanned part f left) where
  frame := fun _ _ hk => if_pos (not_not.mp hk)
  reads := fun b b' hb k hk => by
    have hk : part k ∉ left := hk
    rw [scanned, scanned, if_neg hk, if_neg hk, hb hk]

variable {part f}

theorem scanned_all {left : List ι} (h : ∀ k, part k ∈ left) (b : κ → ν) :
    scanned part f left b = b := by
  funext k
  exact if_pos (h k)

@[simp] theorem scanned_nil (b : κ → ν) : scanned part f [] b = fun k => f k (b k) := by
  funext k
  exact if_neg List.not_mem_nil

/-- Going over one more part. -/
theorem visit_scanned {i : ι} {left : List ι} (hi : i ∉ left) (b : κ → ν) :
    visit part f i (scanned part f (i :: left) b) = scanned part f left b := by
  funext k
  by_cases hk : part k = i
  · simp [visit, scanned, hk, hi]
  · simp [visit, scanned, hk]

variable (part f) (foot : ω → Set κ) (act : ω → (κ → ν) → κ → ν)

/-- **Amid a scan** that has still to go over the parts of `left`: the map is `b'`, and would be `b`
if neither the scan had begun nor the changes of `late` had been made, which are of parts that it
has gone over. -/
structure Amid (left : List ι) (late : List ω) (b b' : κ → ν) : Prop where
  state : b' = late.foldl (fun b o => act o b) (scanned part f left b)
  passed : ∀ o ∈ late, (foot o).Nonempty ∧ ∀ k ∈ foot o, part k ∉ left

variable {part f foot act} {left : List ι} {late : List ω} {b b' : κ → ν}

namespace Amid

/-- Before the first part. -/
theorem start (h : ∀ k, part k ∈ left) (b : κ → ν) : Amid part f foot act left [] b b :=
  ⟨(scanned_all h b).symm, fun _ ho => absurd ho List.not_mem_nil⟩

/-- Before the first part no change is late. -/
theorem late_eq_nil (h : Amid part f foot act left late b b') (hall : ∀ k, part k ∈ left) :
    late = [] := by
  refine List.eq_nil_iff_forall_not_mem.mpr fun o ho => ?_
  obtain ⟨⟨k, hk⟩, hpassed⟩ := h.passed o ho
  exact hpassed k hk (hall k)

/-- **A change of parts that have been gone over** can be left for later. -/
theorem defer (h : Amid part f foot act left late b b') {o : ω} (hne : (foot o).Nonempty)
    (ho : ∀ k ∈ foot o, part k ∉ left) :
    Amid part f foot act left (late ++ [o]) b (act o b') := by
  refine ⟨?_, fun o' ho' => ?_⟩
  · rw [List.foldl_append, ← h.state]
    rfl
  · rcases List.mem_append.mp ho' with ho' | ho'
    · exact h.passed o' ho'
    · rw [List.mem_singleton.mp ho']
      exact ⟨hne, ho⟩

section
variable (hact : ∀ o, On (foot o) (act o))
include hact

/-- The changes of `late` are of parts that have been gone over. -/
theorem late_on (h : Amid part f foot act left late b b') :
    On {k | part k ∉ left} fun b => late.foldl (fun b o => act o b) b :=
  .foldl fun o ho => (hact o).mono (h.passed o ho).2

/-- A part that is still to come is as it would be. -/
theorem ahead (h : Amid part f foot act left late b b') {k : κ} (hk : part k ∈ left) :
    b' k = b k := by
  rw [h.state, (h.late_on hact).frame _ k fun hk' => hk' hk]
  exact if_pos hk

/-- **A change of parts that are still to come** could have been made before the scan. -/
theorem early (h : Amid part f foot act left late b b') {g : (κ → ν) → κ → ν}
    (hg : On {k | part k ∈ left} g) : Amid part f foot act left late (g b) (g b') := by
  refine ⟨?_, h.passed⟩
  have hd : ∀ k ∈ {k | part k ∈ left}, k ∉ {k | part k ∉ left} := fun _ hk hk' => hk' hk
  rw [h.state, hg.comm (h.late_on hact) hd, hg.comm (scanned_on part f left) hd]

/-- **The scan goes over the next part.** -/
theorem next {i : ι} (h : Amid part f foot act (i :: left) late b b') (hi : i ∉ left) :
    Amid part f foot act left late b (visit part f i b') := by
  refine ⟨?_, fun o ho => ⟨(h.passed o ho).1, fun k hk hk' =>
    (h.passed o ho).2 k hk (List.mem_cons_of_mem _ hk')⟩⟩
  have hd : ∀ k ∈ {k | part k = i}, k ∉ {k | part k ∉ i :: left} :=
    fun k hk hk' => hk' (hk ▸ List.mem_cons_self)
  rw [h.state, (visit_on part f i).comm (h.late_on hact) hd, visit_scanned hi]

end

/-- **When the scan is over**, it could have been made at one go, before the changes of `late`. -/
theorem done (h : Amid part f foot act [] late b b') :
    b' = late.foldl (fun b o => act o b) fun k => f k (b k) := by
  rw [h.state, scanned_nil]

end Amid

end

end Support
