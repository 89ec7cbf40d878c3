import Mathlib.Tactic

/-!
# Support — Selection

Choosing from a stream: keep what is held unless what comes next scores strictly higher
(`better`).  `foldl_better_eq_some`: what is held in the end is the first of the highest-scoring
elements, and something is held as soon as anything came (`foldl_better_eq_none`).
-/

namespace Support

variable {α β : Type*} [LinearOrder β] (score : α → β)

/-- Take `x` if nothing is held, or if it scores strictly higher than what is held. -/
def better (held : Option α) (x : α) : Option α :=
  if held.all fun b => score b < score x then some x else held

/-- `w` is the first of the elements of `xs` that score highest. -/
def FirstBest (xs : List α) (w : α) : Prop :=
  ∃ pre post, xs = pre ++ w :: post ∧ (∀ x ∈ pre, score x < score w) ∧
    ∀ x ∈ post, score x ≤ score w

variable {score} {xs : List α} {w : α}

theorem FirstBest.mem (h : FirstBest score xs w) : w ∈ xs := by
  obtain ⟨pre, post, rfl, -, -⟩ := h
  simp

theorem FirstBest.le (h : FirstBest score xs w) {x : α} (hx : x ∈ xs) : score x ≤ score w := by
  obtain ⟨pre, post, rfl, hpre, hpost⟩ := h
  rcases List.mem_append.mp hx with hx | hx
  · exact (hpre x hx).le
  · rcases List.mem_cons.mp hx with rfl | hx
    · exact le_rfl
    · exact hpost x hx

/-- One element more: it is the first of the best, or what was still is. -/
theorem firstBest_concat {x : α} : FirstBest score (xs ++ [x]) w ↔
    w = x ∧ (∀ y ∈ xs, score y < score x) ∨ FirstBest score xs w ∧ score x ≤ score w := by
  constructor
  · rintro ⟨pre, post, he, hpre, hpost⟩
    rcases List.eq_nil_or_concat post with rfl | ⟨post, y, rfl⟩
    · obtain ⟨rfl, hw⟩ := List.append_inj' he rfl
      cases hw
      exact .inl ⟨rfl, hpre⟩
    · rw [List.concat_eq_append, ← List.cons_append, ← List.append_assoc] at he
      obtain ⟨rfl, hy⟩ := List.append_inj' he rfl
      cases hy
      rw [List.concat_eq_append] at hpost
      exact .inr ⟨⟨pre, post, rfl, hpre, fun z hz => hpost z (List.mem_append_left _ hz)⟩,
        hpost x (by simp)⟩
  · rintro (⟨rfl, h⟩ | ⟨⟨pre, post, rfl, hpre, hpost⟩, hx⟩)
    · exact ⟨xs, [], rfl, h, by simp⟩
    · refine ⟨pre, post ++ [x], by simp, hpre, fun z hz => ?_⟩
      rcases List.mem_append.mp hz with hz | hz
      · exact hpost z hz
      · rwa [List.mem_singleton.mp hz]

theorem better_ne_none (held : Option α) (x : α) : better score held x ≠ none := by
  cases held with
  | none => simp [better]
  | some b =>
      unfold better
      split <;> simp

/-- Nothing is held in the end only if nothing came. -/
theorem foldl_better_eq_none : xs.foldl (better score) none = none ↔ xs = [] := by
  cases xs using List.reverseRecOn with
  | nil => simp
  | append_singleton xs x => simp [better_ne_none]

/-- **What is held in the end** is the first of the best. -/
theorem foldl_better_eq_some :
    xs.foldl (better score) none = some w ↔ FirstBest score xs w := by
  induction xs using List.reverseRecOn generalizing w with
  | nil => simp [FirstBest]
  | append_singleton xs x ih =>
      rw [List.foldl_concat, firstBest_concat]
      cases hb : xs.foldl (better score) none with
      | none =>
          rw [foldl_better_eq_none.mp hb]
          simp [better, FirstBest, eq_comm]
      | some b =>
          have hbest := ih.mp hb
          by_cases hlt : score b < score x
          · rw [better, Option.all_some, decide_eq_true hlt, if_pos rfl]
            constructor
            · rintro ⟨⟩
              exact .inl ⟨rfl, fun y hy => (hbest.le hy).trans_lt hlt⟩
            · rintro (⟨rfl, -⟩ | ⟨hw, hx⟩)
              · rfl
              · exact absurd (hlt.trans_le (hx.trans (hbest.le hw.mem))) (lt_irrefl _)
          · rw [better, Option.all_some, decide_eq_false hlt, if_neg Bool.false_ne_true]
            constructor
            · rintro ⟨⟩
              exact .inr ⟨hbest, not_lt.mp hlt⟩
            · rintro (⟨rfl, h⟩ | ⟨hw, -⟩)
              · exact absurd (h b hbest.mem) hlt
              · exact hb ▸ ih.mpr hw

end Support
