import Mathlib.Data.List.Perm.Basic

/-!
# Support — Interleaving

`Interleaving xs ys zs` says that `zs` merges `xs` and `ys` and keeps the order of each.  What a
filter keeps of `zs` is an interleaving again (`filter`); so a filter that keeps nothing of `ys`
keeps of `zs` what it keeps of `xs`, in the same order (`filter_left`).
-/

namespace Support

variable {α : Type*}

/-- `zs` is a merge of `xs` and `ys`. -/
inductive Interleaving : List α → List α → List α → Prop where
  | nil : Interleaving [] [] []
  | left {a : α} {xs ys zs : List α} (h : Interleaving xs ys zs) :
      Interleaving (a :: xs) ys (a :: zs)
  | right {a : α} {xs ys zs : List α} (h : Interleaving xs ys zs) :
      Interleaving xs (a :: ys) (a :: zs)

namespace Interleaving

variable {xs ys zs : List α}

theorem swap (h : Interleaving xs ys zs) : Interleaving ys xs zs := by
  induction h with
  | nil => exact .nil
  | left _ ih => exact .right ih
  | right _ ih => exact .left ih

theorem mem_iff (h : Interleaving xs ys zs) {a : α} : a ∈ zs ↔ a ∈ xs ∨ a ∈ ys := by
  induction h with
  | nil => simp
  | left _ ih => simp only [List.mem_cons, ih, or_assoc]
  | right _ ih => simp only [List.mem_cons, ih, or_left_comm]

theorem nil_right (h : Interleaving xs [] zs) : zs = xs := by
  generalize e : ([] : List α) = ys at h
  induction h with
  | nil => rfl
  | left _ ih => rw [ih e]
  | right _ _ => cases e

theorem filter (h : Interleaving xs ys zs) (p : α → Bool) :
    Interleaving (xs.filter p) (ys.filter p) (zs.filter p) := by
  induction h with
  | nil => exact .nil
  | @left a _ _ _ _ ih =>
      rw [List.filter_cons, List.filter_cons]
      split
      · exact .left ih
      · exact ih
  | @right a _ _ _ _ ih =>
      rw [List.filter_cons, List.filter_cons]
      split
      · exact .right ih
      · exact ih

/-- **A filter that keeps nothing of `ys` keeps what it keeps of `xs`.** -/
theorem filter_left (h : Interleaving xs ys zs) {p : α → Bool} (hp : ∀ y ∈ ys, p y = false) :
    zs.filter p = xs.filter p := by
  have hn : ys.filter p = [] := List.filter_eq_nil_iff.mpr fun y hy => by simp [hp y hy]
  have hf := h.filter p
  rw [hn] at hf
  exact hf.nil_right

end Interleaving

end Support
