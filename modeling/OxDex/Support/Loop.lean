import Mathlib.Tactic

/-!
# Support — Loop

A `while` loop as the iteration of a partial step: `step s = none` says the loop is left at `s`.
`Loop.run step n s` takes at most `n` steps from `s`.

* `run_inv`: what one step preserves, a run preserves.
* `run_halts`: if a measure falls at every step, a run of at least that many steps from `s` ends
  where the loop is left of its own accord, so the bound `n` is never what stops it.
* `Visits`: the states the loop passes through, with the same invariant rule.  `Visits.of_run` is
  for loops that can be run.
* `run_related`: two loops whose steps keep a relation end in related states.
* `Ends`: where a loop is left, if it is.  `ends_simulated` is the rule for a loop that another
  follows in steps of its own.
-/

namespace Support

variable {σ : Type*}

/-- At most `n` steps from `s`. -/
def Loop.run (step : σ → Option σ) : Nat → σ → σ
  | 0, s => s
  | n + 1, s =>
      match step s with
      | none => s
      | some s' => Loop.run step n s'

namespace Loop

variable {step : σ → Option σ}

theorem run_of_none {n : Nat} {s : σ} (h : step s = none) : run step n s = s := by
  cases n with
  | zero => rfl
  | succ n => simp only [run, h]

theorem run_of_some {n : Nat} {s s' : σ} (h : step s = some s') :
    run step (n + 1) s = run step n s' := by
  simp only [run, h]

/-- **The invariant rule.**  What holds at the start and is kept by every step holds at the end. -/
theorem run_inv {P : σ → Prop} (hP : ∀ s s', P s → step s = some s' → P s') :
    ∀ (n : Nat) (s : σ), P s → P (run step n s)
  | 0, _, h => h
  | n + 1, s, h => by
      cases hs : step s with
      | none => rw [run_of_none hs]; exact h
      | some s' => rw [run_of_some hs]; exact run_inv hP n s' (hP s s' h hs)

/-- **Termination.**  Under an invariant, a measure that falls at every step bounds the run: after
`measure s` steps the loop has been left. -/
theorem run_halts {P : σ → Prop} {measure : σ → Nat}
    (hP : ∀ s s', P s → step s = some s' → P s')
    (hm : ∀ s s', P s → step s = some s' → measure s' < measure s) :
    ∀ (n : Nat) (s : σ), P s → measure s ≤ n → step (run step n s) = none
  | 0, s, hs, h => by
      cases hn : step s with
      | none => exact hn
      | some s' => exact absurd (hm s s' hs hn) (by omega)
  | n + 1, s, hs, h => by
      cases hn : step s with
      | none => rw [run_of_none hn]; exact hn
      | some s' =>
          rw [run_of_some hn]
          have := hm s s' hs hn
          exact run_halts hP hm n s' (hP s s' hs hn) (by omega)

/-- The states at which an iteration starts or the loop is left. -/
inductive Visits (step : σ → Option σ) (s₀ : σ) : σ → Prop where
  | start : Visits step s₀ s₀
  | next {s s' : σ} (h : Visits step s₀ s) (hs : step s = some s') : Visits step s₀ s'

/-- What holds at the start and is kept by every step holds wherever the loop comes. -/
theorem Visits.inv {s₀ s : σ} {P : σ → Prop} (hP : ∀ s s', P s → step s = some s' → P s')
    (h₀ : P s₀) (h : Visits step s₀ s) : P s := by
  induction h with
  | start => exact h₀
  | next _ hs ih => exact hP _ _ ih hs

/-- The loop comes to where it ends. -/
theorem Visits.run {s₀ : σ} : ∀ (n : Nat) {s : σ}, Visits step s₀ s →
    Visits step s₀ (Loop.run step n s)
  | 0, _, h => h
  | n + 1, s, h => by
      cases hs : step s with
      | none => rw [run_of_none hs]; exact h
      | some s' => rw [run_of_some hs]; exact Visits.run n (h.next hs)

/-- The loop is where it started, or comes on from its first step. -/
theorem Visits.front {s₀ s : σ} (h : Visits step s₀ s) :
    s = s₀ ∨ ∃ s₁, step s₀ = some s₁ ∧ Visits step s₁ s := by
  induction h with
  | start => exact .inl rfl
  | @next s s' _ hs ih =>
      rcases ih with rfl | ⟨s₁, h₁, hv⟩
      · exact .inr ⟨s', hs, .start⟩
      · exact .inr ⟨s₁, h₁, hv.next hs⟩

/-- **What a loop comes to can be run through**, to where it is left. -/
theorem Visits.of_run {P : σ → Prop} {n : Nat} : ∀ {s₀ s : σ}, Visits step s₀ s →
    step (Loop.run step n s₀) = none → (∀ k ≤ n, P (Loop.run step k s₀)) → P s := by
  induction n with
  | zero =>
      intro s₀ s hv hend h
      rcases hv.front with rfl | ⟨s₁, h₁, -⟩
      · exact h 0 le_rfl
      · cases hend.symm.trans h₁
  | succ n ih =>
      intro s₀ s hv hend h
      rcases hv.front with rfl | ⟨s₁, h₁, hv⟩
      · exact h 0 (Nat.zero_le _)
      · rw [run_of_some h₁] at hend
        refine ih hv hend fun k hk => ?_
        have hk := h (k + 1) (Nat.succ_le_succ hk)
        rwa [run_of_some h₁] at hk

/-- **Two loops in step.**  From related states, of which the first loop comes to the one, either
both loops are left or both step to related states; then they end in related states. -/
theorem run_related {τ : Type*} {step' : τ → Option τ} {R : σ → τ → Prop} {s₀ : σ}
    (hR : ∀ s t, Visits step s₀ s → R s t → Option.Rel R (step s) (step' t)) :
    ∀ (n : Nat) {s : σ} {t : τ}, Visits step s₀ s → R s t →
      R (Loop.run step n s) (Loop.run step' n t)
  | 0, _, _, _, h => h
  | n + 1, s, t, hv, h => by
      have hst := hR s t hv h
      cases hs : step s with
      | none =>
          rw [hs] at hst
          cases ht : step' t with
          | none => rw [run_of_none hs, run_of_none ht]; exact h
          | some t' => rw [ht] at hst; cases hst
      | some s' =>
          rw [hs] at hst
          cases ht : step' t with
          | none => rw [ht] at hst; cases hst
          | some t' =>
              rw [ht] at hst
              rw [run_of_some hs, run_of_some ht]
              cases hst with
              | some h' => exact run_related hR n (hv.next hs) h'

/-- The loop that is at `s` is left at `e`. -/
inductive Ends (step : σ → Option σ) : σ → σ → Prop where
  | left {s : σ} (h : step s = none) : Ends step s s
  | next {s s' e : σ} (h : step s = some s') (t : Ends step s' e) : Ends step s e

theorem Ends.unique {s e e' : σ} (h : Ends step s e) (h' : Ends step s e') : e = e' := by
  induction h with
  | left hn =>
      cases h' with
      | left => rfl
      | next hs _ => cases hn.symm.trans hs
  | next hs _ ih =>
      cases h' with
      | left hn => cases hn.symm.trans hs
      | next hs' t => exact ih (Option.some.inj (hs.symm.trans hs') ▸ t)

/-- What every step keeps holds where the loop is left. -/
theorem Ends.inv {s e : σ} {P : σ → Prop} (hP : ∀ s s', P s → step s = some s' → P s')
    (h : Ends step s e) (hs : P s) : P e := by
  induction h with
  | left _ => exact hs
  | next ht _ ih => exact ih (hP _ _ hs ht)

/-- A run that is long enough ends where the loop is left. -/
theorem ends_run : ∀ {n : Nat} {s : σ}, step (run step n s) = none → Ends step s (run step n s)
  | 0, _, h => .left h
  | n + 1, s, h => by
      cases hs : step s with
      | none => rw [run_of_none hs]; exact .left hs
      | some s' =>
          rw [run_of_some hs] at h ⊢
          exact .next hs (ends_run h)

/-- Wherever the loop comes, it ends at the same place. -/
theorem Visits.ends {s₀ s e : σ} (hv : Visits step s₀ s) (h : Ends step s₀ e) : Ends step s e := by
  induction hv with
  | start => exact h
  | next _ hs ih =>
      cases ih with
      | left hn => cases hn.symm.trans hs
      | next hs' t => exact Option.some.inj (hs'.symm.trans hs) ▸ t

/-- **A loop that follows another.**  For every step of the first loop the second takes any number
of steps, one or none among them, to a related state; where the first is left the second is led to
its own end. -/
theorem ends_simulated {τ : Type*} {step' : τ → Option τ} {R F : σ → τ → Prop} {s₀ : σ}
    (next : ∀ s s' t, Visits step s₀ s → R s t → step s = some s' →
      ∃ t', (∀ e, Ends step' t' e → Ends step' t e) ∧ R s' t')
    (left : ∀ s t, Visits step s₀ s → R s t → step s = none → ∃ e, Ends step' t e ∧ F s e)
    {s e : σ} (h : Ends step s e) (hv : Visits step s₀ s) {t : τ} (hr : R s t) :
    ∃ e', Ends step' t e' ∧ F e e' := by
  induction h generalizing t with
  | left hn => exact left _ t hv hr hn
  | next hs _ ih =>
      obtain ⟨t', hled, hr'⟩ := next _ _ t hv hr hs
      obtain ⟨e', he, hf⟩ := ih (hv.next hs) hr'
      exact ⟨e', hled e' he, hf⟩

end Loop

end Support
