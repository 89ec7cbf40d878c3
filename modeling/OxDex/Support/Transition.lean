import Mathlib.Tactic

/-!
# Support — Transition

Labelled transition systems and their finite runs.  A run keeps its trace: for every step, the
state it was taken in and its label.

* `Run.inv`: what every step preserves, every run preserves.
* `Run.inv_under`: what every step that meets a condition preserves, every run whose steps all meet
  it preserves.  The condition is on the state before the step and on the label.
* `Run.inv_history`: the same for what is said of a state and the steps that led to it.
* `Run.pairwise`: what every step leaves behind, and every later step keeps, every later step meets.

* `Run.amortize`: what the steps of a run cost is covered by their credit and a potential.
* `Run.reaches`: where every state has a step that lowers a rank, steps lead to a final state.

Two runs can be joined (`Run.append`), a run can be broken off at any of its steps (`Run.split`),
and it can be read under other labels (`Run.relabel`).
`Run.simulate`: where every step can be matched, every run can, step by step.
-/

namespace Support

/-- A transition system with labels `ε`. -/
structure System (σ ε : Type*) where
  step : σ → ε → σ → Prop

namespace System

variable {σ ε : Type*} {S : System σ ε}

/-- `S.Run s tr s'`: the steps of `tr`, in order, lead from `s` to `s'`. -/
inductive Run (S : System σ ε) : σ → List (σ × ε) → σ → Prop where
  | refl (s : σ) : Run S s [] s
  | more {s s₁ s' : σ} {e : ε} {tr : List (σ × ε)}
      (h : S.step s e s₁) (t : Run S s₁ tr s') : Run S s ((s, e) :: tr) s'

namespace Run

theorem one {s s' : σ} {e : ε} (h : S.step s e s') : S.Run s [(s, e)] s' :=
  .more h (.refl _)

theorem append {s s₁ s' : σ} {tr tr' : List (σ × ε)} (h : S.Run s tr s₁) (h' : S.Run s₁ tr' s') :
    S.Run s (tr ++ tr') s' := by
  induction h with
  | refl => exact h'
  | more h _ ih => exact .more h (ih h')

theorem snoc {s s₁ s' : σ} {e : ε} {tr : List (σ × ε)} (h : S.Run s tr s₁) (h' : S.step s₁ e s') :
    S.Run s (tr ++ [(s₁, e)]) s' :=
  h.append (one h')

/-- A run goes through the state of each of its steps. -/
theorem split {s s' : σ} {p : σ × ε} {tr₁ tr₂ : List (σ × ε)} (h : S.Run s (tr₁ ++ p :: tr₂) s') :
    S.Run s tr₁ p.1 := by
  induction tr₁ generalizing s with
  | nil =>
      cases h with
      | more _ _ => exact .refl _
  | cons q tr₁ ih =>
      cases h with
      | more h t => exact .more h (ih t)

/-- A run of a system is one of every system that has its steps, under other labels. -/
theorem relabel {ε' : Type*} {T : System σ ε'} {f : ε → ε'}
    (hf : ∀ s e s', S.step s e s' → T.step s (f e) s') {s s' : σ} {tr : List (σ × ε)}
    (h : S.Run s tr s') : T.Run s (tr.map fun p => (p.1, f p.2)) s' := by
  induction h with
  | refl => exact .refl _
  | more h _ ih => exact .more (hf _ _ _ h) ih

/-- **The simulation rule.**  If every step of `S` is matched by one of `T` from a related state to
a related state, then so is every run, and the runs are related state by state and label by
label. -/
theorem simulate {σ' ε' : Type*} {T : System σ' ε'} {A : σ → σ' → Prop} {L : ε → ε' → Prop}
    (hstep : ∀ s s' e s₁, A s s' → S.step s e s₁ →
      ∃ e' s₁', L e e' ∧ T.step s' e' s₁' ∧ A s₁ s₁') {s s₁ : σ} {tr : List (σ × ε)}
    (h : S.Run s tr s₁) {s' : σ'} (hr : A s s') : ∃ tr' s₁', T.Run s' tr' s₁' ∧ A s₁ s₁' ∧
      List.Forall₂ (fun p q => A p.1 q.1 ∧ L p.2 q.2) tr tr' := by
  induction h generalizing s' with
  | refl => exact ⟨[], s', .refl _, hr, .nil⟩
  | more h _ ih =>
      obtain ⟨e', s₂', hl, hT, hr₂⟩ := hstep _ _ _ _ hr h
      obtain ⟨tr', s₁', hrun, hr₁, hall⟩ := ih hr₂
      exact ⟨_, s₁', .more hT hrun, hr₁, .cons ⟨hr, hl⟩ hall⟩

/-- **The invariant rule, under a condition on the steps.** -/
theorem inv_under {I : σ → Prop} {C : σ → ε → Prop}
    (hI : ∀ s e s', I s → C s e → S.step s e s' → I s') {s s' : σ} {tr : List (σ × ε)}
    (h : S.Run s tr s') (hC : ∀ p ∈ tr, C p.1 p.2) (hs : I s) : I s' := by
  induction h with
  | refl => exact hs
  | more h _ ih =>
      exact ih (fun p hp => hC p (List.mem_cons_of_mem _ hp))
        (hI _ _ _ hs (hC _ List.mem_cons_self) h)

/-- **The invariant rule.** -/
theorem inv {I : σ → Prop} (hI : ∀ s e s', I s → S.step s e s' → I s') {s s' : σ}
    {tr : List (σ × ε)} (h : S.Run s tr s') (hs : I s) : I s' :=
  h.inv_under (C := fun _ _ => True) (fun s e s' hi _ => hI s e s' hi) (fun _ _ => trivial) hs

/-- **The invariant rule, with the steps so far.** -/
theorem inv_history {I : List (σ × ε) → σ → Prop}
    (hI : ∀ tr s e s', I tr s → S.step s e s' → I (tr ++ [(s, e)]) s') {s s' : σ}
    {tr : List (σ × ε)} (h : S.Run s tr s') (hs : I [] s) : I tr s' := by
  have key : ∀ pre, I pre s → I (pre ++ tr) s' := by
    clear hs
    induction h with
    | refl => exact fun pre hp => (List.append_nil pre).symm ▸ hp
    | @more s s₁ s' e tr h _ ih =>
        intro pre hp
        have := ih (pre ++ [(s, e)]) (hI pre s e s₁ hp h)
        rwa [List.append_assoc] at this
  exact key [] hs

/-- **The rule of the potential.**  If what every step costs, with what it leaves of the potential,
is covered by its credit and the potential before it, then so is what a run costs. -/
theorem amortize {I : σ → Prop} {Φ : σ → Nat} (cost credit : σ × ε → Nat)
    (hI : ∀ s e s', I s → S.step s e s' → I s')
    (hΦ : ∀ s e s', I s → S.step s e s' → cost (s, e) + Φ s' ≤ credit (s, e) + Φ s) {s s' : σ}
    {tr : List (σ × ε)} (h : S.Run s tr s') (hs : I s) :
    (tr.map cost).sum + Φ s' ≤ (tr.map credit).sum + Φ s := by
  induction h with
  | refl => exact le_rfl
  | more h _ ih =>
      have h₁ := hΦ _ _ _ hs h
      have h₂ := ih (hI _ _ _ hs h)
      rw [List.map_cons, List.map_cons, List.sum_cons, List.sum_cons]
      omega

/-- **The rule of the rank.**  If from every state that is not final a step of some kind leads to a
state of lower rank, then steps of that kind lead to a final state. -/
theorem reaches {ρ : Type*} {r : ρ → ρ → Prop} (hr : WellFounded r) (rank : σ → ρ)
    {I final : σ → Prop} (C : ε → Prop)
    (h : ∀ s, I s → ¬ final s → ∃ e s', S.step s e s' ∧ C e ∧ I s' ∧ r (rank s') (rank s)) :
    ∀ s, I s → ∃ tr s', S.Run s tr s' ∧ (∀ p ∈ tr, C p.2) ∧ final s' := by
  intro s
  induction hx : rank s using hr.induction generalizing s with
  | _ x ih =>
      subst hx
      intro hs
      by_cases hf : final s
      · exact ⟨[], s, .refl _, fun p hp => absurd hp List.not_mem_nil, hf⟩
      · obtain ⟨e, s₁, hstep, he, hs₁, hlt⟩ := h s hs hf
        obtain ⟨tr, s', hrun, hC, hf'⟩ := ih _ hlt s₁ rfl hs₁
        exact ⟨_, s', .more hstep hrun, List.forall_mem_cons.mpr ⟨he, hC⟩, hf'⟩

section
variable {I : σ → Prop} {C : σ → ε → Prop} {L : σ × ε → σ → Prop} {Q : σ × ε → σ × ε → Prop}

/-- What a step has left behind stays over the rest of the run, whose steps all meet it. -/
theorem after (hI : ∀ s e s', I s → C s e → S.step s e s' → I s')
    (keep : ∀ p s e s', I s → C s e → L p s → S.step s e s' → L p s')
    (meets : ∀ p s e s', I s → C s e → L p s → S.step s e s' → Q p (s, e)) {s s' : σ}
    {tr : List (σ × ε)} (h : S.Run s tr s') (hC : ∀ p ∈ tr, C p.1 p.2) (hs : I s) {p : σ × ε}
    (hp : L p s) : L p s' ∧ ∀ q ∈ tr, Q p q := by
  induction h with
  | refl => exact ⟨hp, fun q hq => absurd hq List.not_mem_nil⟩
  | more h _ ih =>
      have hc := hC _ List.mem_cons_self
      obtain ⟨h₁, h₂⟩ := ih (fun q hq => hC q (List.mem_cons_of_mem _ hq)) (hI _ _ _ hs hc h)
        (keep p _ _ _ hs hc hp h)
      refine ⟨h₁, fun q hq => ?_⟩
      rcases List.mem_cons.mp hq with rfl | hq
      · exact meets p _ _ _ hs hc hp h
      · exact h₂ q hq

/-- **The rule for pairs of steps.**  If every step leaves something behind (`L`), which every
later step keeps and meets, then any two steps of a run, the earlier and the later, are related. -/
theorem pairwise (hI : ∀ s e s', I s → C s e → S.step s e s' → I s')
    (leave : ∀ s e s', I s → C s e → S.step s e s' → L (s, e) s')
    (keep : ∀ p s e s', I s → C s e → L p s → S.step s e s' → L p s')
    (meets : ∀ p s e s', I s → C s e → L p s → S.step s e s' → Q p (s, e)) {s s' : σ}
    {tr : List (σ × ε)} (h : S.Run s tr s') (hC : ∀ p ∈ tr, C p.1 p.2) (hs : I s) :
    tr.Pairwise Q ∧ ∀ p ∈ tr, L p s' := by
  induction h with
  | refl => exact ⟨.nil, fun p hp => absurd hp List.not_mem_nil⟩
  | more h t ih =>
      have hc := hC _ List.mem_cons_self
      have hC' := fun q hq => hC q (List.mem_cons_of_mem _ hq)
      have hi := hI _ _ _ hs hc h
      obtain ⟨h₁, h₂⟩ := ih hC' hi
      obtain ⟨h₃, h₄⟩ := after hI keep meets t hC' hi (leave _ _ _ hs hc h)
      refine ⟨.cons h₄ h₁, fun q hq => ?_⟩
      rcases List.mem_cons.mp hq with rfl | hq
      · exact h₃
      · exact h₂ q hq

end

end Run

end System

end Support
