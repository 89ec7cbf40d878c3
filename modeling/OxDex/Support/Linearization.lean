import Mathlib.Tactic

/-!
# Support — Linearization

Concurrent operations that take effect one at a time.

An operation is called, takes effect at a point, and returns; a `Log` records these marks in the
order of time.  `Linearizes` is what the points have to be for the calls and returns to look as if
the operations had run one after the other: every answered operation is there once with its answer,
every operation there has been called, and one that has returned before another is called comes
before it.

`Orderly.linearizes`: where every operation is called once, takes effect once after its call and
returns what it has got then, the points linearize the log.
-/

namespace Support

/-- What is recorded of an operation with question `q` and answer `r`. -/
inductive Mark (Q R : Type*) where
  | call (q : Q)
  | point (q : Q) (r : R)
  | ret (r : R)

/-- The marks of operations `ι`, in the order of time. -/
abbrev Log (ι Q R : Type*) := List (ι × Mark Q R)

/-- How far one operation may have got. -/
inductive Course {Q R : Type*} : List (Mark Q R) → Prop where
  | uncalled : Course []
  | called (q : Q) : Course [.call q]
  | taken (q : Q) (r : R) : Course [.call q, .point q r]
  | returned (q : Q) (r : R) : Course [.call q, .point q r, .ret r]

section
variable {ι Q R : Type*}

/-- The operation that a mark says has taken effect. -/
def pointOf : ι × Mark Q R → Option (ι × Q × R)
  | (k, .point q r) => some (k, q, r)
  | _ => none

/-- The operations in the order in which they have taken effect. -/
def points (log : Log ι Q R) : List (ι × Q × R) := log.filterMap pointOf

/-- **The operations `ops`, one after the other, explain the calls and returns of `log`.** -/
structure Linearizes (log : Log ι Q R) (ops : List (ι × Q × R)) : Prop where
  once : (ops.map Prod.fst).Nodup
  called : ∀ o ∈ ops, (o.1, Mark.call o.2.1) ∈ log
  answered : ∀ k r, (k, Mark.ret r) ∈ log → ∃ q, (k, q, r) ∈ ops
  order : ∀ o ∈ ops, ∀ o' ∈ ops, ∀ r q,
    [(o.1, Mark.ret r), (o'.1, Mark.call q)].Sublist log → [o, o'].Sublist ops

variable [DecidableEq ι]

/-- The marks of one operation. -/
def marks (k : ι) (log : Log ι Q R) : List (Mark Q R) :=
  log.filterMap fun e => if e.1 = k then some e.2 else none

/-- Every operation takes its course. -/
def Orderly (log : Log ι Q R) : Prop := ∀ k, Course (marks k log)

variable {k : ι} {q : Q} {r : R} {log log' : Log ι Q R}

theorem mem_marks {m : Mark Q R} : m ∈ marks k log ↔ (k, m) ∈ log := by
  simp only [marks, List.mem_filterMap, Option.ite_none_right_eq_some, Option.some.injEq]
  constructor
  · rintro ⟨⟨_, _⟩, h, rfl, rfl⟩
    exact h
  · intro h
    exact ⟨_, h, rfl, rfl⟩

theorem marks_append : marks k (log ++ log') = marks k log ++ marks k log' :=
  List.filterMap_append

/-- The marks that one operation leaves are its own. -/
theorem marks_map {k' : ι} (l : List (Mark Q R)) :
    marks k (l.map (Prod.mk k')) = if k' = k then l else [] := by
  rw [marks, List.filterMap_map]
  split
  · next h => exact (List.filterMap_congr fun m _ => if_pos h).trans List.filterMap_some
  · next h => exact List.filterMap_eq_nil_iff.mpr fun m _ => if_neg h

omit [DecidableEq ι] in
theorem points_append : points (log ++ log') = points log ++ points log' :=
  List.filterMap_append

omit [DecidableEq ι] in
theorem mem_points {o : ι × Q × R} :
    o ∈ points log ↔ (o.1, Mark.point o.2.1 o.2.2) ∈ log := by
  rw [points, List.mem_filterMap]
  constructor
  · rintro ⟨⟨k, m⟩, h, he⟩
    cases m with
    | call q => cases he
    | point q r => cases he; exact h
    | ret r => cases he
  · intro h
    exact ⟨_, h, rfl⟩

/-! ### The course of an operation -/

section
omit [DecidableEq ι]
variable {l l' : List (Mark Q R)}

/-- What has come so far is a course too. -/
theorem Course.left (h : Course (l ++ l')) : Course l := by
  generalize he : l ++ l' = w at h
  cases h with
  | uncalled => rw [(List.append_eq_nil_iff.mp he).1]; exact .uncalled
  | called q =>
      rcases l with _ | ⟨a, _ | ⟨b, l⟩⟩
      · exact .uncalled
      · cases he; exact .called q
      · cases he
  | taken q r =>
      rcases l with _ | ⟨a, _ | ⟨b, _ | ⟨c, l⟩⟩⟩
      · exact .uncalled
      · cases he; exact .called q
      · cases he; exact .taken q r
      · cases he
  | returned q r =>
      rcases l with _ | ⟨a, _ | ⟨b, _ | ⟨c, _ | ⟨d, l⟩⟩⟩⟩
      · exact .uncalled
      · cases he; exact .called q
      · cases he; exact .taken q r
      · cases he; exact .returned q r
      · cases he

/-- Nothing comes before the call. -/
theorem Course.before_call (h : Course (l ++ l')) (hc : Mark.call q ∈ l') : l = [] := by
  generalize he : l ++ l' = w at h
  cases l with
  | nil => rfl
  | cons a l =>
      cases h with
      | uncalled => cases he
      | called q' | taken q' r' | returned q' r' =>
          have htail : l ++ l' = _ := (List.cons.inj he).2
          have hmem := List.mem_append_right l hc
          rw [htail] at hmem
          simp at hmem

/-- The call comes before the point, and no other point does. -/
theorem Course.before_point (h : Course (l ++ [.point q r])) : l = [.call q] := by
  generalize he : l ++ [.point q r] = w at h
  rcases l with _ | ⟨a, _ | ⟨b, l⟩⟩
  · cases h <;> cases he
  · cases h <;> cases he
    rfl
  · have hmem := List.mem_append_right l (List.mem_singleton_self (Mark.point q r))
    cases h with
    | uncalled => cases he
    | called q' => cases he
    | taken q' r' | returned q' r' =>
        have htail : l ++ [.point q r] = _ := (List.cons.inj (List.cons.inj he).2).2
        rw [htail] at hmem
        simp at hmem

theorem Course.call_of_point (h : Course l) (hp : Mark.point q r ∈ l) : Mark.call q ∈ l := by
  cases h <;> simp_all

/-- What is returned is what the point has got. -/
theorem Course.point_of_ret (h : Course l) (hr : Mark.ret r ∈ l) : ∃ q, Mark.point q r ∈ l := by
  cases h <;> simp_all

end

/-! ### The points of an orderly log -/

theorem Orderly.left (h : Orderly (log ++ log')) : Orderly log := by
  intro k
  have hk := h k
  rw [marks_append] at hk
  exact hk.left

/-- No operation takes effect twice. -/
theorem Orderly.once (h : Orderly log) : ((points log).map Prod.fst).Nodup := by
  induction log using List.reverseRecOn with
  | nil => exact List.nodup_nil
  | append_singleton log e ih =>
      obtain ⟨k, m⟩ := e
      have hl := ih h.left
      rw [points_append, List.map_append]
      cases m with
      | call q => exact (List.append_nil _).symm ▸ hl
      | ret r => exact (List.append_nil _).symm ▸ hl
      | point q r =>
          have hk := h k
          rw [marks_append] at hk
          have hone : marks k [(k, Mark.point q r)] = [.point q r] :=
            (marks_map [.point q r]).trans (if_pos rfl)
          rw [hone] at hk
          refine List.nodup_append.mpr ⟨hl, List.nodup_singleton _, ?_⟩
          rintro k₁ hk₁ k₂ hk₂ rfl
          obtain ⟨o, ho, rfl⟩ := List.mem_map.mp hk₁
          obtain rfl : o.1 = k := List.mem_singleton.mp hk₂
          have hm := mem_marks.mpr (mem_points.mp ho)
          rw [hk.before_point] at hm
          cases List.mem_singleton.mp hm

/-- **The points of an orderly log linearize it.** -/
theorem Orderly.linearizes (h : Orderly log) : Linearizes log (points log) where
  once := h.once
  called := by
    intro o ho
    exact mem_marks.mp ((h o.1).call_of_point (mem_marks.mpr (mem_points.mp ho)))
  answered := by
    intro k r hr
    obtain ⟨q, hq⟩ := (h k).point_of_ret (mem_marks.mpr hr)
    exact ⟨q, mem_points.mpr (mem_marks.mp hq)⟩
  order := by
    intro o ho o' ho' r q hs
    obtain ⟨l, l', rfl, hret, hcall⟩ := List.cons_sublist_iff.mp hs
    rw [List.singleton_sublist] at hcall
    -- the first operation has taken effect by its return
    obtain ⟨q₁, hp⟩ := (h.left o.1).point_of_ret (mem_marks.mpr hret)
    have hfirst : (o.1, q₁, r) ∈ points l := mem_points.mpr (mem_marks.mp hp)
    have heq : (o.1, q₁, r) = o := by
      have hmem : (o.1, q₁, r) ∈ points (l ++ l') := by
        rw [points_append]
        exact List.mem_append_left _ hfirst
      exact List.inj_on_of_nodup_map h.once hmem ho rfl
    -- the second one has not been called by then
    have hnone : marks o'.1 l = [] := by
      have hk := h o'.1
      rw [marks_append] at hk
      exact hk.before_call (mem_marks.mpr hcall)
    have hsecond : o' ∈ points l' := by
      rw [points_append] at ho'
      refine (List.mem_append.mp ho').resolve_left fun hl => ?_
      have hm := mem_marks.mpr (mem_points.mp hl)
      rw [hnone] at hm
      exact absurd hm List.not_mem_nil
    rw [points_append]
    exact (List.singleton_sublist.mpr (heq ▸ hfirst)).append (List.singleton_sublist.mpr hsecond)

end

end Support
