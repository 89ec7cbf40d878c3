import OxDex.Support.Linearization
import OxDex.Support.Transition

/-!
# Support — Concurrency

An object that is called from many sides at once, and whose calls take several steps.

A call is a `Job`: the question, and how far it has got.  `Object.system` interleaves the steps of
any number of jobs with other steps on the same state.

`Atomic.linearizes` is the rule for showing that each job takes effect at one of its steps, the one
that settles its answer: a step that settles nothing leaves the abstract state alone, one that does
is a step of the specification, and no step takes from another job what this has made sure of
(`Atomic`).  Then the answers and the other steps, in the order they come in, are a run of the
specification, and they linearize the calls and returns.
-/

namespace Support

/-- How far a job has got. -/
inductive Progress (T R : Type*) where
  | working (stage : T)
  | answered (r : R)
  | done (r : R)

/-- A call under way. -/
structure Job (Q T R : Type*) where
  call : Q
  progress : Progress T R

/-- An object with states `σ`, questions `Q`, answers `R` and other steps `ε`; a job that has not
answered yet stands at one of the stages `T`. -/
structure Object (σ Q T R ε : Type*) where
  start : T
  admits : σ → Q → Prop
  /-- A step of a job: it goes on, or answers. -/
  advance : Q → T → σ → T ⊕ R → σ → Prop
  other : σ → ε → σ → Prop

/-- The state of an object with its jobs. -/
structure Config (σ Q T R : Type*) where
  state : σ
  jobs : List (Job Q T R)

/-- What happens to an object. -/
inductive ObjectEvent (Q R ε : Type*) where
  | receive (k : Nat) (q : Q)
  | check (k : Nat)
  | answer (k : Nat) (q : Q) (r : R)
  | respond (k : Nat) (r : R)
  | other (e : ε)

variable {σ Q T R ε : Type*}

namespace Object
variable (O : Object σ Q T R ε)

/-- A step of an object: of one of its jobs, or another. -/
inductive Step : Config σ Q T R → ObjectEvent Q R ε → Config σ Q T R → Prop where
  | receive (c : Config σ Q T R) {q : Q} (h : O.admits c.state q) :
      Step c (.receive c.jobs.length q)
        { c with jobs := c.jobs ++ [⟨q, .working O.start⟩] }
  | check {c : Config σ Q T R} {k : Nat} {q : Q} {t t' : T} {s : σ}
      (hk : c.jobs[k]? = some ⟨q, .working t⟩) (h : O.advance q t c.state (.inl t') s) :
      Step c (.check k) ⟨s, c.jobs.set k ⟨q, .working t'⟩⟩
  | answer {c : Config σ Q T R} {k : Nat} {q : Q} {t : T} {r : R} {s : σ}
      (hk : c.jobs[k]? = some ⟨q, .working t⟩) (h : O.advance q t c.state (.inr r) s) :
      Step c (.answer k q r) ⟨s, c.jobs.set k ⟨q, .answered r⟩⟩
  | respond {c : Config σ Q T R} {k : Nat} {q : Q} {r : R}
      (hk : c.jobs[k]? = some ⟨q, .answered r⟩) :
      Step c (.respond k r) { c with jobs := c.jobs.set k ⟨q, .done r⟩ }
  | other {c : Config σ Q T R} {e : ε} {s : σ} (h : O.other c.state e s) :
      Step c (.other e) { c with state := s }

/-- The object as a transition system. -/
def system : System (Config σ Q T R) (ObjectEvent Q R ε) := ⟨O.Step⟩

end Object

/-! ### The log of a run -/

/-- The marks an event leaves. -/
def ObjectEvent.marks : ObjectEvent Q R ε → Log Nat Q R
  | .receive k q => [(k, .call q)]
  | .answer k q r => [(k, .point q r)]
  | .respond k r => [(k, .ret r)]
  | _ => []

/-- The log of a run. -/
def logOf (tr : List (Config σ Q T R × ObjectEvent Q R ε)) : Log Nat Q R :=
  tr.flatMap fun p => p.2.marks

/-- The marks a job has left. -/
def Job.marks : Job Q T R → List (Mark Q R)
  | ⟨q, .working _⟩ => [.call q]
  | ⟨q, .answered r⟩ => [.call q, .point q r]
  | ⟨q, .done r⟩ => [.call q, .point q r, .ret r]

/-- Those of the job at `k`, if there is one. -/
def marksAt (jobs : List (Job Q T R)) (k : Nat) : List (Mark Q R) := jobs[k]?.elim [] Job.marks

theorem Job.course (j : Job Q T R) : Course j.marks := by
  obtain ⟨q, progress⟩ := j
  cases progress with
  | working t => exact .called q
  | answered r => exact .taken q r
  | done r => exact .returned q r

theorem course_marksAt (jobs : List (Job Q T R)) (k : Nat) : Course (marksAt jobs k) := by
  unfold marksAt
  cases jobs[k]? with
  | none => exact .uncalled
  | some j => exact j.course

section
variable {log : Log Nat Q R} {jobs : List (Job Q T R)}

/-- A job that goes on leaves its marks. -/
theorem marked_set (h : ∀ k, marks k log = marksAt jobs k) {k : Nat} {j j' : Job Q T R}
    (hk : jobs[k]? = some j) {l : List (Mark Q R)} (hj : j'.marks = j.marks ++ l) (k' : Nat) :
    marks k' (log ++ l.map (Prod.mk k)) = marksAt (jobs.set k j') k' := by
  have hlt : k < jobs.length := (List.getElem?_eq_some_iff.mp hk).1
  rw [marks_append, marks_map, h, marksAt, marksAt, List.getElem?_set]
  by_cases hkk : k = k'
  · subst hkk
    rw [if_pos rfl, if_pos rfl, if_pos hlt, hk]
    exact hj.symm
  · rw [if_neg hkk, if_neg hkk, List.append_nil]

/-- And so does a new one. -/
theorem marked_receive (h : ∀ k, marks k log = marksAt jobs k) (q : Q) (t : T) (k' : Nat) :
    marks k' (log ++ [(jobs.length, .call q)]) = marksAt (jobs ++ [⟨q, .working t⟩]) k' := by
  have hone : marks k' [(jobs.length, Mark.call (R := R) q)] =
    if jobs.length = k' then [.call q] else [] := marks_map [.call q]
  rw [marks_append, hone, h, marksAt, marksAt, List.getElem?_append]
  by_cases hlt : k' < jobs.length
  · rw [if_neg hlt.ne', if_pos hlt, List.append_nil]
  · rw [if_neg hlt, List.getElem?_eq_none (not_lt.mp hlt)]
    by_cases hkk : jobs.length = k'
    · subst hkk
      simp [Job.marks]
    · rw [if_neg hkk, List.getElem?_eq_none (by simp; omega)]
      rfl

end

/-! ### Jobs that take effect at one step -/

/-- What an event does to the specification: an answer is a step `req k q r`, another step takes the
steps `effect` says. -/
def ObjectEvent.spec {δ : Type*} (req : Nat → Q → R → δ) (effect : σ → ε → List δ) (s : σ) :
    ObjectEvent Q R ε → List δ
  | .answer k q r => [req k q r]
  | .other e => effect s e
  | _ => []

/-- What a run does to the specification, in order. -/
def specOf {δ : Type*} (req : Nat → Q → R → δ) (effect : σ → ε → List δ)
    (tr : List (Config σ Q T R × ObjectEvent Q R ε)) : List δ :=
  tr.flatMap fun p => p.2.spec req effect p.1.state

/-- **The jobs of `O` take effect at the step that settles their answer.**  `Inv` is what holds of
the state, `Ok` what a job has made sure of, and `abs` what the specification `S` sees. -/
structure Atomic {β δ : Type*} (O : Object σ Q T R ε) (S : System β δ) (req : Nat → Q → R → δ)
    (effect : σ → ε → List δ) (abs : σ → β) (Inv : σ → Prop) (Ok : σ → Q → T → Prop) : Prop where
  receive : ∀ s q, Inv s → O.admits s q → Ok s q O.start
  check : ∀ s q t t' s', Inv s → Ok s q t → O.advance q t s (.inl t') s' →
    Inv s' ∧ abs s' = abs s ∧ Ok s' q t' ∧ ∀ q t, Ok s q t → Ok s' q t
  answer : ∀ k s q t r s', Inv s → Ok s q t → O.advance q t s (.inr r) s' →
    Inv s' ∧ S.step (abs s) (req k q r) (abs s') ∧ ∀ q t, Ok s q t → Ok s' q t
  other : ∀ s e s', Inv s → O.other s e s' →
    Inv s' ∧ (∃ tr, S.Run (abs s) tr (abs s') ∧ tr.map Prod.snd = effect s e) ∧
      ∀ q t, Ok s q t → Ok s' q t

section
variable {β δ : Type*} {O : Object σ Q T R ε} {S : System β δ} {req : Nat → Q → R → δ}
  {effect : σ → ε → List δ} {abs : σ → β} {Inv : σ → Prop} {Ok : σ → Q → T → Prop}
  {tr : List (Config σ Q T R × ObjectEvent Q R ε)} {c c' : Config σ Q T R} {b : β}

/-- What holds of an object and the steps that led to it. -/
structure Runs (S : System β δ) (req : Nat → Q → R → δ) (effect : σ → ε → List δ) (abs : σ → β)
    (Inv : σ → Prop) (Ok : σ → Q → T → Prop) (b : β)
    (tr : List (Config σ Q T R × ObjectEvent Q R ε)) (c : Config σ Q T R) : Prop where
  inv : Inv c.state
  stages : ∀ j ∈ c.jobs, ∀ t, j.progress = .working t → Ok c.state j.call t
  marked : ∀ k, marks k (logOf tr) = marksAt c.jobs k
  spec : ∃ tr', S.Run b tr' (abs c.state) ∧ tr'.map Prod.snd = specOf req effect tr

theorem logOf_concat (p : Config σ Q T R × ObjectEvent Q R ε) :
    logOf (tr ++ [p]) = logOf tr ++ p.2.marks := by
  rw [logOf, List.flatMap_append, List.flatMap_singleton, logOf]

theorem specOf_concat (p : Config σ Q T R × ObjectEvent Q R ε) :
    specOf req effect (tr ++ [p]) = specOf req effect tr ++ p.2.spec req effect p.1.state := by
  rw [specOf, List.flatMap_append, List.flatMap_singleton, specOf]

/-- The specification goes on. -/
theorem Runs.more (h : Runs S req effect abs Inv Ok b tr c) {ev : ObjectEvent Q R ε} {b' : β}
    (hstep : ∃ tr', S.Run (abs c.state) tr' b' ∧ tr'.map Prod.snd = ev.spec req effect c.state) :
    ∃ tr', S.Run b tr' b' ∧ tr'.map Prod.snd = specOf req effect (tr ++ [(c, ev)]) := by
  obtain ⟨tr₁, h₁, hl₁⟩ := h.spec
  obtain ⟨tr₂, h₂, hl₂⟩ := hstep
  exact ⟨_, h₁.append h₂, by rw [List.map_append, hl₁, hl₂, specOf_concat]⟩

/-- The stages of the other jobs, when one is replaced. -/
theorem Runs.stages_set (h : Runs S req effect abs Inv Ok b tr c) {s : σ} {k : Nat}
    {j : Job Q T R} (hkeep : ∀ q t, Ok c.state q t → Ok s q t)
    (hj : ∀ t, j.progress = .working t → Ok s j.call t) :
    ∀ j' ∈ c.jobs.set k j, ∀ t, j'.progress = .working t → Ok s j'.call t := by
  intro j' hj' t ht
  rcases List.mem_or_eq_of_mem_set hj' with hm | rfl
  · exact hkeep _ _ (h.stages j' hm t ht)
  · exact hj t ht

/-- **The step lemma.** -/
theorem Atomic.step (hA : Atomic O S req effect abs Inv Ok)
    (h : Runs S req effect abs Inv Ok b tr c) {ev : ObjectEvent Q R ε} (hstep : O.Step c ev c') :
    Runs S req effect abs Inv Ok b (tr ++ [(c, ev)]) c' := by
  cases hstep with
  | @receive q hq =>
      refine ⟨h.inv, fun j hj t ht => ?_, fun k => ?_, h.more ⟨[], .refl _, rfl⟩⟩
      · rcases List.mem_append.mp hj with hm | hm
        · exact h.stages j hm t ht
        · cases List.mem_singleton.mp hm
          cases ht
          exact hA.receive _ _ h.inv hq
      · rw [logOf_concat]
        exact marked_receive h.marked q O.start k
  | @check k q t t' s hk hadv =>
      obtain ⟨hi, habs, hok, hkeep⟩ := hA.check _ _ _ _ _ h.inv
        (h.stages _ (List.mem_of_getElem? hk) t rfl) hadv
      refine ⟨hi, h.stages_set hkeep fun _ ht => ?_, fun k' => ?_, h.more ⟨[], ?_, rfl⟩⟩
      · cases ht
        exact hok
      · have hj : Job.marks (R := R) ⟨q, .working t'⟩ = Job.marks ⟨q, .working t⟩ ++ [] := rfl
        rw [logOf_concat]
        exact marked_set h.marked hk hj k'
      · rw [← habs]
        exact .refl _
  | @answer k q t r s hk hadv =>
      obtain ⟨hi, hspec, hkeep⟩ := hA.answer k _ _ _ _ _ h.inv
        (h.stages _ (List.mem_of_getElem? hk) t rfl) hadv
      refine ⟨hi, h.stages_set hkeep (fun _ ht => by cases ht), fun k' => ?_,
        h.more ⟨_, .one hspec, rfl⟩⟩
      rw [logOf_concat]
      exact marked_set h.marked hk (l := [.point q r]) rfl k'
  | @respond k q r hk =>
      refine ⟨h.inv, h.stages_set (fun _ _ => id) (fun _ ht => by cases ht), fun k' => ?_,
        h.more ⟨[], .refl _, rfl⟩⟩
      rw [logOf_concat]
      exact marked_set h.marked hk (l := [.ret r]) rfl k'
  | @other e s hother =>
      obtain ⟨hi, hspec, hkeep⟩ := hA.other _ _ _ h.inv hother
      refine ⟨hi, fun j hj t ht => hkeep _ _ (h.stages j hj t ht), fun k => ?_, h.more hspec⟩
      rw [logOf_concat]
      exact (congrArg (marks k) (List.append_nil _)).trans (h.marked k)

/-- The operations of a run's log are its answers. -/
theorem points_logOf {asked : δ → Option (Nat × Q × R)} (hreq : ∀ k q r, asked (req k q r) =
      some (k, q, r)) (hother : ∀ s e, (effect s e).filterMap asked = [])
    (tr : List (Config σ Q T R × ObjectEvent Q R ε)) :
    points (logOf tr) = (specOf req effect tr).filterMap asked := by
  induction tr with
  | nil => rfl
  | cons p tr ih =>
      obtain ⟨c, ev⟩ := p
      rw [logOf, List.flatMap_cons, points_append, specOf, List.flatMap_cons,
        List.filterMap_append]
      refine congrArg₂ (· ++ ·) ?_ ih
      cases ev with
      | receive k q | check k | respond k r => rfl
      | answer k q r =>
          show [(k, q, r)] = [req k q r].filterMap asked
          rw [List.filterMap_cons_some (hreq k q r)]
          rfl
      | other e => exact (hother c.state e).symm

/-- **The rule for linearizability.**  What a run does to the specification is a run of it, and its
answers linearize the calls and returns. -/
theorem Atomic.linearizes (hA : Atomic O S req effect abs Inv Ok)
    (asked : δ → Option (Nat × Q × R)) (hreq : ∀ k q r, asked (req k q r) = some (k, q, r))
    (hother : ∀ s e, (effect s e).filterMap asked = []) {s : σ} (hs : Inv s)
    (h : O.system.Run ⟨s, []⟩ tr c) :
    (∃ tr', S.Run (abs s) tr' (abs c.state) ∧ tr'.map Prod.snd = specOf req effect tr) ∧
      Linearizes (logOf tr) ((specOf req effect tr).filterMap asked) := by
  have hi : Runs S req effect abs Inv Ok (abs s) tr c := h.inv_history (S := O.system)
    (I := Runs S req effect abs Inv Ok (abs s)) (fun _ _ _ _ hi hstep => hA.step hi hstep)
    ⟨hs, fun j hj => absurd hj List.not_mem_nil, fun _ => rfl, [], .refl _, rfl⟩
  refine ⟨hi.spec, ?_⟩
  rw [← points_logOf hreq hother]
  refine Orderly.linearizes fun k => ?_
  rw [hi.marked k]
  exact course_marksAt c.jobs k

end

end Support
