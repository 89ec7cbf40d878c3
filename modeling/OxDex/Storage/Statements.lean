import OxDex.Storage.Interchange
import OxDex.Support.Concurrency

/-!
# Storage — Statements

The Postgres repository when it is called from many sides at once (`oxdex-storage`: `postgres.rs`).

The database runs one statement at a time.  Every method is one statement, but for `insert`: where
`ON CONFLICT (id) DO NOTHING` has returned no row, the stored order is read by a second one, and
anything may happen between the two.

`statements_linearizable`: the calls look as if each had been run at one go.  An `insert` that is
refused takes effect at its second statement: no statement deletes a row, so the row it conflicted
with is still there.
-/

namespace OxDex
open Support

/-- How far a call has got: nowhere yet, or through the first statement of an `insert` that has
found its identifier taken. -/
inductive PgStage where
  | started
  | conflicted

section
variable {J : Type} (P : Primitives) (codec : JsonCodec J) (iter : IterOrder (List UInt8 × Row J))

/-- What the second statement of `insert` comes to: the stored order is compared. -/
def PgOrderRepository.compareStored (signed : SignedOrder) (st : PgOrderRepository J) :
    RepoResult OrderRecord :=
  match st.get codec (signed.order.id P) with
  | .error e => .error e
  | .ok existing =>
      if existing.signed = signed then .ok existing else .error (.duplicate (signed.order.id P))

/-- One statement of `insert`. -/
def PgOrderRepository.insertStatement (now : Nat) (signed : SignedOrder) :
    PgStage → PgOrderRepository J → (PgStage ⊕ Outcome) × PgOrderRepository J
  | .started, st =>
      match codec.toValue signed with
      | .error e => (.inr (.record (.error (.backend ("encode signed: " ++ e)))), st)
      | .ok signedJson =>
          match h : st.orders.find? (signed.order.id P).bytes.toList with
          | none =>
              (.inr (.record (rowToRecord codec (signed.order.id P).bytes.toList
                (freshRow now signed signedJson))),
                ⟨st.orders.insertNew _ (freshRow now signed signedJson) h⟩)
          | some _ => (.inl .conflicted, st)
  | .conflicted, st => (.inr (.record (st.compareStored P codec signed)), st)

/-- One statement of a call. -/
def PgOrderRepository.statement (now : Nat) :
    RepoOp → PgStage → PgOrderRepository J → (PgStage ⊕ Outcome) × PgOrderRepository J
  | .insert s, stage, st => insertStatement P codec now s stage st
  | op, _, st => (.inr ((repository P codec iter).perform now op st).1,
      ((repository P codec iter).perform now op st).2)

/-- The calls of a table, statement by statement.  A call brings its reading of the clock. -/
def statements : Object (PgOrderRepository J) (Nat × RepoOp) PgStage Outcome Empty where
  start := .started
  admits := fun _ _ => True
  advance := fun call stage st out st' =>
    PgOrderRepository.statement P codec iter call.1 call.2 stage st = (out, st')
  other := fun _ e _ => e.elim

/-- The calls of a table, each at one go. -/
def calls : System (PgOrderRepository J) (Nat × (Nat × RepoOp) × Outcome) where
  step := fun st a st' =>
    (PgOrderRepository.repository P codec iter).perform a.2.1.1 a.2.1.2 st = (a.2.2, st')

end

/-- The answered calls of a run, in the order of the statements that answer them. -/
def answersOf {J : Type} (tr : List (Config (PgOrderRepository J) (Nat × RepoOp) PgStage Outcome ×
    ObjectEvent (Nat × RepoOp) Outcome Empty)) : List (Nat × (Nat × RepoOp) × Outcome) :=
  specOf (fun k call out => (k, call, out)) (fun _ e => e.elim) tr

/-- What a call has made sure of: where an `insert` has found its identifier taken, it is taken. -/
def PgStage.Ok {J : Type} (P : Primitives) (codec : JsonCodec J) (st : PgOrderRepository J)
    (call : Nat × RepoOp) : PgStage → Prop
  | .started => True
  | .conflicted => ∃ s, call.2 = .insert s ∧ (∃ j, codec.toValue s = .ok j) ∧
      (st.orders.find? (s.order.id P).bytes.toList).isSome

section
variable {J : Type} {P : Primitives} {codec : JsonCodec J} {iter : IterOrder (List UInt8 × Row J)}
  {st st' : PgOrderRepository J}

/-- A row that is there stays. -/
def KeepsRows (st st' : PgOrderRepository J) : Prop :=
  ∀ key, (st.orders.find? key).isSome → (st'.orders.find? key).isSome

theorem keepsRows_refl (st : PgOrderRepository J) : KeepsRows st st := fun _ h => h

theorem keepsRows_updateWhere (cond : List UInt8 → Row J → Bool) (set : Row J → Row J) :
    KeepsRows st (st.updateWhere cond set).2 := by
  intro key h
  show ((st.orders.mapWith fun k row => if cond k row then set row else row).find? key).isSome
  rw [Table.find?_mapWith, Option.isSome_map]
  exact h

theorem keepsRows_insertNew {key : List UInt8} (row : Row J) (h : st.orders.find? key = none) :
    KeepsRows st ⟨st.orders.insertNew key row h⟩ := by
  intro key' hk
  rw [Table.find?_insertNew]
  split
  · rfl
  · exact hk

/-- **No statement deletes a row.** -/
theorem keepsRows_statement {now : Nat} {op : RepoOp} {stage : PgStage} {out : PgStage ⊕ Outcome}
    (h : PgOrderRepository.statement P codec iter now op stage st = (out, st')) :
    KeepsRows st st' := by
  cases op with
  | get id | listOpen pair =>
      cases h
      exact keepsRows_refl _
  | updateStatus id status fs fb | cancel id owner | expireDue secs =>
      cases h
      exact keepsRows_updateWhere _ _
  | insert s =>
      cases stage with
      | conflicted =>
          cases h
          exact keepsRows_refl _
      | started =>
          simp only [PgOrderRepository.statement, PgOrderRepository.insertStatement] at h
          split at h
          · cases h
            exact keepsRows_refl _
          · split at h
            · cases h
              exact keepsRows_insertNew _ _
            · cases h
              exact keepsRows_refl _

theorem PgStage.Ok.keep {call : Nat × RepoOp} {stage : PgStage} (hok : stage.Ok P codec st call)
    (h : KeepsRows st st') : stage.Ok P codec st' call := by
  cases stage with
  | started => trivial
  | conflicted =>
      obtain ⟨s, hs, hj, hrow⟩ := hok
      exact ⟨s, hs, hj, h _ hrow⟩

/-! ### An insert at one go -/

section
variable {now : Nat} {s : SignedOrder}

theorem insert_unencoded {e : String} (he : codec.toValue s = .error e) :
    PgOrderRepository.insert P codec now s st =
      (.error (.backend ("encode signed: " ++ e)), st) := by
  simp only [PgOrderRepository.insert, he]

theorem insert_vacant {j : J} (hj : codec.toValue s = .ok j)
    (hn : st.orders.find? (s.order.id P).bytes.toList = none) :
    PgOrderRepository.insert P codec now s st =
      (rowToRecord codec (s.order.id P).bytes.toList (PgOrderRepository.freshRow now s j),
        ⟨st.orders.insertNew _ (PgOrderRepository.freshRow now s j) hn⟩) := by
  simp only [PgOrderRepository.insert, hj]
  split
  · rfl
  · next row hrow => rw [hn] at hrow; cases hrow

theorem insert_occupied {j : J} (hj : codec.toValue s = .ok j)
    (hrow : (st.orders.find? (s.order.id P).bytes.toList).isSome) :
    PgOrderRepository.insert P codec now s st = (st.compareStored P codec s, st) := by
  simp only [PgOrderRepository.insert, hj]
  split
  · next hn => rw [hn] at hrow; cases hrow
  · rfl

/-- It leaves a row. -/
theorem insert_leaves_row {j : J} (hj : codec.toValue s = .ok j) :
    ((PgOrderRepository.insert P codec now s st).2.orders.find?
      (s.order.id P).bytes.toList).isSome := by
  cases hrow : st.orders.find? (s.order.id P).bytes.toList with
  | none =>
      rw [insert_vacant hj hrow, Table.find?_insertNew, if_pos rfl]
      rfl
  | some row =>
      have hsome := Option.isSome_of_eq_some hrow
      rw [insert_occupied hj hsome]
      exact hsome

theorem insertStatement_vacant {j : J} (hj : codec.toValue s = .ok j)
    (hn : st.orders.find? (s.order.id P).bytes.toList = none) :
    PgOrderRepository.insertStatement P codec now s .started st =
      (.inr (.record (PgOrderRepository.insert P codec now s st).1),
        (PgOrderRepository.insert P codec now s st).2) := by
  rw [insert_vacant hj hn]
  simp only [PgOrderRepository.insertStatement, hj]
  split
  · rfl
  · next row hrow => rw [hn] at hrow; cases hrow

theorem insertStatement_occupied {j : J} (hj : codec.toValue s = .ok j)
    (hrow : (st.orders.find? (s.order.id P).bytes.toList).isSome) :
    PgOrderRepository.insertStatement P codec now s .started st = (.inl .conflicted, st) := by
  simp only [PgOrderRepository.insertStatement, hj]
  split
  · next hn => rw [hn] at hrow; cases hrow
  · rfl

end

/-! ### Its statements -/

/-- **A statement that answers** does what the whole call would do here. -/
theorem statement_answers {now : Nat} {op : RepoOp} {stage : PgStage} {out : Outcome}
    (hok : stage.Ok P codec st (now, op))
    (h : PgOrderRepository.statement P codec iter now op stage st = (.inr out, st')) :
    (PgOrderRepository.repository P codec iter).perform now op st = (out, st') := by
  cases op with
  | get id | listOpen pair | updateStatus id status fs fb | cancel id owner | expireDue secs =>
      cases h
      rfl
  | insert s =>
      cases stage with
      | conflicted =>
          obtain ⟨s', hs, ⟨j, hj⟩, hrow⟩ := hok
          cases hs
          cases h
          simp only [OrderRepository.perform, PgOrderRepository.repository,
            insert_occupied hj hrow]
      | started =>
          simp only [PgOrderRepository.statement, PgOrderRepository.insertStatement] at h
          split at h
          · next e he =>
              cases h
              simp only [OrderRepository.perform, PgOrderRepository.repository,
                insert_unencoded he]
          · next j hj =>
              split at h
              · next hn =>
                  cases h
                  simp only [OrderRepository.perform, PgOrderRepository.repository,
                    insert_vacant hj hn]
              · cases h

/-- **One that does not** has found the identifier taken. -/
theorem statement_conflicts {now : Nat} {op : RepoOp} {stage stage' : PgStage}
    (h : PgOrderRepository.statement P codec iter now op stage st = (.inl stage', st')) :
    st' = st ∧ stage'.Ok P codec st (now, op) := by
  cases op with
  | get id | listOpen pair | updateStatus id status fs fb | cancel id owner | expireDue secs =>
      cases h
  | insert s =>
      cases stage with
      | conflicted => cases h
      | started =>
          simp only [PgOrderRepository.statement, PgOrderRepository.insertStatement] at h
          split at h
          · cases h
          · next j hj =>
              split at h
              · cases h
              · next row hrow =>
                  cases h
                  exact ⟨rfl, s, rfl, ⟨j, hj⟩, Option.isSome_iff_exists.mpr ⟨row, hrow⟩⟩

/-- **Every call takes effect at the statement that answers it.** -/
theorem statements_atomic : Atomic (statements P codec iter) (calls P codec iter)
    (fun k call out => (k, call, out)) (fun _ e => e.elim) id (fun _ => True)
    (fun st call stage => stage.Ok P codec st call) where
  receive := fun _ _ _ _ => trivial
  check := by
    intro st call stage stage' st' _ _ h
    obtain ⟨rfl, hok⟩ := statement_conflicts h
    exact ⟨trivial, rfl, hok, fun _ _ h => h⟩
  answer := by
    intro k st call stage out st' _ hok h
    exact ⟨trivial, statement_answers hok h, fun _ _ hok' => hok'.keep (keepsRows_statement h)⟩
  other := by
    intro _ e
    cases e

/-- **The statements of concurrent calls linearize.**  Run at one go, in the order of the statements
that answer them, the calls give the same answers and leave the same table; and a call that has
returned before another is made comes before it. -/
theorem statements_linearizable
    {tr : List (Config (PgOrderRepository J) (Nat × RepoOp) PgStage Outcome ×
      ObjectEvent (Nat × RepoOp) Outcome Empty)}
    {c : Config (PgOrderRepository J) (Nat × RepoOp) PgStage Outcome}
    (h : (statements P codec iter).system.Run ⟨st, []⟩ tr c) :
    (∃ tr', (calls P codec iter).Run st tr' c.state ∧ tr'.map Prod.snd = answersOf tr) ∧
      Linearizes (logOf tr) (answersOf tr) := by
  have hlin := statements_atomic.linearizes some (fun _ _ _ => rfl) (fun _ e => e.elim) trivial h
  rwa [List.filterMap_some] at hlin

end

namespace Sample

/-- alice's order comes in twice at once, and is cancelled after the second insert has found it. -/
theorem twice_run : ∃ tr c,
    (statements primitives JsonCodec.plain (.id _)).system.Run ⟨.new, []⟩ tr c ∧
    (answersOf tr).map Prod.fst = [0, 2, 1] := by
  let S := statements primitives JsonCodec.plain (.id _)
  let first : Nat × RepoOp := (1, .insert (sign alice150))
  let again : Nat × RepoOp := (2, .insert (sign alice150))
  let cancel : Nat × RepoOp := (3, .cancel (alice150.id primitives) alice)
  have hvacant : PgOrderRepository.insertStatement primitives .plain 1 (sign alice150) .started
      .new = _ := insertStatement_vacant rfl rfl
  have hrow : ((PgOrderRepository.insert primitives .plain 1 (sign alice150) .new).2.orders.find?
      ((sign alice150).order.id primitives).bytes.toList).isSome := insert_leaves_row rfl
  obtain ⟨st, out, hinsert, hrow⟩ : ∃ st out,
      PgOrderRepository.statement primitives .plain (.id _) 1 first.2 .started .new =
        (.inr out, st) ∧
      (st.orders.find? ((sign alice150).order.id primitives).bytes.toList).isSome :=
    ⟨_, _, hvacant, hrow⟩
  obtain ⟨st', out', hcancel⟩ : ∃ st' out',
      PgOrderRepository.statement primitives .plain (.id _) 3 cancel.2 .started st =
        (.inr out', st') := ⟨_, _, rfl⟩
  have hoccupied : PgOrderRepository.insertStatement primitives .plain 2 (sign alice150) .started
      st = (.inl .conflicted, st) := insertStatement_occupied rfl hrow
  -- the second insert finds alice's order, and reads it when it is cancelled
  have h₀ : S.Step ⟨.new, []⟩ (.receive 0 first) ⟨.new, [⟨first, .working .started⟩]⟩ :=
    .receive _ trivial
  have h₁ : S.Step ⟨.new, [⟨first, .working .started⟩]⟩ (.receive 1 again)
      ⟨.new, [⟨first, .working .started⟩, ⟨again, .working .started⟩]⟩ := .receive _ trivial
  have h₂ : S.Step ⟨.new, [⟨first, .working .started⟩, ⟨again, .working .started⟩]⟩
      (.answer 0 first out) ⟨st, [⟨first, .answered out⟩, ⟨again, .working .started⟩]⟩ :=
    .answer rfl hinsert
  have h₃ : S.Step ⟨st, [⟨first, .answered out⟩, ⟨again, .working .started⟩]⟩ (.check 1)
      ⟨st, [⟨first, .answered out⟩, ⟨again, .working .conflicted⟩]⟩ :=
    .check rfl hoccupied
  have h₄ : S.Step ⟨st, [⟨first, .answered out⟩, ⟨again, .working .conflicted⟩]⟩
      (.receive 2 cancel) ⟨st, [⟨first, .answered out⟩, ⟨again, .working .conflicted⟩,
        ⟨cancel, .working .started⟩]⟩ := .receive _ trivial
  have h₅ : S.Step ⟨st, [⟨first, .answered out⟩, ⟨again, .working .conflicted⟩,
        ⟨cancel, .working .started⟩]⟩ (.answer 2 cancel out')
      ⟨st', [⟨first, .answered out⟩, ⟨again, .working .conflicted⟩,
        ⟨cancel, .answered out'⟩]⟩ := .answer rfl hcancel
  have h₆ : S.Step ⟨st', [⟨first, .answered out⟩, ⟨again, .working .conflicted⟩,
        ⟨cancel, .answered out'⟩]⟩
      (.answer 1 again (.record (st'.compareStored primitives .plain (sign alice150))))
      ⟨st', [⟨first, .answered out⟩,
        ⟨again, .answered (.record (st'.compareStored primitives .plain (sign alice150)))⟩,
        ⟨cancel, .answered out'⟩]⟩ := .answer rfl rfl
  exact ⟨_, _, .more h₀ (.more h₁ (.more h₂ (.more h₃ (.more h₄ (.more h₅ (.one h₆)))))), rfl⟩

end Sample

section
open Sample

/-- Run at one go, the cancel comes between the two inserts. -/
theorem statements_linearizable_three : ∃ (tr : List (Config (PgOrderRepository SignedOrder)
      (Nat × RepoOp) PgStage Outcome × ObjectEvent (Nat × RepoOp) Outcome Empty))
      (c : Config (PgOrderRepository SignedOrder) (Nat × RepoOp) PgStage Outcome),
    (answersOf tr).map Prod.fst = [0, 2, 1] ∧
    (∃ tr', (calls primitives JsonCodec.plain (.id _)).Run .new tr' c.state ∧
      tr'.map Prod.snd = answersOf tr) ∧ Linearizes (logOf tr) (answersOf tr) := by
  obtain ⟨tr, c, h, hkeys⟩ := twice_run
  exact ⟨tr, c, hkeys, statements_linearizable h⟩

end

end OxDex
