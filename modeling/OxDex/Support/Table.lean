import Mathlib.Data.List.Nodup
import Mathlib.Tactic

/-!
# Support — Table

A finite table: a list of entries with pairwise distinct keys.  The keys' distinctness is a field,
so a table with two entries for one key cannot be built.

`find?` reads a key, `insertNew` adds an entry at an absent key, `mapWith` rewrites every value,
`modify` rewrites the value at one key.  Each has one lemma that says what `find?` reads after it,
and the entries of a table are the pairs `find?` reads (`mem_entries_iff`).
-/

namespace Support

/-- A finite map from keys to values. -/
structure Table (κ ν : Type*) where
  entries : List (κ × ν)
  nodup : (entries.map Prod.fst).Nodup

namespace Table

variable {κ ν : Type*}

theorem entries_injective : Function.Injective fun t : Table κ ν => t.entries := by
  rintro ⟨es, _⟩ ⟨es', _⟩ rfl
  rfl

variable [DecidableEq κ]

/-- The table with no entry. -/
def empty : Table κ ν := ⟨[], List.nodup_nil⟩

/-- The first value a list of entries has for `k`. -/
def findIn (k : κ) : List (κ × ν) → Option ν
  | [] => none
  | (k', v) :: es => if k' = k then some v else findIn k es

/-- The value at `k`. -/
def find? (t : Table κ ν) (k : κ) : Option ν := findIn k t.entries

/-- The values, in the order of the entries. -/
def values (t : Table κ ν) : List ν := t.entries.map Prod.snd

theorem findIn_eq_none_iff {k : κ} :
    ∀ {es : List (κ × ν)}, findIn k es = none ↔ k ∉ es.map Prod.fst
  | [] => by simp [findIn]
  | (k', v) :: es => by
      by_cases e : k' = k
      · simp [findIn, e]
      · simp only [findIn, if_neg e, List.map_cons, List.mem_cons, not_or]
        exact ⟨fun h => ⟨fun h' => e h'.symm, findIn_eq_none_iff.mp h⟩,
          fun h => findIn_eq_none_iff.mpr h.2⟩

theorem mem_of_findIn {k : κ} {v : ν} :
    ∀ {es : List (κ × ν)}, findIn k es = some v → (k, v) ∈ es
  | [], h => by simp [findIn] at h
  | (k', v') :: es, h => by
      by_cases e : k' = k
      · simp only [findIn, if_pos e, Option.some.injEq] at h
        subst e h
        exact List.mem_cons_self
      · simp only [findIn, if_neg e] at h
        exact List.mem_cons_of_mem _ (mem_of_findIn h)

theorem findIn_of_mem {k : κ} {v : ν} :
    ∀ {es : List (κ × ν)}, (es.map Prod.fst).Nodup → (k, v) ∈ es → findIn k es = some v
  | [], _, h => absurd h List.not_mem_nil
  | (k', v') :: es, hn, h => by
      rw [List.map_cons, List.nodup_cons] at hn
      rcases List.mem_cons.mp h with h | h
      · cases h; simp [findIn]
      · have hk : k' ≠ k := by
          rintro rfl
          exact hn.1 (List.mem_map.mpr ⟨_, h, rfl⟩)
        simp only [findIn, if_neg hk]
        exact findIn_of_mem hn.2 h

/-- **The entries are what `find?` reads.** -/
theorem mem_entries_iff {t : Table κ ν} {k : κ} {v : ν} :
    (k, v) ∈ t.entries ↔ t.find? k = some v :=
  ⟨findIn_of_mem t.nodup, mem_of_findIn⟩

theorem find?_eq_none_iff {t : Table κ ν} {k : κ} :
    t.find? k = none ↔ k ∉ t.entries.map Prod.fst :=
  findIn_eq_none_iff

theorem mem_values_iff {t : Table κ ν} {v : ν} : v ∈ t.values ↔ ∃ k, t.find? k = some v := by
  simp only [values, List.mem_map, Prod.exists, exists_eq_right, mem_entries_iff]

/-- Add an entry at a key the table does not have. -/
def insertNew (t : Table κ ν) (k : κ) (v : ν) (h : t.find? k = none) : Table κ ν where
  entries := t.entries ++ [(k, v)]
  nodup := by
    rw [List.map_append, List.nodup_append]
    refine ⟨t.nodup, List.nodup_singleton _, ?_⟩
    rintro a ha b hb rfl
    rw [List.map_singleton, List.mem_singleton] at hb
    subst hb
    exact find?_eq_none_iff.mp h ha

theorem findIn_append {k : κ} {v : ν} {k' : κ} :
    ∀ {es : List (κ × ν)}, findIn k es = none →
      findIn k' (es ++ [(k, v)]) = if k = k' then some v else findIn k' es
  | [], _ => by simp [findIn]
  | (k₁, v₁) :: es, h => by
      by_cases e : k₁ = k
      · simp [findIn, e] at h
      · simp only [findIn, if_neg e] at h
        have ih : findIn k' (es ++ [(k, v)]) = if k = k' then some v else findIn k' es :=
          findIn_append h
        by_cases e' : k₁ = k'
        · have : k ≠ k' := fun h' => e (e'.trans h'.symm)
          simp [findIn, e', this]
        · simp only [List.cons_append, findIn, if_neg e', ih]

/-- What `find?` reads after an insertion. -/
theorem find?_insertNew {t : Table κ ν} {k k' : κ} {v : ν} (h : t.find? k = none) :
    (t.insertNew k v h).find? k' = if k = k' then some v else t.find? k' :=
  findIn_append h

/-- Rewrite every value. -/
def mapWith (t : Table κ ν) (f : κ → ν → ν) : Table κ ν where
  entries := t.entries.map fun e => (e.1, f e.1 e.2)
  nodup := by
    rw [List.map_map]
    exact t.nodup

/-- What `find?` reads after every value is rewritten. -/
@[simp] theorem find?_mapWith {t : Table κ ν} {f : κ → ν → ν} {k : κ} :
    (t.mapWith f).find? k = (t.find? k).map (f k) := by
  obtain ⟨es, hn⟩ := t
  show findIn k (es.map fun e => (e.1, f e.1 e.2)) = (findIn k es).map (f k)
  clear hn
  induction es with
  | nil => rfl
  | cons e es ih =>
      by_cases h : e.1 = k
      · simp [findIn, h]
      · simp only [List.map_cons, findIn, if_neg h, ih]

/-- Two rewritings that agree on the table's entries give one table. -/
theorem mapWith_congr {t : Table κ ν} {f g : κ → ν → ν}
    (h : ∀ k v, t.find? k = some v → f k v = g k v) : t.mapWith f = t.mapWith g :=
  entries_injective (List.map_congr_left fun e he => by rw [h e.1 e.2 (mem_entries_iff.mp he)])

/-- A rewriting that changes no entry changes nothing. -/
theorem mapWith_eq_self {t : Table κ ν} {f : κ → ν → ν}
    (h : ∀ k v, t.find? k = some v → f k v = v) : t.mapWith f = t :=
  (mapWith_congr (g := fun _ v => v) h).trans (entries_injective (List.map_id _))

/-- Rewrite the value at one key. -/
def modify (t : Table κ ν) (k : κ) (f : ν → ν) : Table κ ν :=
  t.mapWith fun k' v => if k' = k then f v else v

/-- What `find?` reads after one value is rewritten. -/
theorem find?_modify {t : Table κ ν} {k k' : κ} {f : ν → ν} :
    (t.modify k f).find? k' = if k' = k then (t.find? k').map f else t.find? k' := by
  rw [modify, find?_mapWith]
  by_cases e : k' = k
  · simp [e]
  · simp [e, Option.map_id']

/-- Rewriting a value adds no key and removes none. -/
@[simp] theorem isSome_find?_modify {t : Table κ ν} {k k' : κ} {f : ν → ν} :
    ((t.modify k f).find? k').isSome = (t.find? k').isSome := by
  rw [find?_modify]
  split <;> simp

/-- How many values satisfy `p`. -/
def count (t : Table κ ν) (p : ν → Bool) : Nat := t.values.countP p

theorem count_pos_iff {t : Table κ ν} {p : ν → Bool} :
    0 < t.count p ↔ ∃ k v, t.find? k = some v ∧ p v = true := by
  rw [count, List.countP_pos_iff]
  constructor
  · rintro ⟨v, hv, hp⟩
    obtain ⟨k, hk⟩ := mem_values_iff.mp hv
    exact ⟨k, v, hk, hp⟩
  · rintro ⟨k, v, hk, hp⟩
    exact ⟨v, mem_values_iff.mpr ⟨k, hk⟩, hp⟩

end Table

end Support
