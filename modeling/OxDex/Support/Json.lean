import Mathlib.Data.List.Nodup
import Mathlib.Tactic

/-!
# Support — Json

JSON documents, and codecs between documents and values.

A codec reads a struct from an object by the names of its fields, in any order, and passes over
fields it does not know; it refuses a field that comes twice.  It reads a struct from an array of
its fields, too.  `Record` is a struct under construction: `field` and `pair` build one, and `codec`
is the codec of its objects.

`Carries a b` says that the document `b` has all that `a` has: the objects of `a` are in it with
their fields in any order, and maybe with others besides.  A codec is faithful if every document
that carries the encoding of a value is read as that value (`Codec.Faithful`), and the ways to build
codecs keep that.
-/

namespace Support

/-- A JSON document.  A number that is not an integer is kept as it is written. -/
inductive Json where
  | null
  | bool (b : Bool)
  | int (n : Int)
  | float (text : String)
  | str (s : String)
  | arr (elems : List Json)
  | obj (fields : List (String × Json))

namespace Json

/-- The value of a field, which is there once. -/
def field (name : String) (fields : List (String × Json)) : Option Json :=
  match fields.filter fun f => f.1 = name with
  | [f] => some f.2
  | _ => none

/-- The values of a struct's fields: by their names from an object, one by one from an array. -/
def struct (names : List String) : Json → Option (List Json)
  | .obj fields => names.mapM fun name => field name fields
  | .arr elems => if elems.length = names.length then some elems else none
  | _ => none

/-- **`b` has all that `a` has**, fields in any order and maybe more of them. -/
inductive Carries : Json → Json → Prop where
  | refl (a : Json) : Carries a a
  | obj {fs gs : List (String × Json)}
      (there : ∀ name v, field name fs = some v → (field name gs).isSome)
      (h : ∀ name v w, field name fs = some v → field name gs = some w → Carries v w) :
      Carries (.obj fs) (.obj gs)

variable {fs gs : List (String × Json)} {name : String}

/-- The order of the fields does not matter. -/
theorem field_perm (h : fs.Perm gs) : field name fs = field name gs := by
  have hp := h.filter fun f => f.1 = name
  unfold field
  generalize fs.filter (fun f => f.1 = name) = l at hp ⊢
  generalize gs.filter (fun f => f.1 = name) = l' at hp ⊢
  match l, l', hp with
  | [], [], _ => rfl
  | [f], l', hp => rw [List.singleton_perm.mp hp]
  | f :: f' :: l, [], hp => cases hp.length_eq
  | f :: f' :: l, [g], hp => cases hp.length_eq
  | f :: f' :: l, g :: g' :: l', _ => rfl
  | [], g :: l', hp => cases hp.length_eq

/-- Nor do other fields. -/
theorem field_append (h : name ∉ gs.map Prod.fst) : field name (fs ++ gs) = field name fs := by
  have hno : gs.filter (fun f => f.1 = name) = [] := by
    rw [List.filter_eq_nil_iff]
    intro f hf hn
    exact h (List.mem_map.mpr ⟨f, hf, of_decide_eq_true hn⟩)
  rw [field, field, List.filter_append, hno, List.append_nil]

/-- A field of an object without repeated names. -/
theorem field_of_mem (hn : (fs.map Prod.fst).Nodup) {v : Json} (h : (name, v) ∈ fs) :
    field name fs = some v := by
  induction fs with
  | nil => cases h
  | cons f fs ih =>
      obtain ⟨hf, hn⟩ := List.nodup_cons.mp hn
      rcases List.mem_cons.mp h with rfl | h
      · have hno : fs.filter (fun f => f.1 = name) = [] := by
          rw [List.filter_eq_nil_iff]
          exact fun g hg e => hf (List.mem_map.mpr ⟨g, hg, of_decide_eq_true e⟩)
        simp [field, hno]
      · have hne : f.1 ≠ name := fun e => hf (e ▸ List.mem_map.mpr ⟨_, h, rfl⟩)
        have := ih hn h
        simpa [field, hne] using this

namespace Carries

/-- What carries an object is an object with its fields. -/
theorem of_obj {j : Json} (h : Carries (.obj fs) j) : ∃ gs, j = .obj gs ∧
    ∀ name v, field name fs = some v → ∃ w, field name gs = some w ∧ Carries v w := by
  cases h with
  | refl => exact ⟨fs, rfl, fun _ v hv => ⟨v, hv, .refl v⟩⟩
  | @obj _ gs there h =>
      refine ⟨gs, rfl, fun name v hv => ?_⟩
      obtain ⟨w, hw⟩ := Option.isSome_iff_exists.mp (there name v hv)
      exact ⟨w, hw, h name v w hv hw⟩

theorem of_str {s : String} {j : Json} (h : Carries (.str s) j) : j = .str s := by
  cases h
  rfl

theorem of_int {n : Int} {j : Json} (h : Carries (.int n) j) : j = .int n := by
  cases h
  rfl

theorem of_bool {b : Bool} {j : Json} (h : Carries (.bool b) j) : j = .bool b := by
  cases h
  rfl

/-- A field of an object that has the same fields, with values that are carried. -/
theorem field_forall₂ (h : List.Forall₂ (fun f g => f.1 = g.1 ∧ Carries f.2 g.2) fs gs) {v : Json}
    (hv : field name fs = some v) : ∃ w, field name gs = some w ∧ Carries v w := by
  have hf : List.Forall₂ (fun f g => f.1 = g.1 ∧ Carries f.2 g.2)
      (fs.filter fun f => f.1 = name) (gs.filter fun g => g.1 = name) :=
    List.rel_filter (p := fun f => f.1 = name) (q := fun g => g.1 = name)
      (fun f g hfg => by simp [hfg.1]) h
  unfold field at hv ⊢
  generalize fs.filter (fun f => f.1 = name) = l at hf hv
  generalize gs.filter (fun g => g.1 = name) = l' at hf ⊢
  match l, l', hf, hv with
  | [f], [g], .cons hfg .nil, hv => exact ⟨g.2, rfl, Option.some.inj hv ▸ hfg.2⟩

/-- **An object with its fields in another order**, their values carried, and with others
besides. -/
theorem reordered {fs' more : List (String × Json)}
    (hv : List.Forall₂ (fun f g => f.1 = g.1 ∧ Carries f.2 g.2) fs fs') (h : (fs' ++ more).Perm gs)
    (hno : ∀ name ∈ fs.map Prod.fst, name ∉ more.map Prod.fst) : Carries (.obj fs) (.obj gs) := by
  have there : ∀ name v, field name fs = some v → ∃ w, field name gs = some w ∧ Carries v w := by
    intro name v hf
    have hmem : name ∈ fs.map Prod.fst := by
      by_contra hm
      have hnil : fs.filter (fun f => f.1 = name) = [] := by
        rw [List.filter_eq_nil_iff]
        exact fun f hf e => hm (List.mem_map.mpr ⟨f, hf, of_decide_eq_true e⟩)
      simp [field, hnil] at hf
    rw [← field_perm h, field_append (hno name hmem)]
    exact field_forall₂ hv hf
  refine .obj (fun name v hf => ?_) fun name v w hf hw => ?_
  · obtain ⟨w, hw, -⟩ := there name v hf
    rw [hw]
    rfl
  · obtain ⟨w', hw', hc⟩ := there name v hf
    rw [hw'] at hw
    exact Option.some.inj hw ▸ hc

/-- What carries an object carries each part of it. -/
theorem part {fs' : List (String × Json)} {j : Json} (h : Carries (.obj fs) j)
    (hp : ∀ name v, field name fs' = some v → field name fs = some v) : Carries (.obj fs') j := by
  obtain ⟨gs, rfl, hgs⟩ := h.of_obj
  refine .obj (fun name v hv => ?_) fun name v w hv hw => ?_
  · obtain ⟨w, hw, -⟩ := hgs name v (hp name v hv)
    rw [hw]
    rfl
  · obtain ⟨w', hw', hc⟩ := hgs name v (hp name v hv)
    rw [hw'] at hw
    exact Option.some.inj hw ▸ hc

end Carries

/-- **The fields of a struct** are found in every object that carries them. -/
theorem struct_of_carries {names : List String} {vs : List Json} (hn : names.Nodup)
    (hl : vs.length = names.length) {j : Json} (h : Carries (.obj (names.zip vs)) j) :
    ∃ ws, j.struct names = some ws ∧ List.Forall₂ Carries vs ws := by
  obtain ⟨gs, rfl, hgs⟩ := h.of_obj
  have hkeys : ((names.zip vs).map Prod.fst).Nodup := by
    rwa [List.map_fst_zip hl.ge]
  have hfields : ∀ p ∈ names.zip vs, ∃ w, field p.1 gs = some w ∧ Carries p.2 w :=
    fun p hp => hgs p.1 p.2 (field_of_mem hkeys hp)
  show ∃ ws, (names.mapM fun name => field name gs) = some ws ∧ _
  clear hkeys hgs h hn
  induction names generalizing vs with
  | nil =>
      obtain rfl := List.length_eq_zero_iff.mp hl
      exact ⟨[], rfl, .nil⟩
  | cons name names ih =>
      obtain ⟨v, vs, rfl⟩ := List.exists_cons_of_length_eq_add_one hl
      obtain ⟨w, hw, hc⟩ := hfields (name, v) List.mem_cons_self
      obtain ⟨ws, hws, hall⟩ := ih (Nat.succ.inj hl)
        fun p hp => hfields p (List.mem_cons_of_mem _ hp)
      refine ⟨w :: ws, ?_, .cons hc hall⟩
      rw [List.mapM_cons, hw, hws]
      rfl

end Json

open Json

/-! ### Codecs -/

/-- How values of a type are written and read. -/
structure Codec (α : Type*) where
  enc : α → Json
  dec : Json → Option α

/-- **Every document that carries the encoding of a value is read as that value.** -/
def Codec.Faithful {α : Type*} (c : Codec α) : Prop :=
  ∀ a j, Carries (c.enc a) j → c.dec j = some a

/-- The named fields of a struct, in their order. -/
structure Record (α : Type*) where
  names : List String
  write : α → List Json
  read : List Json → Option α

structure Record.Faithful {α : Type*} (r : Record α) : Prop where
  length : ∀ a, (r.write a).length = r.names.length
  read : ∀ a ws, List.Forall₂ Carries (r.write a) ws → r.read ws = some a

section
variable {α β : Type*}

/-- A string. -/
def Codec.str : Codec String where
  enc := .str
  dec
    | .str s => some s
    | _ => none

/-- A flag. -/
def Codec.bool : Codec Bool where
  enc := .bool
  dec
    | .bool b => some b
    | _ => none

/-- An integer of a range, as an element of a type that has these. -/
def Codec.int (toInt : α → Int) (ofInt : Int → α) (lo hi : Int) : Codec α where
  enc a := .int (toInt a)
  dec
    | .int n => if lo ≤ n ∧ n ≤ hi then some (ofInt n) else none
    | _ => none

/-- The unit variants of an enum, by their names.  A variant is also read from an object with its
name as the only field and `null` as its value. -/
def Codec.variant (name : α → String) (ofName : String → Option α) : Codec α where
  enc a := .str (name a)
  dec
    | .str s => ofName s
    | .obj [(s, .null)] => ofName s
    | _ => none

/-- The elements of a list, one by one. -/
def Codec.list (c : Codec α) : Codec (List α) where
  enc as := .arr (as.map c.enc)
  dec
    | .arr js => js.mapM c.dec
    | _ => none

/-- A value that is written through a codec for another type, and may be refused. -/
def Codec.via (c : Codec β) (put : α → β) (get? : β → Option α) : Codec α where
  enc a := c.enc (put a)
  dec j := (c.dec j).bind get?

/-- A struct with one field. -/
def Record.field (name : String) (c : Codec α) : Record α where
  names := [name]
  write a := [c.enc a]
  read
    | [j] => c.dec j
    | _ => none

/-- The fields of one struct and then those of another. -/
def Record.pair (r : Record α) (s : Record β) : Record (α × β) where
  names := r.names ++ s.names
  write p := r.write p.1 ++ s.write p.2
  read js := (r.read (js.take r.names.length)).bind fun a =>
    (s.read (js.drop r.names.length)).map fun b => (a, b)

/-- The codec of a struct. -/
def Record.codec (r : Record α) : Codec α where
  enc a := .obj (r.names.zip (r.write a))
  dec j := (j.struct r.names).bind r.read

theorem Codec.str_faithful : Codec.str.Faithful := fun s j h => by
  rw [show j = .str s from h.of_str]
  rfl

theorem Codec.bool_faithful : Codec.bool.Faithful := fun b j h => by
  rw [show j = .bool b from h.of_bool]
  rfl

theorem Codec.int_faithful {toInt : α → Int} {ofInt : Int → α} {lo hi : Int}
    (hr : ∀ a, lo ≤ toInt a ∧ toInt a ≤ hi) (hinv : ∀ a, ofInt (toInt a) = a) :
    (Codec.int toInt ofInt lo hi).Faithful := fun a j h => by
  rw [show j = .int (toInt a) from h.of_int]
  show (if lo ≤ toInt a ∧ toInt a ≤ hi then some (ofInt (toInt a)) else none) = some a
  rw [if_pos (hr a), hinv]

theorem Codec.variant_faithful {name : α → String} {ofName : String → Option α}
    (h : ∀ a, ofName (name a) = some a) : (Codec.variant name ofName).Faithful := fun a j hj => by
  rw [show j = .str (name a) from hj.of_str]
  exact h a

theorem Codec.Faithful.via {c : Codec β} (hc : c.Faithful) {put : α → β} {get? : β → Option α}
    (h : ∀ a, get? (put a) = some a) : (c.via put get?).Faithful := fun a j hj => by
  show (c.dec j).bind get? = some a
  rw [hc _ j hj]
  exact h a

theorem Codec.Faithful.field {c : Codec α} (hc : c.Faithful) (name : String) :
    (Record.field name c).Faithful where
  length _ := rfl
  read a ws h := by
    obtain ⟨w, ws, hw, hws, rfl⟩ := List.forall₂_cons_left_iff.mp h
    rw [List.forall₂_nil_left_iff.mp hws]
    exact hc a w hw

theorem Record.Faithful.pair {r : Record α} {s : Record β} (hr : r.Faithful) (hs : s.Faithful) :
    (r.pair s).Faithful where
  length p := by
    show (r.write p.1 ++ s.write p.2).length = (r.names ++ s.names).length
    rw [List.length_append, List.length_append, hr.length, hs.length]
  read p ws h := by
    have h₁ := List.forall₂_take_append ws (r.write p.1) (s.write p.2) h.flip
    have h₂ := List.forall₂_drop_append ws (r.write p.1) (s.write p.2) h.flip
    rw [hr.length] at h₁ h₂
    simp only [Record.pair, hr.read _ _ h₁.flip, hs.read _ _ h₂.flip]
    rfl

/-- **A struct is read from every object that carries it.** -/
theorem Record.Faithful.codec {r : Record α} (hr : r.Faithful) (hn : r.names.Nodup) :
    r.codec.Faithful := fun a j h => by
  obtain ⟨ws, hws, hall⟩ := struct_of_carries hn (hr.length a) h
  show (j.struct r.names).bind r.read = some a
  rw [hws]
  exact hr.read a ws hall

end

end Support
