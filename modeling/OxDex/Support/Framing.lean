import Mathlib.Data.Set.Function
import Mathlib.Tactic

/-!
# Support — Framing

Encodings that can be read back from the front of a longer list.

`SelfDelimiting enc s` says that the code of an element of `s`, followed by anything, determines
the element and what follows.  Codes of one width are (`of_width`), so is a list behind a
self-delimiting code of its length (`prefixed`); and two self-delimiting codes one after the other
are (`append`).  A self-delimiting encoding is injective (`injOn`).
-/

namespace Support

variable {α β γ : Type*}

/-- A code at the front of a list can be told from what follows it. -/
def SelfDelimiting (enc : α → List γ) (s : Set α) : Prop :=
  ∀ a ∈ s, ∀ b ∈ s, ∀ x y, enc a ++ x = enc b ++ y → a = b ∧ x = y

namespace SelfDelimiting

variable {enc : α → List γ} {s : Set α}

theorem injOn (h : SelfDelimiting enc s) : Set.InjOn enc s :=
  fun a ha b hb e => (h a ha b hb [] [] (by rw [e])).1

theorem of_width {w : Nat} (hw : ∀ a ∈ s, (enc a).length = w) (hi : Set.InjOn enc s) :
    SelfDelimiting enc s := by
  intro a ha b hb x y h
  obtain ⟨he, hx⟩ := List.append_inj h ((hw a ha).trans (hw b hb).symm)
  exact ⟨hi ha hb he, hx⟩

/-- What is read through an injection. -/
theorem comp {f : β → α} {t : Set β} (h : SelfDelimiting enc s) (hf : Set.InjOn f t)
    (hm : Set.MapsTo f t s) : SelfDelimiting (fun b => enc (f b)) t := by
  intro a ha b hb x y he
  obtain ⟨hab, hx⟩ := h _ (hm ha) _ (hm hb) x y he
  exact ⟨hf ha hb hab, hx⟩

/-- **A list behind its length.** -/
theorem prefixed {len : Nat → List γ} {t : Set Nat} (h : SelfDelimiting len t) :
    SelfDelimiting (fun l : List γ => len l.length ++ l) {l | l.length ∈ t} := by
  intro a ha b hb x y he
  simp only [List.append_assoc] at he
  obtain ⟨hl, he⟩ := h _ ha _ hb _ _ he
  exact List.append_inj he hl

/-- **One code after the other.**  What the first determines and what the second determines, of two
elements whose codes agree. -/
theorem append {enc' : β → List γ} {s' : Set β} (h : SelfDelimiting enc s)
    (h' : SelfDelimiting enc' s') :
    SelfDelimiting (fun p : α × β => enc p.1 ++ enc' p.2) (s ×ˢ s') := by
  intro p hp q hq x y he
  simp only [List.append_assoc] at he
  obtain ⟨h₁, he⟩ := h _ hp.1 _ hq.1 _ _ he
  obtain ⟨h₂, he⟩ := h' _ hp.2 _ hq.2 _ _ he
  exact ⟨Prod.ext h₁ h₂, he⟩

end SelfDelimiting

end Support
