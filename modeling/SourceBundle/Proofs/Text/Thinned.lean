import SourceBundle.Text.Basic
/-!
# Thinning

A text is thinned when bytes go and white space is put for white space, but never so that two bytes
come together that stood apart: where bytes are gone, white space follows or the text ends. A mark
without white space that stands in the thinned text then stood in the text before
(`Thinned.exists_mark`), and what follows it there was thinned to what follows it now.
-/
namespace SourceBundle.Text

inductive Thinned : Text → Text → Prop
  | nil : Thinned [] []
  | keep {s t : Text} (b : UInt8) (h : Thinned s t) : Thinned (b :: s) (b :: t)
  | blank {s t : Text} {b c : UInt8} (hb : isSpace b) (hc : isSpace c) (h : Thinned s t) :
      Thinned (b :: s) (c :: t)
  | drop {s t : Text} (b : UInt8) (ht : ∀ c ∈ t.head?, isSpace c = true) (h : Thinned s t) :
      Thinned (b :: s) t

/-- A mark that holds no white space. -/
structure Solid (mark : Text) : Prop where
  ne_nil : mark ≠ []
  isSpace_eq_false : ∀ b ∈ mark, isSpace b = false

namespace Thinned

variable {s t u : Text}

theorem head?_isSpace (h : Thinned s t) (hs : ∀ c ∈ s.head?, isSpace c = true) :
    ∀ c ∈ t.head?, isSpace c = true := by
  cases h with
  | nil | keep => exact hs
  | blank _ hc _ =>
    rintro _ ⟨⟩
    exact hc
  | drop _ ht _ => exact ht

protected theorem trans (h : Thinned s t) (h' : Thinned t u) : Thinned s u := by
  induction h generalizing u with
  | nil => exact h'
  | keep b _ ih =>
    cases h' with
    | keep _ h' => exact .keep b (ih h')
    | blank hb hc h' => exact .blank hb hc (ih h')
    | drop _ hu h' => exact .drop b hu (ih h')
  | @blank _ _ b _ hb hc _ ih =>
    cases h' with
    | keep _ h' => exact .blank hb hc (ih h')
    | blank _ hd h' => exact .blank hb hd (ih h')
    | drop _ hu h' => exact .drop b hu (ih h')
  | drop b ht _ ih => exact .drop b (h'.head?_isSpace ht) (ih h')

theorem append (u : Text) (h : Thinned s t) : Thinned (u ++ s) (u ++ t) := by
  induction u with
  | nil => exact h
  | cons b u ih => exact .keep b ih

theorem append_drop (u : Text) (ht : ∀ c ∈ t.head?, isSpace c = true) (h : Thinned s t) :
    Thinned (u ++ s) t := by
  induction u with
  | nil => exact h
  | cons b u ih => exact .drop b ht ih

theorem of_nil (s : Text) : Thinned s [] := by
  have := append_drop s (by simp) .nil
  rwa [List.append_nil] at this

/-- White space, however much, is thinned to one byte of it. -/
theorem blank_append {b c : UInt8} (hb : isSpace b) (hc : isSpace c) (hu : isBlank u)
    (h : Thinned s t) : Thinned (b :: (u ++ s)) (c :: t) := by
  induction u generalizing b with
  | nil => exact .blank hb hc h
  | cons a u ih =>
    rw [isBlank, List.all_cons, Bool.and_eq_true] at hu
    refine .drop b ?_ (ih hu.1 hu.2)
    rintro _ ⟨⟩
    exact hc

theorem length_le (h : Thinned s t) : t.length ≤ s.length := by
  induction h with
  | nil => exact Nat.le_refl 0
  | keep _ _ ih | blank _ _ _ ih => exact Nat.succ_le_succ ih
  | drop _ _ _ ih => exact Nat.le_succ_of_le ih

/-! ## Marks -/

variable {mark : Text}

/-- In front of a byte that is no white space nothing is gone. -/
theorem exists_of_solid (hm : ∀ b ∈ mark, isSpace b = false)
    (h : Thinned s (mark ++ t)) : ∃ s', s = mark ++ s' ∧ Thinned s' t := by
  induction mark generalizing s with
  | nil => exact ⟨s, rfl, h⟩
  | cons b mark ih =>
    obtain ⟨hb, hmark⟩ := List.forall_mem_cons.1 hm
    rw [List.cons_append] at h
    cases h with
    | keep _ h =>
      obtain ⟨s', rfl, hs'⟩ := ih hmark h
      exact ⟨s', rfl, hs'⟩
    | blank _ hc _ => exact absurd hc (by simp [hb])
    | drop _ ht _ => exact absurd (ht b rfl) (by simp [hb])

/-- A byte of the thinned text comes from one before it, and what follows from what followed. -/
theorem exists_of_cons {c : UInt8} (h : Thinned s (c :: t)) :
    ∃ u b s', s = u ++ b :: s' ∧ Thinned s' t := by
  generalize ht : c :: t = t' at h
  induction h with
  | nil => cases ht
  | @keep s t' b h | @blank s t' b _ _ _ h =>
    obtain ⟨-, rfl⟩ := List.cons.inj ht
    exact ⟨[], b, s, rfl, h⟩
  | drop a _ _ ih =>
    obtain ⟨u, b, s', rfl, hs'⟩ := ih ht
    exact ⟨a :: u, b, s', rfl, hs'⟩

theorem exists_mark (hm : Solid mark) {t₁ t₂ : Text} (h : Thinned s (t₁ ++ mark ++ t₂)) :
    ∃ s₁ s₂, s = s₁ ++ mark ++ s₂ ∧ Thinned s₂ t₂ := by
  induction t₁ generalizing s with
  | nil =>
    obtain ⟨s₂, rfl, hs₂⟩ := exists_of_solid hm.isSpace_eq_false h
    exact ⟨[], s₂, rfl, hs₂⟩
  | cons c t₁ ih =>
    obtain ⟨u, b, s', rfl, hs'⟩ := exists_of_cons h
    obtain ⟨s₁, s₂, rfl, hs₂⟩ := ih hs'
    exact ⟨u ++ b :: s₁, s₂, by simp, hs₂⟩

/-- Thinning brings no mark about. -/
theorem isInfix_of_isInfix (hm : Solid mark) (h : Thinned s t) (ht : mark <:+: t) :
    mark <:+: s := by
  obtain ⟨t₁, t₂, rfl⟩ := ht
  obtain ⟨s₁, s₂, rfl, -⟩ := exists_mark hm h
  exact ⟨s₁, s₂, rfl⟩

end Thinned
end SourceBundle.Text
