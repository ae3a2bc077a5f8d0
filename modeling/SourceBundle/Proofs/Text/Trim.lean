import Mathlib.Data.List.DropRight
import SourceBundle.Text.Basic
/-!
# Trimming

A trimmed text neither starts nor ends with white space. Trimming gives one, and leaves one as it
is.
-/
namespace SourceBundle.Text

theorem dropEndWhile_eq (p : UInt8 → Bool) (s : Text) : dropEndWhile p s = s.rdropWhile p := rfl

theorem exists_append_dropEndWhile (p : UInt8 → Bool) (s : Text) :
    ∃ e : Text, s = dropEndWhile p s ++ e ∧ ∀ b ∈ e, p b = true :=
  ⟨s.rtakeWhile p, List.rdropWhile_append_rtakeWhile.symm, fun _ h => List.mem_rtakeWhile_imp h⟩

theorem dropEndWhile_append {p : UInt8 → Bool} {e : Text} (s : Text) (h : ∀ b ∈ e, p b = true) :
    dropEndWhile p (s ++ e) = dropEndWhile p s := by
  induction e using List.reverseRecOn with
  | nil => rw [List.append_nil]
  | append_singleton e b ih =>
    rw [← List.append_assoc, dropEndWhile_eq, List.rdropWhile_concat_pos p _ b (h b (by simp)),
      ← dropEndWhile_eq, ih fun b hb => h b (by simp [hb])]

theorem dropEndWhile_eq_self {p : UInt8 → Bool} {s : Text}
    (h : ∀ b ∈ s.getLast?, p b = false) : dropEndWhile p s = s := by
  rw [dropEndWhile_eq, List.rdropWhile_eq_self_iff]
  intro hs
  simp [h _ (List.getLast?_eq_some_getLast hs)]

theorem getLast?_dropEndWhile {p : UInt8 → Bool} {s : Text} :
    ∀ b ∈ (dropEndWhile p s).getLast?, p b = false := by
  intro b hb
  have hs : s.rdropWhile p ≠ [] := by
    rintro hs
    simp [dropEndWhile_eq, hs] at hb
  have := List.rdropWhile_last_not p s hs
  rw [dropEndWhile_eq, List.getLast?_eq_some_getLast hs, Option.mem_some_iff] at hb
  simpa [hb] using this

/-! ## White space at the ends -/

theorem isBlank_iff {s : Text} : isBlank s = true ↔ ∀ b ∈ s, isSpace b = true := List.all_eq_true

theorem isBlank_append {s t : Text} : isBlank (s ++ t) = (isBlank s && isBlank t) :=
  List.all_append

/-- No white space at either end. -/
structure Trimmed (t : Text) : Prop where
  start : ∀ b ∈ t.head?, isSpace b = false
  stop : ∀ b ∈ t.getLast?, isSpace b = false

theorem trimStart_eq_self {s : Text} (h : ∀ b ∈ s.head?, isSpace b = false) : trimStart s = s := by
  cases s with
  | nil => rfl
  | cons b s => simp [trimStart, h b rfl]

theorem trimEnd_eq_self {s : Text} (h : ∀ b ∈ s.getLast?, isSpace b = false) : trimEnd s = s :=
  dropEndWhile_eq_self h

theorem trim_eq_self {t : Text} (h : Trimmed t) : trim t = t := by
  rw [trim, trimStart_eq_self h.start, trimEnd_eq_self h.stop]

theorem trimStart_append {e : Text} (s : Text) (h : isBlank e) :
    trimStart (e ++ s) = trimStart s := List.dropWhile_append_of_pos (isBlank_iff.1 h)

theorem trimEnd_append {e : Text} (s : Text) (h : isBlank e) : trimEnd (s ++ e) = trimEnd s :=
  dropEndWhile_append s (isBlank_iff.1 h)

theorem head?_trimStart {s : Text} : ∀ b ∈ (trimStart s).head?, isSpace b = false := by
  intro b hb
  have := List.head?_dropWhile_not isSpace s
  rw [show s.dropWhile isSpace = trimStart s from rfl, hb] at this
  simpa using this

theorem head?_of_isPrefix {s t : Text} (hs : s ≠ []) (h : s <+: t) : t.head? = s.head? := by
  obtain ⟨u, rfl⟩ := h
  cases s with
  | nil => exact absurd rfl hs
  | cons => rfl

theorem Trimmed.of_isPrefix {s t : Text} (h : s <+: t) (ht : ∀ b ∈ t.head?, isSpace b = false)
    (hs : ∀ b ∈ s.getLast?, isSpace b = false) : Trimmed s := by
  refine ⟨?_, hs⟩
  intro b hb
  have hne : s ≠ [] := by
    rintro rfl
    simp at hb
  exact ht b (head?_of_isPrefix hne h ▸ hb)

theorem trimmed_trim (s : Text) : Trimmed (trim s) :=
  .of_isPrefix (List.rdropWhile_prefix isSpace (l := trimStart s)) head?_trimStart
    getLast?_dropEndWhile

/-- What trimming takes away is white space. -/
theorem exists_append_trim (s : Text) :
    ∃ a e : Text, s = a ++ trim s ++ e ∧ isBlank a ∧ isBlank e := by
  obtain ⟨e, he, hb⟩ := exists_append_dropEndWhile isSpace (trimStart s)
  refine ⟨s.takeWhile isSpace, e, ?_, ?_, isBlank_iff.2 hb⟩
  · rw [List.append_assoc, show trim s ++ e = trimStart s from he.symm]
    exact (List.takeWhile_append_dropWhile (p := isSpace)).symm
  · exact isBlank_iff.2 fun b hb => List.mem_takeWhile_imp hb

theorem mem_of_mem_trim {b : UInt8} {s : Text} (h : b ∈ trim s) : b ∈ s := by
  obtain ⟨a, e, hs, -⟩ := exists_append_trim s
  rw [hs]
  exact List.mem_append_left _ (List.mem_append_right _ h)

theorem trim_eq_nil_iff {s : Text} : trim s = [] ↔ isBlank s = true := by
  constructor
  · intro h
    obtain ⟨a, e, hs, ha, he⟩ := exists_append_trim s
    rw [hs, h, isBlank_append, isBlank_append, ha, he]
    rfl
  · intro h
    have := trimStart_append [] h
    rw [List.append_nil] at this
    rw [trim, this]
    rfl

theorem Trimmed.not_isBlank {t : Text} (h : Trimmed t) (ht : t ≠ []) : isBlank t = false := by
  rw [Bool.eq_false_iff]
  intro hb
  exact ht (trim_eq_self h ▸ trim_eq_nil_iff.2 hb)

end SourceBundle.Text
