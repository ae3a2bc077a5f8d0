import SourceBundle.Line.Declaration
import SourceBundle.Proofs.Line.Tail
import SourceBundle.Proofs.Regex.Language
import SourceBundle.Proofs.Text.Mark
/-!
# What the start of a line decides

Documentation, conditionals and types are told by how a line starts, and two of these starts never
go together. A start without a parenthesis is found before the first parenthesis.
-/
namespace SourceBundle.Line

open Text

/-! ## Starts -/

theorem startsWith_iff {m s : Text} : startsWith m s = true ↔ m <+: s := List.isPrefixOf_iff_prefix

theorem isDocStart_of_isPrefix {s t : Text} (h : s <+: t) (hs : isDocStart s = true) :
    isDocStart t = true :=
  startsWith_iff.2 ((startsWith_iff.1 hs).trans h)

theorem isDocStart_of_append {h u : Text} (hs : isDocStart (h ++ openParen :: u) = true) :
    isDocStart h = true :=
  startsWith_iff.2 (prefix_of_prefix_append_cons (startsWith_iff.1 hs) (by decide))

theorem startsAs_of_isPrefix {r : Regex} {s t : Text} (h : s <+: t) (hs : startsAs r s = true) :
    startsAs r t = true :=
  Regex.matchesStart_of_isPrefix
    (List.prefix_take_iff.2 ⟨(List.take_prefix headLimit s).trans h, List.length_take_le _ _⟩) hs

theorem startsAs_of_append {r : Regex} {h u : Text} {c : UInt8} (hr : r.mentions c = false)
    (hs : startsAs r (h ++ c :: u) = true) : startsAs r h = true := by
  obtain ⟨p, hp, ha⟩ := Regex.matchesStart_iff.1 hs
  obtain ⟨hp, hl⟩ := List.prefix_take_iff.1 hp
  have hc : c ∉ p := Regex.not_mem_of_mentions hr ha
  exact Regex.matchesStart_iff.2
    ⟨p, List.prefix_take_iff.2 ⟨prefix_of_prefix_append_cons hp hc, hl⟩, ha⟩

theorem declaresType_of_append {h u : Text} (hs : declaresType (h ++ openParen :: u) = true) :
    declaresType h = true :=
  startsAs_of_append (by decide) hs

/-! ## Types -/

theorem declaresType_nil : declaresType [] = false := by decide

theorem not_isDocStart_of_declaresType {t : Text} (ht : declaresType t = true) :
    isDocStart t = false := by
  rw [Bool.eq_false_iff]
  intro hd
  obtain ⟨u, rfl⟩ := startsWith_iff.1 hd
  cases ht

theorem not_isConditional_of_declaresType {t : Text} (ht : declaresType t = true) :
    isConditional t = false := by
  rw [Bool.eq_false_iff]
  intro hc
  rw [isConditional, Bool.and_eq_true] at hc
  obtain ⟨u, rfl⟩ := startsWith_iff.1 hc.1
  cases ht

theorem prefix_openType (t : Text) : t <+: openType t := by
  rw [openType]
  split
  · exact List.prefix_rfl
  · exact List.prefix_append t _

theorem endsWith_openType (t : Text) : endsWith [openBrace] (openType t) = true := by
  rw [openType]
  split
  · next h => exact h
  · exact endsWith_iff.2 ⟨t ++ [space], by simp⟩

theorem openType_openType (t : Text) : openType (openType t) = openType t :=
  if_pos (endsWith_openType t)

theorem declaresType_openType {t : Text} (ht : declaresType t = true) :
    declaresType (openType t) = true :=
  startsAs_of_isPrefix (prefix_openType t) ht

theorem trimmed_openType {t : Text} (ht : Trimmed t) (hd : declaresType t = true) :
    Trimmed (openType t) := by
  have hne : t ≠ [] := by
    rintro rfl
    rw [declaresType_nil] at hd
    cases hd
  refine ⟨?_, ?_⟩
  · rw [head?_of_isPrefix hne (prefix_openType t)]
    exact ht.start
  · intro b hb
    rw [endsWith_singleton.1 (endsWith_openType t), Option.mem_some_iff] at hb
    rw [← hb]
    rfl

/-! ## Functions -/

theorem not_startsWith_if_of_isHead {h u : Text}
    (hh : isHead functionHead h = true ∨ isHead arrowHead h = true) :
    startsWith "if" (h ++ u) = false := by
  rw [Bool.eq_false_iff]
  intro hs
  obtain ⟨v, hv⟩ := startsWith_iff.1 hs
  rw [show ("if" : Text) = [0x69, 0x66] from rfl] at hv
  cases h with
  | nil => exact absurd hh (by decide)
  | cons b h =>
    obtain ⟨rfl, -⟩ := List.cons_eq_cons.1 hv
    rw [isHead, isHead, Bool.and_eq_true, Bool.and_eq_true] at hh
    rcases hh with ⟨-, hh⟩ | ⟨-, hh⟩
    · cases hh
    · cases hh

theorem not_isConditional_of_isHead {h u : Text}
    (hh : isHead functionHead h = true ∨ isHead arrowHead h = true) :
    isConditional (h ++ u) = false := by
  rw [isConditional, not_startsWith_if_of_isHead hh]
  rfl

end SourceBundle.Line
