import SourceBundle.Proofs.Skeleton.FixedPoint
/-!
# Texts joined at the top level

A scanner that ends one text outside all types, bodies and comments reads the next as if it came
first, and no line written for the first is blank at the end. So the skeleton of the two texts is
the skeleton of the one and then that of the other. A text that leaves nothing has a lone newline
for a skeleton, and adds nothing.
-/
namespace SourceBundle.Skeleton

open Text

/-! ## The lines written -/

theorem rdropWhile_append {as : List Text} (bs : List Text)
    (h : ∀ t ∈ as.getLast?, isBlank t = false) :
    (as ++ bs).rdropWhile isBlank = as ++ bs.rdropWhile isBlank := by
  induction bs using List.reverseRecOn with
  | nil => rw [List.append_nil, List.rdropWhile_nil, List.append_nil, rdropWhile_of_last h]
  | append_singleton bs t ih =>
    rw [← List.append_assoc]
    by_cases ht : isBlank t = true
    · rw [List.rdropWhile_concat_pos _ _ _ ht, List.rdropWhile_concat_pos _ _ _ ht, ih]
    · rw [List.rdropWhile_concat_neg _ _ _ ht, List.rdropWhile_concat_neg _ _ _ ht,
        List.append_assoc]

theorem written_of_run {x : Text} (h : (run .initial (lines x)).activity ≠ .inDoc) :
    written x = emissions .initial (lines x) :=
  rdropWhile_of_last (not_isBlank_last h)

/-- A text that the scanner leaves as it found it writes nothing that the next text could change. -/
theorem written_append {a : Text} (b : Text) (h : run .initial (lines a) = .initial) :
    written (a ++ newline :: b) = written a ++ written b := by
  have hdoc : (run .initial (lines a)).activity ≠ .inDoc := by
    rw [h]
    exact nofun
  rw [written_of_run hdoc, written, lines_append_newline, emissions_append, h,
    rdropWhile_append _ (not_isBlank_last hdoc), ← written]

/-! ## The skeletons -/

theorem skeletonize_eq_newline_iff {x : Text} : skeletonize x = [newline] ↔ written x = [] := by
  constructor
  · intro h
    by_contra hw
    -- One empty line would be joined to the same text, but the last line written is not blank.
    have hl := lines_skeletonize hw
    rw [h, show lines [newline] = [[]] ++ [[]] from rfl, List.append_left_inj] at hl
    have hblank := not_isBlank_last_written x [] (by rw [← hl]; rfl)
    cases hblank
  · exact skeletonize_of_written_nil

/-- A text after one that ends outside all types, bodies and comments adds its skeleton to the
first one's. -/
theorem skeletonize_append {a : Text} (b : Text)
    (h : run .initial (lines a) = ⟨.topLevel, .classifying⟩) :
    skeletonize (a ++ newline :: b) =
      if skeletonize a = [newline] then skeletonize b
      else if skeletonize b = [newline] then skeletonize a
      else skeletonize a ++ skeletonize b := by
  have hw : written (a ++ newline :: b) = written a ++ written b := written_append b h
  simp only [skeletonize_eq_newline_iff]
  by_cases ha : written a = []
  · rw [if_pos ha, skeletonize_eq_written, hw, ha, List.nil_append, ← skeletonize_eq_written]
  · rw [if_neg ha]
    by_cases hb : written b = []
    · rw [if_pos hb, skeletonize_eq_written, hw, hb, List.append_nil, ← skeletonize_eq_written]
    · rw [if_neg hb, skeletonize_eq_written, hw, joinLines_append ha hb, skeletonize_eq_written a,
        skeletonize_eq_written b]
      simp

/-- A class and after it a comment that stays open. -/
theorem skeletonize_append_class :
    run .initial (lines (ofString "class A\n  f() \x7b\n  \x7d\n\x7d")) =
        ⟨.topLevel, .classifying⟩ ∧
      skeletonize (ofString "class A\n  f() \x7b\n  \x7d\n\x7d" ++ newline :: ofString "/** b\n") =
        ofString "class A \x7b\n  f()\x7b\x7d\n\x7d\n/** b\n" := by
  have h : run .initial (lines (ofString "class A\n  f() \x7b\n  \x7d\n\x7d")) =
      ⟨.topLevel, .classifying⟩ := by decide +kernel
  refine ⟨h, ?_⟩
  rw [skeletonize_append _ h]
  decide +kernel

end SourceBundle.Skeleton
