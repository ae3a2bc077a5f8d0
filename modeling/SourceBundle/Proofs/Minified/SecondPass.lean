import SourceBundle.Proofs.Minified.BlockComments
import SourceBundle.Proofs.Minified.Layout
import SourceBundle.Proofs.Minified.LineComments
/-!
# The second pass

After the block comments nothing comes together any more: the strippers of line comments and the
layout only thin the text. So minified text holds no `//`, and each of its comments was there when
the block comments had gone. A second pass finds something to do in these, and in the hash lines
that only the layout has brought to light, and in nothing else.
-/
namespace SourceBundle.Minified

open Text

variable {x s t m l : Text}

/-! ## What the stages take away -/

theorem dropComments_sublist_dropBlockComments (x : Text) :
    (dropComments x).Sublist (dropBlockComments x) :=
  (perLine_dropHashLines.sublist unhashed_isPrefix _).trans
    (perLine_dropLineComments.sublist uncommented_isPrefix _)

theorem dropComments_sublist (x : Text) : (dropComments x).Sublist x :=
  (dropComments_sublist_dropBlockComments x).trans (dropBlockComments_sublist x)

/-- Once the slashes are gone, minifying is thinning. -/
theorem thinned_dropLineComments (x : Text) :
    Thinned (newline :: dropLineComments (dropBlockComments x)) (newline :: minify x) :=
  ((perLine_dropHashLines.thinned unhashed_isPrefix _).keep newline).trans (thinned_layOut _)

/-- Once the block comments are gone, minifying is thinning. -/
theorem thinned_dropBlockComments (x : Text) :
    Thinned (newline :: dropBlockComments x) (newline :: minify x) :=
  ((perLine_dropLineComments.thinned uncommented_isPrefix _).keep newline).trans
    (thinned_dropLineComments x)

/-! ## Slashes -/

theorem not_isInfix_minify (x : Text) : ¬("//" : Text) <:+: minify x := by
  intro h
  have hcons := (thinned_dropLineComments x).isInfix_of_isInfix ⟨by decide, by decide +kernel⟩
    (h.trans (List.suffix_cons newline _).isInfix)
  rcases (isInfix_append_cons_iff (s := []) (by decide)).1 hcons with h | h
  · exact absurd h (by decide)
  · exact not_isInfix_dropLineComments _ h

/-! ## Hash marks -/

/-- A hash mark with nothing but blanks and breaks before it makes a hash line. -/
theorem exists_isHashLine {a : Text}
    (ha : ∀ b ∈ a, (b == space || b == tab) = true ∨ isBreak b = true) (r : Text) :
    ∃ l ∈ breakLines (a ++ hashMark :: r), isHashLine l = true := by
  induction a using piece_induction isBreak with
  | last a hbreak =>
    have hblank : ∀ b ∈ a, (b == space || b == tab) = true := by
      intro b hb
      exact (ha b hb).resolve_right (by simp [hbreak b hb])
    refine ⟨_, toBreak_mem_breakLines _, ?_⟩
    rw [toBreak, List.takeWhile_append_of_pos fun b hb => by simp [hbreak b hb],
      List.takeWhile_cons_of_pos (by decide)]
    exact isHashLine_append hblank _
  | piece l b s _ hb ih =>
    obtain ⟨k, hk, hhash⟩ := ih fun b h => ha b (by simp [h])
    refine ⟨k, ?_, hhash⟩
    rw [List.append_assoc, List.cons_append, breakLines_append_cons _ _ hb]
    exact List.mem_append_right _ hk

theorem head?_spaced (l : Text) : (spaced l).head? = (trim l).head? := by
  rw [← collapse_trim]
  cases h : trim l with
  | nil => rfl
  | cons b t =>
    have hb : isSpace b = false := (trimmed_trim l).start b (by simp [h])
    rw [collapse_cons_of_not hb]
    rfl

theorem blank_or_isBreak {b : UInt8} (hb : isSpace b = true) (hv : b ≠ 0x0B) (hf : b ≠ 0x0C) :
    (b == space || b == tab) = true ∨ isBreak b = true := by
  simp only [isSpace, isBreak, space, tab, newline, carriageReturn, Bool.or_eq_true,
    Bool.and_eq_true, beq_iff_eq, decide_eq_true_eq, UInt8.le_iff_toNat_le, ← UInt8.toNat_inj,
    ne_eq, UInt8.reduceToNat] at *
  omega

/-- A hash mark that the stripper has left comes to the start of a line only from behind a vertical
tab or a form feed. -/
theorem head?_spaced_ne {l' : Text} (hl : l' ∈ lines (dropHashLines s)) (hv : 0x0B ∉ l')
    (hf : 0x0C ∉ l') : (spaced l').head? ≠ some hashMark := by
  rw [head?_spaced]
  intro h
  obtain ⟨r, hr⟩ := List.head?_eq_some_iff.1 h
  obtain ⟨a, e, hae, ha, -⟩ := exists_append_trim l'
  rw [hr, List.append_assoc, List.cons_append] at hae
  have hfront : ∀ b ∈ a, (b == space || b == tab) = true ∨ isBreak b = true := by
    intro b hb
    have hmem : b ∈ l' := hae ▸ List.mem_append_left _ hb
    exact blank_or_isBreak (isBlank_iff.1 ha b hb) (fun h => hv (h ▸ hmem)) fun h => hf (h ▸ hmem)
  obtain ⟨k, hk, hhash⟩ := exists_isHashLine hfront (r ++ e)
  rw [← hae] at hk
  have hbreak : k ∈ breakLines (dropHashLines s) := by
    rw [breakLines_eq_flatMap]
    exact List.mem_flatMap.2 ⟨l', hl, hk⟩
  rw [not_isHashLine_of_mem hbreak] at hhash
  cases hhash

theorem mem_lines_minify (hl : l ∈ lines (minify x)) :
    l = [] ∨ ∃ l' ∈ lines (dropComments x), isBlank l' = false ∧ l = spaced l' := by
  by_cases hx : minify x = []
  · rw [hx] at hl
    exact .inl (List.mem_singleton.1 hl)
  · rw [minify] at hx hl
    rw [lines_layOut hx] at hl
    exact .inr (exists_of_mem_laidLines hl)

theorem head?_ne_of_mem_lines (hv : 0x0B ∉ x) (hf : 0x0C ∉ x) (hl : l ∈ lines (minify x)) :
    l.head? ≠ some hashMark := by
  rcases mem_lines_minify hl with rfl | ⟨l', hl', -, rfl⟩
  · simp
  · have hsub : l' ⊆ x :=
      List.Subset.trans (isInfix_of_mem_lines hl').subset (dropComments_sublist x).subset
    exact head?_spaced_ne hl' (fun h => hv (hsub h)) fun h => hf (hsub h)

/-- No comment to the end of a line survives: no `//` is left, and without vertical tabs and form
feeds no line starts with a hash mark. -/
theorem minify_without_lineComments (x : Text) :
    ¬("//" : Text) <:+: minify x ∧
    (0x0B ∉ x → 0x0C ∉ x → ∀ l ∈ lines (minify x), l.head? ≠ some hashMark) := by
  refine ⟨not_isInfix_minify x, ?_⟩
  intro hv hf l hl
  exact head?_ne_of_mem_lines hv hf hl

/-- A vertical tab hides a hash mark from the stripper, but not from the layout. -/
example : minify "\x0b# a" = "# a" := by decide +kernel

/-! ## Text that stays as it is -/

/-- Text in which minifying finds nothing to do. -/
structure Minimal (m : Text) : Prop where
  noComment : ∀ p, ¬CommentAt m p
  noSlashes : ¬("//" : Text) <:+: m
  noHashLine : ∀ l ∈ breakLines m, isHashLine l = false
  laidOut : layOut m = m

/-- Each stage takes bytes away or changes nothing, so no stage undoes another. -/
theorem minify_eq_self_iff : minify m = m ↔ Minimal m := by
  constructor
  · intro h
    have hcomments : dropComments m = m := by
      apply (dropComments_sublist m).eq_of_length_le
      have := length_layOut_le (dropComments m)
      rwa [← minify, h] at this
    have hblock : dropBlockComments m = m := by
      have := dropComments_sublist_dropBlockComments m
      rw [hcomments] at this
      exact (dropBlockComments_sublist m).antisymm this
    have hline : dropLineComments m = m := by
      have := perLine_dropHashLines.sublist unhashed_isPrefix (dropLineComments m)
      rw [dropComments, hblock] at hcomments
      rw [hcomments] at this
      exact (perLine_dropLineComments.sublist uncommented_isPrefix m).antisymm this
    rw [minify, hcomments] at h
    rw [dropComments, hblock, hline] at hcomments
    exact ⟨dropBlockComments_eq_self_iff.1 hblock, dropLineComments_eq_self_iff.1 hline,
      dropHashLines_eq_self_iff.1 hcomments, h⟩
  · intro h
    rw [minify, dropComments, dropBlockComments_eq_self_iff.2 h.noComment,
      dropLineComments_eq_self_iff.2 h.noSlashes, dropHashLines_eq_self_iff.2 h.noHashLine,
      h.laidOut]

/-! ## Comments that are left -/

/-- Thinning brings no comment about. -/
theorem exists_commentAt_of_thinned (h : Thinned s t) (ht : ∃ p, CommentAt t p) :
    ∃ p, CommentAt s p := by
  rw [exists_commentAt_iff] at ht ⊢
  obtain ⟨u, v, w, rfl⟩ := ht
  obtain ⟨u', s', rfl, hs⟩ := h.exists_mark ⟨by decide, by decide +kernel⟩
  obtain ⟨v', w', rfl, -⟩ := hs.exists_mark ⟨by decide, by decide +kernel⟩
  exact ⟨u', v', w', rfl⟩

theorem exists_commentAt_of_cons (h : ∃ p, CommentAt (newline :: s) p) : ∃ p, CommentAt s p := by
  obtain ⟨_ | p, ho, q, hq, hc⟩ := h
  · exact absurd (List.cons_prefix_cons.1 ho).1 (by decide)
  · obtain ⟨q, rfl⟩ := Nat.exists_eq_add_of_le' (show 1 ≤ q by omega)
    exact ⟨p, ho, q, by omega, hc⟩

theorem exists_commentAt_of_minify (h : ∃ p, CommentAt (minify x) p) :
    ∃ p, CommentAt (dropBlockComments x) p := by
  apply exists_commentAt_of_cons
  apply exists_commentAt_of_thinned (thinned_dropBlockComments x)
  obtain ⟨p, ho, q, hq, hc⟩ := h
  exact ⟨p + 1, ho, q + 1, by omega, hc⟩

/-! ## The lines of minified text -/

theorem carriageReturn_not_mem_minify (x : Text) : carriageReturn ∉ minify x := by
  intro h
  rcases eq_space_or_newline_of_mem_layOut h (by decide) with h | h
  · exact absurd h (by decide)
  · exact absurd h (by decide)

theorem trimmed_of_mem_lines_minify (hl : l ∈ lines (minify x)) : Trimmed l := by
  rcases mem_lines_minify hl with rfl | ⟨l', -, -, rfl⟩
  · exact ⟨by simp, by simp⟩
  · exact trimmed_spaced l'

theorem isHashLine_of_trimmed (h : Trimmed l) : isHashLine l = (l.head? == some hashMark) := by
  cases l with
  | nil => rfl
  | cons b l =>
    have hb : ¬(b == space || b == tab) = true := by
      intro hb
      have hspace := h.start b rfl
      rw [Bool.or_eq_true, beq_iff_eq, beq_iff_eq] at hb
      rcases hb with rfl | rfl <;> exact absurd hspace (by decide)
    rw [isHashLine, List.dropWhile_cons, if_neg hb]

/-- No line of minified text is a hash line when none starts with the mark. -/
theorem forall_isHashLine_minify_iff : (∀ l ∈ breakLines (minify x), isHashLine l = false) ↔
    ∀ l ∈ lines (minify x), l.head? ≠ some hashMark := by
  rw [breakLines_eq_lines (carriageReturn_not_mem_minify x)]
  refine forall₂_congr fun l hl => ?_
  rw [isHashLine_of_trimmed (trimmed_of_mem_lines_minify hl), beq_eq_false_iff_ne]

theorem minimal_minify_iff : Minimal (minify x) ↔
    (∀ p, ¬CommentAt (minify x) p) ∧ ∀ l ∈ lines (minify x), l.head? ≠ some hashMark := by
  constructor
  · intro h
    exact ⟨h.noComment, forall_isHashLine_minify_iff.1 h.noHashLine⟩
  · rintro ⟨hcomment, hhash⟩
    exact ⟨hcomment, not_isInfix_minify x, forall_isHashLine_minify_iff.2 hhash, layOut_layOut _⟩

/-- A second pass changes nothing exactly when the first has left no comment and no line that starts
with a hash mark. Without vertical tabs and form feeds it is enough that taking out the block
comments has put no new one together. -/
theorem minify_minify_eq_iff (x : Text) :
    (minify (minify x) = minify x ↔
      (∀ p, ¬CommentAt (minify x) p) ∧ ∀ l ∈ lines (minify x), l.head? ≠ some hashMark) ∧
    (0x0B ∉ x → 0x0C ∉ x → (∀ p, ¬CommentAt (dropBlockComments x) p) →
      minify (minify x) = minify x) := by
  have hiff := (minify_eq_self_iff (m := minify x)).trans minimal_minify_iff
  refine ⟨hiff, ?_⟩
  intro hv hf hcomment
  refine hiff.2 ⟨?_, fun l hl => head?_ne_of_mem_lines hv hf hl⟩
  intro p hp
  obtain ⟨q, hq⟩ := exists_commentAt_of_minify ⟨p, hp⟩
  exact hcomment q hq

/-- An opener may come together around a comment that goes. -/
theorem not_forall_minify_minify : ¬∀ x, minify (minify x) = minify x := by
  intro h
  exact absurd (h "//**/* y */") (by decide +kernel)

end SourceBundle.Minified
