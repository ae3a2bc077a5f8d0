import SourceBundle.Minified.Basic
import SourceBundle.Proofs.Text.Words
/-!
# Layout

Laying out a text keeps its words and the lines they stand on, and nothing else: a line with words
becomes these words with one space between two of them, and lines without words go. So laid-out text
is in a normal form, and laying it out again changes nothing.
-/
namespace SourceBundle.Minified

open Text

/-! ## One line -/

theorem collapse_cons_of_not {b : UInt8} (hb : isSpace b = false) (s : Text) :
    collapse (b :: s) = b :: collapse s := by
  rw [collapse, List.foldr_cons, hb]
  rfl

theorem collapse_append {w : Text} (hw : ∀ b ∈ w, isSpace b = false) (s : Text) :
    collapse (w ++ s) = w ++ collapse s := by
  induction w with
  | nil => rfl
  | cons b w ih =>
    obtain ⟨hb, hw⟩ := List.forall_mem_cons.1 hw
    rw [List.cons_append, collapse_cons_of_not hb, ih hw, List.cons_append]

theorem collapse_cons {b : UInt8} (hb : isSpace b = true) (s : Text) :
    collapse (b :: s) =
      if (collapse s).head? = some space then collapse s else space :: collapse s := by
  rw [collapse, List.foldr_cons, if_pos hb]
  rfl

/-- A line's words with one space between two of them. -/
def spaced (l : Text) : Text := [space].intercalate (words l)

theorem trimmed_spaced (l : Text) : Trimmed (spaced l) :=
  trimmed_intercalate fun _ hw => ⟨(solid_of_mem_words hw).ne_nil, (solid_of_mem_words hw).trimmed⟩

theorem spaced_append_cons {w s : Text} {b : UInt8} (hw : ∀ b ∈ w, isSpace b = false)
    (hb : isSpace b = true) (hs : words s ≠ []) :
    spaced (w ++ b :: s) = if w = [] then spaced s else w ++ space :: spaced s := by
  obtain ⟨v, vs, hv⟩ := List.exists_cons_of_ne_nil hs
  rw [spaced, words_append_cons hb, words_of_run hw, spaced, hv]
  split <;> simp [List.intercalate_cons_cons]

/-- What collapsing makes of a line without white space at its end: its words, after a space where
white space stands in front. -/
theorem collapse_eq {s : Text} (hs : ∀ b ∈ s.getLast?, isSpace b = false) :
    collapse s = (if s.head?.any isSpace then [space] else []) ++ spaced s := by
  induction s using piece_induction isSpace with
  | last l hl =>
    have hcollapse := collapse_append hl []
    rw [List.append_nil] at hcollapse
    rw [hcollapse, spaced, words_of_run hl]
    cases l with
    | nil => rfl
    | cons b l => simp [hl b List.mem_cons_self, collapse]
  | piece l b s hl hb ih =>
    have hne : s ≠ [] := by
      rintro rfl
      simp [hb] at hs
    rw [List.getLast?_append_of_ne_nil _ (List.cons_ne_nil b s), List.getLast?_cons_of_ne_nil hne]
      at hs
    have hwords : words s ≠ [] := by
      rw [Ne, words_eq_nil_iff, isBlank_iff]
      intro h
      have := h _ (List.getLast_mem hne)
      simp [hs _ (List.getLast?_eq_some_getLast hne)] at this
    have hrest : collapse (b :: s) = space :: spaced s := by
      rw [collapse_cons hb, ih hs]
      split
      · simp
      · rw [List.nil_append, if_neg]
        intro h
        exact absurd ((trimmed_spaced s).start space h) (by decide)
    rw [collapse_append hl, hrest, spaced_append_cons hl hb hwords]
    cases l with
    | nil => simp [hb]
    | cons a l => simp [hl a List.mem_cons_self]

theorem collapse_trim (l : Text) : collapse (trim l) = spaced l := by
  have htrim := trimmed_trim l
  have hhead : (trim l).head?.any isSpace = false := by
    cases h : (trim l).head? with
    | none => rfl
    | some b => exact htrim.start b h
  rw [collapse_eq htrim.stop, hhead, spaced, words_trim, spaced]
  rfl

/-! ## All lines -/

/-- The lines of laid-out text. -/
def laidLines (s : Text) : List Text := ((lines s).filter (!isBlank ·)).map spaced

theorem layOut_eq (s : Text) : layOut s = joinLines (laidLines s) := by
  have hblank (l : Text) : (!(trim l).isEmpty) = !isBlank l := by
    rw [Bool.eq_iff_iff]
    simp [trim_eq_nil_iff]
  rw [layOut, List.filter_map, List.map_map, laidLines]
  simp only [Function.comp_def, hblank, collapse_trim]

theorem exists_of_mem_laidLines {s l : Text} (h : l ∈ laidLines s) :
    ∃ l' ∈ lines s, isBlank l' = false ∧ l = spaced l' := by
  obtain ⟨l', hl', rfl⟩ := List.mem_map.1 h
  obtain ⟨hmem, hblank⟩ := List.mem_filter.1 hl'
  exact ⟨l', hmem, by simpa using hblank, rfl⟩

theorem spaced_ne_nil {l : Text} (h : isBlank l = false) : spaced l ≠ [] := by
  apply intercalate_ne_nil
  · intro hnil
    rw [words_eq_nil_iff, h] at hnil
    cases hnil
  · exact fun w hw => (solid_of_mem_words hw).ne_nil

/-- The only white space of a laid-out line is the space. -/
theorem eq_space_of_mem_spaced {l : Text} {b : UInt8} (h : b ∈ spaced l)
    (hb : isSpace b = true) : b = space := by
  rcases mem_intercalate h with rfl | ⟨w, hw, hbw⟩
  · rfl
  · rw [(solid_of_mem_words hw).isSpace_eq_false b hbw] at hb
    cases hb

theorem words_spaced (l : Text) : words (spaced l) = words l :=
  words_joinWords (by decide) fun _ => solid_of_mem_words

theorem newline_not_mem_of_mem_laidLines {s l : Text} (h : l ∈ laidLines s) : newline ∉ l := by
  obtain ⟨l', -, -, rfl⟩ := exists_of_mem_laidLines h
  intro hn
  exact absurd (eq_space_of_mem_spaced hn (by decide)) (by decide)

/-- The lines of laid-out text that has any. -/
theorem lines_layOut {s : Text} (h : layOut s ≠ []) : lines (layOut s) = laidLines s := by
  rw [layOut_eq] at h ⊢
  apply lines_joinLines
  · intro hnil
    rw [hnil] at h
    exact h rfl
  · exact fun l => newline_not_mem_of_mem_laidLines

theorem words_joined {ws : List Text} {l : Text} (h : ∀ w ∈ ws, w ∈ words l) :
    ∀ w ∈ ws, w ≠ [] ∧ Trimmed w := by
  intro w hw
  exact ⟨(solid_of_mem_words (h w hw)).ne_nil, (solid_of_mem_words (h w hw)).trimmed⟩

/-- A space of a laid-out line stands between two words, and no word starts with a space. -/
theorem not_isInfix_spaced (l : Text) : ¬[space, space] <:+: spaced l := by
  rintro ⟨u, v, h⟩
  have hwords : words l ≠ [] := by
    intro hnil
    rw [spaced, hnil] at h
    simp at h
  have hspace : ∀ w ∈ words l, space ∉ w := by
    intro w hw hmem
    exact absurd ((solid_of_mem_words hw).isSpace_eq_false space hmem) (by decide)
  have hcut : spaced l = u ++ space :: (space :: v) := by simp [← h]
  obtain ⟨ws, vs, hws, -, -, -, hv⟩ := exists_of_intercalate_eq hwords hspace hcut
  have htrim : Trimmed (space :: v) := by
    rw [hv]
    exact trimmed_intercalate (words_joined (l := l) fun w hw => hws ▸ List.mem_append_right ws hw)
  exact absurd (htrim.start space rfl) (by decide)

/-! ## Laid-out text -/

theorem words_layOut (s : Text) : words (layOut s) = words s := by
  have hkept (ls : List Text) :
      ((ls.filter (!isBlank ·)).map spaced).flatMap words = ls.flatMap words := by
    induction ls with
    | nil => rfl
    | cons l ls ih =>
      cases hl : isBlank l with
      | false => simp [hl, words_spaced, ih]
      | true => simp [hl, words_eq_nil_iff.2 hl, ih]
  rw [layOut_eq, joinLines, words_intercalate (by decide), laidLines, hkept, ← words_eq_flatMap]

theorem trimmed_layOut (s : Text) : Trimmed (layOut s) := by
  rw [layOut_eq]
  apply trimmed_intercalate
  intro l hl
  obtain ⟨l', -, hblank, rfl⟩ := exists_of_mem_laidLines hl
  exact ⟨spaced_ne_nil hblank, trimmed_spaced l'⟩

theorem eq_space_or_newline_of_mem_layOut {s : Text} {b : UInt8} (h : b ∈ layOut s)
    (hb : isSpace b = true) : b = space ∨ b = newline := by
  rw [layOut_eq] at h
  rcases mem_intercalate h with rfl | ⟨l, hl, hmem⟩
  · exact .inr rfl
  · obtain ⟨l', -, -, rfl⟩ := exists_of_mem_laidLines hl
    exact .inl (eq_space_of_mem_spaced hmem hb)

theorem not_isInfix_layOut (s : Text) : ¬[space, space] <:+: layOut s := by
  by_cases hs : layOut s = []
  · simp [hs]
  · have hm : ∀ b ∈ [space, space], (b == newline) = false := by decide +kernel
    rw [isInfix_iff_exists_piece hm, ← List.splitOn_eq_splitOnP, ← splitOn_eq, ← lines,
      lines_layOut hs]
    rintro ⟨l, hl, h⟩
    obtain ⟨l', -, -, rfl⟩ := exists_of_mem_laidLines hl
    exact not_isInfix_spaced l' h

/-- Laying out puts text into a normal form. -/
theorem layOut_layOut (s : Text) : layOut (layOut s) = layOut s := by
  by_cases hs : layOut s = []
  · rw [hs]
    rfl
  · have hfilter : (laidLines s).filter (!isBlank ·) = laidLines s := by
      rw [List.filter_eq_self]
      intro l hl
      obtain ⟨l', -, hblank, rfl⟩ := exists_of_mem_laidLines hl
      rw [(trimmed_spaced l').not_isBlank (spaced_ne_nil hblank)]
      rfl
    have hmap : (laidLines s).map spaced = laidLines s := by
      rw [laidLines, List.map_map]
      apply List.map_congr_left
      intro l _
      rw [Function.comp_apply, spaced, words_spaced, spaced]
    rw [layOut_eq (layOut s), laidLines, lines_layOut hs, hfilter, hmap, ← layOut_eq]

/-- Minified text is the words of what the strippers leave, line by line, and has a normal form:
no line is empty, one space stands between two words, and nothing else is white space but the
newlines between the lines. -/
theorem minify_eq_joinLines_words (x : Text) :
    minify x = joinLines (((lines (dropComments x)).filter (!isBlank ·)).map
      fun l => [space].intercalate (words l)) ∧
    (minify x).filter (!isSpace ·) = (dropComments x).filter (!isSpace ·) ∧
    (minify x ≠ [] → ∀ l ∈ lines (minify x),
      l ≠ [] ∧ l.head? ≠ some space ∧ l.getLast? ≠ some space) ∧
    (∀ b ∈ minify x, isSpace b = true → b = space ∨ b = newline) ∧
    ¬[space, space] <:+: minify x ∧
    (minify x).getLast? ≠ some newline := by
  refine ⟨layOut_eq _, ?_, ?_, fun b => eq_space_or_newline_of_mem_layOut, not_isInfix_layOut _, ?_⟩
  · rw [← flatten_words, ← flatten_words, minify, words_layOut]
  · intro hx l hl
    rw [minify] at hx hl
    rw [lines_layOut hx] at hl
    obtain ⟨l', -, hblank, rfl⟩ := exists_of_mem_laidLines hl
    refine ⟨spaced_ne_nil hblank, ?_, ?_⟩
    · intro h
      exact absurd ((trimmed_spaced l').start space h) (by decide)
    · intro h
      exact absurd ((trimmed_spaced l').stop space h) (by decide)
  · intro h
    exact absurd ((trimmed_layOut _).stop newline h) (by decide)

/-- A carriage return is white space within a line, and ends none. -/
example : minify " a\x09 b\n\n \x0d\nc\x0d# d\x0de\n" = "a b\nc e" := by decide +kernel

/-! ## What comes together -/

theorem thinned_collapse (l : Text) {s t : Text} (h : Thinned s t) :
    Thinned (l ++ s) (collapse l ++ t) := by
  induction l with
  | nil => exact h
  | cons b l ih =>
    cases hb : isSpace b with
    | false =>
      rw [collapse_cons_of_not hb]
      exact ih.keep b
    | true =>
      rw [collapse_cons hb]
      split
      · next hhead =>
        refine .drop b ?_ ih
        rintro c hc
        obtain ⟨r, hr⟩ := List.head?_eq_some_iff.1 hhead
        rw [hr, List.cons_append, List.head?_cons, Option.mem_some_iff] at hc
        rw [← hc]
        rfl
      · exact .blank hb rfl ih

/-- A line with words, a newline in front of it, is thinned to these words. -/
theorem thinned_spaced {l s t : Text} (ht : ∀ c ∈ t.head?, isSpace c = true) (h : Thinned s t) :
    Thinned (newline :: (l ++ s)) (newline :: (spaced l ++ t)) := by
  obtain ⟨a, e, hl, ha, -⟩ := exists_append_trim l
  have hrest := thinned_collapse (trim l) (h.append_drop e ht)
  rw [collapse_trim, ← List.append_assoc] at hrest
  have := hrest.blank_append (b := newline) (c := newline) rfl rfl ha
  rwa [← List.append_assoc, ← List.append_assoc, ← hl] at this

theorem head?_flatMap_cons (ls : List Text) :
    ∀ c ∈ (ls.flatMap (newline :: ·)).head?, isSpace c = true := by
  cases ls with
  | nil => simp
  | cons l ls =>
    rintro c ⟨⟩
    rfl

theorem cons_joinLines {ls : List Text} (hls : ls ≠ []) :
    newline :: joinLines ls = ls.flatMap (newline :: ·) := by
  induction ls with
  | nil => exact absurd rfl hls
  | cons l ls ih =>
    cases ls with
    | nil => simp [joinLines]
    | cons m ls =>
      rw [List.flatMap_cons, ← ih (List.cons_ne_nil m ls)]
      simp [joinLines, List.intercalate_cons_cons]

/-- Laying out brings nothing together. The newline in front stands in for what may be in front of
the first word. -/
theorem thinned_layOut (s : Text) : Thinned (newline :: s) (newline :: layOut s) := by
  have hlines (ls : List Text) : Thinned (ls.flatMap (newline :: ·))
      (((ls.filter (!isBlank ·)).map spaced).flatMap (newline :: ·)) := by
    induction ls with
    | nil => exact .nil
    | cons l ls ih =>
      cases hl : isBlank l with
      | false =>
        simpa [hl] using thinned_spaced (head?_flatMap_cons _) ih
      | true =>
        simpa [hl] using ih.append_drop (newline :: l) (head?_flatMap_cons _)
  by_cases hs : laidLines s = []
  · rw [layOut_eq, hs]
    exact .keep newline (.of_nil s)
  · have hne : lines s ≠ [] := splitOn_ne_nil newline s
    have := hlines (lines s)
    rwa [← laidLines, ← cons_joinLines hne, ← cons_joinLines hs, joinLines_lines, ← layOut_eq]
      at this

theorem length_layOut_le (s : Text) : (layOut s).length ≤ s.length :=
  Nat.le_of_succ_le_succ (thinned_layOut s).length_le

end SourceBundle.Minified
