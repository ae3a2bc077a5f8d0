import SourceBundle.Text.Basic
/-!
# Cutting and joining

Cutting a text at a byte and joining the pieces with it undo each other, as long as no piece holds
the byte. For the newline this makes a text and its list of lines the same thing.
-/
namespace SourceBundle.Text

theorem splitOn_eq (sep : UInt8) (s : Text) : splitOn sep s = List.splitOn sep s := by
  induction s with
  | nil => rfl
  | cons b s ih => simp only [splitOn_cons, ih, List.splitOn_cons_eq_if_modifyHead, beq_iff_eq]

theorem not_mem_of_mem_splitOn {sep : UInt8} {s l : Text} (h : l ∈ splitOn sep s) : sep ∉ l := by
  induction s generalizing l with
  | nil =>
    rw [splitOn_nil, List.mem_singleton] at h
    simp [h]
  | cons b s ih =>
    rw [splitOn_cons] at h
    split at h
    · rcases List.mem_cons.1 h with rfl | h
      · exact List.not_mem_nil
      · exact ih h
    · next hb =>
      cases hs : splitOn sep s with
      | nil => exact absurd hs (splitOn_ne_nil sep s)
      | cons p ps =>
        rw [hs, List.modifyHead_cons] at h
        rw [hs] at ih
        rcases List.mem_cons.1 h with rfl | h
        · rw [List.mem_cons, not_or]
          exact ⟨fun he => hb he.symm, ih List.mem_cons_self⟩
        · exact ih (List.mem_cons_of_mem _ h)

theorem splitOn_append_cons (sep : UInt8) (s t : Text) :
    splitOn sep (s ++ sep :: t) = splitOn sep s ++ splitOn sep t := by
  simp only [splitOn_eq, List.splitOn_append_cons_self]

theorem splitOn_intercalate {sep : UInt8} {ls : List Text} (hls : ls ≠ [])
    (h : ∀ l ∈ ls, sep ∉ l) : splitOn sep ([sep].intercalate ls) = ls := by
  rw [splitOn_eq, List.splitOn_intercalate sep h hls]

/-- Joined pieces start with a separator only where the first of them is empty. -/
theorem head?_intercalate {sep : UInt8} {ls : List Text} (hnil : ls.head? ≠ some [])
    (h : ∀ l ∈ ls, sep ∉ l) : ([sep].intercalate ls).head? ≠ some sep := by
  intro hs
  obtain ⟨t, ht⟩ := List.head?_eq_some_iff.1 hs
  have hne : ls ≠ [] := by
    rintro rfl
    cases ht
  have hsplit := splitOn_intercalate hne h
  rw [ht, splitOn_cons, if_pos rfl] at hsplit
  exact hnil (by rw [← hsplit, List.head?_cons])

theorem splitOn_of_not_mem {sep : UInt8} {s : Text} (h : sep ∉ s) : splitOn sep s = [s] := by
  have := splitOn_intercalate (List.cons_ne_nil s []) (by simpa using h)
  rwa [List.intercalate_singleton] at this

theorem intercalate_append (sep : UInt8) {as bs : List Text} (ha : as ≠ []) (hb : bs ≠ []) :
    [sep].intercalate (as ++ bs) = [sep].intercalate as ++ sep :: [sep].intercalate bs := by
  induction as with
  | nil => exact absurd rfl ha
  | cons l as ih =>
    cases as with
    | nil =>
      obtain ⟨m, bs, rfl⟩ := List.exists_cons_of_ne_nil hb
      simp [List.intercalate_cons_cons]
    | cons m as =>
      have := ih (List.cons_ne_nil m as)
      simp only [List.cons_append, List.intercalate_cons_cons] at this ⊢
      rw [this]
      simp

theorem isInfix_intercalate {sep : UInt8} {l : Text} {ls : List Text} (h : l ∈ ls) :
    l <:+: [sep].intercalate ls := by
  induction ls with
  | nil => cases h
  | cons m ls ih =>
    cases ls with
    | nil =>
      rw [List.intercalate_singleton]
      exact List.mem_singleton.1 h ▸ List.infix_rfl
    | cons k ls =>
      rw [List.intercalate_cons_cons, List.append_assoc]
      rcases List.mem_cons.1 h with rfl | h
      · exact (List.prefix_append l _).isInfix
      · exact (ih h).trans ((List.suffix_append [sep] _).trans (List.suffix_append m _)).isInfix

/-- A separator in joined pieces stands between two of them. -/
theorem exists_of_intercalate_eq {sep : UInt8} {ls : List Text} {s t : Text} (hls : ls ≠ [])
    (h : ∀ l ∈ ls, sep ∉ l) (hcut : [sep].intercalate ls = s ++ sep :: t) :
    ∃ as bs, ls = as ++ bs ∧ as ≠ [] ∧ bs ≠ [] ∧ s = [sep].intercalate as ∧
      t = [sep].intercalate bs := by
  have hsplit := splitOn_append_cons sep s t
  rw [← hcut, splitOn_intercalate hls h] at hsplit
  refine ⟨_, _, hsplit, splitOn_ne_nil sep s, splitOn_ne_nil sep t, ?_, ?_⟩
  all_goals rw [splitOn_eq, List.intercalate_splitOn]

/-! ## Lines -/

theorem joinLines_lines (s : Text) : joinLines (lines s) = s := by
  rw [joinLines, lines, splitOn_eq, List.intercalate_splitOn]

theorem lines_joinLines {ls : List Text} (hls : ls ≠ []) (h : ∀ l ∈ ls, newline ∉ l) :
    lines (joinLines ls) = ls :=
  splitOn_intercalate hls h

theorem newline_not_mem_of_mem_lines {s l : Text} (h : l ∈ lines s) : newline ∉ l :=
  not_mem_of_mem_splitOn h

theorem isInfix_of_mem_lines {s l : Text} (h : l ∈ lines s) : l <:+: s := by
  have : l <:+: joinLines (lines s) := isInfix_intercalate h
  rwa [joinLines_lines] at this

theorem lines_append_newline (s t : Text) :
    lines (s ++ newline :: t) = lines s ++ lines t :=
  splitOn_append_cons newline s t

/-- A text that ends in a newline has an empty last line. -/
theorem lines_joinLines_append_newline {ls : List Text} (hls : ls ≠ [])
    (h : ∀ l ∈ ls, newline ∉ l) : lines (joinLines ls ++ [newline]) = ls ++ [[]] := by
  rw [lines_append_newline, lines_joinLines hls h]
  rfl

/-- Lines that each end in a newline, read again. -/
theorem lines_flatMap {ls : List Text} (h : ∀ l ∈ ls, newline ∉ l) :
    lines (ls.flatMap (· ++ [newline])) = ls ++ [[]] := by
  induction ls with
  | nil => rfl
  | cons l ls ih =>
    obtain ⟨hl, hls⟩ := List.forall_mem_cons.1 h
    rw [List.flatMap_cons, List.append_assoc, List.singleton_append, lines_append_newline, ih hls,
      lines, splitOn_of_not_mem hl, List.singleton_append, List.cons_append]

theorem joinLines_append {as bs : List Text} (ha : as ≠ []) (hb : bs ≠ []) :
    joinLines (as ++ bs) = joinLines as ++ newline :: joinLines bs :=
  intercalate_append newline ha hb

theorem joinLines_concat_nil {ls : List Text} (hls : ls ≠ []) :
    joinLines (ls ++ [[]]) = joinLines ls ++ [newline] :=
  joinLines_append hls (List.cons_ne_nil [] [])

end SourceBundle.Text
