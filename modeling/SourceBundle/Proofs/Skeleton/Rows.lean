import SourceBundle.Proofs.Skeleton.Documentation
/-!
# Skeletons read off the report

A report says of every line of a text which rule took it and whether it is written. The kind of a
line fixes the form in which it is written, so the report and the text give the skeleton again. The
blank lines that a skeleton drops at its end are those of a comment that stays open.
-/
namespace SourceBundle.Skeleton

open Text

/-! ## The form of a written line -/

/-- How a line of this kind is written, when it is. -/
def Kind.form (k : Kind) (line : Text) : Text :=
  match k with
  | docBody | docOpen | passthrough => line
  | typeOpen => Line.openType (trim line)
  | blockClose => [closeBrace]
  | member => "  " ++ Line.finalize (trim line)
  | function => Line.finalize (trim line)
  | bodySkip | conditional | logic => []

theorem Taken.form_eq {s s' : State} {line t : Text} {e : Entry} (h : Taken s line e s')
    (he : e.emitted = some t) : e.kind.form line = t := by
  cases h with
  | bodySkip | conditional | strayClose | nonMember | logic => cases he
  | docBody | docOpen | typeOpen | blockClose | member | function | passthrough =>
    exact Option.some.inj he

/-- The lines of a text that its report marks as written, each in its form. -/
def reported (x : Text) : List Text :=
  (((lines x).zip (rows x)).filter (·.2.written)).map fun p => p.2.kind.form p.1

/-- The numbers of the rows do not count, so any numbering will do. -/
theorem map_form_filter (number : Nat → Nat) {ls : List Text} {es : List Entry}
    (h : ∀ p ∈ ls.zip es, ∀ t ∈ p.2.emitted, p.2.kind.form p.1 = t) :
    ((ls.zip (es.mapIdx fun i e => e.row (number i))).filter
      fun p : Text × Row => p.2.written).map (fun p => p.2.kind.form p.1) =
        (ls.zip es).filterMap (·.2.emitted) := by
  induction ls generalizing es number with
  | nil => rfl
  | cons line ls ih =>
    cases es with
    | nil => rfl
    | cons e es =>
      rw [List.zip_cons_cons, List.forall_mem_cons] at h
      have hrest := ih (fun i => number (i + 1)) h.2
      rw [List.mapIdx_cons, List.zip_cons_cons, List.zip_cons_cons, List.filter_cons,
        List.filterMap_cons]
      cases he : e.emitted with
      | none => simpa [Entry.row, he] using hrest
      | some t => simpa [Entry.row, he, h.1 t he] using hrest

theorem reported_eq (x : Text) : reported x = emissions .initial (lines x) := by
  rw [emissions_eq, report, reported, rows_eq]
  refine map_form_filter id fun p hp t ht => ?_
  obtain ⟨_, _, htaken⟩ := taken_of_mem_report (s := .initial) hp
  exact htaken.form_eq ht

/-! ## The report and the skeleton -/

theorem length_rows (x : Text) : (rows x).length = (lines x).length := by
  rw [rows_eq, List.length_mapIdx, trace, length_scan]

/-- The row of a line has its number, and its kind is told in the state before the line. -/
theorem getElem?_rows {x line : Text} {as bs : List Text} (hx : lines x = as ++ line :: bs) :
    (rows x)[as.length]? = some ⟨as.length + 1, classify (run .initial as) line,
      (step (run .initial as) line).1.emitted.isSome⟩ := by
  rw [rows_eq, List.getElem?_mapIdx, getElem?_trace hx]
  rfl

/-- The last line of a skeleton with something in it is not blank, and one newline follows. -/
theorem exists_last_line {x : Text} (h : written x ≠ []) :
    ∃ front last, lines (skeletonize x) = front ++ [last, []] ∧ ∃ b ∈ last, isSpace b = false := by
  obtain ⟨front, last, hw⟩ : ∃ front last, written x = front ++ [last] :=
    ⟨_, _, (List.dropLast_append_getLast h).symm⟩
  have hlast : isBlank last = false := not_isBlank_last_written x last (by simp [hw])
  refine ⟨front, last, by rw [lines_skeletonize h, hw, List.append_assoc]; rfl, ?_⟩
  by_contra hall
  simp only [not_exists, not_and, Bool.not_eq_false] at hall
  rw [isBlank_iff.2 hall] at hlast
  cases hlast

/-- A report has one row for each line, numbered from one, and a row has the kind that its line gets
in the state before it. The lines that are marked as written make up the skeleton, each in the form
of its kind, less blank lines at the end, which only a comment that stays open leaves. So a skeleton
is a lone newline or ends in a line that is not blank and one newline. -/
theorem skeletonize_eq_reported (x : Text) :
    (rows x).length = (lines x).length ∧
    (∀ as line bs, lines x = as ++ line :: bs → ∃ r ∈ (rows x)[as.length]?,
      r.number = as.length + 1 ∧ r.kind = classify (run .initial as) line) ∧
    (∃ kept blanks, reported x = kept ++ blanks ∧ (∀ t ∈ blanks, isBlank t = true) ∧
      (blanks ≠ [] → (run .initial (lines x)).activity = .inDoc) ∧
      skeletonize x = joinLines kept ++ [newline]) ∧
    (skeletonize x = [newline] ∨
      ∃ front last, lines (skeletonize x) = front ++ [last, []] ∧
        ∃ b ∈ last, isSpace b = false) := by
  refine ⟨length_rows x, fun as line bs hx => ?_, ?_, ?_⟩
  · exact ⟨_, getElem?_rows hx, rfl, rfl⟩
  · refine ⟨written x, (reported x).rtakeWhile isBlank, ?_, fun t ht => ?_, fun hne => ?_,
      skeletonize_eq_written x⟩
    · rw [written, ← reported_eq, List.rdropWhile_append_rtakeWhile]
    · exact List.mem_rtakeWhile_imp ht
    · by_contra hdoc
      refine hne ?_
      rw [reported_eq, ← List.append_right_inj (written x), List.append_nil, written,
        List.rdropWhile_append_rtakeWhile, rdropWhile_of_last (not_isBlank_last hdoc)]
  · by_cases hw : written x = []
    · exact .inl (skeletonize_of_written_nil hw)
    · exact .inr (exists_last_line hw)

/-- A comment that is not closed before the end, with two blank lines in it. -/
def unfinished : Text := ofString "function f() \x7b\n\x7d\n/** more\n  \n"

theorem skeletonize_eq_reported_unfinished :
    (∃ r ∈ (rows unfinished)[2]?, r.number = 3 ∧ r.kind = .docOpen) ∧
      (∃ kept blanks, reported unfinished = kept ++ blanks ∧ blanks ≠ [] ∧
        (∀ t ∈ blanks, isBlank t = true) ∧
        skeletonize unfinished = joinLines kept ++ [newline]) ∧
      ∃ front last, lines (skeletonize unfinished) = front ++ [last, []] ∧
        ∃ b ∈ last, isSpace b = false := by
  obtain ⟨-, hrow, ⟨kept, blanks, hcut, hblank, -, hskel⟩, hend⟩ :=
    skeletonize_eq_reported unfinished
  obtain ⟨r, hr, hnumber, hkind⟩ := hrow ((lines unfinished).take 2) (ofString "/** more")
    ((lines unfinished).drop 3) (by decide +kernel)
  refine ⟨⟨r, hr, hnumber, hkind.trans (by decide +kernel)⟩,
    ⟨kept, blanks, hcut, ?_, hblank, hskel⟩, hend.resolve_left (by decide +kernel)⟩
  rintro rfl
  rw [List.append_nil] at hcut
  rw [← hcut] at hskel
  exact absurd hskel (by decide +kernel)

end SourceBundle.Skeleton
