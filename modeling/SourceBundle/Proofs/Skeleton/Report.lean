import SourceBundle.Proofs.Line.Shape
import SourceBundle.Proofs.Skeleton.Scan
import SourceBundle.Proofs.Text.Trim
/-!
# Reports

A report sets the lines of a run beside their entries. No line that is written outside documentation
is blank, so the blank lines that end a skeleton's output are those of an open comment.
-/
namespace SourceBundle.Skeleton

open Text

/-! ## Lines with their entries -/

def report (s : State) (ls : List Text) : List (Text × Entry) := ls.zip (scan s ls)

theorem report_cons (s : State) (line : Text) (ls : List Text) :
    report s (line :: ls) = (line, (step s line).1) :: report (step s line).2 ls := rfl

theorem report_append (s : State) (as bs : List Text) :
    report s (as ++ bs) = report s as ++ report (run s as) bs := by
  rw [report, scan_append, List.zip_append (length_scan s as).symm]
  rfl

theorem map_fst_report (s : State) (ls : List Text) : (report s ls).map (·.1) = ls :=
  List.map_fst_zip (length_scan s ls).ge

theorem map_snd_report (s : State) (ls : List Text) : (report s ls).map (·.2) = scan s ls :=
  List.map_snd_zip (length_scan s ls).le

theorem emissions_eq (s : State) (ls : List Text) :
    emissions s ls = (report s ls).filterMap (·.2.emitted) := by
  rw [emissions, ← map_snd_report, List.filterMap_map]
  rfl

/-- Every entry of a report was made by some step. -/
theorem taken_of_mem_report {s : State} {ls : List Text} {p : Text × Entry}
    (h : p ∈ report s ls) : ∃ s₁ s₂, Taken s₁ p.1 p.2 s₂ := by
  induction ls generalizing s with
  | nil => cases h
  | cons line ls ih =>
    rcases List.mem_cons.1 (report_cons s line ls ▸ h) with rfl | h
    · exact ⟨s, _, step_taken s line⟩
    · exact ih h

/-! ## No blank line outside documentation -/

theorem isBlank_eq_false_of_mem {b : UInt8} {t : Text} (hb : b ∈ t) (hs : isSpace b = false) :
    isBlank t = false := by
  rw [Bool.eq_false_iff]
  intro h
  rw [isBlank_iff.1 h b hb] at hs
  cases hs

theorem isBlank_eq_false_of_trim {t : Text} (h : trim t ≠ []) : isBlank t = false := by
  rw [Bool.eq_false_iff]
  intro hb
  exact h (trim_eq_nil_iff.2 hb)

theorem openBrace_mem_finalize (t : Text) : openBrace ∈ Line.finalize t := by
  simp [Line.finalize]

/-- What is written is blank only inside a documentation comment that stays open. -/
theorem Taken.not_isBlank {s s' : State} {line t : Text} {e : Entry} (h : Taken s line e s')
    (he : e.emitted = some t) (hs : s'.activity ≠ .inDoc) : isBlank t = false := by
  cases h with
  | bodySkip | conditional | strayClose | nonMember | logic => cases he
  | docOpen => exact absurd rfl hs
  | docBody c =>
    obtain rfl := Option.some.inj he
    refine isBlank_eq_false_of_trim ?_
    intro hn
    simp only [hn] at hs
    exact hs rfl
  | typeOpen =>
    obtain rfl := Option.some.inj he
    have := Line.endsWith_openType (trim line)
    exact isBlank_eq_false_of_mem ((Line.endsWith_iff.1 this).subset List.mem_cons_self) rfl
  | blockClose =>
    obtain rfl := Option.some.inj he
    rfl
  | member =>
    obtain rfl := Option.some.inj he
    exact isBlank_eq_false_of_mem (List.mem_append_right _ (openBrace_mem_finalize _)) rfl
  | function =>
    obtain rfl := Option.some.inj he
    exact isBlank_eq_false_of_mem (openBrace_mem_finalize _) rfl
  | passthrough _ _ hi =>
    obtain rfl := Option.some.inj he
    refine isBlank_eq_false_of_trim ?_
    intro hn
    rw [hn] at hi
    exact absurd hi (by decide)

/-- A line that writes nothing stands outside documentation. -/
theorem Taken.notDoc_of_silent {s s' : State} {line : Text} {e : Entry} (h : Taken s line e s')
    (he : e.emitted = none) : s.activity ≠ .inDoc ∧ s'.activity ≠ .inDoc := by
  cases h with
  | bodySkip c d =>
    refine ⟨nofun, ?_⟩
    dsimp only
    split <;> exact nofun
  | conditional | strayClose | nonMember | logic => exact ⟨nofun, nofun⟩
  | docBody | docOpen | typeOpen | blockClose | member | function | passthrough => cases he

/-- When no comment is open after a run, the last line it has written is not blank. -/
theorem not_isBlank_last {s : State} {ls : List Text} (hr : (run s ls).activity ≠ .inDoc) :
    ∀ t ∈ (emissions s ls).getLast?, isBlank t = false := by
  -- From the end, since a silent last line leaves the question to the one before it.
  induction ls using List.reverseRecOn with
  | nil =>
    intro t ht
    cases ht
  | append_singleton ls line ih =>
    have hstep := step_taken (run s ls) line
    rw [run_append, run_cons, run_nil] at hr
    rw [emissions_append, emissions_cons, emissions_nil, List.append_nil]
    cases he : (step (run s ls) line).1.emitted with
    | none =>
      rw [Option.toList_none, List.append_nil]
      exact ih (hstep.notDoc_of_silent he).1
    | some t =>
      intro u hu
      rw [Option.toList_some, List.getLast?_concat, Option.mem_some_iff] at hu
      exact hu ▸ hstep.not_isBlank he hr

/-! ## No newline in a line -/

theorem newline_not_mem_finalize {t : Text} (h : newline ∉ t) : newline ∉ Line.finalize t := by
  have htighten : ∀ u : Text, newline ∉ u → newline ∉ Line.tightenArrow u := by
    intro u hu
    rw [Line.tightenArrow]
    split
    · dsimp only
      split
      · rw [List.mem_append, not_or]
        refine ⟨fun hn => hu ?_, by decide⟩
        exact (List.take_prefix _ _).subset ((List.rdropWhile_prefix isSpace _).subset hn)
      · exact hu
    · exact hu
  have hbody : newline ∉ trim (Line.dropBody t) := fun hn =>
    h ((Line.dropBody_isPrefix t).subset (mem_of_mem_trim hn))
  rw [Line.finalize, List.mem_append, not_or]
  refine ⟨htighten _ ?_, by decide⟩
  split
  · exact hbody
  · rw [List.mem_append, not_or]
    exact ⟨hbody, by decide⟩

theorem Taken.newline_not_mem {s s' : State} {line t : Text} {e : Entry} (h : Taken s line e s')
    (he : e.emitted = some t) (hl : newline ∉ line) : newline ∉ t := by
  have htrim : newline ∉ trim line := fun hn => hl (mem_of_mem_trim hn)
  cases h with
  | bodySkip | conditional | strayClose | nonMember | logic => cases he
  | docBody | docOpen | passthrough =>
    obtain rfl := Option.some.inj he
    exact hl
  | typeOpen =>
    obtain rfl := Option.some.inj he
    rw [Line.openType]
    split
    · exact htrim
    · rw [List.mem_append, not_or]
      exact ⟨htrim, by decide⟩
  | blockClose =>
    obtain rfl := Option.some.inj he
    decide
  | member =>
    obtain rfl := Option.some.inj he
    rw [List.mem_append, not_or]
    exact ⟨by decide, newline_not_mem_finalize htrim⟩
  | function =>
    obtain rfl := Option.some.inj he
    exact newline_not_mem_finalize htrim

theorem newline_not_mem_emissions {s : State} {ls : List Text} (h : ∀ l ∈ ls, newline ∉ l) :
    ∀ t ∈ emissions s ls, newline ∉ t := by
  induction ls generalizing s with
  | nil => exact List.forall_mem_nil _
  | cons line ls ih =>
    obtain ⟨hl, hls⟩ := List.forall_mem_cons.1 h
    intro t ht
    rw [emissions_cons, List.mem_append, Option.mem_toList] at ht
    rcases ht with ht | ht
    · exact (step_taken s line).newline_not_mem ht hl
    · exact ih hls t ht

/-! ## Writing a skeleton out -/

theorem render_eq (ls : List Text) :
    render ls = joinLines (ls.rdropWhile isBlank) ++ [newline] := rfl

theorem rdropWhile_of_last {ls : List Text} (h : ∀ t ∈ ls.getLast?, isBlank t = false) :
    ls.rdropWhile isBlank = ls := by
  rw [List.rdropWhile_eq_self_iff]
  intro hl
  simp [h _ (List.getLast?_eq_some_getLast hl)]

theorem render_of_last {ls : List Text} (h : ∀ t ∈ ls.getLast?, isBlank t = false) :
    render ls = joinLines ls ++ [newline] := by
  rw [render_eq, rdropWhile_of_last h]

theorem render_concat_blank {ls : List Text} {t : Text} (ht : isBlank t = true) :
    render (ls ++ [t]) = render ls := by
  rw [render_eq, List.rdropWhile_concat_pos _ _ _ ht, render_eq]

end SourceBundle.Skeleton
