import SourceBundle.Proofs.Skeleton.SecondPass
/-!
# A skeleton read again

The skeleton of a skeleton is the skeleton less the lines that its scan takes for conditionals, and
these are members such as `if (x)` that read so once they have an empty body. What is left is a
fixed point.
-/
namespace SourceBundle.Skeleton

open Text

/-! ## The lines of a skeleton -/

/-- What is written for a text, less the blank lines at the end. -/
def written (x : Text) : List Text := (emissions .initial (lines x)).rdropWhile isBlank

theorem skeletonize_eq_written (x : Text) : skeletonize x = joinLines (written x) ++ [newline] :=
  skeletonize_eq x

theorem newline_not_mem_written (x : Text) : ∀ t ∈ written x, newline ∉ t := fun t ht =>
  newline_not_mem_emissions (fun _ hl => newline_not_mem_of_mem_lines hl) t
    ((List.rdropWhile_prefix isBlank _).subset ht)

theorem skeletonize_of_written_nil {x : Text} (h : written x = []) : skeletonize x = [newline] := by
  rw [skeletonize_eq_written, h]
  rfl

theorem lines_skeletonize {x : Text} (h : written x ≠ []) :
    lines (skeletonize x) = written x ++ [[]] := by
  rw [skeletonize_eq_written, lines_joinLines_append_newline h (newline_not_mem_written x)]

theorem echo_of_mem_written {x : Text} {p : Text × Entry}
    (h : p ∈ report .initial (written x)) : ∃ q ∈ report .initial (lines x), q.2.echo = some p := by
  obtain ⟨e, he⟩ := List.rdropWhile_prefix isBlank (emissions .initial (lines x))
  have hr := report_emissions .initial (lines x)
  rw [← he, report_append] at hr
  have hp : p ∈ (report .initial (lines x)).filterMap (·.2.echo) :=
    hr ▸ List.mem_append_left _ h
  exact List.mem_filterMap.1 hp

theorem faithful_of_mem_written {x : Text} {p : Text × Entry}
    (h : p ∈ report .initial (written x)) : Faithful p := by
  obtain ⟨q, hq, he⟩ := echo_of_mem_written h
  obtain ⟨_, _, ht⟩ := taken_of_mem_report hq
  exact ht.faithful he

/-- An empty line is no conditional and is written, if at all, as it stands. -/
theorem Taken.of_nil {s s' : State} {e : Entry} (h : Taken s [] e s') :
    e.kind ≠ .conditional ∧ ∀ t ∈ e.emitted, t = [] := by
  cases h with
  | bodySkip | strayClose | nonMember | logic => exact ⟨nofun, nofun⟩
  | docBody => exact ⟨nofun, fun t ht => (Option.mem_some_iff.1 ht).symm⟩
  | docOpen h | conditional _ h | typeOpen _ _ h | blockClose h | member _ h | function _ h
  | passthrough _ _ h => exact absurd h (by decide)

/-- Every line of a second pass but the empty ones at the end has been written by the first. -/
theorem mem_report_skeletonize {x : Text} {p : Text × Entry}
    (h : p ∈ report .initial (lines (skeletonize x))) :
    p.1 = [] ∨ ∃ q ∈ report .initial (lines x), q.2.echo = some p := by
  by_cases hw : written x = []
  · have hl : p.1 ∈ lines (skeletonize x) := (List.of_mem_zip h).1
    rw [skeletonize_of_written_nil hw] at hl
    refine .inl ?_
    simpa [lines, splitOn_cons] using hl
  · rw [lines_skeletonize hw, report_append, List.mem_append] at h
    rcases h with h | h
    · exact .inr (echo_of_mem_written h)
    · exact .inl (List.mem_singleton.1 (List.of_mem_zip h).1)

/-! ## What goes -/

/-- A text less the lines that its scan takes for conditionals. -/
def dropConditionals (x : Text) : Text :=
  joinLines ((((lines x).zip (trace x)).filter (·.2.kind != .conditional)).map (·.1))

/-- A conditional in a skeleton is a member that its empty body has made one. -/
theorem member_of_conditional {x : Text} {p : Text × Entry}
    (h : p ∈ report .initial (lines (skeletonize x))) (hk : p.2.kind = .conditional) :
    ∃ q ∈ report .initial (lines x), q.2 = ⟨.member, some p.1⟩ ∧
      p.1 = "  " ++ Line.finalize (trim q.1) ∧
      Line.isConditional (Line.finalize (trim q.1)) = true := by
  obtain ⟨s, s', ht⟩ := taken_of_mem_report h
  rcases mem_report_skeletonize h with hn | ⟨q, hq, he⟩
  · exact absurd hk (hn ▸ ht).of_nil.1
  · obtain ⟨_, _, ht'⟩ := taken_of_mem_report hq
    exact ⟨q, hq, ht'.member_of_echo he hk⟩

theorem not_isBlank_last_written (x : Text) : ∀ t ∈ (written x).getLast?, isBlank t = false := by
  intro t ht
  have hw : written x ≠ [] := by
    intro hw
    rw [hw] at ht
    cases ht
  have := List.rdropWhile_last_not isBlank (emissions .initial (lines x)) hw
  rw [List.getLast?_eq_some_getLast hw, Option.mem_some_iff] at ht
  rw [← ht]
  exact Bool.eq_false_iff.2 this

/-- What a second pass writes does not end in a blank line either. -/
theorem not_isBlank_last_again (x : Text) :
    ∀ t ∈ (emissions .initial (written x)).getLast?, isBlank t = false := by
  have hlast := not_isBlank_last_written x
  have hf : ∀ p ∈ report .initial (written x), Faithful p := fun p hp =>
    faithful_of_mem_written hp
  generalize written x = ls at hlast hf
  -- The last line is dropped, and no comment is open before it, or it is written as it stands.
  cases ls using List.reverseRecOn with
  | nil => exact nofun
  | append_singleton ls line =>
    have ht := step_taken (run .initial ls) line
    have hp := hf (line, (step (run .initial ls) line).1) (by
      rw [report_append]
      simp [report_cons])
    rw [emissions_append, emissions_cons, emissions_nil, List.append_nil]
    cases he : (step (run .initial ls) line).1.emitted with
    | none =>
      rw [Option.toList_none, List.append_nil]
      exact not_isBlank_last (ht.notDoc_of_silent he).1
    | some t =>
      intro u hu
      rw [Option.toList_some, List.getLast?_concat, Option.mem_some_iff] at hu
      rw [Faithful, he] at hp
      split at hp
      · cases hp
      · rw [← hu, Option.some.inj hp]
        exact hlast _ (by simp)

theorem emissions_written (x : Text) :
    emissions .initial (written x) =
      ((report .initial (written x)).filter (·.2.kind != .conditional)).map (·.1) := by
  rw [emissions_eq]
  exact filterMap_emitted fun p hp => faithful_of_mem_written hp

/-- The first line of a skeleton stays. -/
theorem emissions_written_ne_nil {x : Text} (h : written x ≠ []) :
    emissions .initial (written x) ≠ [] := by
  obtain ⟨line, ls, hw⟩ := List.exists_cons_of_ne_nil h
  obtain ⟨e, he⟩ := List.rdropWhile_prefix isBlank (emissions .initial (lines x))
  have hr := report_emissions .initial (lines x)
  rw [← he, show (emissions .initial (lines x)).rdropWhile isBlank = written x from rfl, hw,
    List.cons_append, report_cons] at hr
  have hk : (step .initial line).1.kind ≠ .conditional := first_echo (s := .initial) rfl hr.symm
  rw [emissions_written, hw, report_cons, List.filter_cons]
  simp [hk]

theorem skeletonize_again (x : Text) :
    skeletonize (skeletonize x) = dropConditionals (skeletonize x) := by
  by_cases hw : written x = []
  · rw [skeletonize_of_written_nil hw]
    decide
  · -- The empty last line adds at most a blank line, which is dropped again at the end.
    have hstep := (step_taken (run .initial (written x)) []).of_nil
    have hleft : skeletonize (skeletonize x) = render (emissions .initial (written x)) := by
      rw [skeletonize_eq, lines_skeletonize hw, emissions_append, emissions_cons, emissions_nil,
        List.append_nil]
      cases he : (step (run .initial (written x)) []).1.emitted with
      | none => rw [Option.toList_none, List.append_nil]
      | some t =>
        rw [Option.toList_some, hstep.2 t he]
        exact render_concat_blank rfl
    have hright : dropConditionals (skeletonize x) =
        joinLines (emissions .initial (written x) ++ [[]]) := by
      rw [dropConditionals, show (lines (skeletonize x)).zip (trace (skeletonize x)) =
        report .initial (lines (skeletonize x)) from rfl, lines_skeletonize hw, report_append,
        List.filter_append, List.map_append, ← emissions_written, report_cons, List.filter_cons]
      simp [hstep.1, report]
    rw [hleft, hright, render_of_last (not_isBlank_last_again x),
      joinLines_concat_nil (emissions_written_ne_nil hw)]

theorem trace_eq (y : Text) : trace y = (report .initial (lines y)).map (·.2) :=
  (map_snd_report _ _).symm

theorem dropConditionals_eq_self_iff (y : Text) :
    dropConditionals y = y ↔ ∀ e ∈ trace y, e.kind ≠ .conditional := by
  have hall : (∀ e ∈ trace y, e.kind ≠ .conditional) ↔
      ∀ p ∈ report .initial (lines y), (p.2.kind != .conditional) = true := by
    rw [trace_eq, List.forall_mem_map]
    simp only [bne_iff_ne]
  rw [hall, ← List.length_filter_eq_length_iff]
  have hdrop : dropConditionals y = joinLines
    (((report .initial (lines y)).filter (·.2.kind != .conditional)).map (·.1)) := rfl
  constructor
  · -- A text that keeps all its lines has lost none, so their numbers decide.
    intro h
    have hne : ((report .initial (lines y)).filter (·.2.kind != .conditional)).map (·.1) ≠ [] := by
      intro hn
      rw [hdrop, hn] at h
      rw [← show joinLines [] = y from h] at hn
      exact absurd hn (by decide)
    have hl := lines_joinLines hne (by
      intro l hl
      obtain ⟨p, hp, rfl⟩ := List.mem_map.1 hl
      exact newline_not_mem_of_mem_lines (List.of_mem_zip (List.mem_filter.1 hp).1).1)
    rw [← hdrop, h] at hl
    rw [← List.length_map (·.1), ← hl, report, List.length_zip, length_scan, Nat.min_self]
  · intro h
    rw [hdrop, List.filter_eq_self.2 (List.length_filter_eq_length_iff.1 h), map_fst_report,
      joinLines_lines]

/-- No line of a second pass is a member that reduces to a conditional. -/
theorem not_conditional_again {x : Text} {p : Text × Entry}
    (h : p ∈ report .initial (lines (skeletonize (skeletonize x)))) :
    p.2.kind ≠ .conditional := by
  intro hk
  obtain ⟨q, hq, hqe, -, hc⟩ := member_of_conditional h hk
  obtain ⟨_, _, ht⟩ := taken_of_mem_report hq
  obtain ⟨hp, hm⟩ := ht.plain_of_member hqe
  rcases mem_report_skeletonize hq with hn | ⟨r, hr, he⟩
  · rw [hn] at hm
    exact absurd hm (by decide)
  · obtain ⟨_, _, ht'⟩ := taken_of_mem_report hr
    rw [ht'.stable_of_echo he (by rw [hqe]), hp.notConditional] at hc
    cases hc

/-- A second pass over a skeleton drops exactly the lines that it takes for conditionals. Each of
them is a member of the first pass whose reduced form is a conditional. So a skeleton is a fixed
point exactly when its scan meets no conditional, and the skeleton of a skeleton always is one. -/
theorem skeletonize_skeletonize (x : Text) :
    skeletonize (skeletonize x) = dropConditionals (skeletonize x) ∧
    (∀ p ∈ (lines (skeletonize x)).zip (trace (skeletonize x)), p.2.kind = .conditional →
      ∃ q ∈ (lines x).zip (trace x), q.2 = ⟨.member, some p.1⟩ ∧
        p.1 = "  " ++ Line.finalize (trim q.1) ∧
        Line.isConditional (Line.finalize (trim q.1)) = true) ∧
    (skeletonize (skeletonize x) = skeletonize x ↔
      ∀ e ∈ trace (skeletonize x), e.kind ≠ .conditional) ∧
    skeletonize (skeletonize (skeletonize x)) = skeletonize (skeletonize x) := by
  refine ⟨skeletonize_again x, fun p hp hk => member_of_conditional hp hk, ?_, ?_⟩
  · rw [skeletonize_again, dropConditionals_eq_self_iff]
  · rw [skeletonize_again (skeletonize x), dropConditionals_eq_self_iff]
    intro e he hk
    rw [trace_eq] at he
    obtain ⟨p, hp, rfl⟩ := List.mem_map.1 he
    exact not_conditional_again hp hk

end SourceBundle.Skeleton
