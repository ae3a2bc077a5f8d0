import SourceBundle.Proofs.Line.Conditional
import SourceBundle.Proofs.Skeleton.FixedPoint
/-!
# Conditionals that are left

A conditional is dropped wherever the scanner looks for one, and no rule writes a line that reads
like one but the rule for members: in a type, `if (x)` without a brace is taken for a method, and
comes out as a conditional. The main result says that outside documentation nothing else does.
-/
namespace SourceBundle.Skeleton

open Text

/-- What one line leaves behind is a conditional only if it was one without its brace. -/
theorem Taken.isConditional_iff {s s' : State} {line t : Text} {e : Entry} (h : Taken s line e s')
    (he : e.emitted = some t) (hopen : e.kind ≠ .docOpen) (hbody : e.kind ≠ .docBody) :
    Line.isConditional (trim t) = true ↔ e.kind = .member ∧ Line.IsBraceless (trim line) := by
  have hnever {k : Kind} {u : Text} (hk : k ≠ .member) (hu : Line.isConditional u = false) :
      Line.isConditional u = true ↔ k = .member ∧ Line.IsBraceless (trim line) := by
    simp [hu, hk]
  cases h with
  | bodySkip | conditional | strayClose | nonMember | logic => cases he
  | docBody => exact absurd rfl hbody
  | docOpen => exact absurd rfl hopen
  | typeOpen _ _ ht =>
    obtain rfl := Option.some.inj he
    rw [trim_eq_self (Line.trimmed_openType (trimmed_trim line) ht)]
    exact hnever nofun (Line.not_isConditional_of_declaresType (Line.declaresType_openType ht))
  | blockClose =>
    obtain rfl := Option.some.inj he
    exact hnever nofun (by decide)
  | member hp hm =>
    obtain rfl := Option.some.inj he
    obtain ⟨_, hr, -⟩ := Line.reduced_of_member (trimmed_trim line) hm
    rw [trim_indented hr.trimmed,
      Line.isConditional_finalize_iff (trimmed_trim line) hm hp.notConditional]
    simp
  | function _ hf =>
    obtain rfl := Option.some.inj he
    obtain ⟨_, hr, -⟩ := Line.reduced_of_function (trimmed_trim line) hf
    rw [trim_eq_self hr.trimmed]
    exact hnever nofun (Line.not_isConditional_finalize (trimmed_trim line) hf)
  | passthrough hp =>
    obtain rfl := Option.some.inj he
    exact hnever nofun hp.notConditional

/-- The lines of a skeleton are lines that the scanner has written. -/
theorem exists_entry_of_mem_lines {x t : Text} (h : t ∈ lines (skeletonize x)) (ht : t ≠ []) :
    ∃ p ∈ report .initial (lines x), p.2.emitted = some t := by
  have hw : t ∈ written x := by
    by_cases hw : written x = []
    · rw [skeletonize_of_written_nil hw] at h
      exact absurd (by simpa [lines, splitOn_cons] using h) ht
    · rw [lines_skeletonize hw, List.mem_append, List.mem_singleton] at h
      exact h.resolve_right ht
  have he := (List.rdropWhile_prefix isBlank _).subset hw
  rw [emissions_eq] at he
  exact List.mem_filterMap.1 he

/-- Each line of a skeleton has been written for some line of the source. Outside documentation it
is a conditional exactly when it is written for a member that reads `if (x)`. -/
theorem isConditional_iff_isBraceless (x : Text) :
    (∀ t ∈ lines (skeletonize x), t ≠ [] →
      ∃ p ∈ (lines x).zip (trace x), p.2.emitted = some t) ∧
    ∀ p ∈ (lines x).zip (trace x), ∀ t ∈ p.2.emitted,
      p.2.kind ≠ .docOpen → p.2.kind ≠ .docBody →
        (Line.isConditional (trim t) = true ↔
          p.2.kind = .member ∧ Line.IsBraceless (trim p.1)) := by
  refine ⟨fun t h ht => exists_entry_of_mem_lines h ht, ?_⟩
  intro p hp t ht hopen hbody
  obtain ⟨_, _, h⟩ := taken_of_mem_report hp
  exact h.isConditional_iff ht hopen hbody

/-- A class with its braces on lines of their own. -/
def ownLines : Text :=
  ofString "class A\n\x7b\n  run()\n  \x7b\n    if (ready)\n    \x7b\n    \x7d\n  \x7d\n\x7d"

/-- In it `if (ready)` is written as a member. -/
def readyEntry : Text × Entry :=
  (ofString "    if (ready)", ⟨.member, some (ofString "  if (ready)\x7b\x7d")⟩)

theorem readyEntry_mem : readyEntry ∈ (lines ownLines).zip (trace ownLines) := by decide +kernel

theorem isConditional_iff_isBraceless_ownLines :
    readyEntry ∈ (lines ownLines).zip (trace ownLines) ∧
      Line.IsBraceless (trim readyEntry.1) := by
  have h := (isConditional_iff_isBraceless ownLines).2 _ readyEntry_mem _ rfl nofun nofun
  exact ⟨readyEntry_mem, (h.1 (by decide +kernel)).2⟩

/-- So skeletons have conditionals outside documentation. -/
theorem not_forall_not_isConditional :
    ¬∀ x : Text, ∀ p ∈ (lines x).zip (trace x), ∀ t ∈ p.2.emitted,
      p.2.kind ≠ .docOpen → p.2.kind ≠ .docBody → Line.isConditional (trim t) = false := by
  intro h
  have hready := h ownLines _ readyEntry_mem _ rfl nofun nofun
  exact absurd hready (by decide +kernel)

end SourceBundle.Skeleton
