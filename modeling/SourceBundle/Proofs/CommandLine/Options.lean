import Mathlib.Tactic.SplitIfs
import SourceBundle.CommandLine.Options
import SourceBundle.Proofs.Except
/-!
# Argument lists

Arguments are read one after another, so what stands at the end of an accepted list is read by the
draft that the list has led to.
-/
namespace SourceBundle.Options

variable {d d' : Draft} {o : Options} {arg : Text} {args : List Text}

/-! ## What an argument leaves alone -/

/-- The spellings of the option that takes an output path. -/
def outputSpellings : List Text := ["-o", "--output"]

theorem mem_outputSpellings (h : wordOf arg = .output) : arg ∈ outputSpellings := by
  rw [wordOf] at h
  split at h
  · next w hw =>
    subst h
    obtain ⟨before, after, hs, -⟩ := List.lookup_eq_some_iff.1 hw
    have hmem : (arg, Word.output) ∈ spellings := by
      rw [hs]
      exact List.mem_append_right _ List.mem_cons_self
    simpa [spellings, outputSpellings] using hmem
  · split at h <;> cases h

theorem output_set (o : Options) (f : Flag) : (o.set f).output = o.output := by
  cases f <;> rfl

theorem output_of_addOperand (h : d.addOperand arg = .ok d') :
    d'.options.output = d.options.output := by
  rw [Draft.addOperand] at h
  split at h
  · cases h
    rfl
  · split at h
    · cases h
      rfl
    · cases h

theorem output_of_setMode (h : d.setMode arg = .ok d') : d'.options.output = d.options.output := by
  rw [Draft.setMode] at h
  split at h
  · cases h
    rfl
  · cases h

/-! ## Whole lists -/

/-- Arguments set no output unless one of them spells the option for it. -/
theorem output_of_read (hno : ∀ arg ∈ args, arg ∉ outputSpellings) (h : d.read args = .ok d') :
    d'.options.output = d.options.output := by
  fun_induction Draft.read d args with
  | case1 =>
    cases h
    rfl
  | case2 d arg f rest _ ih =>
    exact (ih (List.forall_mem_cons.1 hno).2 h).trans (output_set _ f)
  | case3 d arg rest _ ih => exact ih (List.forall_mem_cons.1 hno).2 h
  | case5 d arg rest _ ih =>
    obtain ⟨m, hm, h⟩ := exists_of_bind_ok h
    exact (ih m (List.forall_mem_cons.1 hno).2 h).trans (output_of_addOperand hm)
  | case6 d arg name rest _ ih =>
    obtain ⟨m, hm, h⟩ := exists_of_bind_ok h
    have hrest := (List.forall_mem_cons.1 (List.forall_mem_cons.1 hno).2).2
    exact (ih m hrest h).trans (output_of_setMode hm)
  | case7 d arg path rest hw =>
    exact absurd (mem_outputSpellings hw) (hno arg List.mem_cons_self)
  | case4 | case8 | case9 => cases h

theorem read_append (h : d.read args = .ok d') (more : List Text) :
    d.read (args ++ more) = d'.read more := by
  fun_induction Draft.read d args with
  | case1 =>
    cases h
    rfl
  | case2 d arg f rest hw ih | case3 d arg rest hw ih =>
    rw [List.cons_append, Draft.read.eq_def]
    simp only [hw]
    exact ih h
  | case5 d arg rest hw ih =>
    obtain ⟨m, hm, h⟩ := exists_of_bind_ok h
    simp only [List.cons_append, Draft.read, hw, hm, Except.bind]
    exact ih m h
  | case6 d arg name rest hw ih =>
    obtain ⟨m, hm, h⟩ := exists_of_bind_ok h
    simp only [List.cons_append, Draft.read, hw, hm, Except.bind]
    exact ih m h
  | case7 d arg path rest hw ih =>
    simp only [List.cons_append, Draft.read, hw]
    exact ih h
  | case4 | case8 | case9 => cases h

/-! ## Finished options -/

theorem ofArguments_eq_ok_iff :
    ofArguments args = .ok o ↔ ∃ d, Draft.read ⟨{}, false⟩ args = .ok d ∧ d.finish = .ok o := by
  rw [ofArguments]
  constructor
  · exact exists_of_bind_ok
  · rintro ⟨d, hd, ho⟩
    rw [hd]
    exact ho

theorem finish_setOutput (h : d.finish = .ok o) (path : Text) :
    (d.setOutput path).finish = .ok { o with output := some path } := by
  rw [Draft.finish] at h
  split_ifs at h with hasked hnone hmany hempty <;> cases h
  · exact if_pos hasked
  · exact (if_neg hasked).trans ((if_neg hnone).trans ((if_neg hmany).trans (if_neg hempty)))

/-- Options that ask for neither help nor the version name one source. -/
theorem folder_eq_none_of_stdin (h : ofArguments args = .ok o) (hhelp : o.help = false)
    (hversion : o.version = false) (hs : o.stdin = true) : o.folder = none := by
  obtain ⟨d, -, hd⟩ := ofArguments_eq_ok_iff.1 h
  rw [Draft.finish] at hd
  split_ifs at hd with hasked hnone hmany hempty <;> cases hd
  · simp [hhelp, hversion] at hasked
  · rw [Draft.sources, hs] at hmany
    cases hf : d.options.folder with
    | none => rfl
    | some folder => simp [hf] at hmany

theorem output_eq_none (hno : ∀ arg ∈ args, arg ∉ outputSpellings) (h : ofArguments args = .ok o) :
    o.output = none := by
  obtain ⟨d, hread, hd⟩ := ofArguments_eq_ok_iff.1 h
  have ho := output_of_read hno hread
  rw [Draft.finish] at hd
  split_ifs at hd <;> cases hd <;> exact ho

/-- A list that ends in an output path means what it means without, but for that path. -/
theorem ofArguments_output (h : ofArguments args = .ok o) (path : Text) :
    ofArguments (args ++ [("-o" : Text), path]) = .ok { o with output := some path } := by
  obtain ⟨d, hread, hd⟩ := ofArguments_eq_ok_iff.1 h
  have hpath : d.read [("-o" : Text), path] = .ok (d.setOutput path) := by
    have hw : wordOf "-o" = .output := by decide
    simp only [Draft.read, hw]
  rw [ofArguments_eq_ok_iff]
  exact ⟨_, (read_append hread _).trans hpath, finish_setOutput hd path⟩

end SourceBundle.Options
