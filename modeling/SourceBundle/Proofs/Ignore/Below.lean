import SourceBundle.Ignore.Rules
import SourceBundle.Proofs.Ignore.Pattern
import SourceBundle.Proofs.Regex.Append
/-!
# Below a matched folder

A pattern is written out twice, once for the paths it names and once for what is below them, and
each text is read on its own. The two readings agree on where the glob ends, so an ignored folder
takes everything below it along as long as no pattern is negated.
-/
namespace SourceBundle.Ignore

open Text

/-! ## A pattern written out -/

/-- The expression for the paths that a pattern names, written out. -/
def Spec.exactText (s : Spec) : Text :=
  (if s.anchored then [] else Regex.leadingFoldersText) ++ Glob.written true s.glob

/-- The expression for the paths below those, written out. -/
def Spec.descendantText (s : Spec) : Text := s.exactText ++ Regex.belowText

namespace Pattern

/-- A pattern compiles when the first of its texts can be read. -/
theorem parse?_exactText (s : Spec) : Regex.parse? s.exactText = (ofSpec? s).map exact := by
  unfold Spec.exactText ofSpec? Glob.compile? exact
  by_cases hs : s.anchored = true
  · simp [hs, Function.comp_def]
  · simp [hs, Function.comp_def, Regex.parse?_leadingFolders]

/-- The two texts of a pattern, each read without the other, stand for its two expressions. -/
structure ReadsApart (p : Pattern) : Prop where
  exact : Regex.parse? p.exactText = some p.exact
  descendant : ∃ d, Regex.parse? p.descendantText = some d ∧
    ∀ path, d.isMatch path = p.descendant.isMatch path

theorem readsApart_of_ofSpec? {s : Spec} {p : Pattern} (h : ofSpec? s = some p) :
    p.ReadsApart := by
  obtain ⟨rfl, -⟩ := exists_of_ofSpec? h
  have hexact : Regex.parse? p.exactText = some p.exact := by
    rw [parse?_exactText, h, Option.map_some]
  obtain ⟨d, hd, hsame⟩ := Regex.parse?_append_belowText hexact
  refine ⟨hexact, d, hd, fun path => ?_⟩
  rw [Bool.eq_iff_iff, Regex.isMatch_iff, Regex.isMatch_iff]
  exact hsame path

end Pattern

/-! ## Paths in normal form -/

/-- A path that normalizing leaves alone, other than the top folder. -/
structure IsNormal (path : Text) : Prop where
  ne_nil : path ≠ []
  ne_dot : path ≠ [dot]
  backslash_not_mem : backslash ∉ path
  not_dots : ¬[dot, slash] <+: path
  getLast?_ne : path.getLast? ≠ some slash

theorem isNormal_iff {path : Text} : IsNormal path ↔
    path ≠ [] ∧ path ≠ [dot] ∧ backslash ∉ path ∧ ¬[dot, slash] <+: path ∧
      path.getLast? ≠ some slash :=
  ⟨fun ⟨h₁, h₂, h₃, h₄, h₅⟩ => ⟨h₁, h₂, h₃, h₄, h₅⟩,
    fun ⟨h₁, h₂, h₃, h₄, h₅⟩ => ⟨h₁, h₂, h₃, h₄, h₅⟩⟩

instance (path : Text) : Decidable (IsNormal path) := decidable_of_iff _ isNormal_iff.symm

theorem replace_eq_self {old new : UInt8} {s : Text} (h : old ∉ s) : replace old new s = s := by
  unfold replace
  conv_rhs => rw [← List.map_id s]
  apply List.map_congr_left
  intro b hb
  rw [if_neg, id]
  rintro rfl
  exact h hb

theorem dropDots_eq_self {s : Text} (h : ¬[dot, slash] <+: s) : dropDots s = s := by
  unfold dropDots
  split
  · next t => exact absurd (List.prefix_append [dot, slash] t) h
  · rfl

theorem IsNormal.normalize_eq {path : Text} (h : IsNormal path) : normalize path = path := by
  unfold normalize
  rw [replace_eq_self h.backslash_not_mem, dropDots_eq_self h.not_dots]
  apply dropEndWhile_eq_self
  intro b hb
  rw [beq_eq_false_iff_ne]
  rintro rfl
  exact h.getLast?_ne hb

theorem IsNormal.append {folder rest : Text} (hf : IsNormal folder) (hr : IsNormal rest) :
    IsNormal (folder ++ slash :: rest) where
  ne_nil := by simp
  ne_dot := by
    intro h
    have := congrArg List.length h
    have := List.length_pos_iff.2 hf.ne_nil
    simp only [List.length_append, List.length_cons, List.length_nil] at *
    omega
  backslash_not_mem := by
    rw [List.mem_append, List.mem_cons]
    rintro (hb | hb | hb)
    · exact hf.backslash_not_mem hb
    · cases hb
    · exact hr.backslash_not_mem hb
  not_dots := by
    rintro ⟨t, ht⟩
    rcases folder with _ | ⟨b, _ | ⟨c, f⟩⟩
    · exact hf.ne_nil rfl
    · obtain ⟨rfl, -⟩ := List.cons_eq_cons.1 ht
      exact hf.ne_dot rfl
    · simp only [List.cons_append, List.cons.injEq] at ht
      obtain ⟨rfl, rfl, -⟩ := ht
      exact hf.not_dots (List.prefix_append [dot, slash] f)
  getLast?_ne := by
    rw [List.getLast?_append_of_ne_nil folder (by simp), List.getLast?_cons_of_ne_nil hr.ne_nil]
    exact hr.getLast?_ne

/-! ## What is below a path -/

theorem Glob.InLine.below {folder rest : Text} (hf : InLine folder) (hr : InLine rest) :
    InLine (folder ++ slash :: rest) := by
  intro b hb
  rcases List.mem_append.1 hb with hb | hb
  · exact hf b hb
  · rcases List.mem_cons.1 hb with rfl | hb
    · rfl
    · exact hr b hb

/-- A pattern that hits a folder names it or a folder it is in, and either way what is below. -/
theorem Pattern.descendant_of_hits {p : Pattern} {folder rest : Text} (hr : Glob.InLine rest)
    (h : p.hits folder true = true) :
    p.descendant.isMatch (folder ++ slash :: rest) = true := by
  unfold hits at h
  rw [Bool.or_true, Bool.and_true, Bool.or_eq_true, Regex.isMatch_iff, Regex.isMatch_iff] at h
  rw [Regex.isMatch_iff, accepts_descendant]
  rcases h with hbelow | hexact
  · obtain ⟨top, between, rfl, htop, hbetween⟩ := (accepts_descendant p folder).1 hbelow
    exact ⟨top, between ++ slash :: rest, by simp, htop, hbetween.below hr⟩
  · exact ⟨folder, rest, rfl, hexact, hr⟩

namespace Rules

/-- Without negated patterns a path is ignored when any pattern hits it. -/
theorem verdict_iff {rules : Rules} (hn : ∀ p ∈ rules, p.negated = false) {path : Text}
    {isFolder : Bool} :
    rules.verdict path isFolder = true ↔ ∃ p ∈ rules, p.hits path isFolder = true := by
  unfold verdict
  induction rules using List.reverseRecOn with
  | nil => simp
  | append_singleton rules p ih =>
    rw [List.foldl_append, List.foldl_cons, List.foldl_nil, hn p (by simp)]
    by_cases hp : p.hits path isFolder = true
    · simp [hp]
    · rw [if_neg hp, ih fun q hq => hn q (by simp [hq])]
      simp [hp]

/-- Everything below an ignored folder is ignored when no pattern is negated, and each pattern
answers as its two texts do when they are read apart. -/
theorem ignores_below {ls : List Text} {folder rest : Text}
    (hn : ∀ p ∈ ofLines ls, p.negated = false) (hf : IsNormal folder) (hr : IsNormal rest)
    (hl : Glob.InLine rest) (h : (ofLines ls).ignores folder true = true) :
    (∀ isFolder, (ofLines ls).ignores (folder ++ slash :: rest) isFolder = true) ∧
      ∀ p ∈ ofLines ls, p.ReadsApart := by
  constructor
  · intro isFolder
    unfold ignores at h ⊢
    rw [hf.normalize_eq, Bool.and_eq_true, verdict_iff hn] at h
    rw [(hf.append hr).normalize_eq, Bool.and_eq_true, verdict_iff hn]
    obtain ⟨-, p, hp, hits⟩ := h
    refine ⟨by simp, p, hp, ?_⟩
    unfold Pattern.hits
    rw [Pattern.descendant_of_hits hl hits, Bool.true_or]
  · intro p hp
    obtain ⟨line, -, hline⟩ := List.mem_filterMap.1 hp
    obtain ⟨s, -, hs⟩ := Option.bind_eq_some_iff.1 hline
    exact Pattern.readsApart_of_ofSpec? hs

/-- Object files, and folders with an exclamation mark at the end of their name. -/
def marked : List Text := [ofString "*.o", ofString "**/[!a-c]*\\!/"]

/-- These ignore the folder `src/w!`, which takes `src/w!/x/y` along. -/
theorem ignores_below_marked :
    (ofLines marked).ignores (ofString "src/w!") true = true ∧
      (∀ isFolder, (ofLines marked).ignores (ofString "src/w!" ++ slash :: ofString "x/y") isFolder =
        true) ∧ ∀ p ∈ ofLines marked, p.ReadsApart := by
  have hn : ∀ p ∈ ofLines marked, p.negated = false := by decide +kernel
  have h : (ofLines marked).ignores (ofString "src/w!") true = true := by decide +kernel
  exact ⟨h, ignores_below hn (by decide +kernel) (by decide +kernel) (by decide +kernel) h⟩

end Rules
end SourceBundle.Ignore
