import SourceBundle.Path.Basic
import SourceBundle.Proofs.Ignore.Below
import SourceBundle.Proofs.Ignore.Brackets
import SourceBundle.Proofs.Text.Lines
/-!
# The components of an ignored path

A pattern without a slash looks for its glob at some components of the path that stand side by side.
The glob matches more than one of them at once only where it reads a slash, and that only a bracket
does: `[!b]` is any byte but `b`.
-/
namespace SourceBundle

open Text

namespace Path

/-! ## Relative paths -/

/-- The relative path that leads through some names. -/
def through (names : List Text) : Text := toText ⟨false, names⟩

theorem through_singleton (name : Text) : through [name] = name := by
  rw [through, toText, if_neg Bool.false_ne_true, List.intercalate_singleton, List.nil_append]

theorem through_append {as bs : List Text} (ha : as ≠ []) (hb : bs ≠ []) :
    through (as ++ bs) = through as ++ slash :: through bs :=
  intercalate_append slash ha hb

theorem through_cons (name : Text) {names : List Text} (h : names ≠ []) :
    through (name :: names) = name ++ slash :: through names := by
  rw [← List.singleton_append, through_append (List.cons_ne_nil name []) h, through_singleton]

end Path

namespace Ignore

/-- A name that may stand in a path in normal form. -/
structure IsComponent (name : Text) : Prop where
  ne_nil : name ≠ []
  ne_here : name ≠ Path.here
  slash_not_mem : slash ∉ name
  backslash_not_mem : backslash ∉ name
  inLine : Glob.InLine name

theorem isComponent_iff {name : Text} : IsComponent name ↔
    name ≠ [] ∧ name ≠ Path.here ∧ slash ∉ name ∧ backslash ∉ name ∧ Glob.InLine name :=
  ⟨fun ⟨h₁, h₂, h₃, h₄, h₅⟩ => ⟨h₁, h₂, h₃, h₄, h₅⟩,
    fun ⟨h₁, h₂, h₃, h₄, h₅⟩ => ⟨h₁, h₂, h₃, h₄, h₅⟩⟩

instance (name : Text) : Decidable (IsComponent name) := decidable_of_iff _ isComponent_iff.symm

theorem IsComponent.isNormal {name : Text} (h : IsComponent name) : IsNormal name where
  ne_nil := h.ne_nil
  ne_dot := h.ne_here
  backslash_not_mem := h.backslash_not_mem
  not_dots := fun hd => h.slash_not_mem (hd.subset (by simp))
  getLast?_ne := fun hl => h.slash_not_mem (List.mem_of_getLast? hl)

variable {names folders : List Text} {name : Text} {isFolder : Bool}

theorem isNormal_through (hne : names ≠ []) (h : ∀ c ∈ names, IsComponent c) :
    IsNormal (Path.through names) := by
  induction names with
  | nil => exact absurd rfl hne
  | cons c names ih =>
    obtain ⟨hc, hnames⟩ := List.forall_mem_cons.1 h
    by_cases hn : names = []
    · rw [hn, Path.through_singleton]
      exact hc.isNormal
    · rw [Path.through_cons c hn]
      exact hc.isNormal.append (ih hn hnames)

theorem inLine_through (h : ∀ c ∈ names, IsComponent c) : Glob.InLine (Path.through names) := by
  induction names with
  | nil => exact nofun
  | cons c names ih =>
    obtain ⟨hc, hnames⟩ := List.forall_mem_cons.1 h
    by_cases hn : names = []
    · rw [hn, Path.through_singleton]
      exact hc.inLine
    · rw [Path.through_cons c hn]
      exact hc.inLine.below (ih hnames)

/-- Where there is a slash in a path, it is between two of its components. -/
theorem exists_of_through_eq {folder rest : Text} (hne : names ≠ [])
    (h : ∀ c ∈ names, IsComponent c) (hcut : Path.through names = folder ++ slash :: rest) :
    ∃ as bs, names = as ++ bs ∧ as ≠ [] ∧ bs ≠ [] ∧ folder = Path.through as ∧
      rest = Path.through bs :=
  exists_of_intercalate_eq hne (fun c hc => (h c hc).slash_not_mem) hcut

/-- A component is the name at the end, with nothing below it, or one of the folders. -/
theorem last_or_mem_of_append {above below : List Text} {c : Text}
    (h : folders ++ [name] = above ++ [c] ++ below) : c = name ∧ below = [] ∨ c ∈ folders := by
  rcases List.eq_nil_or_concat below with rfl | ⟨below, last, rfl⟩
  · rw [List.append_nil] at h
    exact .inl ⟨(List.singleton_inj.1 (List.append_inj' h rfl).2).symm, rfl⟩
  · rw [List.concat_eq_append, ← List.append_assoc] at h
    rw [(List.append_inj' h rfl).1]
    exact .inr (by simp)

/-! ## Where a pattern hits -/

namespace Pattern

variable {p : Pattern} (ha : p.anchored = false)
include ha

theorem accepts_exact_through (hne : names ≠ []) (h : ∀ c ∈ names, IsComponent c) :
    p.exact.Accepts (Path.through names) ↔
      ∃ above run, names = above ++ run ∧ run ≠ [] ∧ p.body.Accepts (Path.through run) := by
  rw [accepts_exact_of_anchored_eq_false ha]
  constructor
  · rintro (hbody | ⟨folder, rest, hcut, -, hbody⟩)
    · exact ⟨[], names, rfl, hne, hbody⟩
    · obtain ⟨above, run, rfl, -, hrun, -, rfl⟩ := exists_of_through_eq hne h hcut
      exact ⟨above, run, rfl, hrun, hbody⟩
  · rintro ⟨above, run, rfl, hrun, hbody⟩
    by_cases habove : above = []
    · rw [habove]
      exact .inl hbody
    · refine .inr ⟨_, _, Path.through_append habove hrun, inLine_through fun c hc => ?_, hbody⟩
      exact h c (List.mem_append_left run hc)

theorem accepts_descendant_through (hne : names ≠ []) (h : ∀ c ∈ names, IsComponent c) :
    p.descendant.Accepts (Path.through names) ↔
      ∃ above run below, names = above ++ run ++ below ∧ run ≠ [] ∧ below ≠ [] ∧
        p.body.Accepts (Path.through run) := by
  rw [accepts_descendant]
  constructor
  · rintro ⟨folder, rest, hcut, hfolder, -⟩
    obtain ⟨front, below, rfl, hfront, hbelow, rfl, rfl⟩ := exists_of_through_eq hne h hcut
    obtain ⟨above, run, rfl, hrun, hbody⟩ :=
      (accepts_exact_through ha hfront fun c hc => h c (List.mem_append_left _ hc)).1 hfolder
    exact ⟨above, run, below, rfl, hrun, hbelow, hbody⟩
  · rintro ⟨above, run, below, rfl, hrun, hbelow, hbody⟩
    have hfront : above ++ run ≠ [] := by simp [hrun]
    refine ⟨_, _, Path.through_append hfront hbelow, ?_, inLine_through fun c hc => ?_⟩
    · exact (accepts_exact_through ha hfront fun c hc => h c (List.mem_append_left _ hc)).2
        ⟨above, run, rfl, hrun, hbody⟩
    · exact h c (List.mem_append_right _ hc)

/-- A pattern hits a path at some of its components in a row. Where it wants a folder, they have to
lead to one, which they do unless they lead to the end of the path. -/
theorem hits_through_iff (hne : names ≠ []) (h : ∀ c ∈ names, IsComponent c) :
    p.hits (Path.through names) isFolder = true ↔
      ∃ above run below, names = above ++ run ++ below ∧ run ≠ [] ∧
        p.body.Accepts (Path.through run) ∧
        (below = [] → p.folderOnly = true → isFolder = true) := by
  have hwanted : (!p.folderOnly || isFolder) = true ↔ (p.folderOnly = true → isFolder = true) := by
    cases p.folderOnly <;> simp
  rw [hits, Bool.or_eq_true, Bool.and_eq_true, Regex.isMatch_iff, Regex.isMatch_iff,
    accepts_descendant_through ha hne h, accepts_exact_through ha hne h, hwanted]
  constructor
  · rintro (⟨above, run, below, hcut, hrun, hbelow, hbody⟩ | ⟨⟨above, run, hcut, hrun, hbody⟩, hf⟩)
    · exact ⟨above, run, below, hcut, hrun, hbody, fun hb => absurd hb hbelow⟩
    · exact ⟨above, run, [], by rw [hcut, List.append_nil], hrun, hbody, fun _ => hf⟩
  · rintro ⟨above, run, below, hcut, hrun, hbody, hf⟩
    by_cases hbelow : below = []
    · rw [hbelow, List.append_nil] at hcut
      exact .inr ⟨⟨above, run, hcut, hrun, hbody⟩, hf hbelow⟩
    · exact .inl ⟨above, run, below, hcut, hrun, hbelow, hbody⟩

theorem hits_component_iff {c : Text} (hc : IsComponent c) :
    p.hits c isFolder = true ↔ p.body.Accepts c ∧ (p.folderOnly = true → isFolder = true) := by
  rw [← Path.through_singleton c,
    hits_through_iff ha (List.cons_ne_nil c []) (List.forall_mem_singleton.2 hc)]
  constructor
  · rintro ⟨above, run, below, hcut, hrun, hbody, hf⟩
    rcases List.append_eq_singleton_iff.1 hcut.symm with ⟨hfront, -⟩ | ⟨hfront, hbelow⟩
    · exact absurd (List.append_eq_nil_iff.1 hfront).2 hrun
    · rcases List.append_eq_singleton_iff.1 hfront with ⟨-, hrun⟩ | ⟨-, hnil⟩
      · exact ⟨hrun ▸ hbody, hf hbelow⟩
      · exact absurd hnil hrun
  · rintro ⟨hbody, hf⟩
    exact ⟨[], [c], [], rfl, List.cons_ne_nil c [], hbody, fun _ => hf⟩

theorem hits_of_component (h : ∀ c ∈ folders ++ [name], IsComponent c)
    (hits : (∃ f ∈ folders, p.hits f true = true) ∨ p.hits name isFolder = true) :
    p.hits (Path.through (folders ++ [name])) isFolder = true := by
  rw [hits_through_iff ha (by simp) h]
  rcases hits with ⟨f, hf, hits⟩ | hits
  · obtain ⟨above, below, rfl⟩ := List.append_of_mem hf
    obtain ⟨hbody, -⟩ := (hits_component_iff ha (h f (by simp))).1 hits
    refine ⟨above, [f], below ++ [name], by simp, by simp, ?_, fun hb => absurd hb (by simp)⟩
    rwa [Path.through_singleton]
  · obtain ⟨hbody, hf⟩ := (hits_component_iff ha (h name (by simp))).1 hits
    refine ⟨folders, [name], [], by simp, by simp, ?_, fun _ => hf⟩
    rwa [Path.through_singleton]

omit ha in
/-- A body that reads no slash matches one component at a time. -/
theorem exists_singleton_of_accepts {run : List Text} (hslash : p.body.mentions slash = false)
    (hrun : run ≠ []) (h : p.body.Accepts (Path.through run)) : ∃ c, run = [c] := by
  obtain ⟨c, rest, rfl⟩ := List.exists_cons_of_ne_nil hrun
  by_cases hrest : rest = []
  · exact ⟨c, by rw [hrest]⟩
  · rw [Path.through_cons c hrest] at h
    exact absurd (by simp) (Regex.not_mem_of_mentions hslash h)

theorem component_of_hits (hslash : p.body.mentions slash = false)
    (h : ∀ c ∈ folders ++ [name], IsComponent c)
    (hits : p.hits (Path.through (folders ++ [name])) isFolder = true) :
    (∃ f ∈ folders, p.hits f true = true) ∨ p.hits name isFolder = true := by
  obtain ⟨above, run, below, hcut, hrun, hbody, hf⟩ := (hits_through_iff ha (by simp) h).1 hits
  obtain ⟨c, rfl⟩ := exists_singleton_of_accepts hslash hrun hbody
  rw [Path.through_singleton] at hbody
  have hc : IsComponent c := h c (by rw [hcut]; simp)
  rcases last_or_mem_of_append hcut with ⟨rfl, hbelow⟩ | hmem
  · exact .inr ((hits_component_iff ha hc).2 ⟨hbody, hf hbelow⟩)
  · exact .inl ⟨c, hmem, (hits_component_iff ha hc).2 ⟨hbody, fun _ => rfl⟩⟩

end Pattern

/-! ## Rules of a single pattern -/

theorem Spec.slash_not_mem_glob {line : Text} {s : Spec} (hs : Spec.ofLine? line = some s)
    (ha : s.anchored = false) : slash ∉ s.glob := by
  obtain ⟨mark, body, root, slashes, blanks, hcut⟩ := Spec.exists_cut hs
  intro h
  rw [hcut.anchored.2 (List.mem_append_right root h)] at ha
  cases ha

namespace Rules

/-- Whether one of a path's components is ignored by itself, as a folder where others follow. -/
def IgnoresComponent (rules : Rules) (folders : List Text) (name : Text) (isFolder : Bool) : Prop :=
  (∃ f ∈ folders, rules.ignores f true = true) ∨ rules.ignores name isFolder = true

section

variable {line : Text} {s : Spec} (hs : Spec.ofLine? line = some s)
include hs

theorem spec_of_mem_ofLines {p : Pattern} (hp : p ∈ ofLines [line]) :
    p.toSpec = s ∧ Glob.compile? s.glob = some p.body := by
  obtain ⟨line', hline, hp⟩ := List.mem_filterMap.1 hp
  rw [List.mem_singleton.1 hline] at hp
  obtain ⟨hspec, hbody⟩ := Pattern.exists_of_ofLine? hp
  rw [hs] at hspec
  obtain rfl := Option.some.inj hspec
  exact ⟨rfl, hbody⟩

theorem ignores_iff_exists_hits (hn : s.negated = false) {path : Text} (hpath : IsNormal path) :
    (ofLines [line]).ignores path isFolder = true ↔
      ∃ p ∈ ofLines [line], p.hits path isFolder = true := by
  have hnot : ∀ p ∈ ofLines [line], p.negated = false := fun p hp => by
    rw [(spec_of_mem_ofLines hs hp).1, hn]
  rw [ignores, hpath.normalize_eq, Bool.and_eq_true, verdict_iff hnot, bne_iff_ne]
  exact and_iff_right hpath.ne_nil

variable (hn : s.negated = false) (h : ∀ c ∈ folders ++ [name], IsComponent c)
include hn h

theorem ignoresComponent_iff :
    (ofLines [line]).IgnoresComponent folders name isFolder ↔
      ∃ p ∈ ofLines [line],
        (∃ f ∈ folders, p.hits f true = true) ∨ p.hits name isFolder = true := by
  rw [IgnoresComponent, ignores_iff_exists_hits hs hn (h name (by simp)).isNormal]
  constructor
  · rintro (⟨f, hf, hignored⟩ | ⟨p, hp, hits⟩)
    · obtain ⟨p, hp, hits⟩ :=
        (ignores_iff_exists_hits hs hn (h f (by simp [hf])).isNormal).1 hignored
      exact ⟨p, hp, .inl ⟨f, hf, hits⟩⟩
    · exact ⟨p, hp, .inr hits⟩
  · rintro ⟨p, hp, ⟨f, hf, hits⟩ | hits⟩
    · refine .inl ⟨f, hf, ?_⟩
      exact (ignores_iff_exists_hits hs hn (h f (by simp [hf])).isNormal).2 ⟨p, hp, hits⟩
    · exact .inr ⟨p, hp, hits⟩

variable (ha : s.anchored = false)
include ha

theorem ignores_through_iff :
    (ofLines [line]).ignores (Path.through (folders ++ [name])) isFolder = true ↔
      ∃ p ∈ ofLines [line], ∃ above run below, folders ++ [name] = above ++ run ++ below ∧
        run ≠ [] ∧ p.body.isMatch (Path.through run) = true ∧
        (below = [] → s.folderOnly = true → isFolder = true) := by
  have hne : folders ++ [name] ≠ [] := by simp
  rw [ignores_iff_exists_hits hs hn (isNormal_through hne h)]
  refine exists_congr fun p => and_congr_right fun hp => ?_
  obtain ⟨rfl, -⟩ := spec_of_mem_ofLines hs hp
  simp only [Pattern.hits_through_iff ha hne h, Regex.isMatch_iff]

theorem ignores_of_ignoresComponent
    (hc : (ofLines [line]).IgnoresComponent folders name isFolder) :
    (ofLines [line]).ignores (Path.through (folders ++ [name])) isFolder = true := by
  rw [ignores_iff_exists_hits hs hn (isNormal_through (by simp) h)]
  obtain ⟨p, hp, hits⟩ := (ignoresComponent_iff hs hn h).1 hc
  obtain ⟨rfl, -⟩ := spec_of_mem_ofLines hs hp
  exact ⟨p, hp, Pattern.hits_of_component ha h hits⟩

theorem ignoresComponent_of_ignores (hstars : ¬[asterisk, asterisk] <:+: s.glob)
    (hb : ∀ q ∈ Regex.brackets (Glob.written true s.glob), q.contains slash = false)
    (hi : (ofLines [line]).ignores (Path.through (folders ++ [name])) isFolder = true) :
    (ofLines [line]).IgnoresComponent folders name isFolder := by
  rw [ignores_iff_exists_hits hs hn (isNormal_through (by simp) h)] at hi
  rw [ignoresComponent_iff hs hn h]
  obtain ⟨p, hp, hits⟩ := hi
  obtain ⟨rfl, hbody⟩ := spec_of_mem_ofLines hs hp
  have hslash : p.body.mentions slash = false := by
    refine Glob.mentions_slash_of_parse? (fun t ht => hstars ?_)
      (Spec.slash_not_mem_glob hs ha) hb ⟨true, p.glob, List.suffix_rfl, rfl⟩ hbody
    exact (List.prefix_append [asterisk, asterisk] t).isInfix.trans ht.isInfix
  exact ⟨p, hp, Pattern.component_of_hits ha hslash h hits⟩

end

/-- A pattern that is not negated and has no slash ignores a path when some of its components in a
row match. So it does when one of them is ignored by itself, and only then as long as no bracket of
the pattern holds the slash. -/
theorem ignores_iff_run {line : Text} {s : Spec} (hs : Spec.ofLine? line = some s)
    (hn : s.negated = false) (ha : s.anchored = false) (hstars : ¬[asterisk, asterisk] <:+: s.glob)
    (h : ∀ c ∈ folders ++ [name], IsComponent c) :
    ((ofLines [line]).ignores (Path.through (folders ++ [name])) isFolder = true ↔
      ∃ p ∈ ofLines [line], ∃ above run below, folders ++ [name] = above ++ run ++ below ∧
        run ≠ [] ∧ p.body.isMatch (Path.through run) = true ∧
        (below = [] → s.folderOnly = true → isFolder = true)) ∧
    ((ofLines [line]).IgnoresComponent folders name isFolder →
      (ofLines [line]).ignores (Path.through (folders ++ [name])) isFolder = true) ∧
    ((∀ q ∈ Regex.brackets (Glob.written true s.glob), q.contains slash = false) →
      (ofLines [line]).ignores (Path.through (folders ++ [name])) isFolder = true →
      (ofLines [line]).IgnoresComponent folders name isFolder) :=
  ⟨ignores_through_iff hs hn h ha, ignores_of_ignoresComponent hs hn h ha,
    ignoresComponent_of_ignores hs hn h ha hstars⟩

/-- The pattern `x?*.[oa]/` ignores `d/xyz.o/e` for its second component. -/
theorem ignores_iff_run_second :
    (ofLines [ofString "x?*.[oa]/ "]).ignores (ofString "d/xyz.o/e") false = true ∧
      (ofLines [ofString "x?*.[oa]/ "]).IgnoresComponent [ofString "d", ofString "xyz.o"]
        (ofString "e") false := by
  have hs : Spec.ofLine? (ofString "x?*.[oa]/ ") =
      some ⟨ofString "x?*.[oa]/", ofString "x?*.[oa]", false, false, true⟩ := by decide +kernel
  have hb : ∀ q ∈ Regex.brackets (Glob.written true (ofString "x?*.[oa]")),
      q.contains slash = false := by decide +kernel
  have hi : (ofLines [ofString "x?*.[oa]/ "]).ignores (ofString "d/xyz.o/e") false = true := by
    decide +kernel
  have hpath : Path.through ([ofString "d", ofString "xyz.o"] ++ [ofString "e"]) =
      ofString "d/xyz.o/e" := by decide +kernel
  refine ⟨hi, (ignores_iff_run hs rfl rfl (by decide +kernel) (by decide +kernel)).2.2 hb ?_⟩
  rw [hpath]
  exact hi

/-- The pattern `a[!b]c` ignores `a/c`, of which it ignores neither component. -/
theorem not_forall_ignoresComponent :
    ¬∀ (line : Text) (s : Spec) (folders : List Text) (name : Text) (isFolder : Bool),
      Spec.ofLine? line = some s → s.negated = false → s.anchored = false →
      ¬[asterisk, asterisk] <:+: line → backslash ∉ line →
      (∀ c ∈ folders ++ [name], IsComponent c) →
      ((ofLines [line]).ignores (Path.through (folders ++ [name])) isFolder = true ↔
        (ofLines [line]).IgnoresComponent folders name isFolder) := by
  intro hall
  have hs : Spec.ofLine? (ofString "a[!b]c") =
      some ⟨ofString "a[!b]c", ofString "a[!b]c", false, false, false⟩ := by decide +kernel
  have hc := (hall _ _ [ofString "a"] (ofString "c") true hs rfl rfl (by decide +kernel)
    (by decide +kernel) (by decide +kernel)).1 (by decide +kernel)
  have hnone : ∀ f ∈ [ofString "a", ofString "c"],
      (ofLines [ofString "a[!b]c"]).ignores f true = false := by decide +kernel
  rcases hc with ⟨f, hf, hi⟩ | hi
  · rw [hnone f (List.mem_cons.2 (.inl (List.mem_singleton.1 hf)))] at hi
    cases hi
  · rw [hnone _ (by simp)] at hi
    cases hi

end Rules
end Ignore
end SourceBundle
