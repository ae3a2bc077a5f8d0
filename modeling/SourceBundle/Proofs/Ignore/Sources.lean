import Mathlib.Data.List.Chain
import Mathlib.Data.List.Induction
import SourceBundle.CommandLine.Run
import SourceBundle.FileTree.Build
import SourceBundle.Proofs.Path.Join
import SourceBundle.Proofs.Path.Normal
/-!
# Where rules come from

The rules of a folder are those of the ignore files on the way down to it, and then those of its
settings. The last of these sources that holds a pattern which hits a path decides about the path.
-/
namespace SourceBundle

open Text

namespace Path

/-! ## The folders on the way down -/

/-- The path `d` has one name more than the path `above`, and a plain one. -/
def IsAbove (above d : Path) : Prop := ∃ name, IsPlain name ∧ d = ⟨true, above.names ++ [name]⟩

/-- Every folder from the one below the root down to `target`, each above the next. -/
structure IsWayDown (target : Path) (dirs : List Path) : Prop where
  isChain : (⟨true, []⟩ :: dirs).IsChain IsAbove
  getLast?_eq : (⟨true, []⟩ :: dirs).getLast? = some target

/-- The beginnings of some names below the root, shortest first. -/
def wayDown (names : List Text) : List Path :=
  (List.range names.length).map fun n => ⟨true, names.take (n + 1)⟩

theorem wayDown_concat (names : List Text) (name : Text) :
    wayDown (names ++ [name]) = wayDown names ++ [⟨true, names ++ [name]⟩] := by
  rw [wayDown, wayDown, List.length_append, List.length_singleton, List.range_succ, List.map_append]
  congr 1
  · refine List.map_congr_left fun n hn => ?_
    rw [List.take_append_of_le_length (List.mem_range.1 hn)]
  · rw [List.map_singleton, List.take_of_length_le (by simp)]

theorem isWayDown_wayDown {names : List Text} (h : ∀ n ∈ names, IsPlain n) :
    IsWayDown ⟨true, names⟩ (wayDown names) := by
  induction names using List.reverseRecOn with
  | nil => exact ⟨.singleton _, rfl⟩
  | append_singleton names name ih =>
    obtain ⟨hchain, hlast⟩ := ih fun n hn => h n (List.mem_append_left _ hn)
    rw [wayDown_concat]
    refine ⟨?_, by rw [← List.cons_append, List.getLast?_concat]⟩
    rw [← List.cons_append]
    refine List.isChain_append.2 ⟨hchain, .singleton _, ?_⟩
    rintro d hd e ⟨⟩
    rw [hlast, Option.mem_some_iff] at hd
    exact ⟨name, h name (by simp), by rw [← hd]⟩

end Path

namespace Ignore

/-- The absolute path of a folder in normal form, without a slash at its end. -/
def placeOf (fs : FileSystem) (folder : Text) : Path :=
  (Path.absolute (workingPath fs) folder).dropTrailing

theorem placeOf_eq (fs : FileSystem) (folder : Text) :
    ∃ names, placeOf fs folder = ⟨true, names⟩ ∧ ∀ n ∈ names, Path.IsPlain n := by
  have hr : (Path.ofText (Path.join (workingPath fs) folder)).rooted = true := by
    rw [Path.ofText, Path.head?_join rfl, beq_self_eq_true]
  refine ⟨_, Path.dropTrailing_normal_of_rooted hr, Path.isPlain_of_mem_kept hr ?_⟩
  exact fun n hn => Path.slash_not_mem_of_mem_namesOf hn

/-- The folders on the way down to a given one. The empty path has none, as it has no absolute
path. -/
def wayTo (fs : FileSystem) (folder : Text) : List Path :=
  if folder = [] then [] else Path.wayDown (placeOf fs folder).names

theorem isWayDown_wayTo {fs : FileSystem} {folder : Text} (h : folder ≠ []) :
    Path.IsWayDown (placeOf fs folder) (wayTo fs folder) := by
  obtain ⟨names, hplace, hplain⟩ := placeOf_eq fs folder
  rw [wayTo, if_neg h, hplace]
  exact Path.isWayDown_wayDown hplain

@[simp] theorem climb_root : climb ⟨true, []⟩ = [] := by
  rw [climb]
  simp

/-- One turn of the climb. -/
theorem climb_concat (names : List Text) (name : Text) :
    climb ⟨true, names ++ [name]⟩ = ⟨true, names ++ [name]⟩ :: climb ⟨true, names⟩ := by
  rw [climb]
  simp

/-- The climb from a folder, read from its end, is the way down to it. -/
theorem reverse_climb (names : List Text) :
    (climb ⟨true, names⟩).reverse = Path.wayDown names := by
  induction names using List.reverseRecOn with
  | nil => simp [Path.wayDown]
  | append_singleton names name ih =>
    rw [climb_concat, List.reverse_cons, ih, Path.wayDown_concat]

/-- A climb starts at the place of the folder. -/
theorem startOf_eq {fs : FileSystem} {folder : Text} (h : folder ≠ []) :
    startOf fs folder = placeOf fs folder := by
  have hr : (placeOf fs folder).rooted = true := by
    obtain ⟨names, hplace, -⟩ := placeOf_eq fs folder
    rw [hplace]
  rw [startOf, absolute?, if_neg h]
  exact Path.parent_eq_dropTrailing (Path.rooted_dropTrailing _ ▸ hr)

/-- The folders whose ignore files count are those on the way down. -/
theorem ancestors_eq (fs : FileSystem) (folder : Text) :
    ancestors fs folder = (wayTo fs folder).map Path.toText := by
  rw [ancestors, wayTo]
  split
  · next h =>
    -- The normal form of the empty path is empty too, and nothing is above that.
    have hclimb : climb (startOf fs folder) = [] := by
      rw [h, climb]
      rfl
    rw [hclimb]
    rfl
  · next h =>
    obtain ⟨names, hplace, -⟩ := placeOf_eq fs folder
    rw [startOf_eq h, hplace, reverse_climb]

/-! ## The sources of the rules -/

/-- The patterns of each source in order: two ignore files in each of some folders, of which a
missing one has no patterns, and the settings. -/
def sources (fs : FileSystem) (dirs : List Path) (config : Config) : List Rules :=
  (dirs.flatMap fun dir => fileNames.map fun name =>
    Rules.ofText ((fs.read? (Path.join dir.toText name)).getD [])) ++
    [Rules.ofLines config.ignorePatterns]

theorem ofText_nil : Rules.ofText [] = [] := by decide

theorem ofText_getD (t : Option Text) :
    Rules.ofText (t.getD []) = t.toList.flatMap Rules.ofText := by
  cases t with
  | none => exact ofText_nil
  | some t => exact (List.append_nil _).symm

/-- The rules of a run on a folder, source by source. -/
theorem rules_eq_flatten (fs : FileSystem) (folder : Text) (config : Config) :
    Rules.ofLines (CommandLine.patternLines fs folder config) =
      (sources fs (wayTo fs folder) config).flatten := by
  have hfiles : Rules.ofLines (linesFor fs folder) =
      ((wayTo fs folder).flatMap fun dir => fileNames.map fun name =>
        Rules.ofText ((fs.read? (Path.join dir.toText name)).getD [])).flatten := by
    rw [Rules.ofLines, linesFor, List.filterMap_flatMap, textsFor, ancestors_eq, List.flatMap_map,
      List.flatMap_assoc, ← List.flatMap_id, List.flatMap_assoc]
    refine List.flatMap_congr fun dir _ => ?_
    rw [List.filterMap_eq_flatMap_toList, List.flatMap_assoc, List.flatMap_id, ← List.flatMap_def]
    exact List.flatMap_congr fun name _ => (ofText_getD _).symm
  rw [CommandLine.patternLines, sources, List.flatten_append, List.flatten_singleton, ← hfiles]
  exact List.filterMap_append

/-! ## The last pattern that hits -/

/-- Of some sources the last that holds a pattern which hits the path has `p` as its last one. -/
structure Decides (sources : List Rules) (path : Text) (isFolder : Bool) (p : Pattern) : Prop where
  hits : p.hits path isFolder = true
  last : ∃ outer earlier later closer, sources = outer ++ (earlier ++ p :: later) :: closer ∧
    (∀ q ∈ later, q.hits path isFolder = false) ∧
    ∀ source ∈ closer, ∀ q ∈ source, q.hits path isFolder = false

section Verdict

variable {sources : List Rules} {rules later : Rules} {path : Text} {isFolder : Bool} {p : Pattern}

/-- Patterns that do not hit change nothing. -/
theorem foldl_of_no_hit (ignored : Bool) (h : ∀ q ∈ rules, q.hits path isFolder = false) :
    rules.foldl (fun ignored q => if q.hits path isFolder then !q.negated else ignored) ignored =
      ignored := by
  induction rules with
  | nil => rfl
  | cons q rules ih =>
    rw [List.foldl_cons, h q List.mem_cons_self, if_neg Bool.false_ne_true]
    exact ih fun r hr => h r (List.mem_cons_of_mem q hr)

theorem verdict_of_last {earlier : Rules} (hp : p.hits path isFolder = true)
    (h : ∀ q ∈ later, q.hits path isFolder = false) :
    Rules.verdict (earlier ++ p :: later) path isFolder = !p.negated := by
  rw [Rules.verdict, List.foldl_append, List.foldl_cons, if_pos hp, foldl_of_no_hit _ h]

theorem Decides.verdict_eq (h : Decides sources path isFolder p) :
    Rules.verdict sources.flatten path isFolder = !p.negated := by
  obtain ⟨hp, outer, earlier, later, closer, rfl, hlater, hcloser⟩ := h
  rw [List.flatten_append, List.flatten_cons, List.append_assoc, List.cons_append,
    ← List.append_assoc]
  refine verdict_of_last hp fun q hq => ?_
  rcases List.mem_append.1 hq with hq | hq
  · exact hlater q hq
  · obtain ⟨source, hs, hq⟩ := List.mem_flatten.1 hq
    exact hcloser source hs q hq

theorem verdict_of_no_hit (h : ∀ source ∈ sources, ∀ q ∈ source, q.hits path isFolder = false) :
    Rules.verdict sources.flatten path isFolder = false := by
  refine foldl_of_no_hit false fun q hq => ?_
  obtain ⟨source, hs, hq⟩ := List.mem_flatten.1 hq
  exact h source hs q hq

/-- The last element of a list for which something holds. -/
theorem exists_last {α : Type} {P : α → Bool} {xs : List α} (h : ∃ x ∈ xs, P x = true) :
    ∃ before x after, xs = before ++ x :: after ∧ P x = true ∧ ∀ y ∈ after, P y = false := by
  induction xs using List.reverseRecOn with
  | nil => exact absurd h (by simp)
  | append_singleton xs y ih =>
    cases hy : P y with
    | true => exact ⟨xs, y, [], rfl, hy, nofun⟩
    | false =>
      obtain ⟨x, hx, hP⟩ := h
      have hx : x ∈ xs := by
        rcases List.mem_append.1 hx with hx | hx
        · exact hx
        · rw [List.mem_singleton.1 hx, hy] at hP
          cases hP
      obtain ⟨before, z, after, rfl, hz, hafter⟩ := ih ⟨x, hx, hP⟩
      refine ⟨before, z, after ++ [y], by simp, hz, fun w hw => ?_⟩
      rcases List.mem_append.1 hw with hw | hw
      · exact hafter w hw
      · rw [List.mem_singleton.1 hw, hy]

theorem exists_decides (h : ∃ source ∈ sources, ∃ q ∈ source, q.hits path isFolder = true) :
    ∃ p, Decides sources path isFolder p := by
  have hany : ∃ source ∈ sources, (source.any fun q => q.hits path isFolder) = true := by
    simpa only [List.any_eq_true] using h
  -- Twice the last one: of the sources, and then of the patterns in that source.
  obtain ⟨outer, source, closer, hsources, hsource, hcloser⟩ := exists_last hany
  obtain ⟨earlier, p, later, rfl, hp, hlater⟩ := exists_last (List.any_eq_true.1 hsource)
  refine ⟨p, hp, outer, earlier, later, closer, hsources, hlater, fun s hs q hq => ?_⟩
  have := hcloser s hs
  rw [List.any_eq_false] at this
  exact Bool.eq_false_iff.2 (this q hq)

end Verdict

/-! ## The rules of a run -/

/-- The rules of a run on a folder are those of the ignore files on the way down to it and then
those of its settings. About a path below the folder the last source that holds a pattern which hits
it decides, by the last such pattern; one that nothing hits is not ignored, and neither is the
folder itself, whatever the patterns are. -/
theorem ignores_eq_of_decides (fs : FileSystem) (folder : Text) (config : Config) :
    (folder = [] → wayTo fs folder = []) ∧
      (folder ≠ [] → Path.IsWayDown (placeOf fs folder) (wayTo fs folder)) ∧
      let rules := (CommandLine.collectorOf fs folder config
        (CommandLine.patternLines fs folder config)).rules
      rules = (sources fs (wayTo fs folder) config).flatten ∧
        ∀ path isFolder,
          (normalize path = [] → rules.ignores path isFolder = false) ∧
          (normalize path ≠ [] →
            ∀ p, Decides (sources fs (wayTo fs folder) config) (normalize path) isFolder p →
              rules.ignores path isFolder = !p.negated) ∧
          ((∃ source ∈ sources fs (wayTo fs folder) config, ∃ q ∈ source,
              q.hits (normalize path) isFolder = true) →
            ∃ p, Decides (sources fs (wayTo fs folder) config) (normalize path) isFolder p) ∧
          ((∀ source ∈ sources fs (wayTo fs folder) config, ∀ q ∈ source,
              q.hits (normalize path) isFolder = false) →
            rules.ignores path isFolder = false) := by
  refine ⟨fun h => if_pos h, isWayDown_wayTo, ?_⟩
  intro rules
  have hflat : rules = (sources fs (wayTo fs folder) config).flatten :=
    rules_eq_flatten fs folder config
  refine ⟨hflat, fun path isFolder => ?_⟩
  rw [hflat, Rules.ignores]
  refine ⟨fun hp => ?_, fun hp p hd => ?_, exists_decides, fun h => ?_⟩
  · rw [hp]
    rfl
  · rw [bne_iff_ne.2 hp, Bool.true_and, hd.verdict_eq]
  · rw [verdict_of_no_hit h, Bool.and_false]

/-- A folder whose ignore file takes back what the one above it ignores. -/
def nested : FileSystem :=
  .ofItems (ofString "w") [⟨ofString ".gitignore", .file (ofString "*")⟩,
    ⟨ofString "d/.gitignore", .file (ofString "!*.md")⟩]

/-- What the line `*` is compiled to. -/
def star : Pattern :=
  ⟨⟨ofString "*", ofString "*", false, false, false⟩, .concat [.many .inName]⟩

/-- What the line `!*.md` is compiled to. -/
def keepsNotes : Pattern :=
  ⟨⟨ofString "!*.md", ofString "*.md", false, true, false⟩,
    .concat [.many .inName, .byte dot, .byte 0x6D, .byte 0x64]⟩

theorem sources_nested :
    sources nested (wayTo nested (ofString "d/")) .builtIn =
      [[star], [], [keepsNotes], [], []] := by
  decide +kernel

/-- There `a.md` is hit by both files, and the closer one keeps it. -/
theorem ignores_eq_of_decides_nested :
    Path.IsWayDown (placeOf nested (ofString "d/")) (wayTo nested (ofString "d/")) ∧
      Decides (sources nested (wayTo nested (ofString "d/")) .builtIn) (ofString "a.md") false
        keepsNotes ∧
      Rules.ignores [star, keepsNotes] (ofString "a.md") false = false := by
  obtain ⟨-, hdown, hflat, h⟩ := ignores_eq_of_decides nested (ofString "d/") .builtIn
  rw [sources_nested] at hflat h ⊢
  have hd : Decides [[star], [], [keepsNotes], [], []] (ofString "a.md") false keepsNotes :=
    ⟨by decide +kernel, [[star], []], [], [], [[], []], rfl, nofun, by simp⟩
  have hn : normalize (ofString "a.md") = ofString "a.md" := by decide +kernel
  refine ⟨hdown (by decide +kernel), hd, ?_⟩
  have := (h (ofString "a.md") false).2.1 (hn ▸ by decide +kernel) keepsNotes (hn.symm ▸ hd)
  rwa [hflat] at this

/-- The working folder has an ignore file, but the empty path, which leads to the working folder
once it is made absolute, has no rules. And the folder itself is not ignored, although the pattern
of the outer file hits its empty path and no later one does. -/
theorem not_forall_ignores_eq :
    (¬∀ (fs : FileSystem) (folder : Text) (config : Config) (dirs : List Path),
      Path.IsWayDown (placeOf fs folder) dirs →
        (CommandLine.collectorOf fs folder config
          (CommandLine.patternLines fs folder config)).rules = (sources fs dirs config).flatten) ∧
    ¬∀ (fs : FileSystem) (folder : Text) (config : Config) (path : Text) (isFolder : Bool)
      (p : Pattern),
      Decides (sources fs (wayTo fs folder) config) (normalize path) isFolder p →
        (CommandLine.collectorOf fs folder config
          (CommandLine.patternLines fs folder config)).rules.ignores path isFolder =
            !p.negated := by
  constructor
  · intro h
    have hplace : placeOf nested [] = ⟨true, [ofString "w"]⟩ := by decide +kernel
    have hdown : Path.IsWayDown (placeOf nested []) (Path.wayDown [ofString "w"]) := by
      rw [hplace]
      exact Path.isWayDown_wayDown (by
        simp only [List.mem_singleton, forall_eq]
        exact ⟨by decide, by decide, by decide, by decide⟩)
    have := h nested [] .builtIn _ hdown
    exact absurd this (by decide +kernel)
  · intro h
    have hd : Decides (sources nested (wayTo nested (ofString "d/")) .builtIn) (normalize []) true
        star := by
      rw [sources_nested]
      refine ⟨by decide +kernel, [], [], [], [[], [keepsNotes], [], []], rfl, nofun, ?_⟩
      have : keepsNotes.hits (normalize []) true = false := by decide +kernel
      simp [this]
    have := h nested (ofString "d/") .builtIn [] true star hd
    cases this

end Ignore
end SourceBundle
