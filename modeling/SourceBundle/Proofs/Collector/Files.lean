import SourceBundle.Proofs.Collector.Reach
import SourceBundle.Proofs.Collector.Walk
/-!
# The files that are collected

A collector takes the files it reaches that count as text and are not too large, in the order of
their paths.
-/
namespace SourceBundle

open Text

/-- The path that a finding is about, as it is seen from the top folder. -/
def Finding.path : Finding → Path
  | collected p _ | oversized p _ => p

/-- The path of a file to bundle. -/
def Finding.path? : Finding → Option Path
  | collected p _ => some p
  | oversized .. => none

theorem Finding.path_of_path? {x : Finding} {p : Path} (h : x.path? = some p) : x.path = p := by
  cases x with
  | collected q =>
    cases h
    rfl
  | oversized => cases h

namespace Collector

variable {c : Collector} {above : List Text} {x : Finding}

/-! ## Their order -/

theorem path_of_mem_weigh {p : Path} {absolute : Text} {size : Nat}
    (h : x ∈ c.weigh p absolute size) : x.path = p := by
  rw [weigh] at h
  split at h
  · cases h
  · split at h
    · rw [List.mem_singleton.1 h]
      rfl
    · rw [List.mem_singleton.1 h]
      rfl

theorem names_of_mem_findings {o : Outline} (h : x ∈ c.findings above o) :
    ∃ n ∈ o.names, ∃ names, x.path.names = above ++ n :: names := by
  induction o generalizing above with
  | nil => cases h
  | entry name kind inside rest ihi ihr =>
    rw [findings_entry, List.mem_append] at h
    rcases h with h | h
    · refine ⟨name, List.mem_cons_self, ?_⟩
      cases kind with
      | file size => exact ⟨[], by rw [path_of_mem_weigh h, below]⟩
      | folder =>
        obtain ⟨n, -, names, hn⟩ := ihi h
        exact ⟨n :: names, by rw [hn, List.append_assoc, List.singleton_append]⟩
      | linkedFolder | dangling => cases h
    · obtain ⟨n, hn, h⟩ := ihr h
      exact ⟨n, List.mem_cons_of_mem name hn, h⟩

theorem pairwise_weigh (p : Path) (absolute : Text) (size : Nat) :
    (c.weigh p absolute size).Pairwise fun x y => x.path.names < y.path.names := by
  rw [weigh]
  split
  · exact .nil
  · split <;> exact List.pairwise_singleton _ _

/-- A sorted outline is searched in the order of paths. -/
theorem pairwise_findings {o : Outline} (h : o.Sorted) :
    (c.findings above o).Pairwise fun x y => x.path.names < y.path.names := by
  induction o generalizing above with
  | nil => exact .nil
  | entry name kind inside rest ihi ihr =>
    obtain ⟨hlt, hi, hr⟩ := h
    rw [findings_entry, List.pairwise_append]
    refine ⟨?_, ihr hr, ?_⟩
    · cases kind with
      | file size => exact pairwise_weigh _ _ size
      | folder => exact ihi hi
      | linkedFolder | dangling => exact .nil
    · -- All paths of the first entry start with its name, and no path after it does.
      intro x hx y hy
      have hx : x ∈ c.findings above (.entry name kind inside .nil) := by
        rw [findings_entry]
        exact List.mem_append_left _ hx
      obtain ⟨n, hn, s, hs⟩ := names_of_mem_findings hx
      obtain ⟨m, hm, t, ht⟩ := names_of_mem_findings hy
      rw [hs, ht, List.mem_singleton.1 hn]
      exact List.append_left_lt (.rel (hlt m hm))

/-! ## Which they are -/

/-- A path below the top folder that leads to a text file which is not too large. No folder on the
way is a link, and nothing on the way is out of sight. -/
structure Wanted (c : Collector) (names : List Text) : Prop where
  reaches : ∃ content, c.Reaches [] names content ∧
    (c.config.maxFileBytes = 0 ∨ content.length ≤ c.config.maxFileBytes)
  is_text : c.config.allows (below names).extension = true

theorem collected_mem_weigh {p q : Path} {absolute path : Text} {size : Nat} :
    .collected p absolute ∈ c.weigh q path size ↔ p = q ∧ absolute = path ∧
      c.config.allows (Path.ofText path).extension = true ∧
      (c.config.maxFileBytes = 0 ∨ size ≤ c.config.maxFileBytes) := by
  rw [weigh, countsAsText]
  cases c.config.allows (Path.ofText path).extension with
  | false => simp
  | true =>
    simp only [Bool.not_true, Bool.false_eq_true, if_false, true_and, Bool.and_eq_true,
      decide_eq_true_iff]
    split
    · next h =>
      simp only [List.mem_singleton, reduceCtorEq, false_iff, not_and]
      omega
    · next h =>
      simp only [List.mem_singleton, Finding.collected.injEq, and_congr_right_iff, iff_self_and]
      omega

/-- Behind the top folder a file has the extension that its own name has. -/
theorem extension_pathOf {names : List Text} (hne : names ≠ []) (hn : ∀ n ∈ names, IsName n) :
    (Path.ofText (c.pathOf names)).extension = (below names).extension := by
  rw [Path.extension, pathOf, below, Path.fileName_join hne hn]
  rfl

theorem isFolder_of_mem_files {f : Collected} (h : f ∈ c.files) : c.fs.isFolder c.root = true := by
  by_contra hroot
  obtain ⟨r, hr⟩ := top_of_not_isFolder hroot
  rw [files, hr] at h
  cases h

/-- A file that is met is read behind the top folder's path. -/
theorem file?_of_mem_findings {o : Outline} (h : x ∈ c.findings above o) :
    x.file? = x.path?.map fun p => ⟨p.toText, Path.join c.root p.toText⟩ := by
  have hweigh {names : List Text} {size : Nat}
      (hx : x ∈ c.weigh (below names) (c.pathOf names) size) :
      x.file? = x.path?.map fun p => ⟨p.toText, Path.join c.root p.toText⟩ := by
    cases x with
    | collected p absolute =>
      obtain ⟨rfl, rfl, -⟩ := collected_mem_weigh.1 hx
      rfl
    | oversized => rfl
  induction o generalizing above with
  | nil => cases h
  | entry name kind inside rest ihi ihr =>
    rw [findings_entry, List.mem_append] at h
    rcases h with h | h
    · cases kind with
      | file size => exact hweigh h
      | folder => exact ihi h
      | linkedFolder | dangling => cases h
    · exact ihr h

/-- The paths of the files to bundle, in order. -/
theorem files_eq {inside : Folder} (hfs : inside.WellFormed)
    (h : c.fs.find c.root = .ok (.folder inside)) :
    c.files = ((c.findings [] (c.outlineOf [] inside)).filterMap Finding.path?).map fun p =>
      ⟨p.toText, Path.join c.root p.toText⟩ := by
  rw [files, top_eq h]
  dsimp only
  rw [scan_eq_findings c.leadsTo_root hfs, List.map_filterMap]
  exact List.filterMap_congr fun x hx => file?_of_mem_findings hx

theorem mem_paths_iff {inside : Folder} {p : Path} (hfs : inside.WellFormed)
    (h : c.fs.find c.root = .ok (.folder inside)) :
    p ∈ (c.findings [] (c.outlineOf [] inside)).filterMap Finding.path? ↔
      ∃ names, c.Wanted names ∧ p = below names := by
  have hmem : p ∈ (c.findings [] (c.outlineOf [] inside)).filterMap Finding.path? ↔
      ∃ absolute, .collected p absolute ∈ c.findings [] (c.outlineOf [] inside) := by
    rw [List.mem_filterMap]
    constructor
    · rintro ⟨x, hx, hp⟩
      cases x with
      | collected q absolute =>
        cases hp
        exact ⟨absolute, hx⟩
      | oversized => cases hp
    · rintro ⟨absolute, hx⟩
      exact ⟨.collected p absolute, hx, rfl⟩
  rw [hmem]
  simp only [(standsAt_root hfs h).mem_findings, collected_mem_weigh, List.nil_append]
  constructor
  · rintro ⟨_, names, content, hr, rfl, rfl, htext, hsize⟩
    rw [extension_pathOf hr.ne_nil hr.isName] at htext
    exact ⟨names, ⟨⟨content, hr, hsize⟩, htext⟩, rfl⟩
  · rintro ⟨names, ⟨⟨content, hr, hsize⟩, htext⟩, rfl⟩
    rw [← extension_pathOf (c := c) hr.ne_nil hr.isName] at htext
    exact ⟨_, names, content, hr, rfl, rfl, htext, hsize⟩

theorem Wanted.ofText_toText {names : List Text} (h : c.Wanted names) :
    Path.ofText (below names).toText = below names := by
  obtain ⟨content, hr, -⟩ := h.reaches
  exact Path.ofText_toText hr.isName

theorem exists_wanted_of_mem_files {inside : Folder} {f : Collected} (hfs : inside.WellFormed)
    (h : c.fs.find c.root = .ok (.folder inside)) (hf : f ∈ c.files) :
    ∃ names, c.Wanted names ∧ f = ⟨(below names).toText, c.pathOf names⟩ := by
  rw [files_eq hfs h] at hf
  obtain ⟨p, hp, rfl⟩ := List.mem_map.1 hf
  obtain ⟨names, hw, rfl⟩ := (mem_paths_iff hfs h).1 hp
  exact ⟨names, hw, rfl⟩

/-- A collector takes exactly the files that are wanted, each once and in the order of their paths
name by name, and none outside of its top folder. -/
theorem files_are_wanted_in_order (c : Collector) (hfs : c.fs.root.WellFormed)
    (hroot : c.fs.isFolder c.root = true) :
    (∀ t, t ∈ c.files.map Collected.relative ↔
        ∃ names, c.Wanted names ∧ t = (below names).toText) ∧
      c.files.Pairwise (fun f g =>
        (Path.ofText f.relative).names < (Path.ofText g.relative).names) ∧
      ∀ f ∈ c.files, Path.up ∉ (Path.ofText f.relative).names ∧
        f.absolute = Path.join c.root f.relative := by
  obtain ⟨inside, hin⟩ := FileSystem.isFolder_iff.1 hroot
  obtain ⟨links, here, hat, -⟩ := FileSystem.exists_resolve_join hin
  have hwf : inside.WellFormed := hfs.at? hat
  rw [files_eq hwf hin]
  refine ⟨fun t => ?_, ?_, ?_⟩
  · simp only [List.map_map, List.mem_map, mem_paths_iff hwf hin]
    constructor
    · rintro ⟨_, ⟨names, hw, rfl⟩, rfl⟩
      exact ⟨names, hw, rfl⟩
    · rintro ⟨names, hw, rfl⟩
      exact ⟨below names, ⟨names, hw, rfl⟩, rfl⟩
  · rw [List.pairwise_map]
    have hpaths : ((c.findings [] (c.outlineOf [] inside)).filterMap Finding.path?).Pairwise
        fun p q => p.names < q.names := by
      rw [List.pairwise_filterMap]
      refine (pairwise_findings (sorted_outlineOf hwf)).imp ?_
      intro x y hlt p hp q hq
      rw [← Finding.path_of_path? hp, ← Finding.path_of_path? hq]
      exact hlt
    refine hpaths.imp_of_mem fun {p q} hp hq hlt => ?_
    obtain ⟨names, hw, rfl⟩ := (mem_paths_iff hwf hin).1 hp
    obtain ⟨names', hw', rfl⟩ := (mem_paths_iff hwf hin).1 hq
    rw [hw.ofText_toText, hw'.ofText_toText]
    exact hlt
  · intro f hf
    obtain ⟨p, hp, rfl⟩ := List.mem_map.1 hf
    obtain ⟨names, hw, rfl⟩ := (mem_paths_iff hwf hin).1 hp
    obtain ⟨content, hr, -⟩ := hw.reaches
    refine ⟨?_, rfl⟩
    rw [hw.ofText_toText]
    exact fun hup => (hr.isName _ hup).ne_up rfl

/-- A link to a file is taken, and one that leads back to the top folder is not followed. -/
theorem files_are_wanted_in_order_links :
    let c : Collector :=
      ⟨.ofItems (ofString "w") [⟨ofString "a/b.md", .file (ofString "text")⟩,
        ⟨ofString "a/c.md", .link (ofString "b.md")⟩, ⟨ofString "a/d", .link (ofString "/w")⟩],
        rootOf (ofString "a/../"), .builtIn, []⟩
    c.fs.root.WellFormed ∧ c.fs.isFolder c.root = true ∧
      (∃ names, c.Wanted names ∧ ofString "a/c.md" = (below names).toText) ∧
      ∀ names, c.Wanted names →
        (below names).toText ∈ [ofString "a/b.md", ofString "a/c.md"] := by
  intro c
  have hfs : c.fs.root.WellFormed := FileSystem.wellFormed_ofItems (by decide +kernel) _
  have hroot : c.fs.isFolder c.root = true := by decide +kernel
  have hfiles : c.files.map Collected.relative = [ofString "a/b.md", ofString "a/c.md"] := by
    decide +kernel
  have hmem := (files_are_wanted_in_order c hfs hroot).1
  rw [hfiles] at hmem
  refine ⟨hfs, hroot, (hmem _).1 (by simp), fun names hw => ?_⟩
  exact (hmem _).2 ⟨names, hw, rfl⟩

end Collector
end SourceBundle
