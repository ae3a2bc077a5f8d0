import SourceBundle.Config.Load
import SourceBundle.Ignore.Ancestors
import SourceBundle.Proofs.Collector.Outline
import SourceBundle.Proofs.FileTree.LinkFree
import SourceBundle.Proofs.Path.Join
/-!
# Where settings are looked for

The settings of a folder stand under names of their own, all of them metadata. Where there are no
links nothing can be in the way of looking for them, and settings that are refused are as good as
none.
-/
namespace SourceBundle.Config

open Text FileSystem

/-! ## The places -/

/-- The names that lead from a folder to where its settings may stand. -/
def placeNames : List (List Text) := [[".smart_context", "config.json"], [".smart_context.json"]]

theorem isName_of_mem_placeNames : ∀ names ∈ placeNames, ∀ n ∈ names, IsName n := by
  decide

theorem getLast?_of_mem_placeNames :
    ∀ names ∈ placeNames, ∀ n ∈ Ignore.fileNames, names.getLast? ≠ some n := by
  decide

theorem exists_metadata_of_mem_placeNames {names : List Text} (h : names ∈ placeNames) :
    ∃ name rest, names = name :: rest ∧
      Collector.isMetadata (Collector.below [name]) = true := by
  rcases List.mem_pair.1 h with rfl | rfl
  · exact ⟨_, _, rfl, by decide⟩
  · exact ⟨_, _, rfl, by decide⟩

theorem ne_nil_of_mem_placeNames {names : List Text} (h : names ∈ placeNames) : names ≠ [] := by
  obtain ⟨name, rest, rfl, -⟩ := exists_metadata_of_mem_placeNames h
  exact List.cons_ne_nil name rest

theorem placesIn_eq (folder : Text) : placesIn folder =
    placeNames.map fun names => Path.join folder (Path.toText ⟨false, names⟩) := by
  rw [placesIn, Path.join_join (by decide) (by decide) (by decide) (by decide)]
  rfl

section

variable {fs : FileSystem} {folder place : Text} {here names : List Text} {inside : Folder}
  (hl : fs.root.LinkFree) (hr : fs.resolve folder = .ok (.folder here inside))
  (hplace : place ∈ placesIn folder)
include hl hr hplace

theorem exists_straight_place : ∃ names ∈ placeNames, ∃ w : Walk,
    fs.resolve place = w.result ∧ w.Straight here names := by
  rw [placesIn_eq] at hplace
  obtain ⟨names, hmem, rfl⟩ := List.mem_map.1 hplace
  exact ⟨names, hmem, exists_straight hl hr (ne_nil_of_mem_placeNames hmem)
    (isName_of_mem_placeNames names hmem)⟩

theorem error_of_find {why : Refusal} (h : fs.find place = .error why) :
    why = .missing ∨ why = .notFolder := by
  obtain ⟨names, -, w, hw, hstraight⟩ := exists_straight_place hl hr hplace
  rw [find, hw] at h
  cases hstraight with
  | arrived =>
    rw [Walk.result] at h
    split at h <;> cases h
    · next hp => exact .inl rfl
    · next hp => cases hp
  | missing =>
    cases h
    exact .inl rfl
  | notFolder =>
    cases h
    exact .inr rfl

theorem exists_names_of_resolve {spot : List Text} {text : Text}
    (h : fs.resolve place = .ok (.file spot text)) :
    ∃ names ∈ placeNames, spot = here ++ names := by
  obtain ⟨names, hmem, w, hw, hstraight⟩ := exists_straight_place hl hr hplace
  rw [hw] at h
  cases hstraight with
  | arrived hp =>
    cases h
    exact ⟨names, hmem, hp spot rfl⟩
  | missing | notFolder => cases h

end

/-! ## Settings that are not used -/

/-- One of the places for a folder's settings holds a file, and it is refused. -/
structure RefusedAt [JsonLibrary] (fs : FileSystem) (folder place : Text) : Prop where
  isPlace : place ∈ placesIn folder
  only : ∀ other ∈ placesIn folder, other ≠ place → fs.contentOf? other = none
  refused : ∃ text why, fs.contentOf? place = some text ∧ ofText text = .error why

theorem ofEntry_eq_builtIn [JsonLibrary] (path : Text) {e : Entry}
    (h : ∀ text, e = .file text → ∃ why, ofText text = .error why) :
    ∃ log, ofEntry path e = (builtIn, log) := by
  cases e with
  | file text =>
    obtain ⟨why, hwhy⟩ := h text rfl
    rw [ofEntry, hwhy]
    cases why <;> exact ⟨_, rfl⟩
  | link | folder => exact ⟨_, rfl⟩

theorem firstOf_cases {fs : FileSystem} {paths : List Text}
    (h : ∀ path ∈ paths, ∀ why, fs.find path = .error why → why = .missing ∨ why = .notFolder) :
    firstOf fs paths = .ok none ∨
      ∃ path ∈ paths, ∃ e, fs.find path = .ok e ∧ firstOf fs paths = .ok (some (path, e)) := by
  induction paths with
  | nil => exact .inl rfl
  | cons path paths ih =>
    obtain ⟨hpath, hpaths⟩ := List.forall_mem_cons.1 h
    cases hfind : fs.find path with
    | ok e => exact .inr ⟨path, List.mem_cons_self, e, hfind, by rw [firstOf, hfind]⟩
    | error why =>
      have hnext : firstOf fs (path :: paths) = firstOf fs paths := by
        rcases hpath why hfind with rfl | rfl <;> rw [firstOf, hfind]
      rw [hnext]
      rcases ih hpaths with hnone | ⟨other, hmem, e, he⟩
      · exact .inl hnone
      · exact .inr ⟨other, List.mem_cons_of_mem path hmem, e, he⟩

/-- Where no file with usable settings can be found, the built-in ones are used. -/
theorem load_eq_builtIn [JsonLibrary] {fs : FileSystem} {folder : Text}
    (hfind : ∀ place ∈ placesIn folder, ∀ why, fs.find place = .error why →
      why = .missing ∨ why = .notFolder)
    (h : ∀ place ∈ placesIn folder, ∀ text, fs.contentOf? place = some text →
      ∃ why, ofText text = .error why) :
    ∃ log, load fs folder = .ok (builtIn, log) := by
  rcases firstOf_cases hfind with hnone | ⟨place, hplace, e, he, hfirst⟩
  · exact ⟨[], by rw [load, hnone]; rfl⟩
  · obtain ⟨log, hlog⟩ := ofEntry_eq_builtIn place fun text (htext : e = .file text) =>
      h place hplace text (by rw [FileSystem.contentOf?, he, htext])
    refine ⟨log, ?_⟩
    rw [load, hfirst, ← hlog]
    rfl

end SourceBundle.Config
