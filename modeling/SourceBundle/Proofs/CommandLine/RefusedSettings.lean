import SourceBundle.FileTree.Build
import SourceBundle.Json.Parser
import SourceBundle.Proofs.Collector.Metadata
import SourceBundle.Proofs.CommandLine.Reading
import SourceBundle.Proofs.Config.Load
/-!
# Refused settings

Settings that cannot be used leave no trace: without links and `..`, a run prints what it would
print if the file with the settings were not there.
-/
namespace SourceBundle.CommandLine

open Text FileSystem

theorem mapM_congr_of_mem {ε α β : Type} {f g : α → Except ε β} {l : List α}
    (h : ∀ a ∈ l, f a = g a) : l.mapM f = l.mapM g := by
  induction l with
  | nil => rfl
  | cons a l ih =>
    rw [List.mapM_cons, List.mapM_cons, h a List.mem_cons_self,
      ih fun b hb => h b (List.mem_cons_of_mem a hb)]

/-! ## Ignore files -/

/-- A tree that differs in no ignore file has the same ignore files. -/
theorem textsFor_eq {fs fs' : FileSystem} {spot : List Text} (hl : fs.root.LinkFree)
    (hw : fs'.working = fs.working) (h : DifferAt spot fs.root fs'.root)
    (hspot : ∀ name ∈ Ignore.fileNames, spot.getLast? ≠ some name) (folder : Text) :
    Ignore.textsFor fs' folder = Ignore.textsFor fs folder := by
  have hread (dir name : Text) (hname : name ∈ Ignore.fileNames) :
      fs'.read? (Path.join dir name) = fs.read? (Path.join dir name) := by
    refine read?_eq_of_alike (resolve_alike hw h _) fun p hp hnames => ?_
    have hn : IsName name := (by decide : ∀ name ∈ Ignore.fileNames, IsName name) name hname
    obtain ⟨xs, hxs⟩ := Path.exists_splitOn_join dir hn.slash_not_mem
    have hne : Path.join dir name ≠ [] := by
      intro hnil
      rw [hnil] at hp
      cases hp
    rw [resolve_of_ne_nil hne, follow_eq_result hl, hxs, Walk.result_eq_ok_iff] at hp
    -- The way ends in the name of an ignore file, and the spot does not.
    exact hspot name hname (getLast?_of_walk hn hp hnames)
  have hancestors : Ignore.ancestors fs' folder = Ignore.ancestors fs folder := by
    have habsolute : Ignore.absolute? fs' folder = Ignore.absolute? fs folder := by
      rw [Ignore.absolute?, Ignore.absolute?, Ignore.workingPath, Ignore.workingPath, hw]
    rw [Ignore.ancestors, Ignore.ancestors, Ignore.startOf, Ignore.startOf, habsolute]
  rw [Ignore.textsFor, Ignore.textsFor, hancestors]
  congr 1
  funext dir
  exact List.filterMap_congr fun name hname => hread dir name hname

/-! ## A file of settings removed -/

/-- A tree without links, a folder in it, and the tree without a file that could hold settings of
that folder. -/
structure Without (fs fs' : FileSystem) (folder : Text) (here names : List Text)
    (inside : Folder) : Prop where
  wellFormed : fs.root.WellFormed
  linkFree : fs.root.LinkFree
  up_not_mem : Path.up ∉ splitOn slash folder
  resolve_eq : fs.resolve folder = .ok (.folder here inside)
  mem_placeNames : names ∈ Config.placeNames
  isFile : ∃ content, fs.root.entryAt? (here ++ names) = some (.file content)
  fs_eq : fs' = { fs with root := fs.root.removeAt (here ++ names) }

section

variable {fs fs' : FileSystem} {folder : Text} {here names : List Text} {inside : Folder}
  (h : Without fs fs' folder here names inside)
include h

theorem Without.differAt : DifferAt (here ++ names) fs.root fs'.root := by
  obtain ⟨content, he⟩ := h.isFile
  rw [h.fs_eq]
  exact differAt_removeAt h.wellFormed he

theorem Without.working_eq : fs'.working = fs.working := by
  rw [h.fs_eq]

theorem Without.linkFree' : fs'.root.LinkFree := by
  rw [h.fs_eq]
  exact Folder.linkFree_removeAt _ h.linkFree

theorem Without.at?_eq : fs.root.at? here = some inside :=
  at?_of_resolve h.resolve_eq

theorem Without.at?_eq' : fs'.root.at? here = some (inside.removeAt names) := by
  rw [h.fs_eq]
  exact Folder.at?_alterAt h.at?_eq (Config.ne_nil_of_mem_placeNames h.mem_placeNames)

theorem Without.resolve_eq' :
    fs'.resolve folder = .ok (.folder here (inside.removeAt names)) := by
  have halike := resolve_alike h.working_eq h.differAt folder
  rw [h.resolve_eq] at halike
  have hstands (p : Place) (hp : fs'.resolve folder = .ok p) := stands_of_resolve hp
  generalize fs'.resolve folder = x at halike hstands ⊢
  cases halike with
  | ok hp =>
    cases hp with
    | folder names f f' =>
      cases hstands _ rfl with
      | folder hat =>
        rw [h.at?_eq'] at hat
        rw [Option.some.inj hat]
    | elsewhere hn => cases hn
    | there hn => cases hn

theorem Without.resolve_rootOf :
    fs.resolve (Collector.rootOf folder) = .ok (.folder here inside) :=
  Collector.resolve_rootOf (retraces_of_up_not_mem h.up_not_mem) h.resolve_eq

theorem Without.resolve_rootOf' :
    fs'.resolve (Collector.rootOf folder) = .ok (.folder here (inside.removeAt names)) :=
  Collector.resolve_rootOf (retraces_of_up_not_mem h.up_not_mem) h.resolve_eq'

theorem Without.patternLines_eq (config : Config) :
    patternLines fs' folder config = patternLines fs folder config := by
  have hspot (name : Text) (hname : name ∈ Ignore.fileNames) :
      (here ++ names).getLast? ≠ some name := by
    rw [List.getLast?_append_of_ne_nil here (Config.ne_nil_of_mem_placeNames h.mem_placeNames)]
    exact Config.getLast?_of_mem_placeNames names h.mem_placeNames name hname
  rw [patternLines, patternLines, Ignore.linesFor, Ignore.linesFor,
    textsFor_eq h.linkFree h.working_eq h.differAt hspot]

variable (config : Config) (patterns : List Text)

theorem Without.outlineOf_eq :
    (collectorOf fs' folder config patterns).outlineOf [] (inside.removeAt names) =
      (collectorOf fs folder config patterns).outlineOf [] inside := by
  obtain ⟨name, rest, hnames, hmetadata⟩ :=
    Config.exists_metadata_of_mem_placeNames h.mem_placeNames
  rw [hnames, Collector.outlineOf_removeAt hmetadata]
  exact Collector.outlineOf_fs (collectorOf fs folder config patterns) fs'
    (h.linkFree.at? h.at?_eq) []

/-- No file that is collected is the one that was removed. -/
theorem Without.readFile_eq {x : Collected}
    (hx : x ∈ (collectorOf fs folder config patterns).files) :
    readFile fs' x.absolute = readFile fs x.absolute := by
  have hfind := find_eq_folder_iff.2 ⟨here, h.resolve_rootOf⟩
  obtain ⟨name, way, habsolute, hname, hsight⟩ :=
    Collector.exists_of_mem_files (c := collectorOf fs folder config patterns)
      (h.wellFormed.at? h.at?_eq) hfind hx
  obtain ⟨first, rest, hnames, hmetadata⟩ :=
    Config.exists_metadata_of_mem_placeNames h.mem_placeNames
  have hread : fs'.read? x.absolute = fs.read? x.absolute := by
    refine read?_eq_of_alike (resolve_alike h.working_eq h.differAt _) fun p hp hspot => ?_
    obtain ⟨w, hway, hstraight⟩ :=
      exists_straight h.linkFree h.resolve_rootOf (List.cons_ne_nil name way) hname
    rw [habsolute] at hp
    have hwalk := Walk.result_eq_ok_iff.1 (hway.symm.trans hp)
    rw [hwalk] at hstraight
    cases hstraight with
    | arrived hstands =>
      -- At the spot the way would begin with metadata, which is out of sight.
      have hsame := List.append_cancel_left (hstands _ hspot)
      rw [hnames] at hsame
      obtain ⟨rfl, -⟩ := List.cons_eq_cons.1 hsame
      rw [hmetadata] at hsight
      cases hsight
  rw [readFile, readFile, hread]

theorem Without.ofCollector_eq (mode : Option Mode) :
    Reading.ofCollector (collectorOf fs' folder config patterns) mode =
      Reading.ofCollector (collectorOf fs folder config patterns) mode := by
  have hinside : inside.WellFormed := h.wellFormed.at? h.at?_eq
  have hinside' := Folder.wellFormed_removeAt names hinside
  have hfind := find_eq_folder_iff.2 ⟨here, h.resolve_rootOf⟩
  have hfind' := find_eq_folder_iff.2 ⟨here, h.resolve_rootOf'⟩
  have hsame := h.outlineOf_eq config patterns
  have hfiles : (collectorOf fs' folder config patterns).files =
      (collectorOf fs folder config patterns).files :=
    Collector.files_fs (c := collectorOf fs folder config patterns) hinside hinside' hfind hfind'
      hsame
  have hdrawing : (collectorOf fs' folder config patterns).drawing =
      (collectorOf fs folder config patterns).drawing :=
    Collector.drawing_fs (c := collectorOf fs folder config patterns) hinside hinside' hfind
      hfind' hsame
  -- The name a folder is shown by depends on the working folder alone.
  have hname : folderName (collectorOf fs' folder config patterns).fs (Collector.rootOf folder) =
      folderName (collectorOf fs folder config patterns).fs (Collector.rootOf folder) := by
    simp only [folderName, Ignore.workingPath, collectorOf, h.working_eq]
  have hbundle (m : Mode) : bundleOf (collectorOf fs' folder config patterns) m =
      bundleOf (collectorOf fs folder config patterns) m := by
    have hroot (fs : FileSystem) :
        (collectorOf fs folder config patterns).root = Collector.rootOf folder := rfl
    have hread : ∀ x ∈ (collectorOf fs folder config patterns).files,
        readFile (collectorOf fs' folder config patterns).fs x.absolute =
          readFile (collectorOf fs folder config patterns).fs x.absolute :=
      fun x hx => h.readFile_eq config patterns hx
    rw [bundleOf, bundleOf, hfiles, hdrawing, hroot, hroot, hname]
    congr 1
    exact mapM_congr_of_mem fun x hx => by rw [hread x hx]
  rw [Reading.ofCollector, Reading.ofCollector, hfiles, hbundle]
  rfl

end

/-! ## Runs -/

section

variable [JsonLibrary] {fs : FileSystem} {folder place : Text}

theorem ofFolder_remove (hwf : fs.root.WellFormed) (hl : fs.root.LinkFree)
    (hup : Path.up ∉ splitOn slash folder) (h : Config.RefusedAt fs folder place)
    (mode : Option Mode) :
    Reading.ofFolder (fs.remove place) mode folder = Reading.ofFolder fs mode folder := by
  obtain ⟨text, why, htext, hwhy⟩ := h.refused
  obtain ⟨spot, hspot⟩ := exists_resolve_of_contentOf? htext
  have hentry := entryAt?_of_resolve hspot
  have hdiffer : DifferAt spot fs.root (fs.remove place).root := by
    rw [remove_eq hspot]
    exact differAt_removeAt hwf hentry
  have hisFolder : (fs.remove place).isFolder folder = fs.isFolder folder :=
    isFolder_eq_of_alike (resolve_alike (by rw [remove_eq hspot]) hdiffer folder)
  cases hf : fs.isFolder folder with
  | false =>
    rw [Reading.ofFolder_of_not_isFolder hf,
      Reading.ofFolder_of_not_isFolder (hisFolder.trans hf)]
  | true =>
    obtain ⟨inside, hin⟩ := isFolder_iff.1 hf
    obtain ⟨here, hr⟩ := find_eq_folder_iff.1 hin
    obtain ⟨names, hmem, rfl⟩ := Config.exists_names_of_resolve hl hr h.isPlace hspot
    have hw : Without fs (fs.remove place) folder here names inside :=
      ⟨hwf, hl, hup, hr, hmem, ⟨text, hentry⟩, remove_eq hspot⟩
    -- What can be read at a place for settings is refused, before the removal and so after it.
    have hrefused (other : Text) (hother : other ∈ Config.placesIn folder) (t : Text)
        (ht : fs.contentOf? other = some t) : ∃ why, Config.ofText t = .error why := by
      by_cases hp : other = place
      · rw [hp, htext] at ht
        exact ⟨why, Option.some.inj ht ▸ hwhy⟩
      · rw [h.only other hother hp] at ht
        cases ht
    obtain ⟨log, hload⟩ := Config.load_eq_builtIn
      (fun other hother why he => Config.error_of_find hl hr hother he) hrefused
    obtain ⟨log', hload'⟩ := Config.load_eq_builtIn
      (fun other hother why he => Config.error_of_find hw.linkFree' hw.resolve_eq' hother he)
      fun other hother t ht => hrefused other hother t (contentOf?_of_remove hwf htext ht)
    rw [Reading.ofFolder_of_load hf hload, Reading.ofFolder_of_load (hisFolder.trans hf) hload',
      hw.patternLines_eq, hw.ofCollector_eq]

/-- Whatever the library that refuses them, a run on a folder whose settings are refused prints what
it prints without them. -/
theorem run_remove [Storage] {args : List Text} {o : Options} (input : Text)
    (hwf : fs.root.WellFormed) (hl : fs.root.LinkFree) (hup : Path.up ∉ splitOn slash folder)
    (h : Config.RefusedAt fs folder place) (hargs : Options.ofArguments args = .ok o)
    (hfolder : o.folder = some folder) (houtput : o.output = none) :
    (run (fs.remove place) args input).exitCode = (run fs args input).exitCode ∧
      (run (fs.remove place) args input).out = (run fs args input).out := by
  have hreading : Reading.ofSource (fs.remove place) o input = Reading.ofSource fs o input := by
    simp only [Reading.ofSource, hfolder, ofFolder_remove hwf hl hup h]
  have heffect : (Outcome.ofSource (fs.remove place) o input).effect =
      (Reading.ofSource fs o input).effect (fs.remove place) none := by
    rw [effect_ofSource, hreading, houtput]
  have heffect' : (Outcome.ofSource fs o input).effect =
      (Reading.ofSource fs o input).effect fs none := by
    rw [effect_ofSource, houtput]
  have hprinted := (Reading.ofSource fs o input).effect_none fs (fs.remove place)
  rw [← heffect, ← heffect'] at hprinted
  rw [run, run, hargs]
  dsimp only
  split
  · exact ⟨rfl, rfl⟩
  · split
    · exact ⟨rfl, rfl⟩
    · exact hprinted

end

/-- A folder whose settings ignore every file before they ask for a mode there is not. -/
def refusing : FileSystem :=
  let settings := "\x7b\"ignore_patterns\": [\"*\"], \"mode\": \"loud\"\x7d"
  ⟨.folder "d" (.folder ".smart_context" (.file "config.json" settings .empty)
    (.file "a.cpp" "int x;\n" .empty)) .empty, []⟩

theorem run_remove_refusing :
    (run (refusing.remove "d/.smart_context/config.json") ["d"] []).exitCode =
        (run refusing ["d"] []).exitCode ∧
      (run (refusing.remove "d/.smart_context/config.json") ["d"] []).out =
        (run refusing ["d"] []).out := by
  have hrefused : Config.RefusedAt refusing "d" "d/.smart_context/config.json" :=
    ⟨by decide +kernel, by decide +kernel, _, .unknownMode "loud", rfl, by decide +kernel⟩
  exact run_remove [] (by decide +kernel) (by decide +kernel) (by decide) hrefused
    (o := { folder := some (ofString "d") }) rfl rfl rfl

end SourceBundle.CommandLine
