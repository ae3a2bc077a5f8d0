import SourceBundle.CommandLine.Run
import SourceBundle.FileTree.Build
import SourceBundle.Json.Parser
import SourceBundle.Proofs.Collector.Files
import SourceBundle.Proofs.Config.Load
import SourceBundle.Proofs.Except
import SourceBundle.Proofs.FileTree.Retrace
/-!
# The folder that is checked and the one that is scanned

A run checks a folder's path and looks for settings behind it as the path stands, but scans its
normal form. The two are one folder as long as every `..` leads back to where the text says; behind
a link it need not.
-/
namespace SourceBundle.CommandLine

open Text FileSystem

variable {fs : FileSystem} {folder path : Text} {why : Refusal} {here : List Text}
  {inside : Folder} {config : Config} {patterns : List Text}

/-! ## What a run makes of a folder's path -/

/-- Everything a run looks up for a folder is the folder at `here`, or is looked up from there. -/
structure Concerns (c : Collector) (folder : Text) (here : List Text) (inside : Folder) : Prop where
  checked : c.fs.resolve folder = .ok (.folder here inside)
  scanned : c.fs.resolve c.root = .ok (.folder here inside)
  settings : ∀ place ∈ Config.placesIn folder, ∃ names ∈ Config.placeNames, ∃ links,
    c.fs.resolve place = follow c.fs.root links here names
  outline_eq : c.outline = .ok (c.outlineOf [] inside)
  files : ∀ f ∈ c.files, ∃ names, (∀ n ∈ names, IsName n) ∧
    f.relative = (Collector.below names).toText ∧ ∃ links,
      c.fs.resolve f.absolute = follow c.fs.root links here names
  quiet : c.drawingLog = [] ∧ ∀ path why, .scanFailed path why ∉ c.scanLog

theorem scanFailed_not_mem_scanLog {c : Collector} (h : c.top = .ok inside) :
    .scanFailed path why ∉ c.scanLog := by
  have hfindings : ∀ x, c.eventOf? x ≠ some (.scanFailed path why) := by
    rintro (_ | _) he <;> cases he
  rw [Collector.scanLog, h]
  simp [hfindings]

theorem concerns_collectorOf (hfs : fs.root.WellFormed) (hback : fs.Retraces folder)
    (hr : fs.resolve folder = .ok (.folder here inside)) :
    Concerns (collectorOf fs folder config patterns) folder here inside := by
  have hroot : fs.resolve (collectorOf fs folder config patterns).root =
      .ok (.folder here inside) := Collector.resolve_rootOf hback hr
  have hfind := find_eq_folder_iff.2 ⟨here, hroot⟩
  have htop := Collector.top_eq (c := collectorOf fs folder config patterns) hfind
  refine ⟨hr, hroot, ?_, Collector.outline_eq hfind, ?_, ?_,
    fun path why => scanFailed_not_mem_scanLog htop⟩
  · intro place hplace
    rw [Config.placesIn_eq] at hplace
    obtain ⟨names, hmem, rfl⟩ := List.mem_map.1 hplace
    obtain ⟨links, hnames⟩ := exists_follow_names hr
    exact ⟨names, hmem, links, hnames names (Config.ne_nil_of_mem_placeNames hmem)
      (Config.isName_of_mem_placeNames names hmem)⟩
  · intro f hf
    obtain ⟨names, hwanted, rfl⟩ :=
      Collector.exists_wanted_of_mem_files (hfs.at? (at?_of_resolve hr)) hfind hf
    obtain ⟨content, hreaches, -⟩ := hwanted.reaches
    obtain ⟨links, hnames⟩ := exists_follow_names hroot
    exact ⟨names, hreaches.isName, rfl, links, hnames names hreaches.ne_nil hreaches.isName⟩
  · rw [Collector.drawingLog, htop]

/-! ## Reports of a failed scan -/

theorem scanFailed_not_mem_load [JsonLibrary] {log : Log}
    (h : Config.load fs folder = .ok (config, log)) : .scanFailed path why ∉ log := by
  obtain ⟨found, -, h⟩ := exists_of_bind_ok h
  cases found with
  | none =>
    cases h
    exact List.not_mem_nil
  | some found =>
    have hlog : log = (Config.ofEntry found.1 found.2).2 := congrArg Prod.snd (Except.ok.inj h).symm
    rw [hlog]
    unfold Config.ofEntry
    split
    · split <;> simp [Config.accepted]
    · simp

section

variable [Storage]

theorem scanFailed_not_mem_conclude {output : Option Text} {log : Log} {report : Text → Log}
    {x : Except Failure Text} (hlog : .scanFailed path why ∉ log)
    (hreport : ∀ sink, .scanFailed path why ∉ report sink) :
    .scanFailed path why ∉ (conclude fs output log report x).log := by
  cases x with
  | error => simp [conclude, Outcome.quiet, hlog]
  | ok t =>
    rw [conclude]
    split
    · simp [hlog, hreport]
    · simp [hlog]

theorem scanFailed_not_mem_ofCollector {c : Collector} {o : Options} {log : Log}
    (hlog : .scanFailed path why ∉ log) :
    .scanFailed path why ∉ (Outcome.ofCollector c o log).log := by
  unfold Outcome.ofCollector
  dsimp only
  split
  · simp [Outcome.quiet, hlog]
  · exact scanFailed_not_mem_conclude hlog (by simp)

end

/-! ## The folder of a run -/

/-- A folder that passes the check is the one that is scanned, and where its settings are looked for
and its files are found, when `..` leads back. Then no run on it reports a failed scan. -/
theorem checked_folder_is_scanned [JsonLibrary] [Storage] (hfs : fs.root.WellFormed)
    (hfolder : fs.isFolder folder = true) (hback : fs.Retraces folder) :
    (∃ here inside, ∀ config patterns,
      Concerns (collectorOf fs folder config patterns) folder here inside) ∧
    ∀ o path why, .scanFailed path why ∉ (Outcome.ofFolder fs o folder).log := by
  obtain ⟨inside, hin⟩ := isFolder_iff.1 hfolder
  obtain ⟨here, hr⟩ := find_eq_folder_iff.1 hin
  have hconcerns (config : Config) (patterns : List Text) :
      Concerns (collectorOf fs folder config patterns) folder here inside :=
    concerns_collectorOf hfs hback hr
  refine ⟨⟨here, inside, hconcerns⟩, fun o path why => ?_⟩
  rw [Outcome.ofFolder, hfolder]
  cases hload : Config.load fs folder with
  | error failure => simp [Outcome.quiet]
  | ok loaded =>
    obtain ⟨config, configLog⟩ := loaded
    refine scanFailed_not_mem_ofCollector ?_
    have hscan := (hconcerns config (patternLines fs folder config)).quiet.2 path why
    simp [Log.ofUnusable, scanFailed_not_mem_load hload, hscan]

/-- A link to a folder that has a sibling. -/
def linked : FileSystem :=
  ⟨.folder "real" (.folder "inner" (.file "b.md" "hi\n" .empty)
    (.folder "x" (.file "a.md" "hi\n" .empty) .empty)) (.link "link" "real/inner" .empty), []⟩

/-- The name that is taken back is that of a folder, and the link comes behind it. -/
theorem retraces_linked : linked.Retraces "real/../link/" := by
  refine retraces_of_forall_ne_link ?_
  rintro way name ⟨before, after, hsplit, hkept, -⟩ there f hf target hlink
  have hnames : splitOn slash (ofString "real/../link/") =
      [ofString "real"] ++ Path.up :: [ofString "link", []] := by decide
  obtain ⟨rfl, -⟩ := (List.append_cons_inj_of_notMem (by decide) (by decide)).1
    (hnames.symm.trans hsplit)
  have hback : way ++ [name] = [] ++ [ofString "real"] := hkept.symm.trans (by decide)
  obtain ⟨rfl, hname⟩ := List.append_inj' hback rfl
  obtain rfl := List.singleton_inj.1 hname
  obtain ⟨rfl, hat⟩ := follow_nil hf
  cases hat
  cases hlink

theorem checked_folder_is_scanned_linked :
    (∃ here inside, ∀ config patterns,
      Concerns (collectorOf linked "real/../link/" config patterns) "real/../link/" here inside) ∧
    ∀ o path why, .scanFailed path why ∉ (Outcome.ofFolder linked o "real/../link/").log :=
  checked_folder_is_scanned (by decide +kernel) (by decide +kernel) retraces_linked

/-- Behind the link `..` leads to the folder around the one it stands for, and the text says
otherwise: the folder that passes the check is not scanned. -/
theorem not_forall_checked_folder_is_scanned : ¬∀ (fs : FileSystem) (folder : Text),
    fs.root.WellFormed → fs.isFolder folder = true → ∀ (config : Config) (patterns : List Text),
      (∃ here inside, fs.resolve folder = .ok (.folder here inside) ∧
        fs.resolve (collectorOf fs folder config patterns).root = .ok (.folder here inside)) ∧
      ∀ path why, .scanFailed path why ∉ (collectorOf fs folder config patterns).scanLog := by
  intro h
  have hscan := (h linked "link/../x" (by decide +kernel) (by decide +kernel) .builtIn []).2 "x"
    .missing
  exact hscan (by decide +kernel)

end SourceBundle.CommandLine
