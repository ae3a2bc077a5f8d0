import SourceBundle.Proofs.Collector.Outline
import SourceBundle.Proofs.FileTree.Retrace
/-!
# What a collector reaches

Which files are found below a folder, said of paths and of what the file system says they lead to.
-/
namespace SourceBundle

open Text

/-- Whether a symbolic link stands under a name of the folder that a path leads to. -/
def FileSystem.HasLink (fs : FileSystem) (folder name : Text) : Prop :=
  ∃ inside target, fs.find folder = .ok (.folder inside) ∧ inside.get? name = some (.link target)

namespace Collector

variable (c : Collector)

/-! ## The top folder -/

/-- The top folder is the one that its path leads to, when every `..` leads back. -/
theorem resolve_rootOf {fs : FileSystem} {path : Text} {here : List Text} {inside : Folder}
    (h : fs.Retraces path) (hr : fs.resolve path = .ok (.folder here inside)) :
    fs.resolve (rootOf path) = .ok (.folder here inside) := by
  rw [rootOf]
  split
  · exact hr
  · exact FileSystem.resolve_normal h hr

/-! ## Where the walk stands -/

/-- The names `above` lead to a folder from the top folder, and names below it are followed from
there. -/
structure StandsAt (above : List Text) (f : Folder) : Prop where
  wellFormed : f.WellFormed
  isName : ∀ n ∈ above, IsName n
  follows : ∃ links here, c.fs.root.at? here = some f ∧ ∀ names, (∀ n ∈ names, IsName n) →
    c.fs.resolve (c.pathOf (above ++ names)) = FileSystem.follow c.fs.root links here names

variable {c} {above : List Text} {f : Folder} {name : Text} {e : Entry}

theorem standsAt_root {inside : Folder} (hfs : inside.WellFormed)
    (h : c.fs.find c.root = .ok (.folder inside)) : c.StandsAt [] inside := by
  obtain ⟨links, here, hat, hjoin⟩ := FileSystem.exists_resolve_join h
  refine ⟨hfs, nofun, links, here, hat, fun names hn => ?_⟩
  rw [List.nil_append, pathOf, below, hjoin _ (Path.head?_toText hn)]
  rcases eq_or_ne names [] with rfl | hne
  · exact FileSystem.follow_congr (FileSystem.walk_skip c.fs.root here [])
  · rw [Path.splitOn_toText hne hn]

theorem StandsAt.enter {g : Folder} (h : c.StandsAt above f)
    (he : f.get? name = some (.folder g)) : c.StandsAt (above ++ [name]) g := by
  obtain ⟨hf, habove, links, here, hat, hfollows⟩ := h
  obtain ⟨hname, hg⟩ := hf.get? he
  refine ⟨hg, ?_, links, here ++ [name], FileSystem.at?_concat hat he, fun names hn => ?_⟩
  · intro n hn
    rcases List.mem_append.1 hn with hn | hn
    · exact habove n hn
    · exact List.mem_singleton.1 hn ▸ hname
  · rw [List.append_assoc, List.singleton_append, hfollows _ (List.forall_mem_cons.2 ⟨hname, hn⟩)]
    exact FileSystem.follow_folder hname hat he

theorem StandsAt.find (h : c.StandsAt above f) : c.fs.find (c.pathOf above) = .ok (.folder f) := by
  obtain ⟨-, -, links, here, hat, hfollows⟩ := h
  have := hfollows [] nofun
  rw [List.append_nil, FileSystem.follow_here hat] at this
  exact FileSystem.find_eq_folder_iff.2 ⟨here, this⟩

theorem StandsAt.find_file {content : Text} (h : c.StandsAt above f)
    (he : f.get? name = some (.file content)) :
    c.fs.find (c.pathOf (above ++ [name])) = .ok (.file content) := by
  obtain ⟨hf, -, links, here, hat, hfollows⟩ := h
  have hname := (hf.get? he).1
  rw [FileSystem.find, hfollows [name] (List.forall_mem_singleton.2 hname),
    FileSystem.follow_file hname hat he]

/-- A path that leads to a file goes through an entry of the folder, and through that of a file only
when it ends there. -/
theorem StandsAt.exists_entry {names : List Text} {content : Text} (h : c.StandsAt above f)
    (hn : ∀ n ∈ name :: names, IsName n)
    (hfind : c.fs.find (c.pathOf (above ++ name :: names)) = .ok (.file content)) :
    ∃ e, f.get? name = some e ∧ ∀ t, e = .file t → names = [] := by
  obtain ⟨-, -, links, here, hat, hfollows⟩ := h
  rw [FileSystem.find, hfollows _ hn] at hfind
  split at hfind
  · next hr =>
    exact FileSystem.exists_entry (hn name List.mem_cons_self) hat hr
  · cases hfind
  · cases hfind
  · cases hfind

/-! ## What an entry counts as -/

theorem StandsAt.kindOf_eq_file_iff {size : Nat} (h : c.StandsAt above f)
    (he : f.get? name = some e) :
    c.kindOf (above ++ [name]) e = .file size ↔
      ∃ content, c.fs.find (c.pathOf (above ++ [name])) = .ok (.file content) ∧
        content.length = size := by
  cases e with
  | file t => simp [kindOf, h.find_file he]
  | folder g => simp [kindOf, (h.enter he).find]
  | link t =>
    rw [kindOf, linkKind]
    rcases c.fs.find (c.pathOf (above ++ [name])) with r | _ | _ | _ <;> simp

theorem StandsAt.isFolder_kindOf (h : c.StandsAt above f) (he : f.get? name = some e) :
    (c.kindOf (above ++ [name]) e).isFolder = c.fs.isFolder (c.pathOf (above ++ [name])) := by
  cases e with
  | file t => simp [kindOf, FileSystem.isFolder, h.find_file he, Kind.isFolder]
  | folder g => simp [kindOf, FileSystem.isFolder, (h.enter he).find, Kind.isFolder]
  | link t =>
    rw [kindOf, linkKind, FileSystem.isFolder]
    rcases c.fs.find (c.pathOf (above ++ [name])) with r | _ | _ | _ <;> rfl

theorem kindOf_eq_folder {names : List Text} (h : c.kindOf names e = .folder) :
    ∃ g, e = .folder g := by
  cases e with
  | file => cases h
  | folder g => exact ⟨g, rfl⟩
  | link t =>
    rw [kindOf, linkKind] at h
    split at h <;> cases h

/-! ## The files that are reached -/

/-- Neither metadata nor ignored as the file or folder it leads to. -/
structure InSight (c : Collector) (names : List Text) : Prop where
  not_metadata : isMetadata (below names) = false
  not_ignored : c.rules.ignores (below names).toText (c.fs.isFolder (c.pathOf names)) = false

theorem StandsAt.hides_eq_false_iff (h : c.StandsAt above f) (he : f.get? name = some e) :
    c.hides (above ++ [name]) (c.kindOf (above ++ [name]) e) = false ↔
      c.InSight (above ++ [name]) := by
  rw [hides, h.isFolder_kindOf he, Bool.or_eq_false_iff]
  exact ⟨fun ⟨hm, hi⟩ => ⟨hm, hi⟩, fun ⟨hm, hi⟩ => ⟨hm, hi⟩⟩

/-- Names that lead from the folder at `above` to a file with this content. No folder on the way is
a link, and nothing on the way is out of sight. -/
structure Reaches (c : Collector) (above names : List Text) (content : Text) : Prop where
  ne_nil : names ≠ []
  isName : ∀ n ∈ names, IsName n
  find_eq : c.fs.find (c.pathOf (above ++ names)) = .ok (.file content)
  no_link : ∀ way name rest, names = way ++ name :: rest → rest ≠ [] →
    ¬c.fs.HasLink (c.pathOf (above ++ way)) name
  inSight : ∀ way, way ≠ [] → way <+: names → c.InSight (above ++ way)

variable {names : List Text} {content : Text}

theorem StandsAt.reaches_singleton (h : c.StandsAt above f) :
    c.Reaches above [name] content ↔ (∃ e, f.get? name = some e) ∧
      c.fs.find (c.pathOf (above ++ [name])) = .ok (.file content) ∧
      c.InSight (above ++ [name]) := by
  constructor
  · rintro ⟨-, hn, hfind, -, hsight⟩
    obtain ⟨e, he, -⟩ := h.exists_entry hn hfind
    exact ⟨⟨e, he⟩, hfind, hsight [name] (List.cons_ne_nil name []) List.prefix_rfl⟩
  · rintro ⟨⟨e, he⟩, hfind, hsight⟩
    have hn := (h.wellFormed.get? he).1
    refine ⟨List.cons_ne_nil name [], List.forall_mem_singleton.2 hn, hfind, ?_, ?_⟩
    · intro way m rest hw hrest
      cases way with
      | nil => exact absurd (List.cons_eq_cons.1 hw).2.symm hrest
      | cons k way => simp at hw
    · intro way hne hpre
      cases way with
      | nil => exact absurd rfl hne
      | cons k way =>
        obtain ⟨rfl, hway⟩ := List.cons_prefix_cons.1 hpre
        rw [List.prefix_nil.1 hway]
        exact hsight

theorem StandsAt.reaches_cons (h : c.StandsAt above f) (hne : names ≠ []) :
    c.Reaches above (name :: names) content ↔ ∃ g, f.get? name = some (.folder g) ∧
      c.InSight (above ++ [name]) ∧ c.Reaches (above ++ [name]) names content := by
  have happ (way : List Text) : above ++ [name] ++ way = above ++ name :: way := by simp
  constructor
  · rintro ⟨-, hn, hfind, hlink, hsight⟩
    obtain ⟨e, he, hfile⟩ := h.exists_entry hn hfind
    -- A way through a file would end there, and one through a link is ruled out.
    have hfolder : ∃ g, e = .folder g := by
      cases e with
      | file t => exact absurd (hfile t rfl) hne
      | folder g => exact ⟨g, rfl⟩
      | link t =>
        refine absurd ⟨f, t, ?_, he⟩ (hlink [] name names rfl hne)
        rw [List.append_nil]
        exact h.find
    obtain ⟨g, rfl⟩ := hfolder
    refine ⟨g, he, hsight [name] (List.cons_ne_nil name []) ?_, hne,
      fun n hmem => hn n (List.mem_cons_of_mem name hmem), happ names ▸ hfind, ?_, ?_⟩
    · exact List.cons_prefix_cons.2 ⟨rfl, List.nil_prefix⟩
    · rintro way m rest rfl hrest
      rw [happ]
      exact hlink (name :: way) m rest rfl hrest
    · intro way _ hpre
      rw [happ]
      exact hsight (name :: way) (List.cons_ne_nil name way) (List.cons_prefix_cons.2 ⟨rfl, hpre⟩)
  · rintro ⟨g, he, hname, -, hn, hfind, hlink, hsight⟩
    refine ⟨List.cons_ne_nil name names, ?_, happ names ▸ hfind, ?_, ?_⟩
    · exact List.forall_mem_cons.2 ⟨(h.wellFormed.get? he).1, hn⟩
    · intro way m rest hw hrest
      cases way with
      | nil =>
        obtain ⟨rfl, -⟩ := List.cons_eq_cons.1 hw
        rintro ⟨inside, target, hf, ht⟩
        rw [List.append_nil, h.find] at hf
        cases hf
        rw [he] at ht
        cases ht
      | cons k way =>
        obtain ⟨rfl, rfl⟩ := List.cons_eq_cons.1 hw
        rw [← happ]
        exact hlink way m rest rfl hrest
    · intro way hway hpre
      cases way with
      | nil => exact absurd rfl hway
      | cons k way =>
        obtain ⟨rfl, hrest⟩ := List.cons_prefix_cons.1 hpre
        rcases eq_or_ne way [] with rfl | hway
        · exact hname
        · rw [← happ]
          exact hsight way hway hrest

/-- What is found in a folder are the files that are reached from it. -/
theorem StandsAt.mem_findings {x : Finding} (h : c.StandsAt above f) :
    x ∈ c.findings above (c.outlineOf above f) ↔ ∃ names content,
      c.Reaches above names content ∧
        x ∈ c.weigh (below (above ++ names)) (c.pathOf (above ++ names)) content.length := by
  induction f using Folder.inside_induction generalizing above with
  | h f ih =>
    rw [(c.gathers_findings above).mem_outlineOf h.wellFormed]
    -- One name is left where the entry is a file, links followed, and more where it is a folder.
    constructor
    · rintro ⟨name, e, he, hv, hx⟩
      rw [h.hides_eq_false_iff he] at hv
      cases hk : c.kindOf (above ++ [name]) e with
      | file size =>
        obtain ⟨content, hfind, rfl⟩ := (h.kindOf_eq_file_iff he).1 hk
        rw [hk] at hx
        exact ⟨[name], content, h.reaches_singleton.2 ⟨⟨e, he⟩, hfind, hv⟩, hx⟩
      | folder =>
        obtain ⟨g, rfl⟩ := kindOf_eq_folder hk
        obtain ⟨names, content, hr, hx⟩ := (ih name g he (h.enter he)).1 hx
        refine ⟨name :: names, content, (h.reaches_cons hr.ne_nil).2 ⟨g, he, hv, hr⟩, ?_⟩
        simpa using hx
      | linkedFolder | dangling =>
        rw [hk] at hx
        cases hx
    · rintro ⟨names, content, hr, hx⟩
      cases names with
      | nil => exact absurd rfl hr.ne_nil
      | cons name names =>
        rcases eq_or_ne names [] with rfl | hne
        · obtain ⟨⟨e, he⟩, hfind, hv⟩ := h.reaches_singleton.1 hr
          have hk := (h.kindOf_eq_file_iff he).2 ⟨content, hfind, rfl⟩
          refine ⟨name, e, he, (h.hides_eq_false_iff he).2 hv, ?_⟩
          rw [hk]
          exact hx
        · obtain ⟨g, he, hv, hr⟩ := (h.reaches_cons hne).1 hr
          refine ⟨name, .folder g, he, (h.hides_eq_false_iff he).2 hv, ?_⟩
          refine (ih name g he (h.enter he)).2 ⟨names, content, hr, ?_⟩
          simpa using hx

end Collector
end SourceBundle
