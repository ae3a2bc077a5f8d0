import SourceBundle.Proofs.FileTree.Passage
/-!
# Following a path

A path is followed name by name, so what its beginning leads to decides where the rest starts. A
path behind that of a folder is followed from the folder, through the links that are left.
-/
namespace SourceBundle.FileSystem

open Text

/-! ## Ways in general -/

/-- What a path leads to is where some names arrive, and these have whatever a link hands on to the
names behind it. -/
theorem exists_walk_of_follow {root : Folder} {links : Nat} {folder xs : List Text} {p : Place}
    {P : List Text → List Text → Prop} (hP : P folder xs)
    (hlink : ∀ folder xs here target rest, P folder xs →
      walk root folder xs = .atLink here target rest →
        P (startOf here target) (splitOn slash target ++ rest))
    (h : follow root links folder xs = .ok p) :
    ∃ folder xs, P folder xs ∧ walk root folder xs = .arrived p := by
  induction links generalizing folder xs with
  | zero =>
    rw [follow] at h
    split at h
    · next hw =>
      cases h
      exact ⟨folder, xs, hP, hw⟩
    · cases h
    · cases h
  | succ links ih =>
    rw [follow] at h
    split at h
    · next hw =>
      cases h
      exact ⟨folder, xs, hP, hw⟩
    · cases h
    · next hw => exact ih (hlink _ _ _ _ _ hP hw) h

/-! ## Paths behind the path of a folder -/

theorem find_eq_folder_iff {fs : FileSystem} {path : Text} {inside : Folder} :
    fs.find path = .ok (.folder inside) ↔
      ∃ names, fs.resolve path = .ok (.folder names inside) := by
  rw [find]
  constructor
  · intro h
    split at h
    · cases h
    · next names f hr =>
      cases h
      exact ⟨names, hr⟩
    · cases h
    · cases h
  · rintro ⟨names, h⟩
    rw [h]

theorem isFolder_iff {fs : FileSystem} {path : Text} :
    fs.isFolder path = true ↔ ∃ inside, fs.find path = .ok (.folder inside) := by
  rw [isFolder]
  split
  · next inside h => exact ⟨fun _ => ⟨inside, h⟩, fun _ => rfl⟩
  · next h => exact ⟨nofun, fun ⟨inside, hf⟩ => absurd hf (h inside)⟩

theorem resolve_of_ne_nil {fs : FileSystem} {path : Text} (h : path ≠ []) :
    fs.resolve path = follow fs.root linkLimit (startOf fs.working path) (splitOn slash path) :=
  if_neg h

theorem resolve_eq_folder_iff {fs : FileSystem} {path : Text} {here : List Text} {inside : Folder} :
    fs.resolve path = .ok (.folder here inside) ↔
      path ≠ [] ∧ fs.root.at? here = some inside ∧ ∃ left,
        Passes fs.root linkLimit (startOf fs.working path) (splitOn slash path) left here := by
  by_cases hne : path = []
  · rw [resolve, if_pos hne]
    exact ⟨nofun, fun h => absurd hne h.1⟩
  · rw [resolve_of_ne_nil hne, follow_eq_folder_iff]
    exact ⟨fun h => ⟨hne, h⟩, fun h => h.2⟩

/-- Behind the path of a folder, the names of a path are followed from that folder. -/
theorem exists_follow_join {fs : FileSystem} {path : Text} {here : List Text} {inside : Folder}
    (h : fs.resolve path = .ok (.folder here inside)) :
    ∃ links, ∀ way : Text, way.head? ≠ some slash →
      fs.resolve (Path.join path way) = follow fs.root links here (splitOn slash way) := by
  obtain ⟨hne, -, left, hpass⟩ := resolve_eq_folder_iff.1 h
  have hjoin (way t : Text) (ht : Path.join path way = path ++ t) :
      fs.resolve (Path.join path way) =
        follow fs.root linkLimit (startOf fs.working path) (splitOn slash (path ++ t)) := by
    have hstart : startOf fs.working (path ++ t) = startOf fs.working path := by
      rw [startOf, startOf, List.head?_append_of_ne_nil _ hne]
    rw [ht, resolve_of_ne_nil (List.append_ne_nil_of_left_ne_nil hne t), hstart]
  refine ⟨left, fun way hway => ?_⟩
  -- A slash at the end of the path leaves an empty last name, and the way comes in its place.
  by_cases hend : path.getLast? = some slash
  · obtain ⟨front, rfl⟩ := List.getLast?_eq_some_iff.1 hend
    rw [hjoin way way (by simp [Path.join, hway]), List.append_assoc, List.singleton_append,
      splitOn_append_cons]
    rw [splitOn_append_cons, splitOn_nil] at hpass
    obtain ⟨mid, there, hfront, hlast⟩ := hpass.exists_mid
    rw [hfront.follow_append]
    cases (passes_skip_iff rfl).1 hlast
    rfl
  · rw [hjoin way (slash :: way) (by simp [Path.join, hway, hne, hend]), splitOn_append_cons,
      hpass.follow_append]

/-- So are names of entries, put together. -/
theorem exists_follow_names {fs : FileSystem} {path : Text} {here : List Text} {inside : Folder}
    (h : fs.resolve path = .ok (.folder here inside)) :
    ∃ links, ∀ names ≠ [], (∀ n ∈ names, IsName n) →
      fs.resolve (Path.join path (Path.toText ⟨false, names⟩)) =
        follow fs.root links here names := by
  obtain ⟨links, hjoin⟩ := exists_follow_join h
  refine ⟨links, fun names hne hn => ?_⟩
  rw [hjoin _ (Path.head?_toText hn), Path.splitOn_toText hne hn]

theorem exists_resolve_join {fs : FileSystem} {path : Text} {inside : Folder}
    (h : fs.find path = .ok (.folder inside)) :
    ∃ links here, fs.root.at? here = some inside ∧ ∀ way : Text, way.head? ≠ some slash →
      fs.resolve (Path.join path way) = follow fs.root links here (splitOn slash way) := by
  obtain ⟨here, hr⟩ := find_eq_folder_iff.1 h
  obtain ⟨links, hjoin⟩ := exists_follow_join hr
  exact ⟨links, here, (resolve_eq_folder_iff.1 hr).2.1, hjoin⟩

/-! ## One name further -/

section Entries

variable {root inside : Folder} {here rest : List Text} {name : Text} {links : Nat}

theorem isSought_of_isName (hn : IsName name) : IsSought name where
  not_skipped := by simp [hn.ne_nil, hn.ne_here]
  ne_up := hn.ne_up
  not_long := Nat.not_lt.2 hn.length_le

theorem walk_name (hn : IsName name) (hat : root.at? here = some inside) :
    walk root here (name :: rest) =
      match inside.get? name with
      | none => if rest = [] then .arrived (.vacant (here ++ [name])) else .refused .missing
      | some (.folder _) => walk root (here ++ [name]) rest
      | some (.file content) =>
        if rest = [] then .arrived (.file (here ++ [name]) content) else .refused .notFolder
      | some (.link target) => .atLink here target rest := by
  rw [walk_entry root here rest (isSought_of_isName hn), hat]
  rfl

theorem follow_folder {f : Folder} (hn : IsName name) (hat : root.at? here = some inside)
    (h : inside.get? name = some (.folder f)) :
    follow root links here (name :: rest) = follow root links (here ++ [name]) rest :=
  follow_congr (by rw [walk_name hn hat, h])

theorem follow_file {content : Text} (hn : IsName name) (hat : root.at? here = some inside)
    (h : inside.get? name = some (.file content)) :
    follow root links here [name] = .ok (.file (here ++ [name]) content) := by
  rw [follow, walk_name hn hat, h]
  rfl

/-- A way that leads to a file starts with the name of an entry, and only a way of one name with
that of a file. -/
theorem exists_entry {names : List Text} {content : Text} (hn : IsName name)
    (hat : root.at? here = some inside)
    (h : follow root links here (name :: rest) = .ok (.file names content)) :
    ∃ e, inside.get? name = some e ∧ ∀ t, e = .file t → rest = [] := by
  rw [follow, walk_name hn hat] at h
  cases he : inside.get? name with
  | none =>
    rw [he] at h
    by_cases hr : rest = [] <;> simp [hr] at h
  | some e =>
    refine ⟨e, rfl, ?_⟩
    rintro t rfl
    rw [he] at h
    by_contra hr
    simp [hr] at h

end Entries

end SourceBundle.FileSystem
