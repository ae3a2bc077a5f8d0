import SourceBundle.Proofs.FileTree.Entry
/-!
# Trees that differ in one file

Two trees hold the same everywhere but at one spot, where each has a file or nothing. Then every
path leads to the same in both, or to that spot in both, or nowhere in both.
-/
namespace SourceBundle.FileSystem

open Text

/-- Two trees that hold the same but for a file at one spot. -/
structure DifferAt (spot : List Text) (r r' : Folder) : Prop where
  face?_eq : ∀ names, names ≠ spot → r'.face? names = r.face? names
  fileOrFree : r.FileOrFree spot
  fileOrFree' : r'.FileOrFree spot

/-- Where a path leads in two such trees. -/
inductive Place.Alike (spot : List Text) : Place → Place → Prop
  | folder (names : List Text) (inside inside' : Folder) :
    Alike spot (.folder names inside) (.folder names inside')
  | elsewhere {p : Place} {names : List Text} (h : p.names? = some names) (hne : names ≠ spot) :
    Alike spot p p
  | there {p p' : Place} (h : p.names? = some spot) (h' : p'.names? = some spot) : Alike spot p p'

/-- How far some names lead in two such trees. -/
inductive Walk.Alike (spot : List Text) : Walk → Walk → Prop
  | arrived {p p' : Place} (h : p.Alike spot p') : Alike spot (.arrived p) (.arrived p')
  | atLink (folder : List Text) (target : Text) (rest : List Text) :
    Alike spot (.atLink folder target rest) (.atLink folder target rest)
  | refused (why why' : Refusal) : Alike spot (.refused why) (.refused why')

/-- Both trees lead to alike places or nowhere. -/
inductive AlikeResult (spot : List Text) : Except Refusal Place → Except Refusal Place → Prop
  | ok {p p' : Place} (h : p.Alike spot p') : AlikeResult spot (.ok p) (.ok p')
  | error (why why' : Refusal) : AlikeResult spot (.error why) (.error why')

/-! ## Entries and folders -/

theorem eq_or_folder_of_face {e e' : Option Entry} (h : e'.map Entry.face = e.map Entry.face) :
    (∃ f f', e = some (.folder f) ∧ e' = some (.folder f')) ∨
      e' = e ∧ ∀ f, e ≠ some (.folder f) := by
  rcases e with _ | _ | _ | f
  · exact .inr ⟨Option.map_eq_none_iff.1 h, nofun⟩
  all_goals rcases e' with _ | _ | _ | f' <;> simp_all [Entry.face]

variable {spot : List Text} {r r' : Folder}

theorem DifferAt.symm (h : DifferAt spot r r') : DifferAt spot r' r :=
  ⟨fun names hne => (h.face?_eq names hne).symm, h.fileOrFree', h.fileOrFree⟩

theorem DifferAt.at?_cases (h : DifferAt spot r r') (names : List Text) :
    (∃ f f', r.at? names = some f ∧ r'.at? names = some f') ∨
      r.at? names = none ∧ r'.at? names = none := by
  simp only [Option.eq_none_iff_forall_ne_some, ne_eq, Folder.at?_eq_some_iff]
  rcases eq_or_ne names spot with rfl | hne
  · exact .inr ⟨fun _ => Folder.not_folder_of_fileOrFree h.fileOrFree,
      fun _ => Folder.not_folder_of_fileOrFree h.fileOrFree'⟩
  · rcases eq_or_folder_of_face (h.face?_eq names hne) with hf | ⟨he, hf⟩
    · exact .inl hf
    · exact .inr ⟨hf, he ▸ hf⟩

/-! ## Ways -/

theorem walk_alike (h : DifferAt spot r r') (folder xs : List Text) :
    (walk r folder xs).Alike spot (walk r' folder xs) := by
  induction xs generalizing folder with
  | nil =>
    rw [walk, walk]
    rcases h.at?_cases folder with ⟨f, f', hf, hf'⟩ | ⟨hf, hf'⟩
    · rw [hf, hf']
      exact .arrived (.folder folder f f')
    · rw [hf, hf']
      exact .refused _ _
  | cons name xs ih =>
    by_cases hskip : (name = [] || name = Path.here) = true
    · rw [walk, walk, if_pos hskip, if_pos hskip]
      exact ih folder
    by_cases hup : name = Path.up
    · rw [walk, walk, if_neg hskip, if_neg hskip, if_pos hup, if_pos hup]
      exact ih folder.dropLast
    by_cases hlong : nameLimit < name.length
    · rw [walk, walk, if_neg hskip, if_neg hskip, if_neg hup, if_neg hup, if_pos hlong,
        if_pos hlong]
      exact .refused _ _
    rw [walk_entry r folder xs ⟨hskip, hup, hlong⟩, walk_entry r' folder xs ⟨hskip, hup, hlong⟩,
      ← Folder.entryAt?_concat, ← Folder.entryAt?_concat]
    by_cases hspot : folder ++ [name] = spot
    · -- At the spot a way ends in both trees, or goes on in neither.
      have hends (root : Folder) (hroot : root.FileOrFree spot) :
          root.entryAt? spot = none ∨ ∃ content, root.entryAt? spot = some (.file content) := by
        cases he : root.entryAt? spot with
        | none => exact .inl rfl
        | some e =>
          obtain ⟨content, rfl⟩ := hroot e he
          exact .inr ⟨content, rfl⟩
      rw [hspot]
      rcases hends r h.fileOrFree with he | ⟨c, he⟩ <;>
        rcases hends r' h.fileOrFree' with he' | ⟨c', he'⟩ <;>
        rw [he, he'] <;> dsimp only <;> split
      all_goals first | exact .arrived (.there rfl rfl) | exact .refused _ _
    · rcases eq_or_folder_of_face (h.face?_eq _ hspot) with ⟨f, f', he, he'⟩ | ⟨he', hf⟩
      · rw [he, he']
        exact ih _
      · rw [he']
        cases he : r.entryAt? (folder ++ [name]) with
        | none =>
          dsimp only
          split
          · exact .arrived (.elsewhere rfl hspot)
          · exact .refused _ _
        | some e =>
          cases e with
          | folder f => exact absurd he (hf f)
          | file content =>
            dsimp only
            split
            · exact .arrived (.elsewhere rfl hspot)
            · exact .refused _ _
          | link target => exact .atLink _ _ _

theorem follow_alike (h : DifferAt spot r r') (links : Nat) (folder xs : List Text) :
    AlikeResult spot (follow r links folder xs) (follow r' links folder xs) := by
  -- A link is the same in both trees, so the next walk starts in both from the same names.
  induction links generalizing folder xs with
  | zero =>
    have hw := walk_alike h folder xs
    rw [follow, follow]
    generalize walk r folder xs = w at hw ⊢
    generalize walk r' folder xs = w' at hw ⊢
    cases hw with
    | arrived hp => exact .ok hp
    | atLink => exact .error _ _
    | refused => exact .error _ _
  | succ links ih =>
    have hw := walk_alike h folder xs
    rw [follow, follow]
    generalize walk r folder xs = w at hw ⊢
    generalize walk r' folder xs = w' at hw ⊢
    cases hw with
    | arrived hp => exact .ok hp
    | atLink d target rest => exact ih _ _
    | refused => exact .error _ _

/-- A path leads to alike places in file systems that differ at one spot. -/
theorem resolve_alike {fs fs' : FileSystem} (hw : fs'.working = fs.working)
    (h : DifferAt spot fs.root fs'.root) (path : Text) :
    AlikeResult spot (fs.resolve path) (fs'.resolve path) := by
  rw [resolve, resolve, hw]
  split
  · exact .error _ _
  · exact follow_alike h _ _ _

/-! ## What a path leads to -/

variable {fs fs' : FileSystem} {path : Text}

theorem isFolder_eq_of_alike (h : AlikeResult spot (fs.resolve path) (fs'.resolve path)) :
    fs'.isFolder path = fs.isFolder path := by
  rw [isFolder, isFolder, find, find]
  generalize fs.resolve path = x at h ⊢
  generalize fs'.resolve path = x' at h ⊢
  cases h with
  | ok h =>
    cases h with
    | folder | elsewhere => rfl
    | there hp hp' =>
      rcases Place.eq_of_names? hp with ⟨c, rfl⟩ | rfl <;>
        rcases Place.eq_of_names? hp' with ⟨c', rfl⟩ | rfl <;> rfl
  | error => rfl

/-- A path that does not lead to the spot reads the same. -/
theorem read?_eq_of_alike (h : AlikeResult spot (fs.resolve path) (fs'.resolve path))
    (hne : ∀ p, fs.resolve path = .ok p → p.names? ≠ some spot) :
    fs'.read? path = fs.read? path := by
  rw [read?, read?, find, find]
  generalize fs.resolve path = x at h hne ⊢
  generalize fs'.resolve path = x' at h ⊢
  cases h with
  | ok h =>
    cases h with
    | folder | elsewhere => rfl
    | there hp => exact absurd hp (hne _ rfl)
  | error => rfl

end SourceBundle.FileSystem
