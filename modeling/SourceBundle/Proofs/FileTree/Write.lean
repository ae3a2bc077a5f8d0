import SourceBundle.Proofs.FileTree.Alike
/-!
# Writing and removing a file

A file that is written, or removed, is the only thing in the tree that changes, and what has been
written is read back.
-/
namespace SourceBundle.FileSystem

open Text

variable {root : Folder} {folder xs names : List Text} {p : Place} {links : Nat}

/-! ## What stands at a place -/

/-- The entry of a tree that a place stands for. -/
inductive Place.Stands (root : Folder) : Place → Prop
  | file {names : List Text} {content : Text} (h : root.entryAt? names = some (.file content)) :
    Stands root (.file names content)
  | folder {names : List Text} {inside : Folder} (h : root.at? names = some inside) :
    Stands root (.folder names inside)
  | vacant {names : List Text} (h : root.entryAt? names = none) : Stands root (.vacant names)

theorem stands_of_walk (h : walk root folder xs = .arrived p) : p.Stands root := by
  fun_induction walk root folder xs with
  | case1 folder inside hat =>
    cases h
    exact .folder hat
  | case3 folder name rest _ ih => exact ih h
  | case4 folder rest _ ih => exact ih h
  | case6 folder name _ _ _ he =>
    cases h
    exact .vacant ((root.entryAt?_concat folder name).trans he)
  | case8 folder name rest _ _ _ inside _ ih => exact ih h
  | case9 folder name _ _ _ content he =>
    cases h
    exact .file ((root.entryAt?_concat folder name).trans he)
  | case2 | case5 | case7 | case10 | case11 => cases h

theorem stands_of_follow (h : follow root links folder xs = .ok p) : p.Stands root := by
  obtain ⟨_, _, -, hw⟩ :=
    exists_walk_of_follow (P := fun _ _ => True) trivial (fun _ _ _ _ _ _ _ => trivial) h
  exact stands_of_walk hw

theorem stands_of_resolve {fs : FileSystem} {path : Text} (h : fs.resolve path = .ok p) :
    p.Stands fs.root := by
  rw [resolve] at h
  split at h
  · cases h
  · exact stands_of_follow h

theorem entryAt?_of_resolve {fs : FileSystem} {path content : Text}
    (h : fs.resolve path = .ok (.file names content)) :
    fs.root.entryAt? names = some (.file content) := by
  cases stands_of_resolve h with
  | file he => exact he

theorem at?_of_resolve {fs : FileSystem} {path : Text} {inside : Folder}
    (h : fs.resolve path = .ok (.folder names inside)) : fs.root.at? names = some inside := by
  cases stands_of_resolve h with
  | folder hat => exact hat

theorem fileOrFree_of_stands (h : p.Stands root) (hp : p.names? = some names) :
    root.FileOrFree names := by
  intro e he
  cases h with
  | file h =>
    cases hp
    rw [h] at he
    exact ⟨_, (Option.some.inj he).symm⟩
  | folder => cases hp
  | vacant h =>
    cases hp
    rw [h] at he
    cases he

/-! ## Writing -/

theorem fileOrFree_putAt (h : root.FileOrFree names) (content : Text) :
    (root.putAt (.file content) names).FileOrFree names := by
  rw [Folder.putAt_eq_alterAt]
  induction names generalizing root with
  | nil => exact absurd rfl (Folder.not_folder_of_fileOrFree h)
  | cons name names ih =>
    rcases eq_or_ne names [] with rfl | hne
    · intro e he
      rw [Folder.entryAt?_singleton, Folder.alterAt, Folder.get?_put_self] at he
      exact ⟨content, (Option.some.inj he).symm⟩
    · by_cases hf : ∃ inside, root.get? name = some (.folder inside)
      · obtain ⟨inside, he⟩ := hf
        rw [Folder.alterAt_cons he hne, Folder.fileOrFree_cons (Folder.get?_put_self name _ root)]
        exact ih ((Folder.fileOrFree_cons he).1 h)
      · rw [not_exists] at hf
        rwa [Folder.alterAt_cons_of_not_folder hf hne]

/-- A file that is written is the only thing that changes. -/
theorem differAt_putAt (h : root.FileOrFree names) (content : Text) :
    DifferAt names root (root.putAt (.file content) names) where
  face?_eq other hne := by
    have hnew := fileOrFree_putAt h content
    rw [Folder.putAt_eq_alterAt] at hnew ⊢
    exact Folder.face?_alterAt_of_ne (fun n f m hm => Folder.get?_put_of_ne (Ne.symm hm) _ f)
      h hnew hne
  fileOrFree := h
  fileOrFree' := fileOrFree_putAt h content

/-! ## What reads otherwise -/

/-- What stands at a place decides which place of its name it is. -/
theorem eq_of_stands {q : Place} (hp : p.Stands root) (hq : q.Stands root)
    (hpn : p.names? = some names) (hqn : q.names? = some names) : p = q := by
  rcases Place.eq_of_names? hpn with ⟨c, rfl⟩ | rfl <;>
    rcases Place.eq_of_names? hqn with ⟨c', rfl⟩ | rfl <;>
    cases hp with | _ hp <;> cases hq with | _ hq <;> simp_all

/-- Where trees differ at one spot, only paths to the spot can lead to other contents. -/
theorem names?_of_contentOf?_ne {fs fs' : FileSystem} (hw : fs'.working = fs.working)
    (h : DifferAt names fs.root fs'.root) {path : Text}
    (hne : fs'.contentOf? path ≠ fs.contentOf? path) :
    ∃ p, fs.resolve path = .ok p ∧ p.names? = some names := by
  have halike := resolve_alike hw h path
  rw [contentOf?, find, contentOf?, find] at hne
  generalize fs.resolve path = x at halike hne ⊢
  generalize fs'.resolve path = x' at halike hne
  cases halike with
  | ok hp =>
    cases hp with
    | folder | elsewhere => exact absurd rfl hne
    | there hp => exact ⟨_, rfl, hp⟩
  | error => exact absurd rfl hne

theorem working_store (fs : FileSystem) (names : List Text) (content : Text) :
    (fs.store names content).working = fs.working := rfl

theorem differAt_store {fs : FileSystem} {path : Text} (h : fs.target? path = some names)
    (content : Text) : DifferAt names fs.root (fs.store names content).root := by
  obtain ⟨p, hr, hp⟩ := target?_eq_some_iff.1 h
  exact differAt_putAt (fileOrFree_of_stands (stands_of_resolve hr) hp) content

/-- The last of some names stands for something in a folder that there is. -/
def IsInFolder (root : Folder) (names : List Text) : Prop :=
  ∃ above name g, names = above ++ [name] ∧ root.at? above = some g

/-- What is stored where a path leads is read back from it. -/
theorem contentOf?_store {fs : FileSystem} {path : Text} (htarget : fs.target? path = some names)
    (hin : IsInFolder fs.root names) (content : Text) :
    (fs.store names content).contentOf? path = some content := by
  obtain ⟨p, hr, hp⟩ := target?_eq_some_iff.1 htarget
  have hself : (fs.store names content).root.entryAt? names = some (.file content) := by
    obtain ⟨above, name, g, rfl, hat⟩ := hin
    rw [store, Folder.putAt_eq_alterAt, Folder.entryAt?_alterAt_self hat, Folder.get?_put_self]
  have halike :=
    resolve_alike (working_store fs names content) (differAt_store htarget content) path
  have hstands (q : Place) (hq : (fs.store names content).resolve path = .ok q) :=
    stands_of_resolve hq
  rw [hr] at halike
  rw [contentOf?, find]
  generalize (fs.store names content).resolve path = x' at halike hstands ⊢
  cases halike with
  | ok hpp =>
    cases hpp with
    | folder => cases hp
    | elsewhere hp' hne => exact absurd (Option.some.inj (hp'.symm.trans hp)) hne
    | there _ hp' => rw [eq_of_stands (hstands _ rfl) (.file hself) hp' rfl]

/-! ## Removing -/

/-- The file system without the file that a path leads to. -/
def remove (fs : FileSystem) (path : Text) : FileSystem :=
  match fs.resolve path with
  | .ok (.file names _) => { fs with root := fs.root.removeAt names }
  | _ => fs

theorem exists_resolve_of_contentOf? {fs : FileSystem} {path content : Text}
    (h : fs.contentOf? path = some content) :
    ∃ names, fs.resolve path = .ok (.file names content) := by
  rw [contentOf?, find] at h
  cases hr : fs.resolve path with
  | error why =>
    rw [hr] at h
    cases h
  | ok p =>
    rw [hr] at h
    cases p with
    | file names c =>
      cases h
      exact ⟨names, rfl⟩
    | folder | vacant => cases h

theorem remove_eq {fs : FileSystem} {path content : Text}
    (h : fs.resolve path = .ok (.file names content)) :
    fs.remove path = { fs with root := fs.root.removeAt names } := by
  rw [remove, h]

theorem entryAt?_removeAt {content : Text} (hwf : root.WellFormed)
    (h : root.entryAt? names = some (.file content)) :
    (root.removeAt names).entryAt? names = none := by
  rcases List.eq_nil_or_concat names with rfl | ⟨above, name, rfl⟩
  · cases h
  · rw [List.concat_eq_append] at h ⊢
    rw [Folder.entryAt?_concat] at h
    obtain ⟨g, hat, -⟩ := Option.bind_eq_some_iff.1 h
    rw [Folder.removeAt, Folder.entryAt?_alterAt_self hat, Folder.get?_remove_self (hwf.at? hat)]

/-- A file that is removed is the only thing that changes. -/
theorem differAt_removeAt {content : Text} (hwf : root.WellFormed)
    (h : root.entryAt? names = some (.file content)) :
    DifferAt names root (root.removeAt names) := by
  have hold : root.FileOrFree names := by
    intro e he
    rw [h] at he
    exact ⟨content, (Option.some.inj he).symm⟩
  have hnew : (root.removeAt names).FileOrFree names := by
    intro e he
    rw [entryAt?_removeAt hwf h] at he
    cases he
  exact ⟨fun other hne => Folder.face?_alterAt_of_ne Folder.get?_remove_of_ne hold hnew hne, hold,
    hnew⟩

/-- A removed file is missed where it stood, and nothing else reads otherwise. -/
theorem contentOf?_of_remove {fs : FileSystem} {path content other t : Text}
    (hwf : fs.root.WellFormed) (h : fs.contentOf? path = some content)
    (ht : (fs.remove path).contentOf? other = some t) : fs.contentOf? other = some t := by
  obtain ⟨names, hr⟩ := exists_resolve_of_contentOf? h
  have hentry := entryAt?_of_resolve hr
  generalize hfs : fs.remove path = fs' at ht
  rw [remove_eq hr] at hfs
  have hdiffer : DifferAt names fs.root fs'.root := by
    rw [← hfs]
    exact differAt_removeAt hwf hentry
  have hfree : fs'.root.entryAt? names = none := by
    rw [← hfs]
    exact entryAt?_removeAt hwf hentry
  by_contra hne
  rw [← ht] at hne
  -- A path that reads otherwise leads to where the file stood, and there is nothing any more.
  obtain ⟨p, hp, hnames⟩ := names?_of_contentOf?_ne (by rw [← hfs]) hdiffer.symm hne
  cases stands_of_resolve hp with
  | file he =>
    cases hnames
    rw [hfree] at he
    cases he
  | folder => cases hnames
  | vacant =>
    rw [contentOf?, find, hp] at ht
    cases ht

end SourceBundle.FileSystem
