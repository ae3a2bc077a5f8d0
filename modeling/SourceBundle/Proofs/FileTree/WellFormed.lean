import SourceBundle.FileTree.Build
import SourceBundle.Proofs.FileTree.Follow
/-!
# Well-formed trees

In a well-formed folder every entry has a name of its own that an entry may have. Setting down
entries and writing files keeps a tree so, and every tree that is built from items is.
-/
namespace SourceBundle

open Text

namespace Folder

def WellFormed : Folder → Prop
  | empty => True
  | file name _ rest | link name _ rest => IsName name ∧ rest.get? name = none ∧ rest.WellFormed
  | folder name inside rest =>
    IsName name ∧ rest.get? name = none ∧ inside.WellFormed ∧ rest.WellFormed

instance decidableWellFormed : (f : Folder) → Decidable f.WellFormed
  | empty => .isTrue trivial
  | file _ _ rest | link _ _ rest =>
    have := decidableWellFormed rest
    inferInstanceAs (Decidable (_ ∧ _ ∧ _))
  | folder _ inside rest =>
    have := decidableWellFormed inside
    have := decidableWellFormed rest
    inferInstanceAs (Decidable (_ ∧ _ ∧ _ ∧ _))

end Folder

def Entry.WellFormed : Entry → Prop
  | .folder inside => inside.WellFormed
  | _ => True

namespace Folder

variable {f rest : Folder} {name : Text} {e : Entry}

/-- Every folder is empty or has a first entry. -/
theorem cons_induction {P : Folder → Prop} (empty : P .empty)
    (cons : ∀ name e rest, P rest → P (.cons name e rest)) (f : Folder) : P f := by
  induction f with
  | empty => exact empty
  | file name content rest ih => exact cons name (.file content) rest ih
  | link name target rest ih => exact cons name (.link target) rest ih
  | folder name inside rest _ ih => exact cons name (.folder inside) rest ih

/-- To prove something of a folder, assume it of the folders in it. -/
theorem inside_induction {P : Folder → Prop}
    (h : ∀ f : Folder, (∀ name inside, f.get? name = some (.folder inside) → P inside) → P f)
    (f : Folder) : P f := by
  -- The folders in a tail are folders of the whole, which the constructors do not say.
  have hin : ∀ f : Folder, ∀ name inside, f.get? name = some (.folder inside) → P inside := by
    intro f
    induction f with
    | empty => exact nofun
    | file n _ rest ih | link n _ rest ih =>
      intro name inside hg
      rw [Folder.get?] at hg
      split at hg
      · cases hg
      · exact ih name inside hg
    | folder n g rest ihg ih =>
      intro name inside hg
      rw [Folder.get?] at hg
      split at hg
      · cases hg
        exact h _ ihg
      · exact ih name inside hg
  exact h f (hin f)

theorem get?_cons (name other : Text) (e : Entry) (rest : Folder) :
    (cons name e rest).get? other = if name = other then some e else rest.get? other := by
  cases e <;> rfl

theorem get?_cons_of_rest {other : Text} {e : Entry} (h : rest.get? name = none)
    (he : rest.get? other = some e) (d : Entry) : (cons name d rest).get? other = some e := by
  rw [get?_cons, if_neg, he]
  rintro rfl
  rw [h] at he
  cases he

theorem wellFormed_cons : (cons name e rest).WellFormed ↔
    IsName name ∧ rest.get? name = none ∧ e.WellFormed ∧ rest.WellFormed := by
  cases e <;> simp [cons, WellFormed, Entry.WellFormed]

theorem WellFormed.get? (h : f.WellFormed) (he : f.get? name = some e) :
    IsName name ∧ e.WellFormed := by
  induction f using cons_induction with
  | empty => cases he
  | cons n d rest ih =>
    obtain ⟨hn, -, hd, hrest⟩ := wellFormed_cons.1 h
    rw [get?_cons] at he
    split at he
    · next hne =>
      cases he
      exact ⟨hne ▸ hn, hd⟩
    · exact ih hrest he

theorem WellFormed.at? {names : List Text} {inside : Folder} (h : f.WellFormed)
    (hat : f.at? names = some inside) : inside.WellFormed := by
  induction names generalizing f with
  | nil =>
    cases hat
    exact h
  | cons n names ih =>
    rw [Folder.at?] at hat
    split at hat
    · next g hg => exact ih (h.get? hg).2 hat
    · cases hat

theorem put_cons (n : Text) (d : Entry) :
    (cons n d rest).put name e =
      if n = name then cons name e rest else cons n d (rest.put name e) := by
  cases d <;> rfl

theorem wellFormed_put (h : f.WellFormed) (hn : IsName name) (he : e.WellFormed) :
    (f.put name e).WellFormed := by
  induction f using cons_induction with
  | empty => exact wellFormed_cons.2 ⟨hn, rfl, he, trivial⟩
  | cons n d rest ih =>
    obtain ⟨hd, hfresh, hde, hrest⟩ := wellFormed_cons.1 h
    rw [put_cons]
    split
    · next hne => exact wellFormed_cons.2 ⟨hn, hne ▸ hfresh, he, hrest⟩
    · next hne =>
      refine wellFormed_cons.2 ⟨hd, ?_, hde, ih hrest⟩
      rw [get?_put_of_ne (Ne.symm hne), hfresh]

theorem wellFormed_putAt {names : List Text} (h : f.WellFormed) (he : e.WellFormed)
    (hn : ∀ n ∈ names.getLast?, IsName n) : (f.putAt e names).WellFormed := by
  induction names generalizing f with
  | nil => exact h
  | cons n names ih =>
    cases names with
    | nil => exact wellFormed_put h (hn n rfl) he
    | cons m names =>
      rw [putAt]
      · split
        · next inside hg =>
          obtain ⟨hname, hinside⟩ := h.get? hg
          exact wellFormed_put h hname (ih hinside (by simpa using hn))
        · exact h
      · exact nofun

end Folder

namespace FileSystem

/-! ## The last name on a way -/

/-- The names of a file or of a free place. -/
def Place.names? : Place → Option (List Text)
  | .file names _ | .vacant names => some names
  | .folder .. => none

theorem Place.eq_of_names? {p : Place} {names : List Text} (h : p.names? = some names) :
    (∃ content, p = .file names content) ∨ p = .vacant names := by
  cases p with
  | file => exact .inl ⟨_, by rw [Option.some.inj h]⟩
  | folder => cases h
  | vacant => exact .inr (by rw [Option.some.inj h])

theorem target?_eq_some_iff {fs : FileSystem} {path : Text} {names : List Text} :
    fs.target? path = some names ↔ ∃ p, fs.resolve path = .ok p ∧ p.names? = some names := by
  rw [target?]
  constructor
  · intro h
    split at h
    · next hr => exact ⟨_, hr, h⟩
    · next hr => exact ⟨_, hr, h⟩
    · cases h
  · rintro ⟨p, hr, hp⟩
    rcases Place.eq_of_names? hp with ⟨old, rfl⟩ | rfl <;> rw [hr]

/-- What a way without slashes leads to: its last name may be that of an entry, and behind a link
only names of its own are left. -/
inductive Leads (xs : List Text) : Walk → Prop
  | arrived {p : Place} (h : ∀ names, p.names? = some names → ∀ n ∈ names.getLast?, IsName n) :
    Leads xs (.arrived p)
  | atLink {folder : List Text} {target : Text} {rest : List Text} (h : rest ⊆ xs) :
    Leads xs (.atLink folder target rest)
  | refused (r : Refusal) : Leads xs (.refused r)

theorem Leads.cons {x : Text} {xs : List Text} {w : Walk} (h : Leads xs w) :
    Leads (x :: xs) w := by
  cases h with
  | arrived h => exact .arrived h
  | atLink h => exact .atLink (List.subset_cons_of_subset x h)
  | refused r => exact .refused r

theorem leads_walk (root : Folder) (folder : List Text) {xs : List Text}
    (hxs : ∀ x ∈ xs, slash ∉ x) : Leads xs (walk root folder xs) := by
  induction xs generalizing folder with
  | nil =>
    rw [walk]
    split
    · refine .arrived fun names h => ?_
      cases h
    · exact .refused _
  | cons name xs ih =>
    have ih (folder : List Text) := ih folder fun x hx => hxs x (List.mem_cons_of_mem name hx)
    by_cases hskip : (name = [] || name = Path.here) = true
    · rw [walk, if_pos hskip]
      exact (ih _).cons
    by_cases hup : name = Path.up
    · rw [walk, if_neg hskip, if_pos hup]
      exact (ih _).cons
    by_cases hlong : nameLimit < name.length
    · rw [walk, if_neg hskip, if_neg hup, if_pos hlong]
      exact .refused _
    have hn : IsName name := by
      rw [Bool.or_eq_true, decide_eq_true_iff, decide_eq_true_iff, not_or] at hskip
      exact ⟨hskip.1, hxs name List.mem_cons_self, hskip.2, hup, Nat.not_lt.1 hlong⟩
    have hlast : ∀ n ∈ (folder ++ [name]).getLast?, IsName n := by
      intro n hmem
      rw [List.getLast?_concat, Option.mem_some_iff] at hmem
      exact hmem ▸ hn
    rw [walk_entry root folder xs ⟨hskip, hup, hlong⟩]
    split
    · split
      · exact .arrived fun names h => Option.some.inj h ▸ hlast
      · exact .refused _
    · exact (ih _).cons
    · split
      · exact .arrived fun names h => Option.some.inj h ▸ hlast
      · exact .refused _
    · exact .atLink (List.subset_cons_self name xs)

theorem isName_of_follow {root : Folder} {links : Nat} {folder xs names : List Text} {p : Place}
    (hxs : ∀ x ∈ xs, slash ∉ x) (h : follow root links folder xs = .ok p)
    (hp : p.names? = some names) : ∀ n ∈ names.getLast?, IsName n := by
  have hlink (folder xs here : List Text) (target : Text) (rest : List Text)
      (hxs : ∀ x ∈ xs, slash ∉ x) (hw : walk root folder xs = .atLink here target rest) :
      ∀ x ∈ splitOn slash target ++ rest, slash ∉ x := by
    have hleads := leads_walk root folder hxs
    rw [hw] at hleads
    cases hleads with
    | atLink hrest =>
      intro x hx
      rcases List.mem_append.1 hx with hx | hx
      · exact not_mem_of_mem_splitOn hx
      · exact hxs x (hrest hx)
  obtain ⟨folder, xs, hxs, hw⟩ := exists_walk_of_follow hxs hlink h
  have hleads := leads_walk root folder hxs
  rw [hw] at hleads
  cases hleads with
  | arrived hn => exact hn names hp

theorem isName_of_resolve {fs : FileSystem} {path : Text} {names : List Text} {p : Place}
    (h : fs.resolve path = .ok p) (hp : p.names? = some names) :
    ∀ n ∈ names.getLast?, IsName n := by
  rw [resolve] at h
  split at h
  · cases h
  · exact isName_of_follow (fun x hx => not_mem_of_mem_splitOn hx) h hp

/-! ## Building a tree -/

variable {fs : FileSystem}

theorem wellFormed_addAt {path : Text} {e : Entry} (h : fs.root.WellFormed) (he : e.WellFormed) :
    (fs.addAt path e).root.WellFormed := by
  rw [addAt]
  split
  · next hr => exact Folder.wellFormed_putAt h he (isName_of_resolve hr rfl)
  · exact h

theorem wellFormed_addFolders {p : Path} (h : fs.root.WellFormed) :
    (fs.addFolders p).root.WellFormed := by
  rw [addFolders]
  generalize beginnings p.names = ls
  induction ls generalizing fs with
  | nil => exact h
  | cons names ls ih => exact ih (wellFormed_addAt h trivial)

theorem wellFormed_store {path content : Text} {names : List Text} (h : fs.root.WellFormed)
    (ht : fs.target? path = some names) : (fs.store names content).root.WellFormed := by
  obtain ⟨p, hr, hp⟩ := target?_eq_some_iff.1 ht
  exact Folder.wellFormed_putAt h trivial (isName_of_resolve hr hp)

theorem wellFormed_add (i : Item) (h : fs.root.WellFormed) : (fs.add i).root.WellFormed := by
  rw [add]
  split
  · exact wellFormed_addFolders h
  · next he => exact wellFormed_addAt (wellFormed_addFolders h) (he ▸ trivial)
  · next content he =>
    have hf := wellFormed_addFolders
      (p := { Path.ofText i.path with names := (Path.ofText i.path).names.dropLast }) h
    dsimp only
    split
    · next ht => exact wellFormed_store hf ht
    · exact hf

/-- Every tree that is built from items is well-formed. -/
theorem wellFormed_ofItems {name : Text} (hn : IsName name) (items : List Item) :
    (ofItems name items).root.WellFormed := by
  have key : ∀ fs : FileSystem, fs.root.WellFormed → (items.foldl add fs).root.WellFormed := by
    induction items with
    | nil => exact fun _ h => h
    | cons i items ih => exact fun fs h => ih (fs.add i) (wellFormed_add i h)
  exact key _ (wellFormed_add _ ⟨hn, rfl, trivial, trivial⟩)

end FileSystem
end SourceBundle
