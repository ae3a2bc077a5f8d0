import SourceBundle.Proofs.FileTree.Names
/-!
# Passages from folder to folder

Names that lead to a folder make a passage to it, through some links out of those that may still be
met. Passages can be put one behind the other and cut in two, and more links to spare do no harm. A
path leads to a folder exactly when there is a passage to it.
-/
namespace SourceBundle.FileSystem

open Text

variable {root inside : Folder} {links mid left : Nat} {folder there here xs ys rest : List Text}
  {name target : Text}

/-! ## Folders some names down -/

theorem at?_append (f : Folder) (xs ys : List Text) :
    f.at? (xs ++ ys) = (f.at? xs).bind (·.at? ys) := by
  induction xs generalizing f with
  | nil => rfl
  | cons x xs ih =>
    rw [List.cons_append, Folder.at?, Folder.at?]
    cases f.get? x with
    | none => rfl
    | some e =>
      cases e with
      | folder g => exact ih g
      | file | link => rfl

theorem at?_concat {f : Folder} (hat : root.at? here = some inside)
    (h : inside.get? name = some (.folder f)) : root.at? (here ++ [name]) = some f := by
  rw [at?_append, hat, Option.bind_some, Folder.at?, h]
  rfl

theorem exists_at?_dropLast {g : Folder} (h : root.at? folder = some g) :
    ∃ g, root.at? folder.dropLast = some g := by
  induction folder using List.reverseRecOn with
  | nil => exact ⟨g, h⟩
  | append_singleton above name ih =>
    rw [at?_append] at h
    obtain ⟨f, hf, -⟩ := Option.bind_eq_some_iff.1 h
    exact ⟨f, by rwa [List.dropLast_concat]⟩

/-! ## One name -/

theorem walk_skip (root : Folder) (folder rest : List Text) :
    walk root folder ([] :: rest) = walk root folder rest := by
  rw [walk, if_pos (by simp)]

/-- A name that is looked up in a folder. -/
structure IsSought (name : Text) : Prop where
  not_skipped : ¬(name = [] || name = Path.here) = true
  ne_up : name ≠ Path.up
  not_long : ¬nameLimit < name.length

theorem walk_entry (root : Folder) (folder rest : List Text) (hname : IsSought name) :
    walk root folder (name :: rest) =
      match (root.at? folder).bind (·.get? name) with
      | none => if rest = [] then .arrived (.vacant (folder ++ [name])) else .refused .missing
      | some (.folder _) => walk root (folder ++ [name]) rest
      | some (.file content) =>
        if rest = [] then .arrived (.file (folder ++ [name]) content) else .refused .notFolder
      | some (.link target) => .atLink folder target rest := by
  rw [walk]
  exact (if_neg hname.not_skipped).trans ((if_neg hname.ne_up).trans (if_neg hname.not_long))

theorem follow_congr (h : walk root folder xs = walk root there ys) :
    follow root links folder xs = follow root links there ys := by
  unfold follow
  rw [h]

theorem follow_here (hat : root.at? here = some inside) :
    follow root links here [] = .ok (.folder here inside) := by
  rw [follow, walk, hat]

theorem follow_nil (h : follow root links there [] = .ok (.folder here inside)) :
    there = here ∧ root.at? here = some inside := by
  rw [follow, walk] at h
  cases hf : root.at? there with
  | none =>
    rw [hf] at h
    cases h
  | some f =>
    rw [hf] at h
    cases h
    exact ⟨rfl, hf⟩

/-! ## Passages -/

/-- The names lead from a folder to the folder `here`. Before them so many links may be met, and
after them `left`. -/
inductive Passes (root : Folder) : Nat → List Text → List Text → Nat → List Text → Prop
  | nil (links : Nat) (folder : List Text) : Passes root links folder [] links folder
  | skip {links left : Nat} {folder here rest : List Text} {name : Text}
    (hskip : (name = [] || name = Path.here) = true) (h : Passes root links folder rest left here) :
    Passes root links folder (name :: rest) left here
  | up {links left : Nat} {folder here rest : List Text}
    (h : Passes root links folder.dropLast rest left here) :
    Passes root links folder (Path.up :: rest) left here
  | enter {links left : Nat} {folder here rest : List Text} {name : Text} {inside : Folder}
    (hname : IsSought name)
    (he : (root.at? folder).bind (·.get? name) = some (.folder inside))
    (h : Passes root links (folder ++ [name]) rest left here) :
    Passes root links folder (name :: rest) left here
  | link {links left : Nat} {folder here rest : List Text} {name target : Text}
    (hname : IsSought name)
    (he : (root.at? folder).bind (·.get? name) = some (.link target))
    (h : Passes root links (startOf folder target) (splitOn slash target ++ rest) left here) :
    Passes root (links + 1) folder (name :: rest) left here

theorem passes_skip_iff (hskip : (name = [] || name = Path.here) = true) :
    Passes root links folder (name :: rest) left here ↔
      Passes root links folder rest left here := by
  constructor
  · intro h
    cases h with
    | skip _ h => exact h
    | up => exact absurd hskip (by decide)
    | enter hname | link hname => exact absurd hskip hname.not_skipped
  · exact .skip hskip

namespace Passes

theorem trans (h : Passes root links folder xs mid there)
    (h' : Passes root mid there ys left here) :
    Passes root links folder (xs ++ ys) left here := by
  induction h with
  | nil => exact h'
  | skip hskip _ ih => exact .skip hskip (ih h')
  | up _ ih => exact .up (ih h')
  | enter hname he _ ih => exact .enter hname he (ih h')
  | link hname he _ ih => exact .link hname he (List.append_assoc _ _ _ ▸ ih h')

theorem exists_mid (h : Passes root links folder (xs ++ ys) left here) :
    ∃ mid there, Passes root links folder xs mid there ∧ Passes root mid there ys left here := by
  -- The names are cut while they are passed, and a link puts its target before the cut.
  generalize hzs : xs ++ ys = zs at h
  induction h generalizing xs with
  | nil links folder =>
    obtain ⟨rfl, rfl⟩ := List.append_eq_nil_iff.1 hzs
    exact ⟨links, folder, .nil _ _, .nil _ _⟩
  | skip hskip h ih =>
    rcases List.append_eq_cons_iff.1 hzs with ⟨rfl, rfl⟩ | ⟨xs, rfl, hrest⟩
    · exact ⟨_, _, .nil _ _, .skip hskip h⟩
    · obtain ⟨mid, there, h₁, h₂⟩ := ih hrest.symm
      exact ⟨mid, there, .skip hskip h₁, h₂⟩
  | up h ih =>
    rcases List.append_eq_cons_iff.1 hzs with ⟨rfl, rfl⟩ | ⟨xs, rfl, hrest⟩
    · exact ⟨_, _, .nil _ _, .up h⟩
    · obtain ⟨mid, there, h₁, h₂⟩ := ih hrest.symm
      exact ⟨mid, there, .up h₁, h₂⟩
  | enter hname he h ih =>
    rcases List.append_eq_cons_iff.1 hzs with ⟨rfl, rfl⟩ | ⟨xs, rfl, hrest⟩
    · exact ⟨_, _, .nil _ _, .enter hname he h⟩
    · obtain ⟨mid, there, h₁, h₂⟩ := ih hrest.symm
      exact ⟨mid, there, .enter hname he h₁, h₂⟩
  | link hname he h ih =>
    rcases List.append_eq_cons_iff.1 hzs with ⟨rfl, rfl⟩ | ⟨xs, rfl, hrest⟩
    · exact ⟨_, _, .nil _ _, .link hname he h⟩
    · obtain ⟨mid, there, h₁, h₂⟩ := ih (by rw [hrest, List.append_assoc])
      exact ⟨mid, there, .link hname he h₁, h₂⟩

theorem left_le (h : Passes root links folder xs left here) : left ≤ links := by
  induction h with
  | nil => exact Nat.le_refl _
  | skip _ _ ih | up _ ih | enter _ _ _ ih => exact ih
  | link _ _ _ ih => exact Nat.le_succ_of_le ih

theorem add_links (h : Passes root links folder xs left here) (n : Nat) :
    Passes root (links + n) folder xs (left + n) here := by
  induction h with
  | nil => exact .nil _ _
  | skip hskip _ ih => exact .skip hskip ih
  | up _ ih => exact .up ih
  | enter hname he _ ih => exact .enter hname he ih
  | link hname he _ ih =>
    rw [Nat.add_right_comm]
    exact .link hname he ih

theorem exists_at? (h : Passes root links folder xs left here)
    (hat : ∃ f, root.at? folder = some f) : ∃ f, root.at? here = some f := by
  induction h with
  | nil => exact hat
  | skip _ _ ih => exact ih hat
  | up _ ih =>
    obtain ⟨f, hf⟩ := hat
    exact ih (exists_at?_dropLast hf)
  | enter _ he _ ih =>
    obtain ⟨f, hf, hentry⟩ := Option.bind_eq_some_iff.1 he
    exact ih ⟨_, at?_concat hf hentry⟩
  | link _ _ _ ih =>
    rw [startOf] at ih
    split at ih
    · exact ih ⟨_, rfl⟩
    · exact ih hat

/-! ## Passages and paths -/

/-- Behind a passage, names are followed from where it leads. -/
theorem follow_append (h : Passes root links folder xs left here) (ys : List Text) :
    follow root links folder (xs ++ ys) = follow root left here ys := by
  induction h with
  | nil => rfl
  | skip hskip _ ih =>
    rw [← ih, List.cons_append]
    exact follow_congr (by rw [walk, if_pos hskip])
  | up _ ih =>
    rw [← ih, List.cons_append]
    exact follow_congr (by rw [walk, if_neg (by decide), if_pos rfl])
  | enter hname he _ ih =>
    rw [← ih, List.cons_append]
    exact follow_congr (by rw [walk_entry _ _ _ hname, he])
  | link hname he _ ih =>
    rw [← ih, List.cons_append, follow, walk_entry _ _ _ hname, he, List.append_assoc]

end Passes

/-- Names that lead to a folder without a link make a passage. -/
theorem passes_of_walk (links : Nat) (hw : walk root folder xs = .arrived (.folder here inside)) :
    Passes root links folder xs links here := by
  fun_induction walk root folder xs with
  | case1 =>
    cases hw
    exact .nil _ _
  | case3 _ _ _ hskip ih => exact .skip hskip (ih hw)
  | case4 _ _ _ ih => exact .up (ih hw)
  | case8 _ _ _ hskip hup hlong _ he ih => exact .enter ⟨hskip, hup, hlong⟩ he (ih hw)
  | case2 | case5 | case6 | case7 | case9 | case10 | case11 => cases hw

/-- So do names that meet a link from which a passage goes on. -/
theorem passes_of_atLink (hw : walk root folder xs = .atLink there target rest)
    (h : Passes root links (startOf there target) (splitOn slash target ++ rest) left here) :
    Passes root (links + 1) folder xs left here := by
  fun_induction walk root folder xs with
  | case3 _ _ _ hskip ih => exact .skip hskip (ih hw)
  | case4 _ _ _ ih => exact .up (ih hw)
  | case8 _ _ _ hskip hup hlong _ he ih => exact .enter ⟨hskip, hup, hlong⟩ he (ih hw)
  | case11 _ _ _ hskip hup hlong _ he =>
    cases hw
    exact .link ⟨hskip, hup, hlong⟩ he h
  | case1 | case2 | case5 | case6 | case7 | case9 | case10 => cases hw

theorem exists_passes (h : follow root links folder xs = .ok (.folder here inside)) :
    ∃ left, Passes root links folder xs left here := by
  induction links generalizing folder xs with
  | zero =>
    rw [follow] at h
    split at h
    · next hw =>
      cases h
      exact ⟨0, passes_of_walk 0 hw⟩
    · cases h
    · cases h
  | succ links ih =>
    rw [follow] at h
    split at h
    · next hw =>
      cases h
      exact ⟨_, passes_of_walk _ hw⟩
    · cases h
    · next hw =>
      obtain ⟨left, hpass⟩ := ih h
      exact ⟨left, passes_of_atLink hw hpass⟩

/-- Names are followed to a folder exactly when there is a passage to it. -/
theorem follow_eq_folder_iff : follow root links folder xs = .ok (.folder here inside) ↔
    root.at? here = some inside ∧ ∃ left, Passes root links folder xs left here := by
  constructor
  · intro h
    obtain ⟨left, hpass⟩ := exists_passes h
    have hnil := hpass.follow_append []
    rw [List.append_nil, h] at hnil
    exact ⟨(follow_nil hnil.symm).2, left, hpass⟩
  · rintro ⟨hat, left, hpass⟩
    have hnil := hpass.follow_append []
    rwa [List.append_nil, follow_here hat] at hnil

end SourceBundle.FileSystem
