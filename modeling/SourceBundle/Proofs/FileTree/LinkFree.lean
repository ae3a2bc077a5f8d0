import SourceBundle.Proofs.FileTree.Retrace
import SourceBundle.Proofs.FileTree.Write
/-!
# Trees without links

Where there are no links a path is followed by its names alone, and what it leads to is where the
names say.
-/
namespace SourceBundle

open Text

namespace Folder

/-- No symbolic link stands anywhere in the folder. -/
def LinkFree : Folder → Prop
  | empty => True
  | file _ _ rest => rest.LinkFree
  | link .. => False
  | folder _ inside rest => inside.LinkFree ∧ rest.LinkFree

instance decidableLinkFree : (f : Folder) → Decidable f.LinkFree
  | empty => .isTrue trivial
  | file _ _ rest => decidableLinkFree rest
  | link .. => .isFalse id
  | folder _ inside rest =>
    have := decidableLinkFree inside
    have := decidableLinkFree rest
    inferInstanceAs (Decidable (_ ∧ _))

end Folder

def Entry.LinkFree : Entry → Prop
  | .file _ => True
  | .link _ => False
  | .folder inside => inside.LinkFree

namespace Folder

variable {f rest inside : Folder} {name : Text} {names : List Text} {e : Entry}

theorem linkFree_cons : (cons name e rest).LinkFree ↔ e.LinkFree ∧ rest.LinkFree := by
  cases e <;> simp [cons, LinkFree, Entry.LinkFree]

theorem LinkFree.get? (h : f.LinkFree) (he : f.get? name = some e) : e.LinkFree := by
  induction f using cons_induction with
  | empty => cases he
  | cons n d rest ih =>
    obtain ⟨hd, hrest⟩ := linkFree_cons.1 h
    rw [get?_cons] at he
    split at he
    · cases he
      exact hd
    · exact ih hrest he

theorem LinkFree.at? (h : f.LinkFree) (hat : f.at? names = some inside) : inside.LinkFree := by
  induction names generalizing f with
  | nil =>
    cases hat
    exact h
  | cons n names ih =>
    rw [Folder.at?] at hat
    split at hat
    · next g hg => exact ih (h.get? hg) hat
    · cases hat

theorem linkFree_put (h : f.LinkFree) (he : e.LinkFree) : (f.put name e).LinkFree := by
  induction f using cons_induction with
  | empty => exact linkFree_cons.2 ⟨he, trivial⟩
  | cons n d rest ih =>
    obtain ⟨hd, hrest⟩ := linkFree_cons.1 h
    rw [put_cons]
    split
    · exact linkFree_cons.2 ⟨he, hrest⟩
    · exact linkFree_cons.2 ⟨hd, ih hrest⟩

theorem linkFree_remove (name : Text) (f : Folder) (h : f.LinkFree) :
    (f.remove name).LinkFree := by
  induction f using cons_induction with
  | empty => trivial
  | cons n d rest ih =>
    obtain ⟨hd, hrest⟩ := linkFree_cons.1 h
    rw [remove_cons]
    split
    · exact hrest
    · exact linkFree_cons.2 ⟨hd, ih hrest⟩

theorem linkFree_removeAt (names : List Text) (h : f.LinkFree) : (f.removeAt names).LinkFree :=
  alterAt_induction linkFree_remove
    (fun _ _ _ _ hf he hin => linkFree_put hf (hin (hf.get? he))) names h

end Folder

namespace FileSystem

variable {root inside : Folder} {links : Nat} {folder here xs names : List Text} {name : Text}
  {p : Place}

/-! ## Following names -/

/-- What becomes of a path once no link is followed any more. -/
def Walk.result : Walk → Except Refusal Place
  | .arrived p => .ok p
  | .refused why => .error why
  | .atLink .. => .error .linkLoop

theorem Walk.result_eq_ok_iff {w : Walk} : w.result = .ok p ↔ w = .arrived p := by
  cases w <;> simp [result]

theorem walk_ne_atLink (h : root.LinkFree) {target : Text} {rest : List Text} :
    walk root folder xs ≠ .atLink here target rest := by
  fun_induction walk root folder xs with
  | case3 | case4 | case8 => assumption
  | case11 folder name rest _ _ _ target he =>
    obtain ⟨f, hat, hlink⟩ := Option.bind_eq_some_iff.1 he
    exact ((h.at? hat).get? hlink).elim
  | case1 | case2 | case5 | case6 | case7 | case9 | case10 =>
    intro hw
    cases hw

theorem follow_eq_result (h : root.LinkFree) (links : Nat) (folder xs : List Text) :
    follow root links folder xs = (walk root folder xs).result := by
  unfold follow
  cases hw : walk root folder xs with
  | arrived | refused => rfl
  | atLink => exact absurd hw (walk_ne_atLink h)

/-- What names of entries lead to from a folder where there are no links. -/
inductive Walk.Straight (here xs : List Text) : Walk → Prop
  | arrived {p : Place} (h : ∀ names, p.names? = some names → names = here ++ xs) :
    Straight here xs (.arrived p)
  | missing : Straight here xs (.refused .missing)
  | notFolder : Straight here xs (.refused .notFolder)

theorem straight_walk (h : root.LinkFree) (hat : root.at? here = some inside)
    (hn : ∀ n ∈ xs, IsName n) : (walk root here xs).Straight here xs := by
  induction xs generalizing here inside with
  | nil =>
    rw [walk, hat]
    refine .arrived fun names hp => ?_
    cases hp
  | cons name xs ih =>
    obtain ⟨hname, hxs⟩ := List.forall_mem_cons.1 hn
    rw [walk_name hname hat]
    cases he : inside.get? name with
    | none =>
      dsimp only
      split
      · next hnil => exact .arrived fun names hp => by rw [← Option.some.inj hp, hnil]
      · exact .missing
    | some e =>
      cases e with
      | file content =>
        dsimp only
        split
        · next hnil => exact .arrived fun names hp => by rw [← Option.some.inj hp, hnil]
        · exact .notFolder
      | link target => exact (((h.at? hat).get? he)).elim
      | folder f =>
        have hstraight := ih (at?_concat hat he) hxs
        dsimp only
        generalize walk root (here ++ [name]) xs = w at hstraight ⊢
        cases hstraight with
        | arrived hp =>
          refine .arrived fun names hnames => ?_
          rw [hp names hnames, List.append_assoc, List.singleton_append]
        | missing => exact .missing
        | notFolder => exact .notFolder

/-- The last name of a way is the last of what it leads to, unless that is a folder. -/
theorem getLast?_of_walk (hn : IsName name)
    (hw : walk root folder (xs ++ [name]) = .arrived p) (hp : p.names? = some names) :
    names.getLast? = some name := by
  induction xs generalizing folder with
  | nil =>
    rw [List.nil_append, walk_entry root folder [] (isSought_of_isName hn)] at hw
    split at hw
    · cases hw
      cases hp
      exact List.getLast?_concat
    · rw [walk] at hw
      split at hw <;> cases hw
      cases hp
    · cases hw
      cases hp
      exact List.getLast?_concat
    · cases hw
  | cons n xs ih =>
    rw [List.cons_append] at hw
    by_cases hskip : (n = [] || n = Path.here) = true
    · rw [walk, if_pos hskip] at hw
      exact ih hw
    by_cases hup : n = Path.up
    · rw [walk, if_neg hskip, if_pos hup] at hw
      exact ih hw
    by_cases hlong : nameLimit < n.length
    · rw [walk, if_neg hskip, if_neg hup, if_pos hlong] at hw
      cases hw
    rw [walk_entry root folder _ ⟨hskip, hup, hlong⟩] at hw
    split at hw
    · simp at hw
    · exact ih hw
    · simp at hw
    · cases hw

/-! ## Behind the path of a folder -/

variable {fs : FileSystem} {path : Text}

/-- Where there are no links, names of entries lead to where they say behind a folder's path. -/
theorem exists_straight (h : fs.root.LinkFree) (hr : fs.resolve path = .ok (.folder here inside))
    (hne : xs ≠ []) (hn : ∀ n ∈ xs, IsName n) :
    ∃ w : Walk, fs.resolve (Path.join path (Path.toText ⟨false, xs⟩)) = w.result ∧
      w.Straight here xs := by
  obtain ⟨links, hnames⟩ := exists_follow_names hr
  exact ⟨_, (hnames xs hne hn).trans (follow_eq_result h links here xs),
    straight_walk h (at?_of_resolve hr) hn⟩

/-- Where there are no links, every path leads to the folder that its normal form leads to. -/
theorem retraces_of_linkFree (h : fs.root.LinkFree) (path : Text) : fs.Retraces path := by
  refine retraces_of_forall_ne_link fun way name _ there f hf target hlink => ?_
  exact (h.at? (follow_eq_folder_iff.1 hf).1).get? hlink

end FileSystem
end SourceBundle
