import SourceBundle.Proofs.Collector.Files
import SourceBundle.Proofs.FileTree.LinkFree
/-!
# Metadata out of sight

Metadata is hidden whatever it is, so a change among it shows neither in the drawing of a folder nor
among the files that are collected.
-/
namespace SourceBundle.Collector

open Text

variable {c : Collector} {above : List Text} {name : Text} {names : List Text} {e : Entry}
  {f : Folder}

theorem hides_of_isMetadata (h : isMetadata (below names) = true) (kind : Kind) :
    c.hides names kind = true := by
  rw [hides, h, Bool.true_or]

theorem addVisible_of_isMetadata (h : isMetadata (below (above ++ [name])) = true) (kind : Kind)
    (inside rest : Outline) : c.addVisible above name kind inside rest = rest := by
  rw [addVisible, if_pos (hides_of_isMetadata h kind)]

/-! ## Changes among metadata -/

theorem outlineOf_put (h : isMetadata (below (above ++ [name])) = true) (e : Entry) (f : Folder) :
    c.outlineOf above (f.put name e) = c.outlineOf above f := by
  induction f using Folder.cons_induction with
  | empty =>
    rw [show Folder.put name e .empty = .cons name e .empty from rfl, outlineOf_cons,
      addVisible_of_isMetadata h]
  | cons n d rest ih =>
    rw [Folder.put_cons]
    split
    · next hn =>
      subst hn
      rw [outlineOf_cons, outlineOf_cons, addVisible_of_isMetadata h, addVisible_of_isMetadata h]
    · rw [outlineOf_cons, outlineOf_cons, ih]

theorem outlineOf_remove (h : isMetadata (below (above ++ [name])) = true) (f : Folder) :
    c.outlineOf above (f.remove name) = c.outlineOf above f := by
  induction f using Folder.cons_induction with
  | empty => rfl
  | cons n d rest ih =>
    rw [Folder.remove_cons]
    split
    · next hn =>
      subst hn
      rw [outlineOf_cons, addVisible_of_isMetadata h]
    · rw [outlineOf_cons, outlineOf_cons, ih]

/-- An entry can be removed unseen when it is metadata or in a folder that is. -/
theorem outlineOf_removeAt (h : isMetadata (below (above ++ [name])) = true) (f : Folder)
    (names : List Text) :
    c.outlineOf above (f.removeAt (name :: names)) = c.outlineOf above f := by
  rw [Folder.removeAt]
  by_cases hne : names = []
  · rw [hne]
    exact outlineOf_remove h f
  by_cases hf : ∃ inside, f.get? name = some (.folder inside)
  · obtain ⟨inside, he⟩ := hf
    rw [Folder.alterAt_cons he hne, outlineOf_put h]
  · rw [not_exists] at hf
    rw [Folder.alterAt_cons_of_not_folder hf hne]

/-! ## Trees without links -/

/-- Without links, what is seen of a folder does not depend on the rest of the tree. -/
theorem outlineOf_fs (c : Collector) (fs : FileSystem) (h : f.LinkFree) (above : List Text) :
    ({ c with fs } : Collector).outlineOf above f = c.outlineOf above f := by
  induction f generalizing above with
  | empty => rfl
  | file name content rest ih =>
    rw [outlineOf, outlineOf, ih h]
    rfl
  | link => exact h.elim
  | folder name inside rest ihi ih =>
    rw [outlineOf, outlineOf, ihi h.1, ih h.2]
    rfl

theorem findings_fs (c : Collector) (fs : FileSystem) (above : List Text) (o : Outline) :
    ({ c with fs } : Collector).findings above o = c.findings above o := by
  induction o generalizing above with
  | nil => rfl
  | entry name kind inside rest ihi ihr =>
    rw [findings_entry, findings_entry, ihr]
    cases kind with
    | folder => rw [found, found, ihi]
    | file | linkedFolder | dangling => rfl

section

variable {fs : FileSystem} {f' : Folder} (hf : f.WellFormed) (hf' : f'.WellFormed)
  (h : c.fs.find c.root = .ok (.folder f)) (h' : fs.find c.root = .ok (.folder f'))
  (hsame : ({ c with fs } : Collector).outlineOf [] f' = c.outlineOf [] f)
include hf hf' h h' hsame

/-- Two trees of which the same is seen have the same drawing and the same files. -/
theorem files_fs : ({ c with fs } : Collector).files = c.files := by
  rw [files_eq (c := { c with fs }) hf' h', files_eq hf h, hsame, findings_fs]

theorem drawing_fs : ({ c with fs } : Collector).drawing = c.drawing := by
  rw [drawing_eq (c := { c with fs }) hf' h', drawing_eq hf h, hsame]

end

/-- A file that is collected is behind the top folder, and its first name is no metadata. -/
theorem exists_of_mem_files {x : Collected} (hf : f.WellFormed)
    (h : c.fs.find c.root = .ok (.folder f)) (hx : x ∈ c.files) :
    ∃ name names, x.absolute = c.pathOf (name :: names) ∧ (∀ n ∈ name :: names, IsName n) ∧
      isMetadata (below [name]) = false := by
  obtain ⟨names, ⟨⟨content, hreach, -⟩, -⟩, rfl⟩ := exists_wanted_of_mem_files hf h hx
  cases names with
  | nil => exact absurd rfl hreach.ne_nil
  | cons name names =>
    have hsight := hreach.inSight [name] (List.cons_ne_nil name [])
      (List.cons_prefix_cons.2 ⟨rfl, List.nil_prefix⟩)
    exact ⟨name, names, rfl, hreach.isName, hsight.not_metadata⟩

end SourceBundle.Collector
