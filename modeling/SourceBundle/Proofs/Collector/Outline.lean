import SourceBundle.Collector.Files
import SourceBundle.Proofs.FileTree.WellFormed
import SourceBundle.Proofs.Text.Order
/-!
# The outline of a folder

What a collector sees of a folder, as one tree: each entry by its name, and what it is once links
are followed. An outline holds its entries in the order of their names, and what is drawn of a
folder and found in it is read off its outline in that order.
-/
namespace SourceBundle

open Text

/-! ## Outlines -/

/-- What an entry is once links are followed. -/
inductive Kind where
  | file (size : Nat)
  | folder
  | linkedFolder
  /-- A link that leads nowhere. -/
  | dangling
  deriving DecidableEq, Repr

def Kind.isFolder : Kind → Bool
  | folder | linkedFolder => true
  | _ => false

def Kind.size? : Kind → Option Nat
  | file size => some size
  | _ => none

/-- A tree of entries; each has a name, a kind, what is inside it and what comes after it. -/
inductive Outline where
  | nil
  | entry (name : Text) (kind : Kind) (inside rest : Outline)
  deriving DecidableEq, Repr

/-- An outline with one more entry, before the first one of a greater name. -/
def Outline.insert (name : Text) (kind : Kind) (inside : Outline) : Outline → Outline
  | nil => entry name kind inside nil
  | entry n k i rest =>
    if Text.isBefore name n then entry name kind inside (entry n k i rest)
    else entry n k i (insert name kind inside rest)

/-- The lines of an outline. -/
def Outline.draw : Outline → List Text
  | nil => []
  | entry name _ inside nil => ("└── " ++ name) :: inside.draw.map ("    " ++ ·)
  | entry name _ inside rest =>
    ("├── " ++ name) :: inside.draw.map ("│   " ++ ·) ++ rest.draw

namespace Collector

variable (c : Collector)

/-- The path below the top folder that some names make. -/
def below (names : List Text) : Path := ⟨false, names⟩

/-- The path that some names make behind the top folder's. -/
def pathOf (names : List Text) : Text := Path.join c.root (below names).toText

/-- Whether the entry some names lead to stays out of sight. -/
def hides (names : List Text) (kind : Kind) : Bool :=
  isMetadata (below names) || c.rules.ignores (below names).toText kind.isFolder

/-- What the link that some names lead to leads to itself. -/
def linkKind (names : List Text) : Kind :=
  match c.fs.find (c.pathOf names) with
  | .ok (.file content) => .file content.length
  | .ok (.folder _) => .linkedFolder
  | _ => .dangling

/-- Puts an entry of the folder `above` among others unless it is hidden. -/
def addVisible (above : List Text) (name : Text) (kind : Kind) (inside rest : Outline) : Outline :=
  if c.hides (above ++ [name]) kind then rest else .insert name kind inside rest

/-- What is seen of the folder that the names `above` lead to. -/
def outlineOf (above : List Text) : Folder → Outline
  | .empty => .nil
  | .file name content rest =>
    c.addVisible above name (.file content.length) .nil (outlineOf above rest)
  | .link name _ rest =>
    c.addVisible above name (c.linkKind (above ++ [name])) .nil (outlineOf above rest)
  | .folder name inside rest =>
    c.addVisible above name .folder (outlineOf (above ++ [name]) inside) (outlineOf above rest)

/-- What is seen of the top folder. -/
def outline : Except FileSystem.Refusal Outline := c.top.map (c.outlineOf [])

/-- The text files in the outline of the folder that the names `above` lead to. -/
def findings (above : List Text) : Outline → List Finding
  | .nil => []
  | .entry name kind inside rest =>
    (match kind with
      | .file size => c.weigh (below (above ++ [name])) (c.pathOf (above ++ [name])) size
      | .folder => findings (above ++ [name]) inside
      | _ => []) ++ findings above rest

end Collector

/-! ## Sorted outlines -/

namespace Outline

def names : Outline → List Text
  | nil => []
  | entry name _ _ rest => name :: rest.names

/-- In every folder of the outline, each name comes before the names after it. -/
def Sorted : Outline → Prop
  | nil => True
  | entry name _ inside rest => (∀ n ∈ rest.names, name < n) ∧ inside.Sorted ∧ rest.Sorted

variable {name : Text} {kind : Kind} {inside o : Outline}

theorem mem_names_insert {n : Text} :
    n ∈ (insert name kind inside o).names ↔ n = name ∨ n ∈ o.names := by
  induction o with
  | nil => exact List.mem_cons
  | entry m k i rest _ ih =>
    rw [insert]
    split
    · rw [names, List.mem_cons]
    · rw [names, names, List.mem_cons, List.mem_cons, ih, or_left_comm]

theorem sorted_insert (hn : name ∉ o.names) (hi : inside.Sorted) (ho : o.Sorted) :
    (insert name kind inside o).Sorted := by
  induction o with
  | nil => exact ⟨nofun, hi, trivial⟩
  | entry m k i rest _ ih =>
    obtain ⟨hm, hi', hrest⟩ := ho
    rw [names, List.mem_cons, not_or] at hn
    rw [insert]
    split
    · next hlt =>
      rw [isBefore_iff] at hlt
      refine ⟨fun n hmem => ?_, hi, hm, hi', hrest⟩
      rcases List.mem_cons.1 hmem with rfl | hmem
      · exact hlt
      · exact List.lt_trans hlt (hm n hmem)
    · next hlt =>
      refine ⟨fun n hmem => ?_, hi', ih hn.2 hrest⟩
      rcases mem_names_insert.1 hmem with rfl | hmem
      · exact lt_of_not_isBefore hlt hn.1
      · exact hm n hmem

end Outline

namespace Collector

variable (c : Collector)

/-! ## One entry -/

/-- What an entry counts as, links followed. -/
def kindOf (names : List Text) : Entry → Kind
  | .file content => .file content.length
  | .link _ => c.linkKind names
  | .folder _ => .folder

/-- What is seen inside an entry. -/
def insideOf (names : List Text) : Entry → Outline
  | .folder inside => c.outlineOf names inside
  | _ => .nil

theorem outlineOf_cons (above : List Text) (name : Text) (e : Entry) (rest : Folder) :
    c.outlineOf above (.cons name e rest) =
      c.addVisible above name (c.kindOf (above ++ [name]) e) (c.insideOf (above ++ [name]) e)
        (c.outlineOf above rest) := by
  cases e <;> rfl

/-- What is found at one entry of an outline. -/
def found (above : List Text) (name : Text) (kind : Kind) (inside : Outline) : List Finding :=
  match kind with
  | .file size => c.weigh (below (above ++ [name])) (c.pathOf (above ++ [name])) size
  | .folder => c.findings (above ++ [name]) inside
  | _ => []

theorem findings_entry (above : List Text) (name : Text) (kind : Kind) (inside rest : Outline) :
    c.findings above (.entry name kind inside rest) =
      c.found above name kind inside ++ c.findings above rest := rfl

/-- A list that is gathered from the entries of an outline one after another. -/
structure Gathers {α : Type} (gather : Outline → List α) (each : Text → Kind → Outline → List α) :
    Prop where
  nil : gather .nil = []
  entry : ∀ name kind inside rest,
    gather (.entry name kind inside rest) = each name kind inside ++ gather rest

theorem gathers_findings (above : List Text) : Gathers (c.findings above) (c.found above) :=
  ⟨rfl, c.findings_entry above⟩

variable {c} {above : List Text} {name : Text} {kind : Kind} {inside o : Outline}

section Gathers

variable {α : Type} {gather : Outline → List α} {each : Text → Kind → Outline → List α} {x : α}

theorem Gathers.mem_insert (h : Gathers gather each) :
    x ∈ gather (.insert name kind inside o) ↔ x ∈ each name kind inside ∨ x ∈ gather o := by
  induction o with
  | nil => rw [Outline.insert, h.entry, List.mem_append]
  | entry m k i rest _ ih =>
    rw [Outline.insert]
    split
    · rw [h.entry, List.mem_append]
    · rw [h.entry, h.entry, List.mem_append, List.mem_append, ih, or_left_comm]

theorem Gathers.mem_addVisible (h : Gathers gather each) :
    x ∈ gather (c.addVisible above name kind inside o) ↔
      c.hides (above ++ [name]) kind = false ∧ x ∈ each name kind inside ∨ x ∈ gather o := by
  rw [addVisible]
  split
  · next hv => simp [hv]
  · next hv => simp [hv, h.mem_insert]

/-! ## A folder -/

/-- What is gathered of a folder is gathered at one of its entries in sight. -/
theorem Gathers.mem_outlineOf (h : Gathers gather each) {f : Folder} (hf : f.WellFormed) :
    x ∈ gather (c.outlineOf above f) ↔ ∃ name e, f.get? name = some e ∧
      c.hides (above ++ [name]) (c.kindOf (above ++ [name]) e) = false ∧
      x ∈ each name (c.kindOf (above ++ [name]) e) (c.insideOf (above ++ [name]) e) := by
  induction f using Folder.cons_induction with
  | empty =>
    rw [outlineOf, h.nil]
    refine ⟨nofun, ?_⟩
    rintro ⟨name, e, he, -⟩
    cases he
  | cons n d rest ih =>
    obtain ⟨-, hfresh, -, hrest⟩ := Folder.wellFormed_cons.1 hf
    rw [outlineOf_cons, h.mem_addVisible, ih hrest]
    constructor
    · rintro (⟨hv, hx⟩ | ⟨name, e, he, hx⟩)
      · exact ⟨n, d, Folder.get?_cons_self n d rest, hv, hx⟩
      · exact ⟨name, e, Folder.get?_cons_of_rest hfresh he d, hx⟩
    · rintro ⟨name, e, he, hx⟩
      rw [Folder.get?_cons] at he
      split at he
      · next hn =>
        cases he
        exact .inl (hn ▸ hx)
      · exact .inr ⟨name, e, he, hx⟩

end Gathers

theorem get?_of_mem_names {f : Folder} (h : name ∈ (c.outlineOf above f).names) :
    f.get? name ≠ none := by
  induction f using Folder.cons_induction with
  | empty => cases h
  | cons n d rest ih =>
    rw [outlineOf_cons, addVisible] at h
    rw [Folder.get?_cons]
    by_cases hn : n = name
    · rw [if_pos hn]
      exact nofun
    rw [if_neg hn]
    split at h
    · exact ih h
    · rcases Outline.mem_names_insert.1 h with rfl | h
      · exact absurd rfl hn
      · exact ih h

theorem sorted_outlineOf {f : Folder} (hf : f.WellFormed) : (c.outlineOf above f).Sorted := by
  induction f using Folder.inside_induction generalizing above with
  | h f ihin =>
    have hin (n : Text) (d : Entry) (hd : f.get? n = some d) :
        (c.insideOf (above ++ [n]) d).Sorted := by
      cases d with
      | folder g => exact ihin n g hd (hf.get? hd).2
      | file | link => trivial
    -- The outlines inside are sorted, so the entries of one folder are left to sort.
    clear ihin
    induction f using Folder.cons_induction with
    | empty => trivial
    | cons n d rest ih =>
      obtain ⟨-, hfresh, -, hrest⟩ := Folder.wellFormed_cons.1 hf
      have hsorted := ih hrest fun m e he => hin m e (Folder.get?_cons_of_rest hfresh he d)
      rw [outlineOf_cons, addVisible]
      split
      · exact hsorted
      · refine Outline.sorted_insert ?_ (hin n d (Folder.get?_cons_self n d rest)) hsorted
        exact fun hmem => get?_of_mem_names hmem hfresh

end Collector
end SourceBundle
