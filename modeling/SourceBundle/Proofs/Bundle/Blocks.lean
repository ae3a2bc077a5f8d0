import Mathlib.Data.List.Forall2
import SourceBundle.Bundle
import SourceBundle.Proofs.Text.Lines
/-!
# Reading a bundle back

A block is a list of lines: a mark, the path, a rule, the lines of the content, the rule again and
an empty line. A path takes one line, so the first rule after the one below it ends the content,
unless the content has such a line itself. Read block by block, a bundle gives back what it was made
of, and so two bundles with one text show the same files.
-/
namespace SourceBundle.Bundle

open Text

/-! ## The lines of a block -/

/-- The mark that a block starts with. -/
def opener : Text := List.replicate 22 dash

/-- The line that sets off a content on either side. -/
def rule : Text := List.replicate 23 dash

/-- A path as a bundle shows it. -/
def shownPath (path : Text) : Text := replace backslash slash path

def blockLines (path content : Text) : List Text :=
  opener :: (slash :: shownPath path) :: rule :: (lines content ++ [rule, []])

theorem block_append (path content rest : Text) :
    block path content ++ rest =
      opener ++ newline :: ((slash :: shownPath path) ++ newline :: (rule ++ newline ::
        (content ++ newline :: (rule ++ newline :: ([] ++ newline :: rest))))) := by
  have htop : ("----------------------\n/" : Text) = opener ++ [newline, slash] := by
    decide +kernel
  have hbelow : ("\n-----------------------\n" : Text) = newline :: rule ++ [newline] := by
    decide +kernel
  have hend : ("\n-----------------------\n\n" : Text) = newline :: rule ++ [newline, newline] := by
    decide +kernel
  simp [block, htop, hbelow, hend, shownPath]

theorem newline_not_mem_shownPath {path : Text} (h : newline ∉ path) :
    newline ∉ shownPath path := by
  intro hn
  obtain ⟨b, hb, he⟩ := List.mem_map.1 hn
  split at he
  · cases he
  · exact h (he ▸ hb)

theorem lines_block_append {path : Text} (content rest : Text) (h : newline ∉ path) :
    lines (block path content ++ rest) = blockLines path content ++ lines rest := by
  have hpath : newline ∉ slash :: shownPath path := by
    rw [List.mem_cons, not_or]
    exact ⟨by decide, newline_not_mem_shownPath h⟩
  rw [block_append]
  simp only [lines_append_newline]
  have hone {l : Text} (hl : newline ∉ l) : lines l = [l] := splitOn_of_not_mem hl
  rw [hone (l := opener) (by decide), hone hpath, hone (l := rule) (by decide),
    hone (l := []) (by decide)]
  simp [blockLines]

/-! ## Reading -/

/-- The path and the content of the block that some lines start with, and the lines after it. -/
def readBlock? : List Text → Option ((Text × Text) × List Text)
  | _ :: path :: _ :: ls =>
    some ((path.drop 1, joinLines (ls.takeWhile (· != rule))),
      (ls.dropWhile (· != rule)).drop 2)
  | _ => none

theorem length_of_readBlock? {ls rest : List Text} {e : Text × Text}
    (h : readBlock? ls = some (e, rest)) : rest.length < ls.length := by
  unfold readBlock? at h
  split at h
  · next ls =>
    obtain ⟨-, rfl⟩ := Prod.mk.inj (Option.some.inj h)
    have := (List.dropWhile_sublist (l := ls) (· != rule)).length_le
    simp only [List.length_drop, List.length_cons]
    omega
  · cases h

/-- The paths and contents of the blocks that some lines are made of. -/
def readBlocks (ls : List Text) : List (Text × Text) :=
  match _h : readBlock? ls with
  | none => []
  | some (e, rest) => e :: readBlocks rest
termination_by ls.length
decreasing_by exact length_of_readBlock? _h

theorem readBlocks_of_none {ls : List Text} (h : readBlock? ls = none) : readBlocks ls = [] := by
  rw [readBlocks]
  split
  · rfl
  · next hs =>
    rw [h] at hs
    cases hs

theorem readBlocks_of_some {ls rest : List Text} {e : Text × Text}
    (h : readBlock? ls = some (e, rest)) : readBlocks ls = e :: readBlocks rest := by
  rw [readBlocks]
  split
  · next hs =>
    rw [h] at hs
    cases hs
  · next hs =>
    obtain ⟨rfl, rfl⟩ := Prod.mk.inj (Option.some.inj (h.symm.trans hs))
    rfl

/-- A content without a rule among its lines ends at the rule below it. -/
theorem readBlock?_blockLines {path content : Text} (rest : List Text)
    (h : rule ∉ lines content) :
    readBlock? (blockLines path content ++ rest) = some ((shownPath path, content), rest) := by
  have hne : ∀ l ∈ lines content, (l != rule) = true := by
    intro l hl
    rw [bne_iff_ne]
    rintro rfl
    exact h hl
  have hrule : (rule != rule) = false := bne_self_eq_false rule
  have htake : (lines content ++ rule :: [] :: rest).takeWhile (· != rule) = lines content := by
    rw [List.takeWhile_append_of_pos hne, List.takeWhile_cons, hrule]
    simp
  have hdrop : (lines content ++ rule :: [] :: rest).dropWhile (· != rule) =
      rule :: [] :: rest := by
    rw [List.dropWhile_append_of_pos hne, List.dropWhile_cons, hrule]
    rfl
  have hls : blockLines path content ++ rest =
      opener :: (slash :: shownPath path) :: rule :: (lines content ++ rule :: [] :: rest) := by
    simp [blockLines]
  rw [hls, readBlock?, htake, hdrop, joinLines_lines]
  rfl

/-! ## Whole bundles -/

/-- A file that leaves the frame of its block as it is: a path on one line, and no rule among the
lines of what is shown of its content. -/
structure Source.IsFramed (mode : Mode) (f : Source) : Prop where
  newline_not_mem : newline ∉ f.path
  rule_not_mem : rule ∉ lines (mode.transform f.content)

instance (mode : Mode) (f : Source) : Decidable (f.IsFramed mode) :=
  decidable_of_iff (newline ∉ f.path ∧ rule ∉ lines (mode.transform f.content))
    ⟨fun h => ⟨h.1, h.2⟩, fun h => ⟨h.newline_not_mem, h.rule_not_mem⟩⟩

/-- What a bundle shows of a file. -/
def Source.shown (mode : Mode) (f : Source) : Text × Text :=
  (shownPath f.path, mode.transform f.content)

variable {mode : Mode} {files : List Source}

theorem lines_blocks (h : ∀ f ∈ files, f.IsFramed mode) :
    lines (blocks mode files) =
      files.flatMap (fun f => blockLines f.path (mode.transform f.content)) ++ [[]] := by
  induction files with
  | nil => rfl
  | cons f files ih =>
    obtain ⟨hf, hfiles⟩ := List.forall_mem_cons.1 h
    rw [blocks, List.flatMap_cons, lines_block_append _ _ hf.newline_not_mem, ← blocks, ih hfiles,
      List.flatMap_cons, List.append_assoc]

/-- The lines of a bundle's blocks are read as the files that it shows. -/
theorem readBlocks_lines_blocks (h : ∀ f ∈ files, f.IsFramed mode) :
    readBlocks (lines (blocks mode files)) = files.map (·.shown mode) := by
  rw [lines_blocks h]
  induction files with
  | nil => exact readBlocks_of_none rfl
  | cons f files ih =>
    obtain ⟨hf, hfiles⟩ := List.forall_mem_cons.1 h
    rw [List.flatMap_cons, List.append_assoc,
      readBlocks_of_some (readBlock?_blockLines _ hf.rule_not_mem), ih hfiles]
    rfl

/-- Two lists of files with one bundle have the same length, and show the same path and the same
text at each place. -/
theorem forall₂_shown_of_ofList_eq {files₁ files₂ : List Source}
    (h₁ : ∀ f ∈ files₁, f.IsFramed mode) (h₂ : ∀ f ∈ files₂, f.IsFramed mode)
    (h : ofList mode files₁ = ofList mode files₂) :
    List.Forall₂ (fun f g => replace backslash slash f.path = replace backslash slash g.path ∧
      mode.transform f.content = mode.transform g.content) files₁ files₂ := by
  have hblocks : blocks mode files₁ = blocks mode files₂ := List.append_cancel_left h
  have hshown : files₁.map (·.shown mode) = files₂.map (·.shown mode) := by
    rw [← readBlocks_lines_blocks h₁, ← readBlocks_lines_blocks h₂, hblocks]
  rw [← List.forall₂_eq_eq_eq, List.forall₂_map_left_iff, List.forall₂_map_right_iff] at hshown
  exact hshown.imp fun f g hfg => Prod.mk.inj hfg

/-- Two spellings of a path, and a comment that looks like the start of a block. -/
def signatures : List Source :=
  [⟨ofString "src\\a.js", ofString "/**\n----------------------\n/b.js\n*/\nfunction f() \x7b\n  go();\n\x7d"⟩,
    ⟨[], []⟩]

def bareSignatures : List Source :=
  [⟨ofString "src/a.js", ofString "/**\n----------------------\n/b.js\n*/\nfunction f()\x7b\x7d\n"⟩,
    ⟨[], ofString "run();\n\n"⟩]

theorem forall₂_shown_of_ofList_eq_signatures :
    (∀ f ∈ signatures, f.IsFramed .skeleton) ∧ (∀ f ∈ bareSignatures, f.IsFramed .skeleton) ∧
      ofList .skeleton signatures = ofList .skeleton bareSignatures ∧
      List.Forall₂ (fun f g => replace backslash slash f.path = replace backslash slash g.path ∧
        Mode.skeleton.transform f.content = Mode.skeleton.transform g.content)
        signatures bareSignatures := by
  have h₁ : ∀ f ∈ signatures, f.IsFramed .skeleton := by decide +kernel
  have h₂ : ∀ f ∈ bareSignatures, f.IsFramed .skeleton := by decide +kernel
  have h : ofList .skeleton signatures = ofList .skeleton bareSignatures := by decide +kernel
  exact ⟨h₁, h₂, h, forall₂_shown_of_ofList_eq h₁ h₂ h⟩

end SourceBundle.Bundle
