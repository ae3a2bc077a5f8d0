import SourceBundle.Collector.Drawing
import SourceBundle.Proofs.Collector.Outline
import SourceBundle.Proofs.Path.Behind
/-!
# Two walks over one outline

The search for files and the drawing each walk the folders by themselves, list them by their paths
and leave out what is behind a link. What the one finds and the other draws is what an outline
holds: it is shown of one folder, entry by entry, and of the folders in it by induction.
-/
namespace SourceBundle

open Text

theorem flatMap_attach {α β : Type} (l : List α) (g : α → List β) :
    (l.attach.flatMap fun x => g x.val) = l.flatMap g := by
  calc (l.attach.flatMap fun x => g x.val)
      = (l.attach.map Subtype.val).flatMap g := by rw [List.flatMap_map]
    _ = l.flatMap g := by rw [List.attach_map_subtype_val]

theorem flatMap_zipIdx_attach {α β : Type} (l : List α) (g : α → Nat → List β) :
    (l.attach.zipIdx.flatMap fun x => g x.1.val x.2) = l.zipIdx.flatMap fun x => g x.1 x.2 := by
  have hzip : l.zipIdx = l.attach.zipIdx.map (Prod.map Subtype.val id) := by
    rw [← List.zipIdx_map, List.attach_map_subtype_val]
  rw [hzip, List.flatMap_map]
  rfl

namespace Collector

variable {c : Collector} {dir name before : Text} {above names : List Text} {f rest : Folder}
  {e : Entry} {es : List Listed} {o : Outline}

/-! ## Listed entries -/

/-- What is in the folder at `dir` is behind the top folder's path, by the names `above` and its
own. -/
structure LeadsTo (c : Collector) (above : List Text) (dir : Text) : Prop where
  isName : ∀ n ∈ above, IsName n
  join_eq : ∀ name, IsName name → Path.join dir name = c.pathOf (above ++ [name])

theorem leadsTo_root (c : Collector) : c.LeadsTo [] c.root :=
  ⟨nofun, fun name _ => by simp [pathOf, below, Path.toText]⟩

theorem LeadsTo.forall_isName (h : c.LeadsTo above dir) (hname : IsName name) :
    ∀ n ∈ above ++ [name], IsName n := by
  intro n hn
  rcases List.mem_append.1 hn with hn | hn
  · exact h.isName n hn
  · exact List.mem_singleton.1 hn ▸ hname

theorem LeadsTo.enter (h : c.LeadsTo above dir) (hname : IsName name) :
    c.LeadsTo (above ++ [name]) (c.pathOf (above ++ [name])) :=
  ⟨h.forall_isName hname, fun _ hn =>
    Path.join_join_toText c.root (List.concat_ne_nil name above) (h.forall_isName hname) hn⟩

/-- From the top folder an entry is seen by the names that lead to it. -/
theorem relativeOf_pathOf (hne : names ≠ []) (hn : ∀ n ∈ names, IsName n) :
    c.relativeOf (c.pathOf names) = below names := by
  rw [relativeOf, pathOf, below, Path.relativeTo?_join hne hn]
  rfl

theorem isDirectory_pathOf : c.isDirectory ⟨c.pathOf names, e⟩ = (c.kindOf names e).isFolder := by
  cases e with
  | file | folder => rfl
  | link target =>
    rw [isDirectory, statusOf, kindOf, linkKind]
    rcases c.fs.find (c.pathOf names) with _ | _ | _ | _ <;> rfl

theorem fileSize?_pathOf : c.fileSize? ⟨c.pathOf names, e⟩ = (c.kindOf names e).size? := by
  cases e with
  | file | folder => rfl
  | link target =>
    rw [fileSize?, statusOf, kindOf, linkKind]
    rcases c.fs.find (c.pathOf names) with _ | _ | _ | _ <;> rfl

section

variable (ha : ∀ n ∈ above ++ [name], IsName n)
include ha

theorem name_pathOf (e : Entry) : Listed.name ⟨c.pathOf (above ++ [name]), e⟩ = name := by
  rw [Listed.name, pathOf, below, Path.fileName_join (List.concat_ne_nil name above) ha,
    List.getLast?_concat]
  rfl

theorem isVisible_pathOf : c.isVisible ⟨c.pathOf (above ++ [name]), e⟩ =
    !c.hides (above ++ [name]) (c.kindOf (above ++ [name]) e) := by
  rw [isVisible, relativeOf_pathOf (List.concat_ne_nil name above) ha, isDirectory_pathOf, hides,
    Bool.not_or]

end

/-! ## One folder -/

/-- The entries in sight of the folder `f` as they are listed, beside those of an outline. -/
inductive Shows (c : Collector) (above : List Text) (f : Folder) : List Listed → Outline → Prop
  | nil : Shows c above f [] .nil
  | cons {name : Text} {e : Entry} {es : List Listed} {o : Outline} (he : f.get? name = some e)
      (h : Shows c above f es o) :
    Shows c above f (⟨c.pathOf (above ++ [name]), e⟩ :: es)
      (.entry name (c.kindOf (above ++ [name]) e) (c.insideOf (above ++ [name]) e) o)

theorem Shows.imp {g : Folder} (h : Shows c above f es o)
    (hfg : ∀ name e, f.get? name = some e → g.get? name = some e) : Shows c above g es o := by
  induction h with
  | nil => exact .nil
  | cons he _ ih => exact .cons (hfg _ _ he) ih

theorem Shows.insert (h : Shows c above f es o) (hd : c.LeadsTo above dir) (hf : f.WellFormed)
    (he : f.get? name = some e) :
    Shows c above f (Listed.insert ⟨c.pathOf (above ++ [name]), e⟩ es)
      (.insert name (c.kindOf (above ++ [name]) e) (c.insideOf (above ++ [name]) e) o) := by
  have hnames {n : Text} {d : Entry} (hd' : f.get? n = some d) := hd.forall_isName (hf.get? hd').1
  induction h with
  | nil => exact .cons he .nil
  | cons hd' h ih =>
    rw [Listed.insert, Outline.insert, name_pathOf (hnames he), name_pathOf (hnames hd')]
    split
    · exact .cons he (.cons hd' h)
    · exact .cons hd' ih

theorem visibleEntries_cons (dir name : Text) (e : Entry) (rest : Folder) :
    c.visibleEntries dir (.cons name e rest) =
      if c.isVisible ⟨Path.join dir name, e⟩ then
        Listed.insert ⟨Path.join dir name, e⟩ (c.visibleEntries dir rest)
      else c.visibleEntries dir rest := by
  rw [visibleEntries, Folder.listing_cons, List.filter_cons]
  split <;> rfl

/-- The entries that are listed of a folder are those of its outline, in the same order. -/
theorem shows_visibleEntries (hd : c.LeadsTo above dir) (hf : f.WellFormed) :
    Shows c above f (c.visibleEntries dir f) (c.outlineOf above f) := by
  induction f using Folder.cons_induction with
  | empty => exact .nil
  | cons name e rest ih =>
    obtain ⟨hname, hfresh, -, hrest⟩ := Folder.wellFormed_cons.1 hf
    -- The first name is no other entry's, so all others stand where they stood in the rest.
    have hshows : Shows c above (.cons name e rest) (c.visibleEntries dir rest)
        (c.outlineOf above rest) :=
      (ih hrest).imp fun _ _ he => Folder.get?_cons_of_rest hfresh he e
    rw [visibleEntries_cons, outlineOf_cons, addVisible, hd.join_eq name hname,
      isVisible_pathOf (hd.forall_isName hname)]
    cases c.hides (above ++ [name]) (c.kindOf (above ++ [name]) e) with
    | false => exact hshows.insert hd hf (Folder.get?_cons_self name e rest)
    | true => exact hshows

/-! ## The search for files -/

/-- What the search finds at one entry. -/
def scanEntry (c : Collector) (e : Listed) : List Finding :=
  if c.isDirectory e then if e.isLink then [] else c.scan e.path e.inside
  else
    match c.fileSize? e with
    | some size => c.weigh (c.relativeOf e.path) e.path size
    | none => []

theorem scan_eq_flatMap (c : Collector) (dir : Text) (f : Folder) :
    c.scan dir f = (c.visibleEntries dir f).flatMap c.scanEntry := by
  rw [scan]
  exact flatMap_attach (c.visibleEntries dir f) c.scanEntry

/-- The search finds what the outline of a folder holds, in that order. -/
theorem scan_eq_findings (hd : c.LeadsTo above dir) (hf : f.WellFormed) :
    c.scan dir f = c.findings above (c.outlineOf above f) := by
  induction f using Folder.inside_induction generalizing above dir with
  | h f ih =>
    rw [scan_eq_flatMap]
    have hshows := shows_visibleEntries hd hf
    -- The hypothesis is about folders inside; the entries of this one are gone through in pairs.
    generalize c.visibleEntries dir f = es, c.outlineOf above f = o at hshows
    induction hshows with
    | nil => rfl
    | @cons name e es o he _ ihes =>
      obtain ⟨hname, he'⟩ := hf.get? he
      rw [List.flatMap_cons, ihes, findings_entry, scanEntry, isDirectory_pathOf, fileSize?_pathOf,
        relativeOf_pathOf (List.concat_ne_nil name above) (hd.forall_isName hname)]
      congr 1
      cases e with
      | file content => rfl
      | folder g => exact ih name g he (hd.enter hname) he'
      | link target =>
        -- One that leads to a folder is a directory as well, and neither side goes in.
        rw [kindOf]
        cases c.linkKind (above ++ [name]) <;> rfl

/-! ## The drawing -/

/-- What is drawn of one entry. -/
def drawEntry (c : Collector) (before : Text) (isLast : Bool) (e : Listed) : Text :=
  before ++ connector isLast ++ e.name ++ [newline] ++
    if c.isDirectory e && !e.isLink then c.drawTree (before ++ bar isLast) e.path e.inside else []

/-- What is drawn of entries of which none comes after. -/
def drawEntries (c : Collector) (before : Text) : List Listed → Text
  | [] => []
  | e :: es => c.drawEntry before es.isEmpty e ++ drawEntries c before es

/-- Counting the entries tells the last of them. -/
theorem flatMap_zipIdx (c : Collector) (before : Text) (es : List Listed) (k : Nat) :
    ((es.zipIdx k).flatMap fun x => c.drawEntry before (x.2 + 1 == k + es.length) x.1) =
      c.drawEntries before es := by
  induction es generalizing k with
  | nil => rfl
  | cons e es ih =>
    -- After the last entry the count is where it was to end.
    have hlast : (k + 1 == k + (e :: es).length) = es.isEmpty := by
      cases es <;> simp
    have hlength : k + (e :: es).length = k + 1 + es.length := by
      rw [List.length_cons]
      omega
    rw [List.zipIdx_cons, List.flatMap_cons, drawEntries, hlast, ← ih (k + 1), hlength]

theorem drawTree_eq_drawEntries (c : Collector) (before dir : Text) (f : Folder) :
    c.drawTree before dir f = c.drawEntries before (c.visibleEntries dir f) := by
  rw [drawTree, ← flatMap_zipIdx c before _ 0, Nat.zero_add]
  exact flatMap_zipIdx_attach (c.visibleEntries dir f) fun e i =>
    c.drawEntry before (i + 1 == (c.visibleEntries dir f).length) e

theorem draw_entry (name : Text) (kind : Kind) (inside rest : Outline) :
    (Outline.entry name kind inside rest).draw =
      (connector (rest = .nil) ++ name) ::
        inside.draw.map (bar (rest = .nil) ++ ·) ++ rest.draw := by
  cases rest with
  | nil => simp [Outline.draw, connector, bar]
  | entry => simp [Outline.draw, connector, bar]

theorem Shows.isEmpty_eq (h : Shows c above f es o) : es.isEmpty = decide (o = .nil) := by
  cases h <;> rfl

/-- The drawing has the lines of the outline, each behind what stands in front of all of them. -/
theorem drawTree_eq_draw (hd : c.LeadsTo above dir) (hf : f.WellFormed) (before : Text) :
    c.drawTree before dir f =
      (c.outlineOf above f).draw.flatMap fun line => before ++ line ++ [newline] := by
  induction f using Folder.inside_induction generalizing above dir before with
  | h f ih =>
    rw [drawTree_eq_drawEntries]
    have hshows := shows_visibleEntries hd hf
    generalize c.visibleEntries dir f = es, c.outlineOf above f = o at hshows
    induction hshows with
    | nil => rfl
    | @cons name e es o he h ihes =>
      obtain ⟨hname, he'⟩ := hf.get? he
      -- Nothing is drawn in a file or behind a link, and the outline has nothing inside them.
      have hinside (isLast : Bool) :
          (if c.isDirectory ⟨c.pathOf (above ++ [name]), e⟩ &&
              !Listed.isLink ⟨c.pathOf (above ++ [name]), e⟩ then
            c.drawTree (before ++ bar isLast) (c.pathOf (above ++ [name]))
              (Listed.inside ⟨c.pathOf (above ++ [name]), e⟩)
          else []) = (c.insideOf (above ++ [name]) e).draw.flatMap fun line =>
            before ++ (bar isLast ++ line) ++ [newline] := by
        cases e with
        | file content => rfl
        | folder g =>
          refine (ih name g he (hd.enter hname) he' (before ++ bar isLast)).trans ?_
          simp only [insideOf, List.append_assoc]
        | link target =>
          rw [Listed.isLink, Bool.not_true, Bool.and_false]
          rfl
      rw [drawEntries, ihes, draw_entry, List.flatMap_append, List.flatMap_cons, List.flatMap_map,
        drawEntry, h.isEmpty_eq, name_pathOf (hd.forall_isName hname), hinside]
      simp only [List.append_assoc]

/-! ## The top folder -/

theorem top_eq (h : c.fs.find c.root = .ok (.folder f)) : c.top = .ok f := by
  rw [top, h]

theorem top_of_not_isFolder (h : ¬c.fs.isFolder c.root = true) : ∃ r, c.top = .error r := by
  rw [top]
  split
  · next inside hf => exact absurd (FileSystem.isFolder_iff.2 ⟨inside, hf⟩) h
  · exact ⟨_, rfl⟩
  · exact ⟨_, rfl⟩

theorem outline_eq (h : c.fs.find c.root = .ok (.folder f)) :
    c.outline = .ok (c.outlineOf [] f) := by
  rw [outline, top_eq h]
  rfl

theorem drawing_eq (hf : f.WellFormed) (h : c.fs.find c.root = .ok (.folder f)) :
    c.drawing = (c.outlineOf [] f).draw.flatMap (· ++ [newline]) := by
  rw [drawing, top_eq h]
  exact drawTree_eq_draw c.leadsTo_root hf []

end Collector
end SourceBundle
