import SourceBundle.Proofs.Collector.Shown
import SourceBundle.Proofs.Text.Lines
/-!
# Drawings read back

A line of a drawing is read from its start: a bar or a blank for every folder that the entry is in,
a connector, and the name. No mark starts like another one, so a line is read in one way only,
whatever the name looks like, and a drawing gives back the entries that are shown, in order, with
their depths and names.
-/
namespace SourceBundle

open Text

/-! ## Marks -/

/-- What stands before the name in a line: a unit for each folder around the entry and a connector
for the entry, each telling whether that is the last of its folder. -/
inductive Mark where
  | unit (isLast : Bool)
  | connector (isLast : Bool)
  deriving DecidableEq, Repr

namespace Mark

def text : Mark → Text
  | unit false => "│   "
  | unit true => "    "
  | connector false => "├── "
  | connector true => "└── "

def all : List Mark := [unit false, unit true, connector false, connector true]

/-- The mark that a text starts with, and the text behind it. -/
def cut? (s : Text) : Option (Mark × Text) :=
  (all.find? fun m => startsWith m.text s).map fun m => (m, s.drop m.text.length)

theorem mem_all (m : Mark) : m ∈ all := by
  rcases m with (_ | _) | (_ | _) <;> decide

/-- The first three bytes tell the marks apart. -/
theorem eq_of_take_text {m n : Mark} (h : m.text.take 3 = n.text.take 3) : m = n := by
  have hall : ∀ m ∈ all, ∀ n ∈ all, m.text.take 3 = n.text.take 3 → m = n := by decide +kernel
  exact hall m m.mem_all n n.mem_all h

theorem three_le_length_text (m : Mark) : 3 ≤ m.text.length := by
  have hall : ∀ m ∈ all, 3 ≤ m.text.length := by decide +kernel
  exact hall m m.mem_all

theorem newline_not_mem_text (m : Mark) : newline ∉ m.text := by
  have hall : ∀ m ∈ all, newline ∉ m.text := by decide +kernel
  exact hall m m.mem_all

theorem eq_of_startsWith {m n : Mark} {s : Text} (h : startsWith m.text (n.text ++ s) = true) :
    m = n := by
  obtain ⟨t, ht⟩ := List.isPrefixOf_iff_prefix.1 h
  have hm : (m.text ++ t).take 3 = m.text.take 3 :=
    List.take_append_of_le_length m.three_le_length_text
  refine eq_of_take_text ?_
  rw [← hm, ht, List.take_append_of_le_length n.three_le_length_text]

theorem cut?_append (m : Mark) (s : Text) : cut? (m.text ++ s) = some (m, s) := by
  have hstart : startsWith m.text (m.text ++ s) = true :=
    List.isPrefixOf_iff_prefix.2 (List.prefix_append m.text s)
  cases hfind : all.find? fun n => startsWith n.text (m.text ++ s) with
  | none => exact absurd hstart (by simpa using List.find?_eq_none.1 hfind m m.mem_all)
  | some n =>
    have hn := List.find?_some hfind
    obtain rfl := eq_of_startsWith hn
    rw [cut?, hfind, Option.map_some, List.drop_left]

theorem length_of_cut? {m : Mark} {s rest : Text} (h : cut? s = some (m, rest)) :
    rest.length < s.length := by
  obtain ⟨n, hfind, hrest⟩ := Option.map_eq_some_iff.1 h
  have hn := List.find?_some hfind
  have hle := (List.isPrefixOf_iff_prefix.1 hn).length_le
  have hpos := n.three_le_length_text
  rw [← (Prod.mk.inj hrest).2, List.length_drop]
  omega

end Mark

/-! ## Lines -/

/-- The line of an entry read back: for every folder around it and for the entry itself whether it
is the last of its folder, and the name. -/
def readLine? (s : Text) : Option (List Bool × Text) :=
  match _h : Mark.cut? s with
  | some (.unit isLast, rest) => (readLine? rest).map fun (marks, name) => (isLast :: marks, name)
  | some (.connector isLast, name) => some ([isLast], name)
  | none => none
termination_by s.length
decreasing_by exact Mark.length_of_cut? _h

theorem readLine?_unit (isLast : Bool) (s : Text) :
    readLine? ((Mark.unit isLast).text ++ s) =
      (readLine? s).map fun (marks, name) => (isLast :: marks, name) := by
  rw [readLine?]
  split
  · next h =>
    obtain ⟨⟨⟩, rfl⟩ := Prod.mk.inj (Option.some.inj ((Mark.cut?_append _ _).symm.trans h))
    rfl
  · next h => cases (Mark.cut?_append _ _).symm.trans h
  · next h => cases (Mark.cut?_append _ _).symm.trans h

theorem readLine?_connector (isLast : Bool) (name : Text) :
    readLine? ((Mark.connector isLast).text ++ name) = some ([isLast], name) := by
  rw [readLine?]
  split
  · next h => cases (Mark.cut?_append _ _).symm.trans h
  · next h =>
    obtain ⟨⟨⟩, rfl⟩ := Prod.mk.inj (Option.some.inj ((Mark.cut?_append _ _).symm.trans h))
    rfl
  · next h => cases (Mark.cut?_append _ _).symm.trans h

namespace Outline

variable {way : List Step} {o : Outline}

/-- The line that is drawn for the entry at the end of a way. -/
def lineOf : List Step → Text
  | [] => []
  | [step] => (Mark.connector step.isLast).text ++ step.name
  | step :: next :: way => (Mark.unit step.isLast).text ++ lineOf (next :: way)

theorem lineOf_cons {step : Step} (h : way ≠ []) :
    lineOf (step :: way) = (Mark.unit step.isLast).text ++ lineOf way := by
  obtain ⟨next, way, rfl⟩ := List.exists_cons_of_ne_nil h
  rfl

/-- An outline is drawn entry by entry. -/
theorem draw_eq (o : Outline) : o.draw = o.ways.map lineOf := by
  induction o with
  | nil => rfl
  | entry name kind inside rest ihi ihr =>
    have hinside (isLast : Bool) : (inside.ways.map (⟨name, isLast⟩ :: ·)).map lineOf =
        inside.draw.map ((Mark.unit isLast).text ++ ·) := by
      rw [ihi, List.map_map, List.map_map]
      exact List.map_congr_left fun way hw => lineOf_cons (ne_nil_of_mem_ways hw)
    rw [ways, List.map_append, List.map_cons, hinside, ← ihr]
    cases rest with
    | nil => exact (List.append_nil _).symm
    | entry => rfl

theorem readLine?_lineOf (h : way ≠ []) :
    readLine? (lineOf way) = some (way.map (·.isLast), (namesOn way).getLast?.getD []) := by
  induction way with
  | nil => exact absurd rfl h
  | cons step way ih =>
    rcases eq_or_ne way [] with rfl | hne
    · exact readLine?_connector step.isLast step.name
    · obtain ⟨next, way, rfl⟩ := List.exists_cons_of_ne_nil hne
      rw [lineOf, readLine?_unit, ih hne]
      simp [namesOn]

theorem newline_not_mem_lineOf (h : ∀ n ∈ namesOn way, newline ∉ n) : newline ∉ lineOf way := by
  induction way with
  | nil => exact List.not_mem_nil
  | cons step way ih =>
    rw [namesOn, List.map_cons, List.forall_mem_cons] at h
    rcases eq_or_ne way [] with rfl | hne
    · rw [lineOf, List.mem_append, not_or]
      exact ⟨Mark.newline_not_mem_text _, h.1⟩
    · rw [lineOf_cons hne, List.mem_append, not_or]
      exact ⟨Mark.newline_not_mem_text _, ih h.2⟩

end Outline

/-! ## Drawings -/

namespace Collector

variable {c : Collector} {f : Folder}

/-- What the line of an entry says, from the names that lead to it. -/
def caption (places : List (List Text)) (names : List Text) : List Bool × Text :=
  ((FileSystem.beginnings names).map fun start => decide (Outline.IsLast places start),
    (below names).fileName)

/-- The lines of a sorted outline say of each entry what its place says. -/
theorem map_readLine?_draw {o : Outline} (h : o.Sorted) :
    o.draw.map readLine? = o.places.map fun names => some (caption o.places names) := by
  rw [Outline.draw_eq, Outline.places, List.map_map, List.map_map]
  refine List.map_congr_left fun way hw => ?_
  rw [Function.comp_apply, Outline.readLine?_lineOf (Outline.ne_nil_of_mem_ways hw),
    Outline.map_isLast h hw]
  rfl

/-- A drawing has one line for each entry that is shown, in the order of the names that lead to the
entries, so that each folder comes before what is in it and its entries by name. Read back, a line
tells for every folder around the entry and for the entry itself whether it is the last of its
folder, and the name. The files that are collected are the entries among these that are text files
and not too large, in the same order. -/
theorem drawing_lists_shown (c : Collector) (hfs : c.fs.root.WellFormed)
    (hnames : ∀ names, c.Shown [] names → ∀ n ∈ names, newline ∉ n) :
    ∃ places : List (List Text),
      (∀ names, names ∈ places ↔ c.fs.isFolder c.root = true ∧ c.Shown [] names) ∧
      places.Pairwise (· < ·) ∧
      (∃ ls, lines c.drawing = ls ++ [[]] ∧
        ls.map readLine? = places.map fun names => some (caption places names)) ∧
      c.files.map Collected.relative =
        (places.filter c.takes).map fun names => (below names).toText := by
  by_cases hroot : c.fs.isFolder c.root = true
  · obtain ⟨inside, hin⟩ := FileSystem.isFolder_iff.1 hroot
    obtain ⟨links, here, hat, -⟩ := FileSystem.exists_resolve_join hin
    have hwf : inside.WellFormed := hfs.at? hat
    have hsorted : (c.outlineOf [] inside).Sorted := sorted_outlineOf hwf
    have hmem (names : List Text) : names ∈ (c.outlineOf [] inside).places ↔ c.Shown [] names :=
      (standsAt_root hwf hin).mem_places
    refine ⟨(c.outlineOf [] inside).places, fun names => ?_, Outline.pairwise_places hsorted,
      ⟨(c.outlineOf [] inside).draw, ?_, map_readLine?_draw hsorted⟩, ?_⟩
    · rw [hmem, and_iff_right hroot]
    · rw [drawing_eq hwf hin]
      refine lines_flatMap fun l hl => ?_
      rw [Outline.draw_eq] at hl
      obtain ⟨way, hw, rfl⟩ := List.mem_map.1 hl
      refine Outline.newline_not_mem_lineOf (hnames _ ((hmem _).1 ?_))
      exact List.mem_map_of_mem hw
    · rw [files_eq hwf hin, paths_eq hwf hin, List.map_map, List.map_map]
      rfl
  · obtain ⟨r, hr⟩ := top_of_not_isFolder hroot
    refine ⟨[], fun names => ?_, .nil, ⟨[], ?_, rfl⟩, ?_⟩
    · exact ⟨nofun, fun h => absurd h.1 hroot⟩
    · rw [drawing, hr]
      rfl
    · rw [files, hr]
      rfl

/-- A name that starts with a connector, a link to a folder and a file that is not text. -/
theorem drawing_lists_shown_lookalike :
    let c : Collector :=
      ⟨.ofItems (ofString "w") [⟨ofString "a/x.md", .file (ofString "text")⟩,
        ⟨ofString "a/├── x.md", .file (ofString "text")⟩, ⟨ofString "a/d", .link (ofString "/w")⟩,
        ⟨ofString "b.bin", .file (ofString "text")⟩], rootOf (ofString "a/../"), .builtIn, []⟩
    c.fs.root.WellFormed ∧ (∀ names, c.Shown [] names → ∀ n ∈ names, newline ∉ n) ∧
      ∃ places : List (List Text), (∀ names, names ∈ places ↔ c.Shown [] names) ∧
        (places.map fun names => some (caption places names)) =
          [some ([false], ofString "a"), some ([false, false], ofString "d"),
            some ([false, false], ofString "x.md"), some ([false, true], ofString "├── x.md"),
            some ([true], ofString "b.bin")] ∧
        ((places.filter c.takes).map fun names => (below names).toText) =
          [ofString "a/x.md", ofString "a/├── x.md"] := by
  intro c
  have hfs : c.fs.root.WellFormed := FileSystem.wellFormed_ofItems (by decide +kernel) _
  have hroot : c.fs.isFolder c.root = true := by decide +kernel
  have hnames : ∀ names, c.Shown [] names → ∀ n ∈ names, newline ∉ n := by
    obtain ⟨inside, hin⟩ := FileSystem.isFolder_iff.1 hroot
    obtain ⟨links, here, hat, -⟩ := FileSystem.exists_resolve_join hin
    have hplaces : ∀ o, c.outline = .ok o → ∀ names ∈ o.places, ∀ n ∈ names, newline ∉ n := by
      have hall : (c.outline.toOption.all fun o =>
          o.places.all fun names => names.all fun n => !n.contains newline) = true := by
        decide +kernel
      intro o ho
      rw [ho] at hall
      simpa [Except.toOption] using hall
    intro names hs
    exact hplaces _ (outline_eq hin) names ((standsAt_root (hfs.at? hat) hin).mem_places.2 hs)
  obtain ⟨places, hmem, -, ⟨ls, hls, hread⟩, hfiles⟩ := drawing_lists_shown c hfs hnames
  have hdrawn : lines c.drawing =
      [(Mark.connector false).text ++ "a",
        (Mark.unit false).text ++ ((Mark.connector false).text ++ "d"),
        (Mark.unit false).text ++ ((Mark.connector false).text ++ "x.md"),
        (Mark.unit false).text ++ ((Mark.connector true).text ++ "├── x.md"),
        (Mark.connector true).text ++ "b.bin"] ++ [[]] := by
    decide +kernel
  have hcollected : c.files.map Collected.relative =
      [ofString "a/x.md", ofString "a/├── x.md"] := by
    decide +kernel
  refine ⟨hfs, hnames, places, fun names => ?_, ?_, hfiles ▸ hcollected⟩
  · rw [hmem, and_iff_right hroot]
  · rw [← hread, (List.append_inj' (hls.symm.trans hdrawn) rfl).1]
    simp only [List.map_cons, List.map_nil, readLine?_unit, readLine?_connector, Option.map_some]

end Collector
end SourceBundle
