import SourceBundle.Ignore.Pattern
import SourceBundle.Proofs.Ignore.Glob
import SourceBundle.Proofs.Text.Trim
/-!
# What a pattern matches

A line that is a pattern is cut into a mark, a slash in front, a glob, slashes at its end and
blanks. A pattern without brackets then matches the paths its glob reads.
-/
namespace SourceBundle.Ignore

open Text

/-! ## The parts of a line -/

/-- What may stand before the body of a pattern, and whether it negates the pattern. -/
inductive Mark : Bool → Text → Text → Prop
  | negation (body : Text) : Mark true [bang] body
  | escape {b : UInt8} {body : Text} (hb : b = bang ∨ b = hashMark) :
    Mark false [backslash] (b :: body)
  | none {body : Text} (hb : ∀ b ∈ body.head?, b ≠ bang ∧ b ≠ hashMark)
    (he : ∀ b s, body = backslash :: b :: s → b ≠ bang ∧ b ≠ hashMark) : Mark false [] body

/-- A body cut into a slash in front, the glob and the slashes at its end. -/
structure Spec.BodyCut (s : Spec) (body root slashes : Text) : Prop where
  body_eq : body = root ++ s.glob ++ slashes
  front : root = [slash] ∨ root = [] ∧ s.glob.head? ≠ some slash
  glob_ne_nil : s.glob ≠ []
  glob_end : s.glob.getLast? ≠ some slash
  slashes_eq : ∀ b ∈ slashes, b = slash
  anchored : s.anchored = true ↔ slash ∈ root ++ s.glob
  folderOnly : s.folderOnly = true ↔ slashes ≠ []

/-- A line cut into a mark, a body and the blanks at its end. -/
structure Spec.Cut (s : Spec) (line mark body root slashes blanks : Text) : Prop
    extends s.BodyCut body root slashes where
  line_eq : line = s.source ++ blanks
  source_eq : s.source = mark ++ body
  source_end : ∀ b ∈ s.source.getLast?, b ≠ carriageReturn ∧ b ≠ space ∧ b ≠ tab
  blanks_eq : ∀ b ∈ blanks, b = carriageReturn ∨ b = space ∨ b = tab
  marked : Mark s.negated mark body

theorem exists_root (path : Text) :
    ∃ root, path = root ++ dropRoot path ∧
      (root = [slash] ∨ root = [] ∧ (dropRoot path).head? ≠ some slash) := by
  unfold dropRoot
  split
  · exact ⟨[slash], rfl, .inl rfl⟩
  · next s hs =>
    refine ⟨[], rfl, .inr ⟨rfl, fun h => ?_⟩⟩
    obtain ⟨t, rfl⟩ := List.head?_eq_some_iff.1 h
    exact hs t rfl

theorem Spec.exists_bodyCut {source body : Text} {negated : Bool} {s : Spec}
    (h : Spec.ofBody? source negated body = some s) :
    s.source = source ∧ s.negated = negated ∧ ∃ root slashes, s.BodyCut body root slashes := by
  obtain ⟨slashes, hbody, hslashes⟩ := exists_append_dropEndWhile (· == slash) body
  obtain ⟨root, hpath, hroot⟩ := exists_root (dropEndWhile (· == slash) body)
  have hend := getLast?_dropEndWhile (p := (· == slash)) (s := body)
  rw [Spec.ofBody?] at h
  generalize dropEndWhile (· == slash) body = path at h hbody hpath hroot hend
  split at h
  · cases h
  next hglob =>
  obtain rfl := Option.some.inj h
  have hlast : path.getLast? = (dropRoot path).getLast? := by
    conv_lhs => rw [hpath, List.getLast?_append_of_ne_nil root hglob]
  have hne : path.getLast? ≠ some slash := by
    intro hs
    have := hend slash hs
    simp at this
  refine ⟨rfl, rfl, root, slashes, ?_⟩
  refine ⟨by rw [← hpath, ← hbody], hroot, hglob, hlast ▸ hne, ?_, ?_, ?_⟩
  · intro b hb
    exact beq_iff_eq.1 (hslashes b hb)
  · rw [← hpath]
    exact List.contains_iff_mem
  · rw [beq_iff_eq]
    constructor
    · rintro hf rfl
      rw [hbody, List.append_nil] at hf
      exact hne hf
    · intro hs
      rw [hbody, List.getLast?_append_of_ne_nil path hs, List.getLast?_eq_some_getLast hs]
      exact congrArg some (beq_iff_eq.1 (hslashes _ (List.getLast_mem hs)))

theorem Spec.exists_cut {line : Text} {s : Spec} (h : Spec.ofLine? line = some s) :
    ∃ mark body root slashes blanks, s.Cut line mark body root slashes blanks := by
  let p : UInt8 → Bool := fun b => b == carriageReturn || b == space || b == tab
  obtain ⟨blanks, hline, hblanks⟩ := exists_append_dropEndWhile p line
  have hend := getLast?_dropEndWhile (p := p) (s := line)
  -- What the line starts with decides its mark, and then what its body is.
  have key : ∃ mark body, dropEndWhile p line = mark ++ body ∧
      ∃ negated, Mark negated mark body ∧
        Spec.ofBody? (dropEndWhile p line) negated body = some s := by
    rw [Spec.ofLine?] at h
    generalize dropEndWhile _ line = source at h ⊢
    split at h
    · cases h
    · cases h
    · exact ⟨[bang], _, rfl, true, .negation _, h⟩
    · exact ⟨[backslash], _, rfl, false, .escape (.inl rfl), h⟩
    · exact ⟨[backslash], _, rfl, false, .escape (.inr rfl), h⟩
    · next hhash hbang hesc hesc' =>
      refine ⟨[], _, rfl, false, .none ?_ ?_, h⟩
      · intro b hb
        obtain ⟨t, rfl⟩ := List.head?_eq_some_iff.1 hb
        exact ⟨fun h => hbang t (h ▸ rfl), fun h => hhash t (h ▸ rfl)⟩
      · rintro b t rfl
        exact ⟨fun h => hesc t (h ▸ rfl), fun h => hesc' t (h ▸ rfl)⟩
  obtain ⟨mark, body, hsource, negated, hmark, hs⟩ := key
  obtain ⟨hsrc, rfl, root, slashes, hbody⟩ := exists_bodyCut hs
  refine ⟨mark, body, root, slashes, blanks, hbody, ?_, ?_, ?_, ?_, hmark⟩
  · rw [hsrc, ← hline]
  · rw [hsrc, hsource]
  · intro b hb
    simpa [p, and_assoc] using hend b (hsrc ▸ hb)
  · intro b hb
    simpa [p, or_assoc] using hblanks b hb

theorem Spec.Cut.mem_line {s : Spec} {line mark body root slashes blanks : Text} {b : UInt8}
    (h : s.Cut line mark body root slashes blanks) (hb : b ∈ s.glob) : b ∈ line := by
  rw [h.line_eq, h.source_eq, h.body_eq]
  simp [hb]

/-! ## The paths -/

/-- The glob reads the path or, when nothing anchors it, what follows a slash in it. -/
def Spec.Names (s : Spec) (path : Text) : Prop :=
  Glob.Reads true s.glob path ∨ s.anchored = false ∧ ∃ folder rest,
    path = folder ++ slash :: rest ∧ Glob.InLine folder ∧ Glob.Reads true s.glob rest

namespace Pattern

theorem exists_of_ofSpec? {s : Spec} {p : Pattern} (h : ofSpec? s = some p) :
    p.toSpec = s ∧ Glob.compile? p.glob = some p.body := by
  obtain ⟨r, hr, rfl⟩ := Option.map_eq_some_iff.1 h
  exact ⟨rfl, hr⟩

/-- A glob without brackets always compiles. -/
theorem isSome_ofSpec? {s : Spec} (h : openBracket ∉ s.glob) : (ofSpec? s).isSome := by
  obtain ⟨r, hr, -⟩ := Glob.means_written true h
  rw [ofSpec?, Glob.compile?, hr]
  rfl

theorem accepts_body {p : Pattern} (hg : openBracket ∉ p.glob)
    (hp : Glob.compile? p.glob = some p.body) (s : Text) :
    p.body.Accepts s ↔ Glob.Reads true p.glob s := by
  obtain ⟨r, hr, hreads⟩ := Glob.means_written true hg
  rw [Glob.compile?, hr] at hp
  rw [← Option.some.inj hp, hreads]

/-- A pattern that nothing anchors names what its body matches, in any folder. -/
theorem accepts_exact_of_anchored_eq_false {p : Pattern} (ha : p.anchored = false) (path : Text) :
    p.exact.Accepts path ↔ p.body.Accepts path ∨
      ∃ folder rest, path = folder ++ slash :: rest ∧ Glob.InLine folder ∧
        p.body.Accepts rest := by
  rw [exact, ha, if_neg Bool.false_ne_true, Regex.accepts_seq]
  constructor
  · rintro ⟨u, v, rfl, hu, hv⟩
    rcases Glob.accepts_leadingFolders.1 hu with rfl | ⟨folder, rfl, hf⟩
    · exact .inl hv
    · exact .inr ⟨folder, v, by simp, hf, hv⟩
  · rintro (h | ⟨folder, rest, rfl, hf, hr⟩)
    · exact ⟨[], path, rfl, Glob.accepts_leadingFolders.2 (.inl rfl), h⟩
    · refine ⟨folder ++ [slash], rest, by simp, ?_, hr⟩
      exact Glob.accepts_leadingFolders.2 (.inr ⟨folder, rfl, hf⟩)

theorem accepts_exact {p : Pattern} (hp : ∀ s, p.body.Accepts s ↔ Glob.Reads true p.glob s)
    (path : Text) : p.exact.Accepts path ↔ p.Names path := by
  rw [Spec.Names]
  simp only [← hp]
  cases ha : p.anchored with
  | true => simp [exact, ha]
  | false =>
    rw [accepts_exact_of_anchored_eq_false ha]
    simp only [true_and]

theorem accepts_descendant (p : Pattern) (path : Text) :
    p.descendant.Accepts path ↔
      ∃ folder rest, path = folder ++ slash :: rest ∧ p.exact.Accepts folder ∧
        Glob.InLine rest := by
  rw [descendant]
  constructor
  · rintro ⟨folder, _, rfl, hf, u, rest, rfl, hu, hr⟩
    refine ⟨folder, rest, ?_, hf, Glob.accepts_inLine.1 hr⟩
    rw [Regex.accepts_byte.1 hu]
    rfl
  · rintro ⟨folder, rest, rfl, hf, hr⟩
    refine ⟨folder, slash :: rest, rfl, hf, [slash], rest, rfl, ?_, Glob.accepts_inLine.2 hr⟩
    exact Regex.accepts_byte.2 rfl

theorem exists_of_ofLine? {line : Text} {p : Pattern} (h : ofLine? line = some p) :
    Spec.ofLine? line = some p.toSpec ∧ Glob.compile? p.glob = some p.body := by
  obtain ⟨s, hs, hp⟩ := Option.bind_eq_some_iff.1 h
  obtain ⟨rfl, hbody⟩ := exists_of_ofSpec? hp
  exact ⟨hs, hbody⟩

/-- Of the lines without brackets, none is lost for want of an expression. -/
theorem isSome_ofLine? {line : Text} (h : openBracket ∉ line) :
    (ofLine? line).isSome = (Spec.ofLine? line).isSome := by
  rw [ofLine?]
  cases hs : Spec.ofLine? line with
  | none => rfl
  | some s =>
    obtain ⟨mark, body, root, slashes, blanks, hcut⟩ := Spec.exists_cut hs
    exact isSome_ofSpec? fun hb => h (hcut.mem_line hb)

/-- A pattern without brackets names the paths that its glob reads, from the top folder or, when
nothing anchors it, from any folder, and below them whatever stays within a line. -/
theorem isMatch_iff_names {line : Text} {p : Pattern} (hline : openBracket ∉ line)
    (hp : ofLine? line = some p) :
    (∃ mark body root slashes blanks, p.Cut line mark body root slashes blanks) ∧
      ∀ path, (p.exact.isMatch path = true ↔ p.Names path) ∧
        (p.descendant.isMatch path = true ↔
          ∃ folder rest, path = folder ++ slash :: rest ∧ p.exact.isMatch folder = true ∧
            Glob.InLine rest) := by
  obtain ⟨hs, hbody⟩ := exists_of_ofLine? hp
  obtain ⟨mark, body, root, slashes, blanks, hcut⟩ := Spec.exists_cut hs
  refine ⟨⟨mark, body, root, slashes, blanks, hcut⟩, fun path => ⟨?_, ?_⟩⟩
  · rw [Regex.isMatch_iff]
    exact accepts_exact (accepts_body (fun hb => hline (hcut.mem_line hb)) hbody) path
  · simp only [Regex.isMatch_iff]
    exact accepts_descendant p path

/-- The line `*.c/` with a blank at its end is kept. It names `a/b.c`, and what is below that. -/
theorem isMatch_iff_names_star :
    openBracket ∉ ofString "*.c/ " ∧ ∃ p, ofLine? (ofString "*.c/ ") = some p ∧
      p.exact.isMatch (ofString "a/b.c") = true ∧
      p.descendant.isMatch (ofString "a/b.c/d") = true := by
  have hline : openBracket ∉ ofString "*.c/ " := by decide +kernel
  have hspec : Spec.ofLine? (ofString "*.c/ ") =
      some ⟨ofString "*.c/", [asterisk, dot, 0x63], false, false, true⟩ := by decide +kernel
  have hsome : (ofLine? (ofString "*.c/ ")).isSome := by
    rw [isSome_ofLine? hline, hspec]
    rfl
  obtain ⟨p, hp⟩ := Option.isSome_iff_exists.1 hsome
  have hs := (exists_of_ofLine? hp).1
  rw [hspec, Option.some.injEq] at hs
  have hreads : Glob.Reads true p.glob ([0x62] ++ [dot, 0x63]) := by
    rw [← hs]
    exact .star nofun (by decide) (.byte (by decide) (by decide) (by decide)
      (.byte (by decide) (by decide) (by decide) (.nil _)))
  have hnames : p.Names (ofString "a/b.c") := by
    refine .inr ⟨by rw [← hs], [0x61], [0x62, dot, 0x63], by decide +kernel, ?_, hreads⟩
    exact fun b hb => List.mem_singleton.1 hb ▸ rfl
  have hexact := ((isMatch_iff_names hline hp).2 (ofString "a/b.c")).1.2 hnames
  refine ⟨hline, p, hp, hexact, ?_⟩
  refine ((isMatch_iff_names hline hp).2 _).2.2 ⟨ofString "a/b.c", [0x64], ?_, hexact, ?_⟩
  · decide +kernel
  · exact fun b hb => List.mem_singleton.1 hb ▸ rfl

end Pattern
end SourceBundle.Ignore
