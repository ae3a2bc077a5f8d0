import SourceBundle.CommandLine.Run
import SourceBundle.Proofs.Ignore.Below
import SourceBundle.Proofs.Text.Lines
/-!
# Adding ignore texts

Rules grow at their end, line by line, and a line adds one pattern or nothing. So two texts may be
added one after the other or as one, and what stands at the end of a line and does not count may
come and go. The lines that add nothing are `Idle`: blank ones, comments, lines of slashes only, and
those with an expression that cannot be read.
-/
namespace SourceBundle.Ignore

open Text

/-! ## Rules that grow -/

namespace Rules

theorem addLine_eq_append (rules : Rules) (line : Text) :
    rules.addLine line = rules ++ ofLines [line] := by
  unfold addLine ofLines
  cases h : Pattern.ofLine? line <;> simp [h]

theorem foldl_addLine (ls : List Text) (rules : Rules) :
    ls.foldl addLine rules = rules ++ ofLines ls := by
  induction ls generalizing rules with
  | nil => simp [ofLines]
  | cons l ls ih =>
    rw [List.foldl_cons, ih, addLine_eq_append]
    simp [ofLines, List.filterMap_cons]
    cases Pattern.ofLine? l <;> simp

theorem add_eq_append (rules : Rules) (text : Text) : rules.add text = rules ++ ofText text :=
  foldl_addLine (lines text) rules

/-- The rules of a run on a folder come about by adding its ignore texts and then the patterns of
its settings. -/
theorem ofLines_patternLines (fs : FileSystem) (folder : Text) (config : Config) :
    ofLines (CommandLine.patternLines fs folder config) =
      config.ignorePatterns.foldl addLine ((textsFor fs folder).foldl add []) := by
  have hadd : (textsFor fs folder).foldl add [] = (linesFor fs folder).foldl addLine [] := by
    rw [linesFor, List.foldl_flatMap]
    rfl
  rw [hadd, ← List.foldl_append, foldl_addLine, List.nil_append, CommandLine.patternLines]

end Rules

/-! ## What does not count at the end of a line -/

/-- A space, a tab or a carriage return. -/
def isFiller (b : UInt8) : Bool := b == carriageReturn || b == space || b == tab

theorem Spec.ofLine?_append (line : Text) {e : Text} (he : ∀ b ∈ e, isFiller b = true) :
    Spec.ofLine? (line ++ e) = Spec.ofLine? line := by
  have hsource := dropEndWhile_append line he
  unfold isFiller at hsource
  rw [Spec.ofLine?, hsource, Spec.ofLine?]

theorem Pattern.ofLine?_append (line : Text) {e : Text} (he : ∀ b ∈ e, isFiller b = true) :
    Pattern.ofLine? (line ++ e) = Pattern.ofLine? line := by
  rw [Pattern.ofLine?, Spec.ofLine?_append line he, Pattern.ofLine?]

/-! ## Lines that add nothing -/

/-- Nothing but slashes is left of a body that says nothing. -/
theorem dropRoot_eq_nil_iff {body : Text} :
    dropRoot (dropEndWhile (· == slash) body) = [] ↔ ∀ b ∈ body, b = slash := by
  constructor
  · intro h
    obtain ⟨slashes, hbody, hslashes⟩ := exists_append_dropEndWhile (· == slash) body
    obtain ⟨root, hpath, hroot⟩ := exists_root (dropEndWhile (· == slash) body)
    have hend := getLast?_dropEndWhile (p := (· == slash)) (s := body)
    rw [h, List.append_nil] at hpath
    -- A slash in front would be the last byte too, and those are gone.
    rcases hroot with rfl | ⟨rfl, -⟩
    · rw [hpath] at hend
      exact absurd (hend slash rfl) (by simp)
    · rw [hpath, List.nil_append] at hbody
      intro b hb
      simpa using hslashes b (hbody ▸ hb)
  · intro h
    have := dropEndWhile_append (p := (· == slash)) [] (e := body) (by simpa using h)
    rw [List.nil_append] at this
    rw [this]
    rfl

theorem Spec.ofBody?_eq_none_iff {source body : Text} {negated : Bool} :
    Spec.ofBody? source negated body = none ↔ ∀ b ∈ body, b = slash := by
  rw [← dropRoot_eq_nil_iff, Spec.ofBody?]
  split
  · next h => simp [h]
  · next h => simp [h]

theorem Spec.ofBody?_ne_none {source : Text} {negated : Bool} {b : UInt8} {s : Text}
    (hb : b ≠ slash) : Spec.ofBody? source negated (b :: s) ≠ none := by
  intro h
  exact hb (Spec.ofBody?_eq_none_iff.1 h b List.mem_cons_self)

/-- A line that ends in a byte that counts, told by its first byte. -/
theorem Spec.ofLine?_cons_eq_none_iff {b : UInt8} {s : Text}
    (h : ∀ c ∈ (b :: s).getLast?, isFiller c = false) : Spec.ofLine? (b :: s) = none ↔
      b = hashMark ∨ (b = slash ∨ b = bang) ∧ ∀ c ∈ s, c = slash := by
  have hsource := dropEndWhile_eq_self h
  unfold isFiller at hsource
  unfold Spec.ofLine?
  rw [hsource]
  dsimp only
  split
  · next hn => cases hn
  · next hl =>
    obtain ⟨rfl, rfl⟩ := List.cons_eq_cons.1 hl
    simp
  · next hl =>
    obtain ⟨rfl, rfl⟩ := List.cons_eq_cons.1 hl
    rw [Spec.ofBody?_eq_none_iff]
    exact ⟨fun h => .inr ⟨.inr rfl, h⟩, fun h => (h.resolve_left (by decide)).2⟩
  -- What an escape stands before is no slash, so the body says something.
  · next hl =>
    obtain ⟨rfl, rfl⟩ := List.cons_eq_cons.1 hl
    exact iff_of_false (Spec.ofBody?_ne_none (by decide))
      (not_or.2 ⟨by decide, fun h => absurd h.1 (by decide)⟩)
  · next hl =>
    obtain ⟨rfl, rfl⟩ := List.cons_eq_cons.1 hl
    exact iff_of_false (Spec.ofBody?_ne_none (by decide))
      (not_or.2 ⟨by decide, fun h => absurd h.1 (by decide)⟩)
  · next hnil hhash hbang _ _ =>
    have hb : b ≠ hashMark := fun he => hhash s (he ▸ rfl)
    have hb' : b ≠ bang := fun he => hbang s (he ▸ rfl)
    simp [Spec.ofBody?_eq_none_iff, hb, hb']

/-- Either expression of a pattern can be read when the other can. -/
theorem Pattern.ofSpec?_eq_none_iff {s : Spec} : ofSpec? s = none ↔
    Regex.parse? s.exactText = none ∨ Regex.parse? s.descendantText = none := by
  constructor
  · intro h
    left
    rw [parse?_exactText, h]
    rfl
  · rintro (h | h)
    · rwa [parse?_exactText, Option.map_eq_none_iff] at h
    · cases hp : ofSpec? s with
      | none => rfl
      | some p =>
        obtain ⟨d, hd, -⟩ := (readsApart_of_ofSpec? hp).descendant
        rw [(exists_of_ofSpec? hp).1, h] at hd
        cases hd

/-- The lines that add no pattern: nothing but fillers, a comment, nothing but slashes and perhaps
an exclamation mark in front of them, and what has an expression that cannot be read. -/
inductive Idle (line : Text) : Prop
  | blank (h : ∀ b ∈ line, isFiller b = true)
  | comment (h : line.head? = some hashMark)
  | bare (mark slashes fill : Text) (hl : line = mark ++ slashes ++ fill)
    (hm : mark = [] ∨ mark = [bang]) (hs : ∀ b ∈ slashes, b = slash)
    (hf : ∀ b ∈ fill, isFiller b = true)
  | unreadable (s : Spec) (hs : Spec.ofLine? line = some s)
    (h : Regex.parse? s.exactText = none ∨ Regex.parse? s.descendantText = none)

theorem exists_source (line : Text) : ∃ source fill, line = source ++ fill ∧
    (∀ b ∈ fill, isFiller b = true) ∧ ∀ b ∈ source.getLast?, isFiller b = false := by
  obtain ⟨fill, hline, hfill⟩ := exists_append_dropEndWhile isFiller line
  exact ⟨_, fill, hline, hfill, getLast?_dropEndWhile⟩

theorem idle_of_ofLine?_eq_none {line : Text} (h : Spec.ofLine? line = none) : Idle line := by
  obtain ⟨source, fill, rfl, hf, hend⟩ := exists_source line
  rw [Spec.ofLine?_append source hf] at h
  cases source with
  | nil => exact .blank hf
  | cons b s =>
    rcases (Spec.ofLine?_cons_eq_none_iff hend).1 h with rfl | ⟨rfl | rfl, hs⟩
    · exact .comment rfl
    · exact .bare [] (slash :: s) fill rfl (.inl rfl) (by simpa using hs) hf
    · exact .bare [bang] s fill rfl (.inr rfl) hs hf

theorem Spec.ofLine?_of_head? {line : Text} (h : line.head? = some hashMark) :
    Spec.ofLine? line = none := by
  obtain ⟨source, fill, rfl, hf, hend⟩ := exists_source line
  rw [Spec.ofLine?_append source hf]
  cases source with
  | nil => exact absurd (hf hashMark (List.mem_of_head? h)) (by decide)
  | cons b s => exact (Spec.ofLine?_cons_eq_none_iff hend).2 (.inl (Option.some.inj h))

theorem Spec.ofLine?_bare {mark slashes : Text} (hm : mark = [] ∨ mark = [bang])
    (hs : ∀ b ∈ slashes, b = slash) : Spec.ofLine? (mark ++ slashes) = none := by
  have hend : ∀ b ∈ (mark ++ slashes).getLast?, isFiller b = false := by
    intro b hb
    have hbyte : b = bang ∨ b = slash := by
      rcases List.mem_append.1 (List.mem_of_getLast? hb) with h | h
      · rcases hm with rfl | rfl
        · cases h
        · exact .inl (List.mem_singleton.1 h)
      · exact .inr (hs b h)
    rcases hbyte with rfl | rfl <;> rfl
  rcases hm with rfl | rfl
  · cases slashes with
    | nil => rfl
    | cons b s =>
      obtain ⟨hb, hs⟩ := List.forall_mem_cons.1 hs
      exact (Spec.ofLine?_cons_eq_none_iff hend).2 (.inr ⟨.inl hb, hs⟩)
  · exact (Spec.ofLine?_cons_eq_none_iff hend).2 (.inr ⟨.inr rfl, hs⟩)

theorem idle_iff {line : Text} : Idle line ↔ Pattern.ofLine? line = none := by
  unfold Pattern.ofLine?
  constructor
  · intro h
    cases h with
    | blank h =>
      rw [← List.nil_append line, Spec.ofLine?_append [] h]
      rfl
    | comment h =>
      rw [Spec.ofLine?_of_head? h]
      rfl
    | bare mark slashes fill hl hm hs hf =>
      rw [hl, Spec.ofLine?_append _ hf, Spec.ofLine?_bare hm hs]
      rfl
    | unreadable s hs h => rw [hs, Option.bind_some, Pattern.ofSpec?_eq_none_iff.2 h]
  · intro h
    cases hs : Spec.ofLine? line with
    | none => exact idle_of_ofLine?_eq_none hs
    | some s =>
      rw [hs, Option.bind_some] at h
      exact .unreadable s hs (Pattern.ofSpec?_eq_none_iff.1 h)

namespace Rules

theorem addLine_eq_self_iff {rules : Rules} {line : Text} :
    rules.addLine line = rules ↔ Idle line := by
  rw [idle_iff]
  unfold addLine
  cases h : Pattern.ofLine? line <;> simp

/-! ## Texts -/

/-- A text with fillers put at the end of its lines. -/
def Padded (s t : Text) : Prop :=
  List.Forall₂ (fun l k => ∃ e, k = l ++ e ∧ ∀ b ∈ e, isFiller b = true) (lines s) (lines t)

theorem ofText_eq_of_padded {s t : Text} (h : Padded s t) : ofText t = ofText s := by
  unfold Padded at h
  unfold ofText ofLines
  generalize lines s = ls at h
  generalize lines t = ks at h
  induction h with
  | nil => rfl
  | cons hl _ ih =>
    obtain ⟨e, rfl, he⟩ := hl
    rw [List.filterMap_cons, List.filterMap_cons, Pattern.ofLine?_append _ he, ih]

theorem add_eq_self_iff {rules : Rules} {text : Text} :
    rules.add text = rules ↔ ∀ line ∈ lines text, Idle line := by
  rw [add_eq_append, List.append_right_eq_self]
  unfold ofText ofLines
  simp [List.filterMap_eq_nil_iff, idle_iff]

/-- Adding texts one after the other is adding them as one, and fillers at the end of their lines
make no difference. The lines that change nothing are the idle ones, alone and in a text. -/
theorem add_composes (rules : Rules) :
    (∀ a b, rules.add (a ++ newline :: b) = (rules.add a).add b) ∧
    (∀ s t, Padded s t → rules.add t = rules.add s) ∧
    (∀ line, (Idle line ↔ rules.addLine line = rules) ∧
      (Idle line → ∀ path isFolder,
        (rules.addLine line).ignores path isFolder = rules.ignores path isFolder)) ∧
    ∀ text, (∀ line ∈ lines text, Idle line) ↔ rules.add text = rules := by
  refine ⟨?_, ?_, ?_, fun text => add_eq_self_iff.symm⟩
  · intro a b
    unfold add
    rw [lines_append_newline, List.foldl_append]
  · intro s t h
    rw [add_eq_append, add_eq_append, ofText_eq_of_padded h]
  · intro line
    refine ⟨addLine_eq_self_iff.symm, fun h path isFolder => ?_⟩
    rw [addLine_eq_self_iff.2 h]

/-- A file with carriage returns, and a range of bytes from the last to the first. -/
theorem add_composes_crlf :
    Padded (ofString "*.o\n[z-a]") (ofString "*.o\r\n[z-a] \r") ∧ Idle (ofString "[z-a]") ∧
      add [] (ofString "*.o\r\n[z-a] \r") = add [] (ofString "*.o\n[z-a]") ∧
      add [] (ofString "*.o\n[z-a]") = add (add [] (ofString "*.o")) (ofString "[z-a]") ∧
      addLine (ofText (ofString "*.o")) (ofString "[z-a]") = ofText (ofString "*.o") := by
  have hp : Padded (ofString "*.o\n[z-a]") (ofString "*.o\r\n[z-a] \r") := by
    rw [Padded, show lines (ofString "*.o\n[z-a]") = [ofString "*.o", ofString "[z-a]"] by
      decide +kernel, show lines (ofString "*.o\r\n[z-a] \r") =
        [ofString "*.o" ++ [carriageReturn], ofString "[z-a]" ++ [space, carriageReturn]] by
      decide +kernel]
    exact .cons ⟨_, rfl, by simp [isFiller]⟩ (.cons ⟨_, rfl, by simp [isFiller]⟩ .nil)
  have hi : Idle (ofString "[z-a]") := idle_iff.2 (by decide +kernel)
  refine ⟨hp, hi, (add_composes []).2.1 _ _ hp, ?_, ((add_composes _).2.2.1 _).1.1 hi⟩
  exact (add_composes []).1 (ofString "*.o") (ofString "[z-a]")

end Rules
end SourceBundle.Ignore
