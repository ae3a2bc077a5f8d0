import SourceBundle.Minified.Basic
import SourceBundle.Proofs.Text.Pieces
/-!
# Comments to the end of the line

Both strippers of line comments work line by line, and either takes away the end of a line only. So
no `//` and no hash line is left, nothing comes together that stood apart, and it does not matter
which of the two goes first.
-/
namespace SourceBundle.Minified

open Text

/-! ## Up to the break -/

section
variable {l : Text} {b : UInt8}

theorem fromBreak_of_forall (hl : ∀ b ∈ l, isBreak b = false) : fromBreak l = [] :=
  List.dropWhile_eq_nil_iff.2 fun b hb => by simp [hl b hb]

theorem toBreak_of_forall (hl : ∀ b ∈ l, isBreak b = false) : toBreak l = l :=
  List.takeWhile_eq_self_iff.2 fun b hb => by simp [hl b hb]

theorem fromBreak_append_cons (hl : ∀ b ∈ l, isBreak b = false) (hb : isBreak b = true) (s : Text) :
    fromBreak (l ++ b :: s) = b :: s := by
  rw [fromBreak, List.dropWhile_append_of_pos fun b hb => by simp [hl b hb],
    List.dropWhile_cons_of_neg (by simp [hb])]

theorem toBreak_append_cons (hl : ∀ b ∈ l, isBreak b = false) (hb : isBreak b = true) (s : Text) :
    toBreak (l ++ b :: s) = l := by
  rw [toBreak, List.takeWhile_append_of_pos fun b hb => by simp [hl b hb],
    List.takeWhile_cons_of_neg (by simp [hb]), List.append_nil]

end

theorem toBreak_mem_breakLines (s : Text) : toBreak s ∈ breakLines s := by
  induction s using piece_induction isBreak with
  | last l hl =>
    rw [breakLines_of_forall hl, toBreak_of_forall hl]
    exact List.mem_singleton_self l
  | piece l b s hl hb _ =>
    rw [breakLines_append_cons _ _ hb, breakLines_of_forall hl, toBreak_append_cons hl hb]
    exact List.mem_cons_self

/-! ## Slashes -/

/-- A line up to its first `//`. -/
def uncommented (l : Text) : Text := ((cut? "//" l).map Prod.fst).getD l

theorem uncommented_of_none {l : Text} (h : cut? "//" l = none) : uncommented l = l := by
  rw [uncommented, h]
  rfl

theorem uncommented_of_some {l x y : Text} (h : cut? "//" l = some (x, y)) :
    uncommented l = x := by
  rw [uncommented, h]
  rfl

theorem uncommented_isPrefix (l : Text) : uncommented l <+: l := by
  cases h : cut? "//" l with
  | none =>
    rw [uncommented, h]
    exact List.prefix_rfl
  | some c =>
    rw [uncommented_of_some h, (eq_append_of_cut? (by decide) h).1, List.append_assoc]
    exact List.prefix_append _ _

theorem not_isInfix_uncommented (l : Text) : ¬("//" : Text) <:+: uncommented l := by
  cases h : cut? "//" l with
  | none =>
    rw [uncommented_of_none h, isInfix_iff_standsAt]
    rintro ⟨p, hp⟩
    exact (cut?_eq_none_iff (by decide)).1 h p hp
  | some c =>
    rw [uncommented_of_some h]
    exact (eq_append_of_cut? (by decide) h).2

theorem dropLineComments_of_none {s : Text} (h : cut? "//" s = none) : dropLineComments s = s := by
  rw [dropLineComments]
  split
  · rfl
  · next hs => cases h.symm.trans hs

theorem dropLineComments_of_some {s x y : Text} (h : cut? "//" s = some (x, y)) :
    dropLineComments s = x ++ dropLineComments (fromBreak y) := by
  rw [dropLineComments]
  split
  · next hs => cases h.symm.trans hs
  · next hs =>
    obtain ⟨rfl, rfl⟩ := Prod.mk.inj (Option.some.inj (h.symm.trans hs))
    rfl

/-- A line without slashes to look for is passed over. -/
theorem dropLineComments_append_cons {l : Text} {b : UInt8} (hb : isBreak b = true)
    (hl : ¬("//" : Text) <:+: l) (s : Text) :
    dropLineComments (l ++ b :: s) = l ++ b :: dropLineComments s := by
  have hmem : b ∉ ("//" : Text) := by
    rw [isBreak, Bool.or_eq_true, beq_iff_eq, beq_iff_eq] at hb
    rcases hb with rfl | rfl <;> decide
  have hcut := cut?_append_cons hmem (by decide) hl s
  cases hs : cut? "//" s with
  | none =>
    rw [hs] at hcut
    rw [dropLineComments_of_none hcut, dropLineComments_of_none hs]
  | some c =>
    rw [hs] at hcut
    rw [dropLineComments_of_some hcut, dropLineComments_of_some hs]
    simp

theorem not_isBreak_after {l x y : Text} (h : cut? "//" l = some (x, y))
    (hl : ∀ b ∈ l, isBreak b = false) : ∀ b ∈ y, isBreak b = false := by
  rw [(eq_append_of_cut? (by decide) h).1] at hl
  exact fun b hb => hl b (List.mem_append_right _ hb)

theorem perLine_dropLineComments : PerLine uncommented dropLineComments where
  last l hl := by
    cases h : cut? "//" l with
    | none => rw [dropLineComments_of_none h, uncommented_of_none h]
    | some c =>
      rw [dropLineComments_of_some h, uncommented_of_some h,
        fromBreak_of_forall (not_isBreak_after h hl), dropLineComments_of_none rfl, List.append_nil]
  line l b s hl hb := by
    cases h : cut? "//" l with
    | none =>
      have hnone := not_isInfix_uncommented l
      rw [uncommented_of_none h] at hnone ⊢
      exact dropLineComments_append_cons hb hnone s
    | some c =>
      rw [dropLineComments_of_some (cut?_append (b :: s) h), uncommented_of_some h,
        fromBreak_append_cons (not_isBreak_after h hl) hb]
      exact congrArg (c.1 ++ ·) (dropLineComments_append_cons (l := []) hb (by decide) s)

theorem not_isInfix_dropLineComments (s : Text) : ¬("//" : Text) <:+: dropLineComments s := by
  rw [isInfix_iff_exists_piece (p := isBreak) (by decide +kernel)]
  rintro ⟨l, hl, h⟩
  rw [← breakLines, perLine_dropLineComments.breakLines_eq uncommented_isPrefix] at hl
  obtain ⟨l, -, rfl⟩ := List.mem_map.1 hl
  exact not_isInfix_uncommented l h

theorem dropLineComments_eq_self_iff {s : Text} :
    dropLineComments s = s ↔ ¬("//" : Text) <:+: s := by
  constructor
  · intro h
    exact h ▸ not_isInfix_dropLineComments s
  · intro h
    apply dropLineComments_of_none
    rw [cut?_eq_none_iff (by decide)]
    intro p hp
    exact h (isInfix_iff_standsAt.2 ⟨p, hp⟩)

/-! ## Hash lines -/

theorem isHashLine_append {a : Text} (ha : ∀ b ∈ a, (b == space || b == tab) = true) (r : Text) :
    isHashLine (a ++ hashMark :: r) = true := by
  rw [isHashLine, List.dropWhile_append_of_pos ha]
  rfl

/-- Spaces and tabs, if any, and then a hash mark. -/
def HashFirst (l : Text) : Prop :=
  ∃ a r, l = a ++ hashMark :: r ∧ ∀ b ∈ a, (b == space || b == tab) = true

theorem isHashLine_iff {l : Text} : isHashLine l = true ↔ HashFirst l := by
  constructor
  · intro h
    rw [isHashLine, beq_iff_eq, List.head?_eq_some_iff] at h
    obtain ⟨r, hr⟩ := h
    refine ⟨l.takeWhile fun b => b == space || b == tab, r, ?_, ?_⟩
    · rw [← hr, List.takeWhile_append_dropWhile]
    · intro b hb
      simpa using List.mem_takeWhile_imp hb
  · rintro ⟨a, r, rfl, ha⟩
    exact isHashLine_append ha r

/-- A line, unless it is a hash comment. -/
def unhashed (l : Text) : Text := if isHashLine l then [] else l

theorem unhashed_isPrefix (l : Text) : unhashed l <+: l := by
  rw [unhashed]
  split
  · exact List.nil_prefix
  · exact List.prefix_rfl

theorem isHashLine_unhashed (l : Text) : isHashLine (unhashed l) = false := by
  rw [unhashed]
  split
  · rfl
  · next h => exact Bool.eq_false_iff.2 h

theorem dropHashLines_of_nil {s : Text} (h : fromBreak s = []) :
    dropHashLines s = unhashed (toBreak s) := by
  rw [dropHashLines]
  split
  · rfl
  · next hs => cases h.symm.trans hs

theorem dropHashLines_of_cons {s t : Text} {b : UInt8} (h : fromBreak s = b :: t) :
    dropHashLines s = unhashed (toBreak s) ++ b :: dropHashLines t := by
  rw [dropHashLines]
  split
  · next hs => cases h.symm.trans hs
  · next hs =>
    obtain ⟨rfl, rfl⟩ := List.cons.inj (h.symm.trans hs)
    rfl

theorem perLine_dropHashLines : PerLine unhashed dropHashLines where
  last l hl := by rw [dropHashLines_of_nil (fromBreak_of_forall hl), toBreak_of_forall hl]
  line l b s hl hb := by
    rw [dropHashLines_of_cons (fromBreak_append_cons hl hb s), toBreak_append_cons hl hb]

theorem not_isHashLine_of_mem {s l : Text} (h : l ∈ breakLines (dropHashLines s)) :
    isHashLine l = false := by
  rw [perLine_dropHashLines.breakLines_eq unhashed_isPrefix] at h
  obtain ⟨l, -, rfl⟩ := List.mem_map.1 h
  exact isHashLine_unhashed l

theorem dropHashLines_eq_self_iff {s : Text} :
    dropHashLines s = s ↔ ∀ l ∈ breakLines s, isHashLine l = false := by
  constructor
  · intro h l hl
    exact not_isHashLine_of_mem (h.symm ▸ hl)
  · intro h
    apply perLine_dropHashLines.eq_self
    intro l hl
    rw [unhashed, h l hl]
    rfl

/-! ## Both strippers -/

/-- `u` is what stands before the first `//` of a line, or the whole line when it holds none. -/
def UpToSlashes (l u : Text) : Prop :=
  (∃ p, IsLeast {p | StandsAt "//" l p} p ∧ u = l.take p) ∨ (∀ p, ¬StandsAt "//" l p) ∧ u = l

theorem upToSlashes_uncommented (l : Text) : UpToSlashes l (uncommented l) := by
  cases h : cut? "//" l with
  | none => exact .inr ⟨(cut?_eq_none_iff (by decide)).1 h, uncommented_of_none h⟩
  | some c =>
    obtain ⟨p, hp, hx, -⟩ := (cut?_eq_some_iff (by decide)).1 h
    exact .inl ⟨p, hp, by rw [uncommented_of_some h, hx]⟩

theorem unhashed_of_hashFirst {l : Text} (h : HashFirst l) : unhashed l = [] :=
  if_pos (isHashLine_iff.2 h)

theorem unhashed_of_not_hashFirst {l : Text} (h : ¬HashFirst l) : unhashed l = l :=
  if_neg (mt isHashLine_iff.1 h)

/-- Slashes do not begin before a hash mark with only blanks in front of it. -/
theorem uncommented_append_hash {a : Text} (ha : ∀ b ∈ a, (b == space || b == tab) = true)
    (r : Text) : uncommented (a ++ hashMark :: r) = a ++ hashMark :: uncommented r := by
  have hslashes : ¬("//" : Text) <:+: a := by
    intro h
    exact absurd (ha slash (h.subset (by decide))) (by decide)
  have hcut : cut? "//" (a ++ hashMark :: r) = _ :=
    cut?_append_cons (by decide) (by decide) hslashes r
  unfold uncommented
  rw [hcut]
  cases cut? "//" r <;> rfl

theorem isHashLine_uncommented (l : Text) : isHashLine (uncommented l) = isHashLine l := by
  rw [Bool.eq_iff_iff, isHashLine_iff, isHashLine_iff]
  constructor
  · rintro ⟨a, r, h, ha⟩
    obtain ⟨e, he⟩ := uncommented_isPrefix l
    exact ⟨a, r ++ e, by rw [← he, h]; simp, ha⟩
  · rintro ⟨a, r, rfl, ha⟩
    exact ⟨a, uncommented r, uncommented_append_hash ha r, ha⟩

theorem unhashed_uncommented (l : Text) : unhashed (uncommented l) = uncommented (unhashed l) := by
  unfold unhashed
  rw [isHashLine_uncommented]
  split
  · rfl
  · rfl

/-- Both strippers do to each line, by itself, what they do to a text of one line, and leave the
breaks. So neither finds anything left to do the second time, and their order does not matter. -/
theorem strippers_act_on_lines (x : Text) :
    IsCut x (breakLines x) (breaks x) ∧
    (dropLineComments x = weave ((breakLines x).map uncommented) (breaks x) ∧
      ∀ l, UpToSlashes l (uncommented l)) ∧
    (dropHashLines x = weave ((breakLines x).map unhashed) (breaks x) ∧
      ∀ l, (HashFirst l → unhashed l = []) ∧ (¬HashFirst l → unhashed l = l)) ∧
    dropLineComments (dropLineComments x) = dropLineComments x ∧
    dropHashLines (dropHashLines x) = dropHashLines x ∧
    dropHashLines (dropLineComments x) = dropLineComments (dropHashLines x) := by
  refine ⟨isCut_breakLines x, ⟨perLine_dropLineComments.eq_weave x, upToSlashes_uncommented⟩,
    ⟨perLine_dropHashLines.eq_weave x, fun l => ⟨unhashed_of_hashFirst, unhashed_of_not_hashFirst⟩⟩,
    ?_, ?_, ?_⟩
  · exact dropLineComments_eq_self_iff.2 (not_isInfix_dropLineComments x)
  · exact dropHashLines_eq_self_iff.2 fun l hl => not_isHashLine_of_mem hl
  · rw [perLine_dropLineComments.comp_eq_weave uncommented_isPrefix perLine_dropHashLines,
      perLine_dropHashLines.comp_eq_weave unhashed_isPrefix perLine_dropLineComments]
    congr 1
    exact List.map_congr_left fun l _ => unhashed_uncommented l

/-- A hash mark hides the slashes behind it, and slashes the hash mark behind them. -/
example : dropLineComments "# a // b\r\n// # c\ra" = "# a \r\n\ra" ∧
    dropHashLines "# a // b\r\n// # c\ra" = "\r\n// # c\ra" := by decide +kernel

end SourceBundle.Minified
