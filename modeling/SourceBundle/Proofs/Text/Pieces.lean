import Mathlib.Data.List.TakeWhile
import SourceBundle.Proofs.Text.Lines
import SourceBundle.Proofs.Text.Mark
import SourceBundle.Proofs.Text.Thinned
/-!
# Pieces

A text cut at every byte of a class. Whatever holds of a piece and is kept when a piece and the byte
after it are put in front holds of every text (`piece_induction`); a mark without bytes of the class
stands in a text when it stands in one of its pieces. What works line by line, with newlines and
carriage returns as breaks, is told by what it does to one line (`PerLine`): the new text is what
the lines have become, with the old breaks between them (`PerLine.eq_weave`).
-/
namespace SourceBundle.Text

theorem piece_induction {P : Text → Prop} (p : UInt8 → Bool)
    (last : ∀ l : Text, (∀ b ∈ l, p b = false) → P l)
    (piece : ∀ (l : Text) (b : UInt8) (s : Text), (∀ b ∈ l, p b = false) → p b = true → P s →
      P (l ++ b :: s)) (s : Text) : P s := by
  have hl : ∀ b ∈ s.takeWhile (!p ·), p b = false := by
    intro b hb
    simpa using List.mem_takeWhile_imp hb
  have hs := List.takeWhile_append_dropWhile (p := (!p ·)) (l := s)
  cases hd : s.dropWhile (!p ·) with
  | nil =>
    rw [hd, List.append_nil] at hs
    exact hs ▸ last _ hl
  | cons b t =>
    have hb : p b = true := by
      have := List.head?_dropWhile_not (!p ·) s
      rw [hd] at this
      simpa using this
    have hlt : t.length < s.length := by
      have := (List.dropWhile_sublist (l := s) (!p ·)).length_le
      rw [hd, List.length_cons] at this
      omega
    rw [← hs, hd]
    exact piece _ b t hl hb (piece_induction p last piece t)
termination_by s.length

/-! ## Marks -/

theorem isInfix_iff_exists_piece {mark : Text} {p : UInt8 → Bool} (hm : ∀ b ∈ mark, p b = false)
    (s : Text) : mark <:+: s ↔ ∃ l ∈ s.splitOnP p, mark <:+: l := by
  induction s using piece_induction p with
  | last l hl => simp [List.splitOnP_eq_singleton hl]
  | piece l b s hl hb ih =>
    have hmem : b ∉ mark := by
      intro h
      simp [hm b h] at hb
    rw [List.splitOnP_append_cons_of_forall_mem hl b hb, isInfix_append_cons_iff hmem, ih]
    simp

/-! ## Lines between breaks -/

/-- The lines of a text when carriage returns end a line too. -/
def breakLines (s : Text) : List Text := s.splitOnP isBreak

theorem breakLines_append_cons (s t : Text) {b : UInt8} (hb : isBreak b = true) :
    breakLines (s ++ b :: t) = breakLines s ++ breakLines t :=
  List.splitOnP_append_cons s t hb

theorem breakLines_of_forall {l : Text} (h : ∀ b ∈ l, isBreak b = false) : breakLines l = [l] :=
  List.splitOnP_eq_singleton h

/-- The lines between breaks are what carriage returns make of the lines between newlines. -/
theorem breakLines_eq_flatMap (s : Text) : breakLines s = (lines s).flatMap breakLines := by
  have key : ∀ ls : List Text, ls ≠ [] → breakLines (joinLines ls) = ls.flatMap breakLines := by
    intro ls hls
    induction ls with
    | nil => exact absurd rfl hls
    | cons l ls ih =>
      cases ls with
      | nil => simp [joinLines]
      | cons m ls =>
        have hjoin : joinLines (l :: m :: ls) = l ++ newline :: joinLines (m :: ls) := by
          simp [joinLines, List.intercalate_cons_cons]
        rw [hjoin, breakLines_append_cons _ _ (by decide), ih (List.cons_ne_nil m ls)]
        rfl
  have := key (lines s) (splitOn_ne_nil newline s)
  rwa [joinLines_lines] at this

theorem breakLines_eq_lines {s : Text} (h : carriageReturn ∉ s) : breakLines s = lines s := by
  have hlines : ∀ l ∈ lines s, breakLines l = [l] := by
    intro l hl
    apply breakLines_of_forall
    intro b hb
    rw [isBreak, Bool.or_eq_false_iff, beq_eq_false_iff_ne, beq_eq_false_iff_ne]
    refine ⟨?_, ?_⟩
    · exact fun hn => newline_not_mem_of_mem_lines hl (hn ▸ hb)
    · exact fun hr => h (hr ▸ (isInfix_of_mem_lines hl).subset hb)
  rw [breakLines_eq_flatMap, List.flatMap_def, List.map_congr_left hlines, ← List.flatMap_def,
    List.flatMap_singleton']

/-! ## Lines and their breaks -/

/-- The breaks between the lines, in order. -/
def breaks (s : Text) : Text := s.filter isBreak

/-- Lines with a break after each but the last. -/
def weave : List Text → Text → Text
  | [], _ => []
  | l :: _, [] => l
  | l :: ls, b :: bs => l ++ b :: weave ls bs

theorem breaks_of_forall {l : Text} (h : ∀ b ∈ l, isBreak b = false) : breaks l = [] :=
  List.filter_eq_nil_iff.2 fun b hb => by simp [h b hb]

theorem breaks_append_cons {l : Text} {b : UInt8} (hl : ∀ b ∈ l, isBreak b = false)
    (hb : isBreak b = true) (s : Text) : breaks (l ++ b :: s) = b :: breaks s := by
  rw [breaks, List.filter_append, List.filter_cons_of_pos hb]
  exact congrArg (· ++ b :: breaks s) (breaks_of_forall hl)

/-- A text has one line more than it has breaks. -/
theorem length_breakLines (s : Text) : (breakLines s).length = (breaks s).length + 1 := by
  induction s using piece_induction isBreak with
  | last l hl =>
    rw [breakLines_of_forall hl, breaks_of_forall hl]
    rfl
  | piece l b s hl hb ih =>
    rw [breakLines_append_cons _ _ hb, breakLines_of_forall hl, breaks_append_cons hl hb,
      List.singleton_append, List.length_cons, List.length_cons, ih]

theorem not_isBreak_of_mem_breakLines {s l : Text} (h : l ∈ breakLines s) :
    ∀ b ∈ l, isBreak b = false := by
  induction s using piece_induction isBreak with
  | last k hk =>
    rw [breakLines_of_forall hk] at h
    exact List.mem_singleton.1 h ▸ hk
  | piece k b s hk hb ih =>
    rw [breakLines_append_cons _ _ hb, breakLines_of_forall hk] at h
    rcases List.mem_cons.1 h with rfl | h
    · exact hk
    · exact ih h

/-! ## Line by line -/

/-- A function on texts does to each line what a function on lines does, and leaves the breaks. -/
structure PerLine (f F : Text → Text) : Prop where
  last : ∀ l : Text, (∀ b ∈ l, isBreak b = false) → F l = f l
  line : ∀ (l : Text) (b : UInt8) (s : Text), (∀ b ∈ l, isBreak b = false) → isBreak b = true →
    F (l ++ b :: s) = f l ++ b :: F s

namespace PerLine

variable {f F : Text → Text}

theorem breakLines_eq (h : PerLine f F) (hf : ∀ l, f l <+: l) (s : Text) :
    breakLines (F s) = (breakLines s).map f := by
  induction s using piece_induction isBreak with
  | last l hl =>
    rw [h.last l hl, breakLines_of_forall hl,
      breakLines_of_forall fun b hb => hl b ((hf l).subset hb)]
    rfl
  | piece l b s hl hb ih =>
    rw [h.line l b s hl hb, breakLines_append_cons _ _ hb, breakLines_append_cons _ _ hb, ih,
      breakLines_of_forall hl, breakLines_of_forall fun b hb => hl b ((hf l).subset hb)]
    rfl

theorem sublist (h : PerLine f F) (hf : ∀ l, f l <+: l) (s : Text) : (F s).Sublist s := by
  induction s using piece_induction isBreak with
  | last l hl =>
    rw [h.last l hl]
    exact (hf l).sublist
  | piece l b s hl hb ih =>
    rw [h.line l b s hl hb]
    exact (hf l).sublist.append (ih.cons_cons b)

/-- What goes at the end of a line is followed by a break or by nothing. -/
theorem thinned (h : PerLine f F) (hf : ∀ l, f l <+: l) (s : Text) : Thinned s (F s) := by
  induction s using piece_induction isBreak with
  | last l hl =>
    obtain ⟨e, he⟩ := hf l
    have := (Thinned.of_nil e).append (f l)
    rwa [he, List.append_nil, ← h.last l hl] at this
  | piece l b s hl hb ih =>
    obtain ⟨e, he⟩ := hf l
    have hspace : isSpace b = true := by
      rw [isBreak, Bool.or_eq_true, beq_iff_eq, beq_iff_eq] at hb
      rcases hb with rfl | rfl <;> decide
    have hhead : ∀ c ∈ (b :: F s).head?, isSpace c = true := by
      rintro c ⟨⟩
      exact hspace
    have := ((ih.keep b).append_drop e hhead).append (f l)
    rwa [← List.append_assoc, he, ← h.line l b s hl hb] at this

theorem eq_self (h : PerLine f F) {s : Text} (hs : ∀ l ∈ breakLines s, f l = l) : F s = s := by
  induction s using piece_induction isBreak with
  | last l hl =>
    rw [breakLines_of_forall hl] at hs
    rw [h.last l hl, hs l (List.mem_singleton_self l)]
  | piece l b s hl hb ih =>
    rw [breakLines_append_cons _ _ hb, breakLines_of_forall hl, List.singleton_append] at hs
    obtain ⟨hl', hs'⟩ := List.forall_mem_cons.1 hs
    rw [h.line l b s hl hb, hl', ih hs']

theorem eq_weave (h : PerLine f F) (s : Text) :
    F s = weave ((breakLines s).map f) (breaks s) := by
  induction s using piece_induction isBreak with
  | last l hl =>
    rw [h.last l hl, breakLines_of_forall hl, breaks_of_forall hl]
    rfl
  | piece l b s hl hb ih =>
    rw [h.line l b s hl hb, ih, breakLines_append_cons _ _ hb, breakLines_of_forall hl,
      breaks_append_cons hl hb]
    rfl

theorem breaks_eq (h : PerLine f F) (hf : ∀ l, f l <+: l) (s : Text) : breaks (F s) = breaks s := by
  induction s using piece_induction isBreak with
  | last l hl =>
    rw [h.last l hl, breaks_of_forall hl, breaks_of_forall fun b hb => hl b ((hf l).subset hb)]
  | piece l b s hl hb ih =>
    rw [h.line l b s hl hb, breaks_append_cons hl hb,
      breaks_append_cons (fun b hb => hl b ((hf l).subset hb)) hb, ih]

/-- What two functions do one after the other, told by what they do to a line. -/
theorem comp_eq_weave {g G : Text → Text} (h : PerLine f F) (hf : ∀ l, f l <+: l)
    (h' : PerLine g G) (s : Text) :
    G (F s) = weave ((breakLines s).map (g ∘ f)) (breaks s) := by
  rw [h'.eq_weave, h.breakLines_eq hf, h.breaks_eq hf, List.map_map]

end PerLine

/-- The lines of a text and its breaks make the text. -/
theorem weave_breakLines (s : Text) : weave (breakLines s) (breaks s) = s := by
  have hid : PerLine id id := ⟨fun _ _ => rfl, fun _ _ _ _ _ => rfl⟩
  have := hid.eq_weave s
  rwa [List.map_id, id, eq_comm] at this

/-- A text cut at every break into the lines between them. -/
structure IsCut (s : Text) (ls : List Text) (bs : Text) : Prop where
  weave_eq : weave ls bs = s
  length_eq : ls.length = bs.length + 1
  isBreak_of_mem : ∀ b ∈ bs, isBreak b = true
  not_isBreak_of_mem : ∀ l ∈ ls, ∀ b ∈ l, isBreak b = false

theorem isCut_breakLines (s : Text) : IsCut s (breakLines s) (breaks s) where
  weave_eq := weave_breakLines s
  length_eq := length_breakLines s
  isBreak_of_mem _ hb := (List.mem_filter.1 hb).2
  not_isBreak_of_mem _ hl := not_isBreak_of_mem_breakLines hl

end SourceBundle.Text
