import SourceBundle.Proofs.Line.Declaration
/-!
# Conditionals as a grammar

A conditional is `if`, a condition in parentheses, and a brace. A line `if (x)` without a brace is
none, but it reads as a member, and reducing a member adds the brace. The main result is that this
is the only way for a reduced member to be a conditional.
-/
namespace SourceBundle.Line

open Text

/-! ## The grammar -/

theorem closesThenOpens_iff {s : Text} :
    closesThenOpens s = true ↔
      ∃ x e y, s = x ++ closeParen :: (e ++ openBrace :: y) ∧ isBlank e = true := by
  induction s with
  | nil =>
    constructor
    · intro h
      cases h
    · rintro ⟨x, e, y, h, -⟩
      simp at h
  | cons b s ih =>
    rw [closesThenOpens, Bool.or_eq_true, Bool.and_eq_true, beq_iff_eq, beq_iff_eq, ih]
    constructor
    · rintro (⟨rfl, hs⟩ | ⟨x, e, y, rfl, he⟩)
      · obtain ⟨y, hy⟩ := List.head?_eq_some_iff.1 hs
        refine ⟨[], s.takeWhile isSpace, y, ?_, isBlank_iff.2 fun b hb => List.mem_takeWhile_imp hb⟩
        rw [← hy, List.nil_append]
        exact congrArg _ (List.takeWhile_append_dropWhile (p := isSpace)).symm
      · exact ⟨b :: x, e, y, rfl, he⟩
    · rintro ⟨x, e, y, h, he⟩
      -- The closing parenthesis is the first byte, or stands after it.
      cases x with
      | nil =>
        obtain ⟨rfl, rfl⟩ := List.cons_eq_cons.1 h
        refine .inl ⟨rfl, ?_⟩
        rw [trimStart_append _ he]
        rfl
      | cons c x =>
        obtain ⟨rfl, rfl⟩ := List.cons_eq_cons.1 h
        exact .inr ⟨x, e, y, rfl, he⟩

/-- The word a conditional starts with. -/
def ifWord : Text := "if"

/-- A conditional is `if`, a condition that is not empty, and a brace, with blanks between them. -/
theorem isConditional_iff {t : Text} :
    isConditional t = true ↔
      ∃ e x f y, t = withList (ifWord ++ e) x ++ f ++ openBrace :: y ∧
        isBlank e = true ∧ x ≠ [] ∧ isBlank f = true := by
  rw [isConditional, Bool.and_eq_true, startsWith_iff]
  constructor
  · rintro ⟨⟨u, rfl⟩, h⟩
    rw [show (ofString "if" ++ u).drop 2 = u from rfl] at h
    split at h
    · next b s hu =>
      obtain ⟨x, f, y, rfl, hf⟩ := closesThenOpens_iff.1 h
      refine ⟨u.takeWhile isSpace, b :: x, f, y, ?_, ?_, List.cons_ne_nil b x, hf⟩
      · have := List.takeWhile_append_dropWhile (p := isSpace) (l := u)
        rw [show u.dropWhile isSpace = trimStart u from rfl, hu] at this
        conv_lhs => rw [← this]
        simp [withList, ifWord]
      · exact isBlank_iff.2 fun b hb => List.mem_takeWhile_imp hb
    · cases h
  · rintro ⟨e, x, f, y, rfl, he, hx, hf⟩
    obtain ⟨b, x, rfl⟩ := List.exists_cons_of_ne_nil hx
    have hstart : trimStart ((withList (ifWord ++ e) (b :: x) ++ f ++ openBrace :: y).drop 2) =
        openParen :: b :: (x ++ closeParen :: (f ++ openBrace :: y)) := by
      rw [show withList (ifWord ++ e) (b :: x) ++ f ++ openBrace :: y =
        ifWord ++ (e ++ openParen :: b :: (x ++ closeParen :: (f ++ openBrace :: y))) by
          simp [withList]]
      exact trimStart_append _ he
    refine ⟨?_, ?_⟩
    · unfold withList
      rw [List.append_assoc, List.append_assoc, List.append_assoc]
      exact List.prefix_append _ _
    · rw [hstart]
      exact closesThenOpens_iff.2 ⟨x, f, y, rfl, hf⟩

/-! ## Reduced members -/

theorem openParen_not_mem_of_isBlank {e : Text} (he : isBlank e = true) :
    openParen ∉ ifWord ++ e := by
  rw [List.mem_append, not_or]
  refine ⟨by decide, fun h => ?_⟩
  have := isBlank_iff.1 he openParen h
  cases this

theorem isConditional_withList_iff {h x : Text} (hh : openParen ∉ h) :
    isConditional (withList h x ++ emptyBody) = true ↔
      (∃ e, h = ifWord ++ e ∧ isBlank e = true) ∧ x ≠ [] := by
  rw [isConditional_iff]
  constructor
  · rintro ⟨e, z, f, y, heq, he, hz, -⟩
    simp only [withList, List.append_assoc, List.cons_append] at heq
    -- What stands before the first parenthesis is the same on both sides.
    have hhead : h = ifWord ++ e := by
      have := congrArg head heq
      rwa [head_append hh, ← List.append_assoc ifWord e,
        head_append (openParen_not_mem_of_isBlank he)] at this
    refine ⟨⟨e, hhead, he⟩, ?_⟩
    rintro rfl
    subst hhead
    obtain ⟨c, z, rfl⟩ := List.exists_cons_of_ne_nil hz
    simp only [List.append_assoc, List.append_cancel_left_eq, List.cons_append, List.nil_append,
      List.cons.injEq, true_and] at heq
    have hmem : closeParen ∈ emptyBody := heq.2 ▸ by simp
    exact absurd hmem (by decide)
  · rintro ⟨⟨e, rfl, he⟩, hx⟩
    exact ⟨e, x, [], [closeBrace], by simp [emptyBody], he, hx, rfl⟩

/-- The lines that only a body is missing from to be conditionals. -/
def IsBraceless (t : Text) : Prop :=
  ∃ e x, t = withList (ifWord ++ e) x ∧ isBlank e = true ∧ x ≠ []

/-- A member that is no conditional becomes one exactly when it reads `if (x)`. -/
theorem isConditional_finalize_iff {t : Text} (ht : Trimmed t) (hm : declaresMember t = true)
    (hc : isConditional t = false) : isConditional (finalize t) = true ↔ IsBraceless t := by
  constructor
  · intro hf
    rcases declaresMember_iff.1 hm with ⟨h, x, hh, -, hb⟩ | ⟨hn, -⟩
    · rw [finalize_withList ht hh hb, isConditional_withList_iff hh] at hf
      obtain ⟨⟨e, rfl, he⟩, hx⟩ := hf
      refine ⟨e, x, ?_, he, hx⟩
      obtain ⟨g, b, rfl, hg, hb⟩ := hb
      simp only [bodies, List.mem_cons, List.not_mem_nil, or_false] at hb
      -- With a body it would have been a conditional before.
      rcases hb with rfl | rfl | rfl
      · rw [List.append_nil] at ht ⊢
        rw [← trimEnd_eq_self ht.stop, trimEnd_withList_append hg]
      · rw [isConditional_iff.2 ⟨e, x, g, [], rfl, he, hx, hg⟩] at hc
        cases hc
      · rw [isConditional_iff.2 ⟨e, x, g, [closeBrace], rfl, he, hx, hg⟩] at hc
        cases hc
    · rw [finalize_bare ht hn,
        isConditional_withList_iff fun h => hn ((dropBody_isPrefix t).subset h)] at hf
      exact absurd rfl hf.2
  · rintro ⟨e, x, rfl, he, hx⟩
    have hh := openParen_not_mem_of_isBlank he
    have hb : Bodied (withList (ifWord ++ e) x) (withList (ifWord ++ e) x) :=
      ⟨[], [], by simp, rfl, by simp [bodies]⟩
    rw [finalize_withList ht hh hb, isConditional_withList_iff hh]
    exact ⟨⟨e, rfl, he⟩, hx⟩

end SourceBundle.Line
