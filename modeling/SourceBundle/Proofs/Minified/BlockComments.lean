import SourceBundle.Minified.Basic
import SourceBundle.Proofs.Text.Mark
/-!
# Block comments

A comment is an opener and the first closer after both its bytes. Taking out comments from the left,
and giving up at the first opener that is never closed, takes out all that a search at every
position would: a closer behind a later opener is also behind this one (`isLeast_commentAt_iff`).
-/
namespace SourceBundle.Minified

open Text

/-- A comment starts at this position: an opener stands there, and a closer somewhere after it. -/
def CommentAt (s : Text) (p : Nat) : Prop :=
  StandsAt "/*" s p ∧ ∃ q, p + 2 ≤ q ∧ StandsAt "*/" s q

/-- What a search at every position leaves of a text from a position on: the leftmost comment goes,
to the end of its first closer, and the search goes on from there. -/
inductive Swept (s : Text) : Nat → Text → Prop
  | rest {n : Nat} (none : ∀ p, n ≤ p → ¬CommentAt s p) : Swept s n (s.drop n)
  | comment {n p q : Nat} {t : Text} (first : IsLeast {p | n ≤ p ∧ CommentAt s p} p)
      (closer : IsLeast {q | p + 2 ≤ q ∧ StandsAt "*/" s q} q) (swept : Swept s (q + 2) t) :
      Swept s n ((s.take p).drop n ++ t)

variable {s x y t : Text} {n p : Nat}

/-! ## The first comment -/

theorem CommentAt.of_le {p' : Nat} (h : CommentAt s p) (hle : p' ≤ p)
    (ho : StandsAt "/*" s p') : CommentAt s p' := by
  obtain ⟨-, q, hq, hc⟩ := h
  exact ⟨ho, q, by omega, hc⟩

/-- The first comment starts at the first opener. -/
theorem isLeast_commentAt_iff : IsLeast {p | n ≤ p ∧ CommentAt s p} p ↔
    IsLeast {p | n ≤ p ∧ StandsAt "/*" s p} p ∧ CommentAt s p := by
  constructor
  · rintro ⟨⟨hn, hp⟩, hleast⟩
    refine ⟨⟨⟨hn, hp.1⟩, ?_⟩, hp⟩
    rintro p' ⟨hn', ho⟩
    by_contra hlt
    exact hlt (hleast ⟨hn', hp.of_le (by omega) ho⟩)
  · rintro ⟨⟨⟨hn, -⟩, hleast⟩, hp⟩
    exact ⟨⟨hn, hp⟩, fun p' hp' => hleast ⟨hp'.1, hp'.2.1⟩⟩

/-- Behind an opener that is never closed there is no comment. -/
theorem not_commentAt_of_first (h : IsLeast {p | n ≤ p ∧ StandsAt "/*" s p} p)
    (hp : ¬CommentAt s p) {p' : Nat} (hn : n ≤ p') : ¬CommentAt s p' := by
  intro hp'
  exact hp (hp'.of_le (h.2 ⟨hn, hp'.1⟩) h.1.2)

theorem length_openComment : ("/*" : Text).length = 2 := by decide

theorem length_closeComment : ("*/" : Text).length = 2 := by decide

/-- An opener and its closer have no byte in common. -/
theorem commentAt_iff :
    CommentAt s p ↔ ∃ v : Text, ("/*" : Text) ++ v ++ ("*/" : Text) <+: s.drop p := by
  constructor
  · rintro ⟨⟨u, hu⟩, q, hq, w, hw⟩
    obtain ⟨k, rfl⟩ := Nat.exists_eq_add_of_le hq
    have hdrop : u.drop k = ("*/" : Text) ++ w := by
      rw [hw, ← List.drop_drop, ← List.drop_drop, ← hu, List.drop_left' length_openComment]
    refine ⟨u.take k, w, ?_⟩
    rw [List.append_assoc, List.append_assoc, ← hdrop, List.take_append_drop, hu]
  · rintro ⟨v, w, h⟩
    rw [List.append_assoc, List.append_assoc] at h
    refine ⟨⟨_, h⟩, p + 2 + v.length, Nat.le_add_right _ _, w, ?_⟩
    rw [← List.drop_drop, ← List.drop_drop, ← h, List.drop_left' length_openComment,
      List.drop_left]

theorem exists_commentAt_iff : (∃ p, CommentAt s p) ↔
    ∃ u v w : Text, s = u ++ ("/*" : Text) ++ (v ++ ("*/" : Text) ++ w) := by
  constructor
  · rintro ⟨p, h⟩
    obtain ⟨v, w, h⟩ := commentAt_iff.1 h
    refine ⟨s.take p, v, w, ?_⟩
    simp only [List.append_assoc] at h ⊢
    rw [h, List.take_append_drop]
  · rintro ⟨u, v, w, rfl⟩
    refine ⟨u.length, commentAt_iff.2 ⟨v, w, ?_⟩⟩
    simp only [List.append_assoc, List.drop_left]

/-- What is found from a position on is the first comment there. -/
theorem blockComment?_drop (s : Text) (n : Nat) :
    (blockComment? (s.drop n) = none ∧ ∀ p, n ≤ p → ¬CommentAt s p) ∨
      ∃ p q, IsLeast {p | n ≤ p ∧ CommentAt s p} p ∧
        IsLeast {q | p + 2 ≤ q ∧ StandsAt "*/" s q} q ∧
        blockComment? (s.drop n) = some ((s.take p).drop n, s.drop (q + 2)) := by
  cases ho : cut? "/*" (s.drop n) with
  | none =>
    refine .inl ⟨by simp [blockComment?, ho], ?_⟩
    intro p hn hp
    exact (cut?_drop_eq_none_iff (by decide)).1 ho p hn hp.1
  | some cut =>
    obtain ⟨before, inside⟩ := cut
    obtain ⟨p, hp, rfl, rfl⟩ := (cut?_drop_eq_some_iff (by decide)).1 ho
    rw [length_openComment] at ho
    cases hc : cut? "*/" (s.drop (p + 2)) with
    | none =>
      refine .inl ⟨by simp [blockComment?, ho, hc], ?_⟩
      intro p' hn
      apply not_commentAt_of_first hp _ hn
      rintro ⟨-, q, hq, hs⟩
      exact (cut?_drop_eq_none_iff (by decide)).1 hc q hq hs
    | some cut =>
      obtain ⟨between, after⟩ := cut
      obtain ⟨q, hq, rfl, rfl⟩ := (cut?_drop_eq_some_iff (by decide)).1 hc
      rw [length_closeComment] at hc
      refine .inr ⟨p, q, ?_, hq, ?_⟩
      · exact isLeast_commentAt_iff.2 ⟨hp, hp.1.2, q, hq.1.1, hq.1.2⟩
      · simp [blockComment?, ho, hc]

/-! ## All comments -/

theorem dropBlockComments_of_none (h : blockComment? s = none) : dropBlockComments s = s := by
  rw [dropBlockComments]
  split
  · rfl
  · next hs => cases h.symm.trans hs

theorem dropBlockComments_of_some (h : blockComment? s = some (x, y)) :
    dropBlockComments s = x ++ dropBlockComments y := by
  rw [dropBlockComments]
  split
  · next hs => cases h.symm.trans hs
  · next hs =>
    obtain ⟨rfl, rfl⟩ := Prod.mk.inj (Option.some.inj (h.symm.trans hs))
    rfl

theorem swept_dropBlockComments (s : Text) (n : Nat) :
    Swept s n (dropBlockComments (s.drop n)) := by
  rcases blockComment?_drop s n with ⟨hnone, h⟩ | ⟨p, q, hp, hq, hsome⟩
  · rw [dropBlockComments_of_none hnone]
    exact .rest h
  · rw [dropBlockComments_of_some hsome]
    exact .comment hp hq (swept_dropBlockComments s (q + 2))
termination_by s.length - n
decreasing_by
  have := hq.1.2.add_length_le (by decide)
  have := hq.1.1
  have := hp.1.1
  rw [length_closeComment] at *
  omega

theorem Swept.eq (h : Swept s n t) : t = dropBlockComments (s.drop n) := by
  induction h with
  | @rest n h =>
    rcases blockComment?_drop s n with ⟨hnone, -⟩ | ⟨p, q, hp, -⟩
    · rw [dropBlockComments_of_none hnone]
    · exact absurd hp.1.2 (h p hp.1.1)
  | @comment n p q t hp hq _ ih =>
    rcases blockComment?_drop s n with ⟨-, hnone⟩ | ⟨p', q', hp', hq', hsome⟩
    · exact absurd hp.1.2 (hnone p hp.1.1)
    · obtain rfl := hp.unique hp'
      obtain rfl := hq.unique hq'
      rw [dropBlockComments_of_some hsome, ih]

theorem Swept.sublist (h : Swept s n t) : t.Sublist (s.drop n) := by
  induction h with
  | rest _ => exact List.Sublist.refl _
  | @comment n p q t hp hq _ ih =>
    have hn : n ≤ p := hp.1.1
    have hpq : p ≤ q + 2 := by
      have := hq.1.1
      omega
    have hrest : (s.drop (q + 2)).Sublist ((s.drop n).drop (p - n)) := by
      rw [List.drop_drop, Nat.add_sub_cancel' hn]
      exact List.drop_sublist_drop_left s hpq
    have := (ih.trans hrest).append_left ((s.drop n).take (p - n))
    rwa [List.take_append_drop, ← List.drop_take] at this

theorem dropBlockComments_sublist (s : Text) : (dropBlockComments s).Sublist s :=
  (swept_dropBlockComments s 0).sublist

/-- A text stays as it is when there is no comment in it, and only then. -/
theorem dropBlockComments_eq_self_iff : dropBlockComments s = s ↔ ∀ p, ¬CommentAt s p := by
  rcases blockComment?_drop s 0 with ⟨hnone, h⟩ | ⟨p, q, hp, hq, hsome⟩
  · rw [List.drop_zero] at hnone
    exact ⟨fun _ p => h p (Nat.zero_le p), fun _ => dropBlockComments_of_none hnone⟩
  · refine ⟨?_, fun h => absurd hp.1.2 (h p)⟩
    intro h
    rw [List.drop_zero, List.drop_zero] at hsome
    have hlength := congrArg List.length h
    have hrest := (dropBlockComments_sublist (s.drop (q + 2))).length_le
    rw [dropBlockComments_of_some hsome, List.length_append, List.length_take] at hlength
    have := hq.1.2.add_length_le (by decide)
    have := hq.1.1
    rw [List.length_drop] at hrest
    rw [length_closeComment] at *
    omega

/-- Block comments are swept out: what is left is what a search at every position leaves, and no
other text is. The search may give up at the first opener that is never closed. -/
theorem dropBlockComments_exhaustive (s : Text) :
    (∀ t, Swept s 0 t ↔ t = dropBlockComments s) ∧
    (∀ n p, IsLeast {p | n ≤ p ∧ StandsAt "/*" s p} p → ¬CommentAt s p →
      ∀ p', n ≤ p' → ¬CommentAt s p') ∧
    (∀ p, CommentAt s p ↔ ∃ v : Text, ("/*" : Text) ++ v ++ ("*/" : Text) <+: s.drop p) ∧
    (dropBlockComments s = s ↔ ∀ p, ¬CommentAt s p) := by
  refine ⟨?_, ?_, fun p => commentAt_iff, dropBlockComments_eq_self_iff⟩
  · intro t
    constructor
    · exact Swept.eq
    · rintro rfl
      exact swept_dropBlockComments s 0
  · intro n p hp hnone p' hn
    exact not_commentAt_of_first hp hnone hn

/-- The star of an opener closes nothing. -/
example : dropBlockComments "a/*/b" = "a/*/b" := by decide +kernel

example : dropBlockComments "a/**/b*//*/*c*//*" = "ab*//*" := by decide +kernel

end SourceBundle.Minified
