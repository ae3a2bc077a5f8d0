import Mathlib.Order.Bounds.Basic
import SourceBundle.Text.Basic
/-!
# Marks

A mark stands at the positions from which a text goes on with it. Cutting a text at a mark cuts it
at the first of these, also when only the positions from some point on are looked at.
-/
namespace SourceBundle.Text

/-- The text goes on with the mark from this position. -/
def StandsAt (mark s : Text) (p : Nat) : Prop := mark <+: s.drop p

instance (mark s : Text) (p : Nat) : Decidable (StandsAt mark s p) :=
  inferInstanceAs (Decidable (mark <+: s.drop p))

variable {mark s x y : Text} {n p : Nat}

theorem standsAt_drop : StandsAt mark (s.drop n) p ↔ StandsAt mark s (n + p) := by
  rw [StandsAt, StandsAt, List.drop_drop]

theorem StandsAt.add_length_le (hm : mark ≠ []) (h : StandsAt mark s p) :
    p + mark.length ≤ s.length := by
  have hpos := List.length_pos_iff.2 hm
  have := h.length_le
  rw [List.length_drop] at this
  omega

theorem isInfix_iff_standsAt : mark <:+: s ↔ ∃ p, StandsAt mark s p := by
  constructor
  · rintro ⟨u, v, rfl⟩
    refine ⟨u.length, ?_⟩
    rw [StandsAt, List.append_assoc, List.drop_left]
    exact List.prefix_append mark v
  · rintro ⟨p, h⟩
    exact h.isInfix.trans (List.drop_suffix p s).isInfix

theorem prefix_of_prefix_append_cons {p h u : Text} {c : UInt8} (hp : p <+: h ++ c :: u)
    (hc : c ∉ p) : p <+: h := by
  rcases List.prefix_or_prefix_of_prefix hp (List.prefix_append h (c :: u)) with hph | hhp
  · exact hph
  · obtain ⟨q, rfl⟩ := hhp
    rw [List.prefix_append_right_inj] at hp
    cases q with
    | nil => simp
    | cons d q =>
      obtain ⟨rfl, -⟩ := List.cons_prefix_cons.1 hp
      exact absurd (by simp) hc

theorem isInfix_append_cons_iff {t : Text} {b : UInt8} (hb : b ∉ mark) :
    mark <:+: s ++ b :: t ↔ mark <:+: s ∨ mark <:+: t := by
  constructor
  · intro h
    induction s with
    | nil =>
      rcases List.infix_cons_iff.1 h with h | h
      · exact .inl (prefix_of_prefix_append_cons (h := []) h hb).isInfix
      · exact .inr h
    | cons a s ih =>
      rcases List.infix_cons_iff.1 h with h | h
      · exact .inl (prefix_of_prefix_append_cons (h := a :: s) h hb).isInfix
      · exact (ih h).imp_left fun h => h.trans (List.suffix_cons a s).isInfix
  · rintro (h | h)
    · exact h.trans (List.prefix_append s _).isInfix
    · exact h.trans ((List.suffix_cons b t).trans (List.suffix_append s _)).isInfix

/-! ## Cutting at the first one -/

theorem cutFrom?_eq (hm : mark ≠ []) (before s : Text) :
    (cutFrom? mark before s = none ∧ ∀ p, ¬StandsAt mark s p) ∨
      ∃ p, IsLeast {p | StandsAt mark s p} p ∧
        cutFrom? mark before s = some (before.reverse ++ s.take p, s.drop (p + mark.length)) := by
  induction s generalizing before with
  | nil =>
    refine .inl ⟨rfl, ?_⟩
    intro p h
    exact hm (List.prefix_nil.1 (by simpa [StandsAt] using h))
  | cons b s ih =>
    by_cases hb : mark <+: b :: s
    · refine .inr ⟨0, ⟨hb, fun _ _ => Nat.zero_le _⟩, ?_⟩
      rw [cutFrom?, if_pos (List.isPrefixOf_iff_prefix.2 hb)]
      simp
    · rw [cutFrom?, if_neg (mt List.isPrefixOf_iff_prefix.1 hb)]
      rcases ih (b :: before) with ⟨hcut, hnone⟩ | ⟨p, hp, hcut⟩
      · refine .inl ⟨hcut, ?_⟩
        rintro (_ | p) h
        · exact hb h
        · exact hnone p h
      · refine .inr ⟨p + 1, ⟨hp.1, ?_⟩, ?_⟩
        · rintro (_ | q) h
          · exact absurd h hb
          · exact Nat.succ_le_succ (hp.2 h)
        · rw [hcut, Nat.add_right_comm]
          simp

theorem cut?_eq_none_iff (hm : mark ≠ []) : cut? mark s = none ↔ ∀ p, ¬StandsAt mark s p := by
  rcases cutFrom?_eq hm [] s with ⟨hcut, hnone⟩ | ⟨p, hp, hcut⟩
  · exact ⟨fun _ => hnone, fun _ => hcut⟩
  · constructor
    · intro h
      cases h.symm.trans hcut
    · intro h
      exact absurd hp.1 (h p)

theorem cut?_eq_some_iff (hm : mark ≠ []) : cut? mark s = some (x, y) ↔
    ∃ p, IsLeast {p | StandsAt mark s p} p ∧ x = s.take p ∧ y = s.drop (p + mark.length) := by
  rcases cutFrom?_eq hm [] s with ⟨hcut, hnone⟩ | ⟨p, hp, hcut⟩
  · constructor
    · intro h
      cases h.symm.trans hcut
    · rintro ⟨p, hp, -⟩
      exact absurd hp.1 (hnone p)
  · constructor
    · intro h
      obtain ⟨rfl, rfl⟩ := Prod.mk.inj (Option.some.inj (h.symm.trans hcut))
      exact ⟨p, hp, rfl, rfl⟩
    · rintro ⟨q, hq, rfl, rfl⟩
      rw [hq.unique hp]
      exact hcut

theorem eq_append_of_cut? (hm : mark ≠ []) (h : cut? mark s = some (x, y)) :
    s = x ++ mark ++ y ∧ ¬mark <:+: x := by
  obtain ⟨p, hp, rfl, rfl⟩ := (cut?_eq_some_iff hm).1 h
  constructor
  · obtain ⟨t, ht⟩ := hp.1
    have hdrop : s.drop (p + mark.length) = t := by
      rw [← List.drop_drop, ← ht, List.drop_left]
    rw [hdrop, List.append_assoc, ht, List.take_append_drop]
  · intro hx
    obtain ⟨q, hq⟩ := isInfix_iff_standsAt.1 hx
    have hlt : q < p := by
      have := hq.add_length_le hm
      have := List.length_take_le p s
      have := List.length_pos_iff.2 hm
      omega
    have hs : StandsAt mark s q := by
      rw [StandsAt, List.drop_take] at hq
      exact hq.trans (List.take_prefix _ _)
    exact absurd (hp.2 hs) (Nat.not_le.2 hlt)

theorem cutFrom?_eq_map (before s : Text) :
    cutFrom? mark before s = (cut? mark s).map fun c => (before.reverse ++ c.1, c.2) := by
  suffices h : ∀ u, cutFrom? mark (u ++ before) s =
      (cutFrom? mark u s).map fun c => (before.reverse ++ c.1, c.2) from h []
  intro u
  induction s generalizing u with
  | nil => rfl
  | cons b s ih =>
    rw [cutFrom?, cutFrom?]
    split
    · simp
    · exact ih (b :: u)

/-! ## Texts put together -/

theorem cutFrom?_append {before : Text} (t : Text) (h : cutFrom? mark before s = some (x, y)) :
    mark.length ≤ s.length ∧ cutFrom? mark before (s ++ t) = some (x, y ++ t) := by
  induction s generalizing before with
  | nil => simp [cutFrom?] at h
  | cons b s ih =>
    rw [cutFrom?] at h
    split at h
    · next hb =>
      obtain ⟨rfl, rfl⟩ := Prod.mk.inj (Option.some.inj h)
      have hmark := List.isPrefixOf_iff_prefix.1 hb
      have happ := hmark.trans (List.prefix_append (b :: s) t)
      refine ⟨hmark.length_le, ?_⟩
      rw [List.cons_append] at happ ⊢
      rw [cutFrom?, if_pos (List.isPrefixOf_iff_prefix.2 happ), ← List.cons_append,
        List.drop_append_of_le_length hmark.length_le]
    · next hb =>
      obtain ⟨hle, hcut⟩ := ih h
      have hle' : mark.length ≤ (b :: s).length := Nat.le_succ_of_le hle
      refine ⟨hle', ?_⟩
      rw [List.cons_append, cutFrom?, if_neg, hcut]
      intro hp
      exact hb (List.isPrefixOf_iff_prefix.2 (List.prefix_of_prefix_length_le
        (List.isPrefixOf_iff_prefix.1 hp) (List.prefix_append (b :: s) t) hle'))

/-- The first mark of a text is the first one, whatever comes after the text. -/
theorem cut?_append (t : Text) (h : cut? mark s = some (x, y)) :
    cut? mark (s ++ t) = some (x, y ++ t) :=
  (cutFrom?_append t h).2

theorem cutFrom?_append_cons {b : UInt8} (hb : b ∉ mark) (hm : mark ≠ []) (hs : ¬mark <:+: s)
    (before t : Text) :
    cutFrom? mark before (s ++ b :: t) = cutFrom? mark (b :: (s.reverse ++ before)) t := by
  induction s generalizing before with
  | nil =>
    have hnot : ¬mark.isPrefixOf (b :: t) = true := by
      intro h
      have := prefix_of_prefix_append_cons (h := []) (List.isPrefixOf_iff_prefix.1 h) hb
      exact hm (List.prefix_nil.1 this)
    rw [List.nil_append, cutFrom?, if_neg hnot]
    rfl
  | cons a s ih =>
    have hnot : ¬mark.isPrefixOf (a :: (s ++ b :: t)) = true := by
      intro h
      have := prefix_of_prefix_append_cons (h := a :: s) (List.isPrefixOf_iff_prefix.1 h) hb
      exact hs this.isInfix
    rw [List.cons_append, cutFrom?, if_neg hnot,
      ih fun h => hs (h.trans (List.suffix_cons a s).isInfix)]
    simp

/-- A text without the mark is passed over, with a byte after it that the mark does not hold. -/
theorem cut?_append_cons {b : UInt8} (hb : b ∉ mark) (hm : mark ≠ []) (hs : ¬mark <:+: s)
    (t : Text) :
    cut? mark (s ++ b :: t) = (cut? mark t).map fun c => (s ++ b :: c.1, c.2) := by
  rw [cut?, cutFrom?_append_cons hb hm hs, cutFrom?_eq_map]
  simp

/-! ## From a position on -/

theorem cut?_drop_eq_none_iff (hm : mark ≠ []) :
    cut? mark (s.drop n) = none ↔ ∀ p, n ≤ p → ¬StandsAt mark s p := by
  rw [cut?_eq_none_iff hm]
  constructor
  · intro h p hp hs
    exact h (p - n) (standsAt_drop.2 (by rwa [Nat.add_sub_cancel' hp]))
  · intro h p hs
    exact h (n + p) (Nat.le_add_right n p) (standsAt_drop.1 hs)

theorem isLeast_standsAt_drop : IsLeast {p | StandsAt mark (s.drop n) p} p ↔
    IsLeast {p | n ≤ p ∧ StandsAt mark s p} (n + p) := by
  constructor
  · intro h
    refine ⟨⟨Nat.le_add_right n p, standsAt_drop.1 h.1⟩, ?_⟩
    rintro q ⟨hq, hs⟩
    have := h.2 (show StandsAt mark (s.drop n) (q - n) from
      standsAt_drop.2 (by rwa [Nat.add_sub_cancel' hq]))
    omega
  · intro h
    refine ⟨standsAt_drop.2 h.1.2, ?_⟩
    intro q hq
    have := h.2 ⟨Nat.le_add_right n q, standsAt_drop.1 hq⟩
    omega

theorem cut?_drop_eq_some_iff (hm : mark ≠ []) : cut? mark (s.drop n) = some (x, y) ↔
    ∃ p, IsLeast {p | n ≤ p ∧ StandsAt mark s p} p ∧ x = (s.take p).drop n ∧
      y = s.drop (p + mark.length) := by
  rw [cut?_eq_some_iff hm]
  constructor
  · rintro ⟨p, hp, rfl, rfl⟩
    refine ⟨n + p, isLeast_standsAt_drop.1 hp, ?_, ?_⟩
    · rw [List.drop_take, Nat.add_sub_cancel_left]
    · rw [List.drop_drop, Nat.add_assoc]
  · rintro ⟨p, hp, rfl, rfl⟩
    obtain ⟨k, rfl⟩ := Nat.exists_eq_add_of_le hp.1.1
    refine ⟨k, isLeast_standsAt_drop.2 hp, ?_, ?_⟩
    · rw [List.drop_take, Nat.add_sub_cancel_left]
    · rw [List.drop_drop, Nat.add_assoc]

end SourceBundle.Text
