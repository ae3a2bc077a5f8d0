import Mathlib.Tactic.SplitIfs
import SourceBundle.Proofs.Regex.Language
import SourceBundle.Proofs.Regex.Parser
/-!
# Reading on

A bracket, and any other part of an expression, ends where it ends whatever follows it in the text.
So a text that can be read still can with `/.*` after it, and then stands for what it stood for,
followed by a slash and the rest of a line. A bracket that has swallowed what comes after it is no
exception: it had to close before the text ended.
-/
namespace SourceBundle

open Text

/-! ## Brackets -/

namespace Bracket

theorem escapeToken?_append {s r : Text} {t : Token} (u : Text)
    (h : escapeToken? s = some (t, r)) : escapeToken? (s ++ u) = some (t, r ++ u) := by
  unfold escapeToken? at h
  split at h
  · simp_all [escapeToken?]
  · simp_all [escapeToken?, Option.bind_eq_some_iff]
  · simp_all [escapeToken?, Option.bind_eq_some_iff]
  · split at h
    · cases h
    · unfold escapeToken?
      simp_all [Option.bind_eq_some_iff]
  · cases h

theorem namedItem?_append {k : UInt8} {s r : Text} {t : Token} (u : Text)
    (h : namedItem? k s = some (t, r)) : namedItem? k (s ++ u) = some (t, r ++ u) := by
  unfold namedItem? at h
  split at h
  · next d rest hd =>
    -- The name ends within the text, so what follows is not part of it.
    have hname : (s ++ u).takeWhile (· != k) = s.takeWhile (· != k) := by
      rw [List.takeWhile_append, if_neg]
      intro hl
      have := congrArg List.length (List.takeWhile_append_dropWhile (p := (· != k)) (l := s))
      rw [List.length_append, hl, hd] at this
      simp at this
    have hrest : (s ++ u).dropWhile (· != k) = d :: closeBracket :: (rest ++ u) := by
      rw [List.dropWhile_append, hd]
      rfl
    obtain ⟨a, ha, hr⟩ := Option.bind_eq_some_iff.1 h
    simp only [pure, Option.some.injEq, Prod.mk.injEq] at hr
    obtain ⟨rfl, rfl⟩ := hr
    unfold namedItem?
    rw [hrest, hname, ha]
    rfl
  · cases h

theorem token?_append {s r : Text} {t : Token} (u : Text) (h : token? s = some (t, r)) :
    token? (s ++ u) = some (t, r ++ u) := by
  cases s with
  | nil => cases h
  | cons b s =>
    rw [List.cons_append]
    unfold token? at h ⊢
    dsimp only at h ⊢
    split_ifs at h ⊢ with hclose hdash hbackslash hopen
    · simp_all
    · simp_all
    · exact escapeToken?_append u h
    · cases s with
      | nil => cases h
      | cons k s =>
        dsimp only [List.cons_append] at h ⊢
        split_ifs at h ⊢
        · exact namedItem?_append u h
        · simp only [Option.some.injEq, Prod.mk.injEq] at h
          obtain ⟨rfl, rfl⟩ := h
          rfl
    · simp_all

/-- The tokens of a bracket end with the bracket. -/
theorem tokens?_append {s r : Text} {ts : List Token} (u : Text)
    (h : tokens? s = some (ts, r)) : tokens? (s ++ u) = some (ts, r ++ u) := by
  fun_induction tokens? s generalizing ts with
  | case1 => cases h
  | case2 s rest ht =>
    simp only [Option.some.injEq, Prod.mk.injEq] at h
    obtain ⟨rfl, rfl⟩ := h
    exact Regex.tokens?_close (token?_append u ht)
  | case3 s t rest hclose ht ih =>
    obtain ⟨⟨ts', r'⟩, hts, h⟩ := Option.map_eq_some_iff.1 h
    simp only [Prod.mk.injEq] at h
    obtain ⟨rfl, rfl⟩ := h
    rw [Regex.tokens?_cons hclose (token?_append u ht), ih hts]
    rfl

theorem set?_append {complemented : Bool} {s r : Text} {p : ByteSet} (u : Text)
    (h : set? complemented s = some (p, r)) : set? complemented (s ++ u) = some (p, r ++ u) := by
  obtain ⟨⟨ts, rest⟩, ht, h⟩ := Option.bind_eq_some_iff.1 h
  obtain ⟨is, hi, h⟩ := Option.map_eq_some_iff.1 h
  simp only [Prod.mk.injEq] at h
  obtain ⟨rfl, rfl⟩ := h
  simp [set?, tokens?_append u ht, hi]

theorem parse?_append {s r : Text} {p : ByteSet} (u : Text) (h : parse? s = some (p, r)) :
    parse? (s ++ u) = some (p, r ++ u) := by
  cases s with
  | nil => exact absurd (length_of_parse? h) (Nat.not_lt_zero _)
  | cons b s =>
    by_cases hb : b = caret
    · subst hb
      exact set?_append u h
    · have hset (v : Text) : parse? (b :: v) = set? false (b :: v) := by
        unfold parse?
        split
        · next hv => exact absurd (List.cons_eq_cons.1 hv).1 hb
        · rfl
      rw [hset] at h
      rw [List.cons_append, hset]
      exact set?_append u h

end Bracket

/-! ## Parts -/

namespace Regex

theorem set?_append {s r : Text} {p : ByteSet} (u : Text) (h : set? s = some (p, r)) :
    set? (s ++ u) = some (p, r ++ u) := by
  unfold set? at h
  split at h
  · cases h
  · cases h
  · simp only [Option.some.injEq, Prod.mk.injEq] at h
    obtain ⟨rfl, rfl⟩ := h
    exact set?_backslash _ _
  · simp only [Option.some.injEq, Prod.mk.injEq] at h
    obtain ⟨rfl, rfl⟩ := h
    exact set?_dot _
  · exact Bracket.parse?_append u h
  · next b s hlone hback hdot hopen =>
    simp only [Option.some.injEq, Prod.mk.injEq] at h
    obtain ⟨rfl, rfl⟩ := h
    exact set?_byte _ hdot hopen (ne_backslash hlone hback)

/-- What stands in a pattern's text for the paths below those it names. -/
def belowText : Text := "/.*"

/-- A slash and what is left of the line. -/
def anyBelow : Regex := seq (byte slash) (many .inLine)

/-- No leading folders begin before `/.*` and end in it. -/
theorem isPrefixOf_append_belowText {s : Text}
    (h : leadingFoldersText.isPrefixOf (s ++ belowText) = true) :
    leadingFoldersText.isPrefixOf s = true := by
  have hcut : ∀ n < 9, leadingFoldersText.isPrefixOf (leadingFoldersText.take n ++ belowText) =
      true → leadingFoldersText.isPrefixOf (leadingFoldersText.take n) = true := by decide
  rcases List.prefix_or_prefix_of_prefix (List.isPrefixOf_iff_prefix.1 h)
    (List.prefix_append s belowText) with hs | hs
  · exact List.isPrefixOf_iff_prefix.2 hs
  · have hlength : s.length < 9 := Nat.lt_succ_of_le hs.length_le
    rw [List.prefix_iff_eq_take.1 hs] at h ⊢
    exact hcut _ hlength h

/-- A star after a set is the next byte still, and `/.*` does not start with one. -/
theorem starred_append (p : ByteSet) (s : Text) :
    starred p (s ++ belowText) = ((starred p s).1, (starred p s).2 ++ belowText) := by
  cases s with
  | nil => rfl
  | cons b s =>
    by_cases hb : b = asterisk
    · subst hb
      rfl
    · have hhead (v : Text) : starred p (b :: v) = (one p, b :: v) :=
        starred_of_head? (by simpa using hb)
      rw [List.cons_append, hhead, hhead]
      rfl

theorem part?_append {s r : Text} {x : Regex} (h : part? s = some (x, r)) :
    part? (s ++ belowText) = some (x, r ++ belowText) := by
  unfold part? at h
  split at h
  · next hlead =>
    obtain ⟨t, rfl⟩ := List.isPrefixOf_iff_prefix.1 hlead
    simp only [List.drop_left, Option.some.injEq, Prod.mk.injEq] at h
    obtain ⟨rfl, rfl⟩ := h
    rw [List.append_assoc, part?,
      if_pos (List.isPrefixOf_iff_prefix.2 (List.prefix_append _ _)), List.drop_left]
  · next hlead =>
    obtain ⟨⟨p, t⟩, hp, ht⟩ := Option.map_eq_some_iff.1 h
    dsimp only at ht
    rw [part?, if_neg (fun hb => hlead (isPrefixOf_append_belowText hb)), set?_append _ hp,
      Option.map_some, starred_append, ht]

theorem parse?_belowText :
    parse? belowText = some (seq (byte slash) (seq (many .inLine) empty)) := by
  have hmany : parse? [dot, asterisk] = some (seq (many .inLine) empty) := by
    rw [parse?_many (by decide) (set?_dot _), parse?_nil]
    rfl
  have hslash : set? belowText = some (.single slash, [dot, asterisk]) :=
    set?_byte _ (by decide) (by decide) (by decide)
  rw [parse?_one (by decide) (by decide) hslash, hmany]
  rfl

/-- Two expressions for the same texts. -/
def Same (r r' : Regex) : Prop := ∀ t, r.Accepts t ↔ r'.Accepts t

theorem same_seq_assoc (a b c : Regex) : Same (seq a (seq b c)) (seq (seq a b) c) := by
  intro t
  constructor
  · rintro ⟨u, _, rfl, hu, v, w, rfl, hv, hw⟩
    exact ⟨u ++ v, w, (List.append_assoc u v w).symm, ⟨u, v, rfl, hu, hv⟩, hw⟩
  · rintro ⟨_, w, rfl, ⟨u, v, rfl, hu, hv⟩, hw⟩
    exact ⟨u, v ++ w, List.append_assoc u v w, hu, v, w, rfl, hv, hw⟩

theorem Same.seq_left {b c : Regex} (h : Same b c) (a : Regex) : Same (seq a b) (seq a c) := by
  intro t
  simp only [accepts_seq, h _]

theorem same_seq_empty (r : Regex) : Same (seq r empty) r := by
  intro t
  simp [Accepts]

theorem same_empty_seq (r : Regex) : Same (seq empty r) r := by
  intro t
  constructor
  · rintro ⟨_, _, rfl, rfl, ht⟩
    exact ht
  · intro ht
    exact ⟨[], t, rfl, rfl, ht⟩

/-- A text that can be read still can before `/.*`, and stands for what it stood for. -/
theorem parse?_append_belowText {s : Text} {r : Regex} (h : parse? s = some r) :
    ∃ r', parse? (s ++ belowText) = some r' ∧ Same r' (seq r anyBelow) := by
  fun_induction parse? s generalizing r with
  | case1 =>
    obtain rfl := Option.some.inj h
    refine ⟨_, parse?_belowText, fun t => ?_⟩
    rw [same_empty_seq anyBelow t]
    exact (same_seq_empty _).seq_left _ t
  | case2 => cases h
  | case3 s hs x rest hpart ih =>
    obtain ⟨y, hy, rfl⟩ := Option.map_eq_some_iff.1 h
    obtain ⟨y', hy', hsame⟩ := ih hy
    refine ⟨seq x y', ?_, fun t => ?_⟩
    · rw [parse?_of_part? (by simp [hs]) (part?_append hpart), hy']
      rfl
    · rw [hsame.seq_left x t]
      exact same_seq_assoc x y anyBelow t

end Regex
end SourceBundle
