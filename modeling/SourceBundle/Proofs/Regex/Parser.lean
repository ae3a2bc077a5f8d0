import SourceBundle.Regex.Parser
/-!
# Reading an expression part by part

One equation for each part that globs are written out with: the leading folders, a set taken any
number of times, and a set taken once, which must not stand before a star.
-/
namespace SourceBundle.Regex

open Text

theorem parse?_nil : parse? [] = some empty := by rw [parse?, dif_pos rfl]

theorem parse?_of_part? {s t : Text} {r : Regex} (hs : s ≠ []) (h : part? s = some (r, t)) :
    parse? s = (parse? t).map (seq r) := by
  rw [parse?, dif_neg hs]
  split
  · next hn =>
    rw [h] at hn
    cases hn
  · next hn =>
    rw [h, Option.some.injEq, Prod.mk.injEq] at hn
    rw [hn.1, hn.2]

theorem parse?_leadingFolders (s : Text) :
    parse? (leadingFoldersText ++ s) = (parse? s).map (seq leadingFolders) := by
  refine parse?_of_part? ?_ ?_
  · intro h
    exact absurd (List.append_eq_nil_iff.1 h).1 (by decide)
  · rw [part?, if_pos (List.isPrefixOf_iff_prefix.2 (List.prefix_append _ _)), List.drop_left]

/-! ## Sets -/

theorem part?_of_head? {s : Text} (hs : s.head? ≠ some openParen) :
    part? s = (set? s).map fun p => starred p.1 p.2 := by
  rw [part?, if_neg]
  intro hp
  obtain ⟨u, rfl⟩ := List.isPrefixOf_iff_prefix.1 hp
  exact hs rfl

theorem part?_of_set? {s t : Text} {p : ByteSet} (hs : s.head? ≠ some openParen)
    (h : set? s = some (p, t)) : part? s = some (starred p t) := by
  rw [part?_of_head? hs, h]
  rfl

/-- A set before a star is taken any number of times. -/
theorem parse?_many {s t : Text} {p : ByteSet} (hs : s.head? ≠ some openParen)
    (h : set? s = some (p, asterisk :: t)) : parse? s = (parse? t).map (seq (many p)) := by
  refine parse?_of_part? ?_ (part?_of_set? hs h)
  rintro rfl
  cases h

theorem starred_of_head? {p : ByteSet} {t : Text} (ht : t.head? ≠ some asterisk) :
    starred p t = (one p, t) := by
  unfold starred
  split
  · exact absurd rfl ht
  · rfl

/-- A set that does not stand before a star is taken once. -/
theorem parse?_one {s t : Text} {p : ByteSet} (hs : s.head? ≠ some openParen)
    (ht : t.head? ≠ some asterisk) (h : set? s = some (p, t)) :
    parse? s = (parse? t).map (seq (one p)) := by
  refine parse?_of_part? ?_ ?_
  · rintro rfl
    cases h
  · rw [part?_of_set? hs h, starred_of_head? ht]

/-! ## Sets as globs write them -/

theorem set?_dot (s : Text) : set? (dot :: s) = some (.inLine, s) := rfl

theorem set?_backslash (b : UInt8) (s : Text) :
    set? (backslash :: b :: s) = some (.single b, s) := rfl

theorem tokens?_cons {s r : Text} {t : Bracket.Token} (ht : t ≠ .close)
    (h : Bracket.token? s = some (t, r)) :
    Bracket.tokens? s = (Bracket.tokens? r).map fun p => (t :: p.1, p.2) := by
  rw [Bracket.tokens?]
  split
  · next hn =>
    rw [h] at hn
    cases hn
  · next hn =>
    rw [h, Option.some.injEq, Prod.mk.injEq] at hn
    exact absurd hn.1 ht
  · next hn =>
    rw [h, Option.some.injEq, Prod.mk.injEq] at hn
    rw [hn.1, hn.2]

theorem tokens?_close {s r : Text} (h : Bracket.token? s = some (.close, r)) :
    Bracket.tokens? s = some ([], r) := by
  rw [Bracket.tokens?]
  split
  · next hn =>
    rw [h] at hn
    cases hn
  · next hn =>
    rw [h, Option.some.injEq, Prod.mk.injEq] at hn
    rw [hn.2]
  · next hne hn =>
    rw [h, Option.some.injEq, Prod.mk.injEq] at hn
    exact absurd hn.1.symm hne

theorem set?_inName (s : Text) : set? ("[^/]" ++ s) = some (.inName, s) := by
  have htokens : Bracket.tokens? (slash :: closeBracket :: s) = some ([.char slash], s) := by
    rw [tokens?_cons (t := .char slash) nofun rfl, tokens?_close rfl]
    rfl
  rw [show set? ("[^/]" ++ s) = Bracket.set? true (slash :: closeBracket :: s) from rfl,
    Bracket.set?, htokens]
  rfl

/-- A backslash is escaping, or alone at the end. -/
theorem ne_backslash {b : UInt8} {s : Text} (hlone : b = backslash → s = [] → False)
    (hcons : ∀ c t, b = backslash → s = c :: t → False) : b ≠ backslash := by
  intro hb
  cases s with
  | nil => exact hlone hb rfl
  | cons c t => exact hcons c t hb rfl

theorem set?_byte {b : UInt8} (s : Text) (hd : b ≠ dot) (ho : b ≠ openBracket)
    (hb : b ≠ backslash) : set? (b :: s) = some (.single b, s) := by
  unfold set?
  split
  · next h => cases h
  · next h => exact absurd (List.cons_eq_cons.1 h).1 hb
  · next h => exact absurd (List.cons_eq_cons.1 h).1 hb
  · next h => exact absurd (List.cons_eq_cons.1 h).1 hd
  · next h => exact absurd (List.cons_eq_cons.1 h).1 ho
  · next h =>
    obtain ⟨rfl, rfl⟩ := List.cons_eq_cons.1 h
    rfl

end SourceBundle.Regex
