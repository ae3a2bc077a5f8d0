import Mathlib.Data.List.TakeWhile
import SourceBundle.Proofs.Ignore.Glob
import SourceBundle.Proofs.Regex.Bracket
/-!
# The brackets of a glob

A bracket of a glob is copied, and read by other rules than it was found by, so it may go on behind
the closing bracket that the glob saw. It still ends where some element of the glob does, and the
elements after it are read as they were written. So of a glob without a slash and without `**`, only
a bracket can read a slash.
-/
namespace SourceBundle.Ignore.Glob

open Text

/-- What is left to read of a glob's text when one of its elements has been, or the square bracket
that a star is written out with. -/
inductive Left (g : Text) : Text → Prop
  | written (start : Bool) {g' : Text} (h : g' <:+ g) : Left g (written start g')
  | star {g' : Text} (h : g' <:+ g) : Left g (asterisk :: Glob.written false g')

/-- A place within a bracket, from where reading on comes to an element of the glob. -/
def Inside (g s : Text) : Prop := ∃ t, Left g t ∧ Bracket.Reaches t s

/-! ## The texts of elements -/

theorem closeBracket_not_mem_bracketText (s : Text) :
    closeBracket ∉ bracketText (s.takeWhile (· != closeBracket)) := by
  have hs : closeBracket ∉ s.takeWhile (· != closeBracket) := by
    intro h
    have := List.mem_takeWhile_imp h
    simp at this
  unfold bracketText
  split
  · next hcut =>
    rw [hcut, List.mem_cons, not_or] at hs
    exact List.not_mem_cons_of_ne_of_not_mem (by decide) hs.2
  · exact hs

theorem afterBracket_suffix (s : Text) :
    (s.dropWhile (· != closeBracket)).drop 1 <:+ s :=
  (List.drop_suffix 1 _).trans (List.dropWhile_suffix _)

theorem exists_token?_of_ne {b : UInt8} (s : Text) (hc : b ≠ closeBracket) (hb : b ≠ backslash)
    (ho : b ≠ openBracket) : ∃ tok ≠ .close, Bracket.token? (b :: s) = some (tok, s) := by
  by_cases hd : b = dash
  · exact ⟨.dash, nofun, by rw [hd]; rfl⟩
  · exact ⟨.char b, nofun, Bracket.token?_of_ne s hc hd hb ho⟩

theorem exists_token?_escape {b : UInt8} (s : Text) (hb : isAlphanumeric b = false) :
    ∃ tok ≠ .close, Bracket.token? (backslash :: b :: s) = some (tok, s) :=
  ⟨.char b, nofun, by
    rw [Bracket.token?_backslash, Bracket.escapeToken?_of_not_alphanumeric s hb]⟩

/-- Within a bracket, the one that a star or a question mark is written out with opens nothing. -/
theorem exists_token?_caret (s : Text) :
    ∃ tok ≠ .close, Bracket.token? (openBracket :: caret :: s) = some (tok, caret :: s) :=
  ⟨.char openBracket, nofun, rfl⟩

theorem exists_token?_escaped (b : UInt8) (s : Text) :
    ∃ tok ≠ .close, Bracket.token? (escaped b ++ s) = some (tok, s) := by
  rw [escaped]
  split
  · next hb =>
    refine exists_token?_of_ne s ?_ ?_ ?_
    all_goals
      rintro rfl
      exact absurd hb (by decide)
  · next hb => exact exists_token?_escape s (Bool.eq_false_iff.2 hb)

theorem isAlphanumeric_of_isSpecial {b : UInt8} (h : isSpecial b = true) :
    isAlphanumeric b = false := by
  have hall : ∀ c ∈ (".+()^$|\x7b\x7d]" : Text), isAlphanumeric c = false := by decide +kernel
  exact hall b (List.contains_iff_mem.1 h)

theorem exists_token?_plain {b : UInt8} (s : Text) (hb : b ≠ backslash) (ho : b ≠ openBracket) :
    ∃ tok ≠ .close, Bracket.token? (plain b ++ s) = some (tok, s) := by
  rw [plain]
  split
  · next hs => exact exists_token?_escape s (isAlphanumeric_of_isSpecial hs)
  · next hs =>
    refine exists_token?_of_ne s ?_ hb ho
    rintro rfl
    exact hs (by decide)

/-! ## Reading a bracket -/

section

variable {g s r t u : Text} {tok : Bracket.Token}

theorem inside_of_exists_token? (ht : Inside g t)
    (hs : ∃ tok ≠ .close, Bracket.token? s = some (tok, t))
    (h : Bracket.token? s = some (tok, r)) : tok ≠ .close ∧ Inside g r := by
  obtain ⟨tok', hne, hs⟩ := hs
  rw [h] at hs
  obtain ⟨rfl, rfl⟩ := Prod.mk.inj (Option.some.inj hs)
  exact ⟨hne, ht⟩

theorem Left.inside (h : Left g s) : Inside g s := ⟨s, h, .past⟩

variable (hstars : ∀ s, ¬asterisk :: asterisk :: s <:+ g)
include hstars

/-- A bracket that goes on where an element of the glob starts goes on into that element: a token
ends with it, or before the closing bracket that the element is written with. -/
theorem inside_of_token?_left (hs : Left g s) (h : Bracket.token? s = some (tok, r)) :
    tok ≠ .close ∧ Inside g r := by
  cases hs with
  | star hg =>
    exact inside_of_exists_token? (Left.written false hg).inside
      (exists_token?_of_ne _ (by decide) (by decide) (by decide)) h
  | @written start g' hg =>
    revert h
    fun_cases written start g' with
    | case1 | case7 =>
      intro h
      cases h
    | case2 | case3 | case4 => exact absurd hg (hstars _)
    | case5 s =>
      have ht := (List.suffix_cons _ s).trans hg
      exact inside_of_exists_token? ⟨_, .star ht, .ahead (u := [caret, slash]) (by decide)⟩
        (exists_token?_caret _)
    | case6 s =>
      have ht := (List.suffix_cons _ s).trans hg
      exact inside_of_exists_token?
        ⟨_, .written false ht, .ahead (u := [caret, slash]) (by decide)⟩ (exists_token?_caret _)
    | case8 b s =>
      have ht := ((List.suffix_cons b s).trans (List.suffix_cons _ _)).trans hg
      exact inside_of_exists_token? (Left.written _ ht).inside (exists_token?_escaped b _)
    | case9 s =>
      have ht := ((afterBracket_suffix s).trans (List.suffix_cons _ s)).trans hg
      intro h
      have hu : closeBracket ∉ openBracket :: bracketText (s.takeWhile (· != closeBracket)) :=
        List.not_mem_cons_of_ne_of_not_mem (by decide) (closeBracket_not_mem_bracketText s)
      obtain ⟨hreach, -⟩ := Bracket.reaches_of_token? hu rfl h
      refine ⟨?_, _, .written false ht, hreach⟩
      rintro rfl
      cases Bracket.eq_cons_of_token?_close h
    | case10 s =>
      have ht := (List.suffix_cons _ s).trans hg
      exact inside_of_exists_token? (Left.written _ ht).inside
        (exists_token?_escape _ (by decide))
    | case11 b s _ _ _ _ hlone hcons ho =>
      have ht := (List.suffix_cons b s).trans hg
      exact inside_of_exists_token? (Left.written _ ht).inside
        (exists_token?_plain _ (Regex.ne_backslash hlone hcons) ho)

theorem inside_of_token? (hs : Inside g s) (h : Bracket.token? s = some (tok, r)) :
    (tok = .close → Left g r) ∧ (tok ≠ .close → Inside g r) := by
  obtain ⟨t, ht, hreach⟩ := hs
  cases hreach with
  | past =>
    obtain ⟨hne, hr⟩ := inside_of_token?_left hstars ht h
    exact ⟨fun hc => absurd hc hne, fun _ => hr⟩
  | ahead hu =>
    obtain ⟨hreach, hclose⟩ := Bracket.reaches_of_token? hu rfl h
    exact ⟨fun hc => hclose hc ▸ ht, fun _ => ⟨t, ht, hreach⟩⟩

theorem left_of_tokens? {ts : List Bracket.Token} (hs : Inside g s)
    (h : Bracket.tokens? s = some (ts, r)) : Left g r := by
  fun_induction Bracket.tokens? s generalizing ts with
  | case1 => cases h
  | case2 s t ht =>
    obtain ⟨-, rfl⟩ := Prod.mk.inj (Option.some.inj h)
    exact (inside_of_token? hstars hs ht).1 rfl
  | case3 s tok t hclose ht ih =>
    obtain ⟨⟨ts', r'⟩, hr, h⟩ := Option.map_eq_some_iff.1 h
    obtain ⟨-, rfl⟩ := Prod.mk.inj h
    exact ih ((inside_of_token? hstars hs ht).2 hclose) hr

theorem left_of_set? {complemented : Bool} {q : ByteSet} (hs : Inside g s)
    (h : Bracket.set? complemented s = some (q, r)) : Left g r := by
  obtain ⟨⟨ts, t⟩, ht, h⟩ := Option.bind_eq_some_iff.1 h
  obtain ⟨is, -, h⟩ := Option.map_eq_some_iff.1 h
  obtain ⟨-, rfl⟩ := Prod.mk.inj h
  exact left_of_tokens? hstars hs ht

/-- A bracket ends where an element of the glob does. -/
theorem left_of_parse? {q : ByteSet} (hu : closeBracket ∉ u) (ht : Left g t)
    (hs : u ++ closeBracket :: t = s) (h : Bracket.parse? s = some (q, r)) : Left g r := by
  unfold Bracket.parse? at h
  split at h
  · obtain ⟨v, hv, rfl⟩ := Bracket.exists_ahead hu hs (by decide)
    exact left_of_set? hstars ⟨t, ht, .ahead hv⟩ h
  · subst hs
    exact left_of_set? hstars ⟨t, ht, .ahead hu⟩ h

end

/-! ## The elements of a glob -/

open Regex

variable {g g' s t r : Text} {start : Bool} {p q : ByteSet} {x : Regex}

/-- A star that is left over belongs to the set before it. -/
theorem Left.starred (q : ByteSet) (ht : Left g t) :
    (∃ start g', g' <:+ g ∧ (starred q t).2 = Glob.written start g') ∧
      ∀ b, (starred q t).1.mentions b = q.contains b := by
  cases ht with
  | @written start g' h =>
    rw [starred_of_head? (head?_written start g')]
    exact ⟨⟨start, g', h, rfl⟩, fun _ => rfl⟩
  | @star g' h => exact ⟨⟨false, g', h, rfl⟩, fun _ => rfl⟩

theorem head?_written_ne_openParen (hstars : ∀ s, ¬asterisk :: asterisk :: s <:+ g)
    (hg : g' <:+ g) : (written start g').head? ≠ some openParen := by
  fun_cases written start g' with
  | case2 | case3 | case4 => exact absurd hg (hstars _)
  | case8 => exact head?_escaped _ _
  | case11 => exact head?_plain _ _
  | _ =>
    intro h
    cases h

theorem left_of_set?_eq (hp : set? s = some (p, t)) (ht : Left g t)
    (hslash : p.contains slash = false) (h : set? s = some (q, r)) :
    Left g r ∧ (q.contains slash = true → leadingBracket? s = some q) := by
  rw [hp] at h
  obtain ⟨rfl, rfl⟩ := Prod.mk.inj (Option.some.inj h)
  exact ⟨ht, fun hq => absurd hq (Bool.eq_false_iff.1 hslash)⟩

theorem contains_single_slash {b : UInt8} (hb : b ∈ g) (hg : slash ∉ g) :
    (ByteSet.single b).contains slash = false := by
  rw [ByteSet.contains_single, beq_eq_false_iff_ne]
  rintro rfl
  exact hg hb

section

variable (hstars : ∀ s, ¬asterisk :: asterisk :: s <:+ g) (hslash : slash ∉ g)
include hstars hslash

theorem left_of_set?_written (hg : g' <:+ g) (h : set? (written start g') = some (q, r)) :
    Left g r ∧ (q.contains slash = true → leadingBracket? (written start g') = some q) := by
  revert h
  fun_cases written start g' with
  | case1 | case7 =>
    intro h
    cases h
  | case2 | case3 | case4 => exact absurd hg (hstars _)
  | case5 s =>
    have ht := (List.suffix_cons _ s).trans hg
    exact left_of_set?_eq (set?_inName (asterisk :: written false s)) (.star ht) (by decide)
  | case6 s =>
    have ht := (List.suffix_cons _ s).trans hg
    exact left_of_set?_eq (set?_inName _) (.written false ht) (by decide)
  | case8 b s =>
    have ht := ((List.suffix_cons b s).trans (List.suffix_cons _ _)).trans hg
    exact left_of_set?_eq (set?_escaped b _) (.written _ ht)
      (contains_single_slash (hg.subset (by simp)) hslash)
  | case9 s =>
    have ht := ((afterBracket_suffix s).trans (List.suffix_cons _ s)).trans hg
    intro h
    refine ⟨left_of_parse? hstars (closeBracket_not_mem_bracketText s) (.written false ht) rfl h,
      fun _ => ?_⟩
    exact congrArg (Option.map (·.1)) h
  | case10 s =>
    have ht := (List.suffix_cons _ s).trans hg
    exact left_of_set?_eq (set?_backslash openBracket _) (.written _ ht) (by decide)
  | case11 b s _ _ _ _ hlone hcons ho =>
    have ht := (List.suffix_cons b s).trans hg
    exact left_of_set?_eq (set?_plain _ ho (ne_backslash hlone hcons)) (.written _ ht)
      (contains_single_slash (hg.subset List.mem_cons_self) hslash)

theorem part?_written (hg : g' <:+ g) (h : part? (written start g') = some (x, r)) :
    (∃ start' g'', g'' <:+ g ∧ r = written start' g'') ∧
      (x.mentions slash = true →
        ∃ q, leadingBracket? (written start g') = some q ∧ q.contains slash = true) := by
  rw [part?_of_head? (head?_written_ne_openParen hstars hg)] at h
  obtain ⟨⟨q, t⟩, hs, h⟩ := Option.map_eq_some_iff.1 h
  obtain ⟨hleft, hbracket⟩ := left_of_set?_written hstars hslash hg hs
  obtain ⟨hrest, hmentions⟩ := hleft.starred q
  rw [h] at hrest hmentions
  refine ⟨hrest, fun hx => ?_⟩
  rw [hmentions] at hx
  exact ⟨q, hbracket hx, hx⟩

/-- Of a glob without a slash and without `**`, only a bracket reads a slash. -/
theorem mentions_slash_of_parse? (hb : ∀ q ∈ brackets s, q.contains slash = false)
    (hs : ∃ start g', g' <:+ g ∧ s = written start g') (h : parse? s = some x) :
    x.mentions slash = false := by
  fun_induction parse? s generalizing x with
  | case1 =>
    obtain rfl := Option.some.inj h
    rfl
  | case2 => cases h
  | case3 s hne y rest hpart ih =>
    obtain ⟨z, hz, rfl⟩ := Option.map_eq_some_iff.1 h
    obtain ⟨start, g', hg, rfl⟩ := hs
    rw [brackets_of_part? hne hpart, List.forall_mem_append] at hb
    obtain ⟨hrest, hy⟩ := part?_written hstars hslash hg hpart
    rw [mentions, ih hb.2 hrest hz, Bool.or_false]
    rw [Bool.eq_false_iff]
    intro hm
    obtain ⟨q, hq, hcontains⟩ := hy hm
    have hfree := hb.1 q (by rw [hq]; exact List.mem_singleton_self q)
    rw [hfree] at hcontains
    cases hcontains

end

end SourceBundle.Ignore.Glob
