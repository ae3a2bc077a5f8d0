import SourceBundle.Proofs.Regex.Parser
/-!
# Where a bracket ends

A token inside a bracket takes a closing bracket along only as the last of its bytes: after a
backslash, or at the end of a named item. So whatever is read before a closing bracket ends before
it or with it.
-/
namespace SourceBundle

open Text

namespace Bracket

/-! ## Single tokens -/

theorem token?_of_ne {b : UInt8} (s : Text) (hc : b ≠ closeBracket) (hd : b ≠ dash)
    (hb : b ≠ backslash) (ho : b ≠ openBracket) : token? (b :: s) = some (.char b, s) := by
  unfold token?
  dsimp only
  rw [if_neg hc, if_neg hd, if_neg hb, if_neg ho]

theorem token?_backslash (s : Text) : token? (backslash :: s) = escapeToken? s := by
  unfold token?
  dsimp only
  rw [if_neg (by decide), if_neg (by decide), if_pos rfl]

theorem ne_of_not_alphanumeric {b c : UInt8} (hb : isAlphanumeric b = false)
    (hc : isAlphanumeric c = true) : b ≠ c := by
  rintro rfl
  rw [hb] at hc
  cases hc

theorem escape?_of_not_alphanumeric {b : UInt8} (hb : isAlphanumeric b = false) :
    escape? b = some (.char b) := by
  fun_cases escape? b with
  | case2 _ h =>
    rw [Bool.or_eq_true, decide_eq_true_eq] at h
    rcases h with h | rfl
    · rw [isAlphanumeric, h, Bool.or_true] at hb
      cases hb
    · cases hb
  | case15 => rfl
  | _ =>
    subst_vars
    cases hb

/-- A backslash before a byte without a meaning takes that byte alone. -/
theorem escapeToken?_of_not_alphanumeric {b : UInt8} (s : Text) (hb : isAlphanumeric b = false) :
    escapeToken? (b :: s) = some (.char b, s) := by
  have hne {c : UInt8} (hc : isAlphanumeric c = true) : b ≠ c := ne_of_not_alphanumeric hb hc
  unfold escapeToken?
  split
  · next h => exact absurd (List.cons_eq_cons.1 h).1 (hne rfl)
  · next h => exact absurd (List.cons_eq_cons.1 h).1 (hne rfl)
  · next h => exact absurd (List.cons_eq_cons.1 h).1 (hne rfl)
  · next h =>
    obtain ⟨rfl, rfl⟩ := List.cons_eq_cons.1 h
    rw [if_neg (by simp [hne (c := 0x63) rfl, hne (c := 0x78) rfl, hne (c := 0x75) rfl]),
      escape?_of_not_alphanumeric hb]
    rfl
  · next h => cases h

/-! ## Only the closing bracket closes -/

theorem escape?_ne_close (b : UInt8) : escape? b ≠ some .close := by
  fun_cases escape? b <;> exact nofun

theorem escapeToken?_ne_close (s r : Text) : escapeToken? s ≠ some (.close, r) := by
  fun_cases escapeToken? s with
  | case5 b s =>
    intro h
    obtain ⟨t, ht, h⟩ := Option.bind_eq_some_iff.1 h
    obtain ⟨rfl, -⟩ := Prod.mk.inj (Option.some.inj h)
    exact escape?_ne_close b ht
  | _ => simp [Option.bind_eq_some_iff]

theorem namedToken?_ne_close (kind : UInt8) (name : Text) :
    namedToken? kind name ≠ some .close := by
  fun_cases namedToken? kind name <;> simp

theorem namedItem?_ne_close (kind : UInt8) (s r : Text) :
    namedItem? kind s ≠ some (.close, r) := by
  fun_cases namedItem? kind s with
  | case1 =>
    intro h
    obtain ⟨t, ht, h⟩ := Option.bind_eq_some_iff.1 h
    obtain ⟨rfl, -⟩ := Prod.mk.inj (Option.some.inj h)
    exact namedToken?_ne_close _ _ ht
  | case2 => exact nofun

theorem eq_cons_of_token?_close {s r : Text} (h : token? s = some (.close, r)) :
    s = closeBracket :: r := by
  revert h
  fun_cases token? s with
  | case2 s => simp
  | case4 s => exact fun h => absurd h (escapeToken?_ne_close s r)
  | case6 k s => exact fun h => absurd h (namedItem?_ne_close k s r)
  | _ => simp

/-! ## Up to a closing bracket -/

/-- That a text is what follows a closing bracket, or has that bracket ahead. -/
inductive Reaches (t : Text) : Text → Prop
  | past : Reaches t t
  | ahead {u : Text} (hu : closeBracket ∉ u) : Reaches t (u ++ closeBracket :: t)

variable {u t s r : Text} {tok : Token}

/-- Another byte than a closing bracket stands before it. -/
theorem exists_ahead {b : UInt8} (hu : closeBracket ∉ u) (h : u ++ closeBracket :: t = b :: s)
    (hb : b ≠ closeBracket) : ∃ v, closeBracket ∉ v ∧ v ++ closeBracket :: t = s := by
  cases u with
  | nil => exact absurd (List.cons_eq_cons.1 h).1.symm hb
  | cons c v =>
    rw [List.mem_cons, not_or] at hu
    exact ⟨v, hu.2, (List.cons_eq_cons.1 h).2⟩

theorem Reaches.of_cons {b : UInt8} (hu : closeBracket ∉ u)
    (h : u ++ closeBracket :: t = b :: s) : Reaches t s := by
  by_cases hb : b = closeBracket
  · subst hb
    cases u with
    | nil =>
      obtain ⟨-, rfl⟩ := List.cons_eq_cons.1 h
      exact .past
    | cons c v => exact absurd ((List.cons_eq_cons.1 h).1 ▸ List.mem_cons_self) hu
  · obtain ⟨v, hv, rfl⟩ := exists_ahead hu h hb
    exact .ahead hv

theorem ne_closeBracket_of_hexByte? {a b x : UInt8} (h : hexByte? a b = some x) :
    a ≠ closeBracket ∧ b ≠ closeBracket := by
  obtain ⟨y, hy, h⟩ := Option.bind_eq_some_iff.1 h
  obtain ⟨z, hz, -⟩ := Option.bind_eq_some_iff.1 h
  constructor
  · rintro rfl
    cases hy
  · rintro rfl
    cases hz

theorem reaches_of_escapeToken? (hu : closeBracket ∉ u) (hs : u ++ closeBracket :: t = s)
    (h : escapeToken? s = some (tok, r)) : Reaches t r := by
  revert h
  fun_cases escapeToken? s with
  | case1 b s =>
    intro h
    obtain ⟨-, rfl⟩ := Prod.mk.inj (Option.some.inj h)
    obtain ⟨v, hv, hs⟩ := exists_ahead hu hs (by decide)
    exact .of_cons hv hs
  | case2 a b s =>
    intro h
    obtain ⟨x, hx, h⟩ := Option.bind_eq_some_iff.1 h
    obtain ⟨-, rfl⟩ := Prod.mk.inj (Option.some.inj h)
    obtain ⟨ha, -⟩ := ne_closeBracket_of_hexByte? hx
    obtain ⟨v, hv, hs⟩ := exists_ahead hu hs (by decide)
    obtain ⟨v, hv, hs⟩ := exists_ahead hv hs ha
    exact .of_cons hv hs
  | case3 a b c d s =>
    intro h
    obtain ⟨x, hx, h⟩ := Option.bind_eq_some_iff.1 h
    obtain ⟨y, hy, h⟩ := Option.bind_eq_some_iff.1 h
    obtain ⟨-, rfl⟩ := Prod.mk.inj (Option.some.inj h)
    obtain ⟨ha, hb⟩ := ne_closeBracket_of_hexByte? hx
    obtain ⟨hc, -⟩ := ne_closeBracket_of_hexByte? hy
    obtain ⟨v, hv, hs⟩ := exists_ahead hu hs (by decide)
    obtain ⟨v, hv, hs⟩ := exists_ahead hv hs ha
    obtain ⟨v, hv, hs⟩ := exists_ahead hv hs hb
    obtain ⟨v, hv, hs⟩ := exists_ahead hv hs hc
    exact .of_cons hv hs
  | case4 => exact nofun
  | case5 b s =>
    intro h
    obtain ⟨x, -, h⟩ := Option.bind_eq_some_iff.1 h
    obtain ⟨-, rfl⟩ := Prod.mk.inj (Option.some.inj h)
    exact .of_cons hu hs
  | case6 => exact nofun

/-- No name of a byte or of a class has a closing bracket in it. -/
theorem closeBracket_not_mem_of_namedToken? {kind : UInt8} {name : Text}
    (h : namedToken? kind name = some tok) : closeBracket ∉ name := by
  have hbytes : ∀ n ∈ byteNames, closeBracket ∉ n := by decide +kernel
  have hclasses : ∀ n ∈ ByteClass.names.map (·.1), closeBracket ∉ n := by decide +kernel
  have hbyte {x : UInt8} (hx : byteNamed? name = some x) : closeBracket ∉ name := by
    obtain ⟨n, hn, -⟩ := Option.map_eq_some_iff.1 hx
    refine hbytes name ?_
    rw [← List.isSome_idxOf?, hn]
    rfl
  unfold namedToken? at h
  split at h
  · obtain ⟨x, hx, -⟩ := Option.map_eq_some_iff.1 h
    exact hbyte hx
  · split at h
    · obtain ⟨x, hx, -⟩ := Option.map_eq_some_iff.1 h
      exact hbyte hx
    · obtain ⟨c, hc, -⟩ := Option.map_eq_some_iff.1 h
      intro hmem
      refine hclasses (name.map toLower) ?_ (List.mem_map.2 ⟨closeBracket, hmem, rfl⟩)
      obtain ⟨_, _, hnames, -⟩ := List.lookup_eq_some_iff.1 hc
      rw [hnames]
      simp

/-- Where the first closing bracket stands is read off the text alone. -/
theorem eq_of_append_closeBracket {v : Text} (hu : closeBracket ∉ u) (hv : closeBracket ∉ v)
    (h : u ++ closeBracket :: t = v ++ closeBracket :: r) : t = r := by
  induction v generalizing u with
  | nil =>
    cases u with
    | nil => exact (List.cons_eq_cons.1 h).2
    | cons b u => exact absurd ((List.cons_eq_cons.1 h).1 ▸ List.mem_cons_self) hu
  | cons b v ih =>
    rw [List.mem_cons, not_or] at hv
    obtain ⟨w, hw, h⟩ := exists_ahead hu h (Ne.symm hv.1)
    exact ih hw hv.2 h

theorem reaches_of_namedItem? {kind : UInt8} (hk : kind ≠ closeBracket) (hu : closeBracket ∉ u)
    (hs : u ++ closeBracket :: t = s) (h : namedItem? kind s = some (tok, r)) : Reaches t r := by
  revert h
  fun_cases namedItem? kind s with
  | case1 k rest hdrop =>
    intro h
    obtain ⟨x, hx, h⟩ := Option.bind_eq_some_iff.1 h
    obtain ⟨-, rfl⟩ := Prod.mk.inj (Option.some.inj h)
    -- The text is the name, the byte that ends it, and a closing bracket.
    have hname := closeBracket_not_mem_of_namedToken? hx
    have hkind : k = kind := by
      have := List.head?_dropWhile_not (· != kind) s
      simpa [hdrop] using this
    have hcut : s = (s.takeWhile (· != kind) ++ [k]) ++ closeBracket :: rest := by
      have := (List.takeWhile_append_dropWhile (p := (· != kind)) (l := s)).symm
      rw [hdrop] at this
      simpa using this
    have hbefore : closeBracket ∉ s.takeWhile (· != kind) ++ [k] := by
      rw [List.mem_append, List.mem_singleton, not_or, hkind]
      exact ⟨hname, hk.symm⟩
    rw [eq_of_append_closeBracket hu hbefore (hs.trans hcut)]
    exact .past
  | case2 => exact nofun

/-- A token that starts before a closing bracket ends before it or with it, and only the bracket
itself closes. -/
theorem reaches_of_token? (hu : closeBracket ∉ u) (hs : u ++ closeBracket :: t = s)
    (h : token? s = some (tok, r)) : Reaches t r ∧ (tok = .close → r = t) := by
  refine ⟨?_, ?_⟩
  · revert h
    fun_cases token? s with
    | case1 => exact nofun
    | case4 s =>
      intro h
      obtain ⟨v, hv, hs⟩ := exists_ahead hu hs (by decide)
      exact reaches_of_escapeToken? hv hs h
    | case5 => exact nofun
    | case6 k s hk =>
      intro h
      have hne : k ≠ closeBracket := by
        rintro rfl
        cases hk
      obtain ⟨v, hv, hs⟩ := exists_ahead hu hs (by decide)
      obtain ⟨v, hv, hs⟩ := exists_ahead hv hs hne
      exact reaches_of_namedItem? hne hv hs h
    | case2 s | case3 s | case7 k s | case8 b s =>
      intro h
      obtain ⟨-, rfl⟩ := Prod.mk.inj (Option.some.inj h)
      exact .of_cons hu hs
  · rintro rfl
    have hclose := eq_cons_of_token?_close h
    exact (eq_of_append_closeBracket (v := []) hu List.not_mem_nil (hs.trans hclose)).symm

end Bracket

/-! ## The brackets of a text -/

namespace Regex

/-- The set of a bracket that the text starts with. -/
def leadingBracket? : Text → Option ByteSet
  | openBracket :: s => (Bracket.parse? s).map (·.1)
  | _ => none

/-- The sets of the brackets that are met when a text is read, in order. -/
def brackets (s : Text) : List ByteSet :=
  if _hs : s = [] then []
  else
    match _h : part? s with
    | none => []
    | some (_, rest) => (leadingBracket? s).toList ++ brackets rest
termination_by s.length
decreasing_by exact length_of_part? _hs _h

theorem brackets_of_part? {s t : Text} {r : Regex} (hs : s ≠ []) (h : part? s = some (r, t)) :
    brackets s = (leadingBracket? s).toList ++ brackets t := by
  rw [brackets, dif_neg hs]
  split
  · next hn =>
    rw [h] at hn
    cases hn
  · next hn =>
    rw [h, Option.some.injEq, Prod.mk.injEq] at hn
    rw [hn.2]

end Regex
end SourceBundle
