import SourceBundle.Json.Basic
import SourceBundle.Text.Utf8
/-!
# JSON tokens

Punctuation, words, strings and numbers. Every token takes at least one byte.
-/
namespace SourceBundle.Json

open Text

inductive Token where
  | openBrace
  | closeBrace
  | openBracket
  | closeBracket
  | comma
  | colon
  /-- A string, a number or one of the three words. -/
  | scalar (v : Json)

/-! ## Strings -/

@[match_pattern] abbrev quote : UInt8 := 0x22

def hexDigit? (b : UInt8) : Option Nat :=
  if isDigit b then some (b.toNat - 0x30)
  else if 0x61 ≤ toLower b && toLower b ≤ 0x66 then some ((toLower b).toNat - 0x57)
  else none

def hexNumber? (a b c d : UInt8) : Option Nat := do
  return (((← hexDigit? a) * 16 + (← hexDigit? b)) * 16 + (← hexDigit? c)) * 16 + (← hexDigit? d)

/-- The byte that a one-letter escape stands for. -/
def shortEscape? (b : UInt8) : Option UInt8 :=
  if b = quote || b = backslash || b = slash then some b
  else if b = 0x62 then some 0x08
  else if b = 0x66 then some 0x0C
  else if b = 0x6E then some 0x0A
  else if b = 0x72 then some 0x0D
  else if b = 0x74 then some 0x09
  else none

/-- The character whose first unit of 16 bits is `n`. A high surrogate needs the low one after it,
and a low one cannot come first. -/
def unitEscape? (n : Nat) (s : Text) : Option (Text × Text) :=
  if 0xD800 ≤ n && n ≤ 0xDBFF then
    match s with
    | backslash :: 0x75 :: a :: b :: c :: d :: s => do
      let low ← hexNumber? a b c d
      if 0xDC00 ≤ low && low ≤ 0xDFFF then
        return (ofScalar (0x10000 + (n - 0xD800) * 0x400 + (low - 0xDC00)), s)
      else none
    | _ => none
  else if 0xDC00 ≤ n && n ≤ 0xDFFF then none
  else some (ofScalar n, s)

/-- What an escape stands for, and the text after it. The text starts after the backslash. -/
def escape? : Text → Option (Text × Text)
  | 0x75 :: a :: b :: c :: d :: s => do unitEscape? (← hexNumber? a b c d) s
  | b :: s => do return ([← shortEscape? b], s)
  | [] => none

theorem length_of_unitEscape? {n : Nat} {s r c : Text} (h : unitEscape? n s = some (c, r)) :
    r.length ≤ s.length := by
  unfold unitEscape? at h
  split at h
  · split at h
    · obtain ⟨low, -, h⟩ := Option.bind_eq_some_iff.1 h
      split at h
      · simp only [pure, Option.some.injEq, Prod.mk.injEq] at h
        simp only [← h.2, List.length_cons]
        omega
      · simp at h
    · simp at h
  · split at h
    · simp at h
    · simp only [Option.some.injEq, Prod.mk.injEq] at h
      simp [h.2]

theorem length_of_escape? {s r c : Text} (h : escape? s = some (c, r)) : r.length < s.length := by
  unfold escape? at h
  split at h
  · obtain ⟨n, -, h⟩ := Option.bind_eq_some_iff.1 h
    have := length_of_unitEscape? h
    simp only [List.length_cons]
    omega
  · obtain ⟨b, -, h⟩ := Option.bind_eq_some_iff.1 h
    simp only [pure, Option.some.injEq, Prod.mk.injEq] at h
    simp [← h.2]
  · simp at h

/-- The rest of a string after its opening quote, and the text after the closing one; `done` holds
what has been read, last byte first. Control characters have to be escaped. -/
def stringRest? (done : Text) : Text → Option (Text × Text)
  | [] => none
  | b :: s =>
    if b = quote then some (done.reverse, s)
    else if b = backslash then
      match _h : escape? s with
      | none => none
      | some (c, r) => stringRest? (c.reverse ++ done) r
    else if b < 0x20 then none
    else stringRest? (b :: done) s
termination_by s => s.length
decreasing_by
  · have := length_of_escape? _h
    simp only [List.length_cons]
    omega
  · simp

theorem length_of_stringRest? {done s t r : Text} (h : stringRest? done s = some (t, r)) :
    r.length < s.length := by
  fun_induction stringRest? done s with
  | case1 => simp at h
  | case2 =>
    simp only [Option.some.injEq, Prod.mk.injEq] at h
    simp [h.2]
  | case3 => simp at h
  | case4 done s c r' he _ ih =>
    have := ih h
    have := length_of_escape? he
    simp only [List.length_cons]
    omega
  | case5 => simp at h
  | case6 done b s _ _ _ ih =>
    have := ih h
    simp only [List.length_cons]
    omega

/-! ## Numbers -/

def naturalOf (ds : Text) : Nat := ds.foldl (fun n d => 10 * n + (d.toNat - 0x30)) 0

/-- The digits at the start of the text, of which there must be one, and the text after them. -/
def digits? (s : Text) : Option (Text × Text) :=
  match s.takeWhile isDigit with
  | [] => none
  | d :: ds => some (d :: ds, s.dropWhile isDigit)

/-- A whole part has no leading zero. -/
def wholeDigits? : Text → Option (Text × Text)
  | 0x30 :: s => some ([0x30], s)
  | s => digits? s

/-- The digits after a point; none without a point. -/
def fraction? : Text → Option (Text × Text)
  | dot :: s => digits? s
  | s => some ([], s)

/-- The power of ten after an `e`; zero without one. -/
def exponent? : Text → Option (Int × Text)
  | e :: s =>
    if toLower e = 0x65 then
      match s with
      | dash :: s => (digits? s).map fun p => (-naturalOf p.1, p.2)
      | plus :: s => (digits? s).map fun p => (naturalOf p.1, p.2)
      | s => (digits? s).map fun p => (naturalOf p.1, p.2)
    else some (0, e :: s)
  | [] => some (0, [])

/-- The number of these parts: exact when it is written as an integer and fits into 64 bits. A real
number whose nearest double is infinite is refused. -/
def numberOf? (negative : Bool) (whole fraction : Text) (exponent : Int) (isInteger : Bool) :
    Option Number :=
  let n : Int := if negative then -naturalOf whole else naturalOf whole
  if isInteger && -twoTo 63 ≤ n && n < twoTo 64 then some (.integer n)
  else
    let x : Decimal := ⟨negative, naturalOf (whole ++ fraction), exponent - fraction.length⟩
    if x.isFinite then some (.real x) else none

/-- A number without its sign, and the text after it. -/
def magnitude? (negative : Bool) (s : Text) : Option (Number × Text) := do
  let (whole, s₁) ← wholeDigits? s
  let (fraction, s₂) ← fraction? s₁
  let (exponent, s₃) ← exponent? s₂
  return (← numberOf? negative whole fraction exponent (s₃.length == s₁.length), s₃)

def number? : Text → Option (Number × Text)
  | dash :: s => magnitude? true s
  | s => magnitude? false s

theorem length_of_digits? {s ds r : Text} (h : digits? s = some (ds, r)) :
    r.length < s.length := by
  unfold digits? at h
  split at h
  · simp at h
  · next d ds' hd =>
    simp only [Option.some.injEq, Prod.mk.injEq] at h
    have hs := congrArg List.length (List.takeWhile_append_dropWhile (p := isDigit) (l := s))
    rw [hd, List.length_append, List.length_cons, h.2] at hs
    omega

theorem length_of_wholeDigits? {s ds r : Text} (h : wholeDigits? s = some (ds, r)) :
    r.length < s.length := by
  unfold wholeDigits? at h
  split at h
  · simp only [Option.some.injEq, Prod.mk.injEq] at h
    simp [h.2]
  · exact length_of_digits? h

theorem length_of_fraction? {s ds r : Text} (h : fraction? s = some (ds, r)) :
    r.length ≤ s.length := by
  unfold fraction? at h
  split at h
  · have := length_of_digits? h
    simp only [List.length_cons]
    omega
  · simp only [Option.some.injEq, Prod.mk.injEq] at h
    simp [h.2]

theorem length_of_exponent? {s r : Text} {e : Int} (h : exponent? s = some (e, r)) :
    r.length ≤ s.length := by
  unfold exponent? at h
  split at h
  · split at h
    · split at h <;>
      · obtain ⟨p, hp, he⟩ := Option.map_eq_some_iff.1 h
        have := length_of_digits? hp
        simp only [Prod.mk.injEq] at he
        simp only [List.length_cons, ← he.2] at this ⊢
        omega
    · simp only [Option.some.injEq, Prod.mk.injEq] at h
      simp [← h.2]
  · simp only [Option.some.injEq, Prod.mk.injEq] at h
    simp [← h.2]

theorem length_of_number? {s r : Text} {n : Number} (h : number? s = some (n, r)) :
    r.length < s.length := by
  have key : ∀ {negative : Bool} {u : Text}, magnitude? negative u = some (n, r) →
      r.length < u.length := by
    intro negative u hu
    obtain ⟨⟨w, s₁⟩, h₁, hu⟩ := Option.bind_eq_some_iff.1 hu
    obtain ⟨⟨f, s₂⟩, h₂, hu⟩ := Option.bind_eq_some_iff.1 hu
    obtain ⟨⟨e, s₃⟩, h₃, hu⟩ := Option.bind_eq_some_iff.1 hu
    obtain ⟨x, -, hu⟩ := Option.bind_eq_some_iff.1 hu
    have := length_of_wholeDigits? h₁
    have := length_of_fraction? h₂
    have := length_of_exponent? h₃
    simp only [pure, Option.some.injEq, Prod.mk.injEq] at hu
    rw [← hu.2]
    omega
  unfold number? at h
  split at h
  · have := key h
    simp only [List.length_cons]
    omega
  · exact key h

/-! ## Tokens -/

/-- The words and what they stand for. -/
def words : List (Text × Json) := [("null", .null), ("true", .bool true), ("false", .bool false)]

/-- The word at the start of the text. -/
def word? (s : Text) : Option (Token × Text) :=
  (words.find? fun w => startsWith w.1 s).map fun w => (.scalar w.2, s.drop w.1.length)

/-- The token that starts with the byte `b`. A string has to be UTF-8; an escape stands for a whole
character, so it makes no difference that escapes are read first. -/
def token? (b : UInt8) (s : Text) : Option (Token × Text) :=
  if b = 0x7B then some (.openBrace, s)
  else if b = 0x7D then some (.closeBrace, s)
  else if b = 0x5B then some (.openBracket, s)
  else if b = 0x5D then some (.closeBracket, s)
  else if b = 0x2C then some (.comma, s)
  else if b = 0x3A then some (.colon, s)
  else if b = quote then
    ((stringRest? [] s).filter fun p => isUtf8 p.1).map fun p => (.scalar (.string p.1), p.2)
  else if b = dash || isDigit b then
    (number? (b :: s)).map fun p => (.scalar (.number p.1), p.2)
  else word? (b :: s)

theorem length_of_word? {s r : Text} {t : Token} (h : word? s = some (t, r)) :
    r.length < s.length := by
  obtain ⟨w, hw, he⟩ := Option.map_eq_some_iff.1 h
  have hm := List.mem_of_find?_eq_some hw
  have hp := List.find?_some hw
  simp only [startsWith, List.isPrefixOf_iff_prefix] at hp
  have hl : 0 < w.1.length := by
    simp only [words, List.mem_cons, List.not_mem_nil, or_false] at hm
    rcases hm with rfl | rfl | rfl <;> decide
  have := hp.length_le
  simp only [Prod.mk.injEq] at he
  rw [← he.2, List.length_drop]
  omega

theorem length_of_token? {b : UInt8} {s r : Text} {t : Token} (h : token? b s = some (t, r)) :
    r.length < s.length + 1 := by
  unfold token? at h
  iterate 6
    split at h
    · simp only [Option.some.injEq, Prod.mk.injEq] at h
      simp [h.2]
  split at h
  · obtain ⟨p, hp, he⟩ := Option.map_eq_some_iff.1 h
    have := length_of_stringRest? (Option.filter_eq_some_iff.1 hp).1
    simp only [Prod.mk.injEq] at he
    rw [← he.2]
    omega
  · split at h
    · obtain ⟨p, hp, he⟩ := Option.map_eq_some_iff.1 h
      have := length_of_number? hp
      simp only [Prod.mk.injEq] at he
      rw [← he.2]
      simpa using this
    · simpa using length_of_word? h

end SourceBundle.Json
