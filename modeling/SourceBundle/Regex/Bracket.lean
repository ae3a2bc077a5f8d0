import SourceBundle.Regex.ByteSet
/-!
# Bracket expressions

Reading `[...]`. The text is cut into tokens up to the closing bracket, and the tokens are then
gathered into items. A bracket closes at the first `]` that is not escaped and not part of a named
item, so `[]` is the empty set and `[^]` the full one.
-/
namespace SourceBundle.Bracket

open Text

/-! ## Names of bytes -/

/-- The names of the bytes 0 to 127, in order. -/
def byteNames : List Text :=
  (["NUL", "SOH", "STX", "ETX", "EOT", "ENQ", "ACK", "alert", "backspace", "tab", "newline",
    "vertical-tab", "form-feed", "carriage-return", "SO", "SI", "DLE", "DC1", "DC2", "DC3", "DC4",
    "NAK", "SYN", "ETB", "CAN", "EM", "SUB", "ESC", "IS4", "IS3", "IS2", "IS1", "space",
    "exclamation-mark", "quotation-mark", "number-sign", "dollar-sign", "percent-sign",
    "ampersand", "apostrophe", "left-parenthesis", "right-parenthesis", "asterisk", "plus-sign",
    "comma", "hyphen", "period", "slash", "zero", "one", "two", "three", "four", "five", "six",
    "seven", "eight", "nine", "colon", "semicolon", "less-than-sign", "equals-sign",
    "greater-than-sign", "question-mark", "commercial-at", "A", "B", "C", "D", "E", "F", "G", "H",
    "I", "J", "K", "L", "M", "N", "O", "P", "Q", "R", "S", "T", "U", "V", "W", "X", "Y", "Z",
    "left-square-bracket", "backslash", "right-square-bracket", "circumflex", "underscore",
    "grave-accent", "a", "b", "c", "d", "e", "f", "g", "h", "i", "j", "k", "l", "m", "n", "o",
    "p", "q", "r", "s", "t", "u", "v", "w", "x", "y", "z", "left-curly-bracket", "vertical-line",
    "right-curly-bracket", "tilde", "DEL"] : List String).map ofString

def byteNamed? (name : Text) : Option UInt8 := (byteNames.idxOf? name).map UInt8.ofNat

/-! ## Tokens -/

inductive Token where
  /-- The closing bracket. -/
  | close
  | dash
  | char (b : UInt8)
  /-- A byte given by name, as in `[.space.]`. It may start a range but not end one. -/
  | named (b : UInt8)
  /-- A class or another item that cannot be the end of a range. -/
  | item (i : ByteItem)
  deriving DecidableEq, Repr

def hexValue? (b : UInt8) : Option UInt8 :=
  if isDigit b then some (b - 0x30)
  else if 0x61 ≤ toLower b && toLower b ≤ 0x66 then some (toLower b - 0x57)
  else none

/-- The byte with two hexadecimal digits. -/
def hexByte? (high low : UInt8) : Option UInt8 := do
  return 16 * (← hexValue? high) + (← hexValue? low)

/-- The item that `open name close` stands for, by the byte beside the brackets. -/
def namedToken? (kind : UInt8) (name : Text) : Option Token :=
  if kind = dot then (byteNamed? name).map .named
  else if kind = equals then (byteNamed? name).map fun b => .item (.caseless b)
  else (ByteClass.ofName? name).map fun c => .item (.within c)

/-- What an escaped byte stands for when it takes no further bytes. Digits other than `0`, and `B`,
stand for nothing; a byte without a meaning stands for itself. -/
def escape? (b : UInt8) : Option Token :=
  if b = 0x30 then some (.char 0x00)
  else if isDigit b || b = 0x42 then none
  else if b = 0x62 then some (.char 0x08)
  else if b = 0x66 then some (.char 0x0C)
  else if b = 0x6E then some (.char 0x0A)
  else if b = 0x72 then some (.char 0x0D)
  else if b = 0x74 then some (.char 0x09)
  else if b = 0x76 then some (.char 0x0B)
  else if b = 0x64 then some (.item (.within .digit))
  else if b = 0x44 then some (.item (.outside .digit))
  else if b = 0x73 then some (.item (.within .space))
  else if b = 0x53 then some (.item (.outside .space))
  else if b = 0x77 then some (.item (.within .word))
  else if b = 0x57 then some (.item (.outside .word))
  else some (.char b)

/-- The token after a backslash. `\c` takes the next byte as it is, `\x` two hexadecimal digits, and
`\u` four, of which the last two count. -/
def escapeToken? : Text → Option (Token × Text)
  | 0x63 :: b :: s => some (.char b, s)
  | 0x78 :: x :: y :: s => do return (.char (← hexByte? x y), s)
  | 0x75 :: x :: y :: z :: w :: s => do
    let _ ← hexByte? x y
    return (.char (← hexByte? z w), s)
  | b :: s =>
    if b = 0x63 || b = 0x78 || b = 0x75 then none else do return (← escape? b, s)
  | [] => none

/-- The rest of `[.name.]`, `[=name=]` or `[:name:]` after the opening pair. -/
def namedItem? (kind : UInt8) (s : Text) : Option (Token × Text) :=
  match s.dropWhile (· != kind) with
  | _ :: closeBracket :: rest => do
    return (← namedToken? kind (s.takeWhile (· != kind)), rest)
  | _ => none

/-- The first token of the text inside a bracket. -/
def token? : Text → Option (Token × Text)
  | [] => none
  | b :: s =>
    if b = closeBracket then some (.close, s)
    else if b = dash then some (.dash, s)
    else if b = backslash then escapeToken? s
    else if b = openBracket then
      match s with
      | [] => none
      | k :: r => if k = dot || k = equals || k = colon then namedItem? k r else some (.char b, s)
    else some (.char b, s)

theorem length_of_escapeToken? {s r : Text} {t : Token} (h : escapeToken? s = some (t, r)) :
    r.length < s.length := by
  unfold escapeToken? at h
  split at h <;> simp [Option.bind_eq_some_iff] at h <;> simp <;> grind

theorem length_of_namedItem? {k : UInt8} {s r : Text} {t : Token}
    (h : namedItem? k s = some (t, r)) : r.length < s.length := by
  unfold namedItem? at h
  split at h
  · next d rest hd =>
    simp only [bind, Option.bind] at h
    have hl := (List.dropWhile_sublist (l := s) (· != k)).length_le
    rw [hd] at hl
    simp only [List.length_cons] at hl
    split at h
    · simp at h
    · simp only [pure, Option.some.injEq, Prod.mk.injEq] at h
      rw [← h.2]
      omega
  · simp at h

/-- A token takes at least one byte. -/
theorem length_of_token? {s r : Text} {t : Token} (h : token? s = some (t, r)) :
    r.length < s.length := by
  unfold token? at h
  split at h
  · simp at h
  · split at h
    · grind
    · split at h
      · grind
      · split at h
        · have := length_of_escapeToken? h
          simp only [List.length_cons]
          omega
        · split at h
          · split at h
            · simp at h
            · split at h
              · have := length_of_namedItem? h
                simp only [List.length_cons]
                omega
              · grind
          · grind

/-- The tokens up to the closing bracket, which is left out, and the text after it. -/
def tokens? (s : Text) : Option (List Token × Text) :=
  match _h : token? s with
  | none => none
  | some (.close, r) => some ([], r)
  | some (t, r) => (tokens? r).map fun p => (t :: p.1, p.2)
termination_by s.length
decreasing_by exact length_of_token? _h

theorem length_of_tokens? {s r : Text} {ts : List Token} (h : tokens? s = some (ts, r)) :
    r.length < s.length := by
  fun_induction tokens? s generalizing ts with
  | case1 => simp at h
  | case2 s r' ht =>
    simp only [Option.some.injEq, Prod.mk.injEq] at h
    exact h.2 ▸ length_of_token? ht
  | case3 s t r' _ ht ih =>
    obtain ⟨⟨ts', r''⟩, h₁, h₂⟩ := Option.map_eq_some_iff.1 h
    simp only [Prod.mk.injEq] at h₂
    have := ih (h₂.2 ▸ h₁)
    have := length_of_token? ht
    omega

/-! ## Items -/

/-- What the last token leaves for a dash to work on. -/
inductive Pending where
  | nothing
  /-- A byte not yet in the set: it may start a range. -/
  | char (b : UInt8)
  /-- A class, which cannot start a range. -/
  | item
  deriving DecidableEq, Repr

def Pending.items : Pending → List ByteItem
  | .char b => [.byte b]
  | _ => []

/-- The items of a list of tokens. A range needs a byte on either side, in order as signed bytes. A
dash is an ordinary byte at the end and where nothing is pending. -/
def items? : Pending → List Token → Option (List ByteItem)
  | p, [] => some p.items
  | p, [.dash] => some (p.items ++ [.byte dash])
  | .char low, .dash :: .char high :: ts =>
    if low.toInt8 ≤ high.toInt8 then (items? .nothing ts).map (.range low high :: ·) else none
  | .char low, .dash :: .dash :: ts =>
    if low.toInt8 ≤ dash.toInt8 then (items? .nothing ts).map (.range low dash :: ·) else none
  | .nothing, .dash :: ts => items? (.char dash) ts
  | _, .dash :: _ => none
  | p, .char b :: ts => (items? (.char b) ts).map (p.items ++ ·)
  | p, .named b :: ts => (items? (.char b) ts).map (p.items ++ ·)
  | p, .item i :: ts => (items? .item ts).map (p.items ++ i :: ·)
  | _, .close :: _ => none

/-- The set of some tokens, and the text after the closing bracket. -/
def set? (complemented : Bool) (s : Text) : Option (ByteSet × Text) :=
  (tokens? s).bind fun p => (items? .nothing p.1).map fun is => (⟨complemented, is⟩, p.2)

/-- The set written after an opening bracket, and the text after the closing one. -/
def parse? : Text → Option (ByteSet × Text)
  | caret :: s => set? true s
  | s => set? false s

theorem length_of_set? {complemented : Bool} {s r : Text} {p : ByteSet}
    (h : set? complemented s = some (p, r)) : r.length < s.length := by
  obtain ⟨⟨ts, rest⟩, ht, h⟩ := Option.bind_eq_some_iff.1 h
  obtain ⟨is, -, h⟩ := Option.map_eq_some_iff.1 h
  simp only [Prod.mk.injEq] at h
  exact h.2 ▸ length_of_tokens? ht

theorem length_of_parse? {s r : Text} {p : ByteSet} (h : parse? s = some (p, r)) :
    r.length < s.length := by
  unfold parse? at h
  split at h
  · have := length_of_set? h
    simp only [List.length_cons]
    omega
  · exact length_of_set? h

end SourceBundle.Bracket
