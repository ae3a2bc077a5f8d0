import Mathlib.Computability.Language
import SourceBundle.Proofs.Line.Declaration
/-!
# The grammar of declarations

What may stand before the first parenthesis of a declaration, as languages made of words and white
space, and not as expressions. A line declares a function or a member exactly when it is a head of
the right language, a parameter list and perhaps a body.
-/
namespace SourceBundle

open Text

/-! ## The language of an expression -/

namespace Regex

/-- The texts that an expression stands for. -/
def language (r : Regex) : Language UInt8 := {s | r.Accepts s}

theorem mem_language {r : Regex} {s : Text} : s ∈ r.language ↔ r.Accepts s := .rfl

@[simp] theorem language_seq (a b : Regex) : (seq a b).language = a.language * b.language := by
  ext s
  rw [mem_language, Language.mem_mul, accepts_seq]
  constructor
  · rintro ⟨u, v, rfl, hu, hv⟩
    exact ⟨u, hu, v, hv, rfl⟩
  · rintro ⟨u, hu, v, hv, rfl⟩
    exact ⟨u, v, rfl, hu, hv⟩

@[simp] theorem language_alt (a b : Regex) : (alt a b).language = a.language + b.language := rfl

@[simp] theorem language_optional (r : Regex) : (optional r).language = 1 + r.language :=
  add_comm r.language 1

@[simp] theorem language_concat (rs : List Regex) :
    (concat rs).language = (rs.map language).prod := by
  induction rs with
  | nil => rfl
  | cons r rs ih =>
    rw [List.map_cons, List.prod_cons, ← ih]
    exact language_seq r (concat rs)

@[simp] theorem language_literal (t : Text) : (literal t).language = {t} := by
  induction t with
  | nil => rfl
  | cons b t ih =>
    have hcons : (literal (b :: t)).language = (byte b).language * (literal t).language :=
      language_seq (byte b) (literal t)
    ext s
    rw [hcons, ih, Language.mem_mul]
    constructor
    · rintro ⟨u, hu, v, rfl, rfl⟩
      rw [accepts_byte.1 hu]
      rfl
    · rintro rfl
      exact ⟨[b], accepts_byte.2 rfl, t, rfl, rfl⟩

/-- A named class of bytes, any number of times. -/
theorem language_many_ofClass (c : ByteClass) :
    (many (.ofClass c)).language = {s | ∀ b ∈ s, c.contains b = true} := by
  ext s
  simp [mem_language, Accepts]
  rfl

/-- A named class of bytes, at least once. -/
theorem language_many1_ofClass (c : ByteClass) :
    (many1 (.ofClass c)).language = {s | s ≠ [] ∧ ∀ b ∈ s, c.contains b = true} := by
  ext s
  constructor
  · rintro ⟨u, v, rfl, ⟨b, rfl, hb⟩, hv⟩
    rw [ByteSet.contains_ofClass] at hb
    refine ⟨by simp, List.forall_mem_cons.2 ⟨hb, fun d hd => ?_⟩⟩
    simpa using hv d hd
  · rintro ⟨hs, h⟩
    cases s with
    | nil => exact absurd rfl hs
    | cons b s =>
      obtain ⟨hb, hs⟩ := List.forall_mem_cons.1 h
      refine ⟨[b], s, rfl, ⟨b, rfl, by simpa using hb⟩, fun d hd => ?_⟩
      simpa using hs d hd

end Regex

namespace Line

/-! ## Heads -/

namespace Grammar

/-- White space, perhaps none. -/
def blanks : Language UInt8 := {e | ∀ b ∈ e, isSpace b = true}

/-- White space that sets a word off. -/
def gaps : Language UInt8 := {e | e ≠ [] ∧ ∀ b ∈ e, isSpace b = true}

/-- Letters, digits and underscores. -/
def names : Language UInt8 := {n | n ≠ [] ∧ ∀ b ∈ n, isWord b = true}

/-- The word, set off from what follows, or nothing. -/
def optionally (word : Text) : Language UInt8 := 1 + {word} * gaps

/-- `[export] [async] function name` -/
def functionHeads : Language UInt8 :=
  optionally "export" * optionally "async" * {ofString "function"} * gaps * names * blanks

/-- `[export] const|let|var name = [async]` -/
def arrowHeads : Language UInt8 :=
  optionally "export" * ({ofString "const"} + {ofString "let"} + {ofString "var"}) * gaps * names *
    blanks * {ofString "="} * blanks * optionally "async"

/-- `[async] name` -/
def methodHeads : Language UInt8 := optionally "async" * names * blanks

/-- `[async] get name` and `[async] set name` -/
def accessorHeads (word : Text) : Language UInt8 :=
  optionally "async" * {word} * gaps * names * blanks

/-- `[async] get name`, to the end of the name. -/
def bareGetters : Language UInt8 := optionally "async" * {ofString "get"} * gaps * names

/-! ## Heads as expressions -/

@[simp] theorem language_blanks : Line.blanks.language = blanks :=
  Regex.language_many_ofClass .space

@[simp] theorem language_blanks1 : Line.blanks1.language = gaps :=
  Regex.language_many1_ofClass .space

@[simp] theorem language_name : Line.name.language = names :=
  Regex.language_many1_ofClass .word

@[simp] theorem language_keyword (word : Text) : (keyword word).language = {word} * gaps := by
  simp [keyword]

@[simp] theorem language_modifier (word : Text) : (modifier word).language = optionally word := by
  simp [modifier, optionally]

theorem language_functionHead : functionHead.language = functionHeads := by
  simp [functionHead, functionHeads, mul_assoc]

theorem language_arrowHead : arrowHead.language = arrowHeads := by
  simp [arrowHead, arrowHeads, mul_assoc, add_mul, add_assoc]

theorem language_methodHead : methodHead.language = methodHeads := by
  simp [methodHead, methodHeads, mul_assoc]

theorem language_accessorHead (word : Text) :
    (Regex.concat [modifier "async", keyword word, name, Line.blanks]).language =
      accessorHeads word := by
  simp [accessorHeads, mul_assoc]

theorem language_bareGetter : bareGetter.language = bareGetters := by
  simp [bareGetter, bareGetters, mul_assoc]

end Grammar

open Grammar

theorem isHead_iff {r : Regex} {h : Text} :
    isHead r h = true ↔ h ∈ r.language ∧ h.length ≤ 256 := by
  rw [isHead, Bool.and_eq_true, Regex.isMatch_iff, decide_eq_true_eq, and_comm]
  rfl

theorem bodied_iff {s t : Text} :
    Bodied s t ↔ ∃ e ∈ Grammar.blanks, ∃ b ∈ bodies, t = s ++ e ++ b := by
  constructor
  · rintro ⟨e, b, ht, he, hb⟩
    exact ⟨e, isBlank_iff.1 he, b, hb, ht⟩
  · rintro ⟨e, he, b, hb, ht⟩
    exact ⟨e, b, ht, isBlank_iff.2 he, hb⟩

/-! ## Functions -/

/-- A function is a head of at most 256 bytes, a parameter list of any text and perhaps a body, with
an arrow between the two when a binding is its head. -/
theorem declaresFunction_iff_grammar {t : Text} :
    declaresFunction t = true ↔
      (∃ h ∈ functionHeads, h.length ≤ 256 ∧ ∃ x, ∃ e ∈ Grammar.blanks, ∃ b ∈ bodies,
        t = withList h x ++ e ++ b) ∨
      ∃ h ∈ arrowHeads, h.length ≤ 256 ∧ ∃ x, ∃ e ∈ Grammar.blanks, ∃ f ∈ Grammar.blanks,
        ∃ b ∈ bodies, t = withList h x ++ e ++ arrow ++ f ++ b := by
  rw [declaresFunction_iff, ← language_functionHead, ← language_arrowHead]
  constructor
  · rintro (⟨h, x, -, hh, hb⟩ | ⟨h, x, e, -, hh, he, hb⟩)
    · obtain ⟨hl, hn⟩ := isHead_iff.1 hh
      exact .inl ⟨h, hl, hn, x, bodied_iff.1 hb⟩
    · obtain ⟨hl, hn⟩ := isHead_iff.1 hh
      exact .inr ⟨h, hl, hn, x, e, isBlank_iff.1 he, bodied_iff.1 hb⟩
  · rintro (⟨h, hl, hn, x, hb⟩ | ⟨h, hl, hn, x, e, he, hb⟩)
    · have hparen : openParen ∉ h := Regex.not_mem_of_mentions (by decide) hl
      exact .inl ⟨h, x, hparen, isHead_iff.2 ⟨hl, hn⟩, bodied_iff.2 hb⟩
    · have hparen : openParen ∉ h := Regex.not_mem_of_mentions (by decide) hl
      exact .inr ⟨h, x, e, hparen, isHead_iff.2 ⟨hl, hn⟩, isBlank_iff.2 he, bodied_iff.2 hb⟩

/-- A parameter list may hold parentheses, arrows and bodies of its own. -/
example : declaresFunction "export async function f(a = (b) => {}) {}" = true ∧
    declaresFunction "const f = async (a = (b) => {}) => {}" = true ∧
    declaresFunction "const f = async (a = (b) => {}) {}" = false := by decide +kernel

/-! ## Members -/

/-- A member that goes by its keyword alone is a method of that name. -/
theorem mem_methodHeads_of_namedMemberHead {h : Text} (hh : h ∈ namedMemberHead.language) :
    h ∈ methodHeads := by
  have hnames : ∀ n ∈ ({ofString "constructor"} + ({ofString "get"} + {ofString "set"}) :
      Language UInt8), n ∈ names := by
    rintro n (rfl | rfl | rfl)
    all_goals exact ⟨by decide +kernel, by decide +kernel⟩
  have hhead : namedMemberHead.language = optionally "async" *
      ({ofString "constructor"} + ({ofString "get"} + {ofString "set"})) * Grammar.blanks := by
    simp [namedMemberHead, mul_assoc]
  rw [hhead, Language.mem_mul] at hh
  obtain ⟨_, ⟨m, hm, n, hn, rfl⟩, e, he, rfl⟩ := hh
  exact Language.mem_mul.2 ⟨m ++ n, ⟨m, hm, n, hnames n hn, rfl⟩, e, he, rfl⟩

/-- What may stand before a parameter list, and when the list must be empty. -/
theorem memberHead_iff {h x : Text} :
    MemberHead h x ↔ h.length ≤ 256 ∧
      (h ∈ methodHeads + accessorHeads "set" ∨ h ∈ accessorHeads "get" ∧ x = []) := by
  unfold MemberHead
  constructor
  · rintro ⟨r, hr, hh, hx⟩
    obtain ⟨hl, hn⟩ := isHead_iff.1 hh
    refine ⟨hn, ?_⟩
    simp only [memberHeads, List.mem_cons, List.not_mem_nil, or_false] at hr
    rcases hr with rfl | rfl | rfl | rfl
    · exact .inl (.inl (mem_methodHeads_of_namedMemberHead hl))
    · exact .inr ⟨language_accessorHead "get" ▸ hl, hx rfl⟩
    · exact .inl (.inr (language_accessorHead "set" ▸ hl))
    · exact .inl (.inl (language_methodHead ▸ hl))
  · rintro ⟨hn, (hl | hl) | ⟨hl, rfl⟩⟩
    · exact ⟨(methodHead, .any), by simp [memberHeads],
        isHead_iff.2 ⟨language_methodHead ▸ hl, hn⟩, fun h => absurd h (by simp)⟩
    · exact ⟨(setterHead, .any), by simp [memberHeads],
        isHead_iff.2 ⟨(language_accessorHead "set").symm ▸ hl, hn⟩, fun h => absurd h (by simp)⟩
    · exact ⟨(getterHead, .none), by simp [memberHeads],
        isHead_iff.2 ⟨(language_accessorHead "get").symm ▸ hl, hn⟩, fun _ => rfl⟩

theorem isSolid_of_isWord {b : UInt8} (h : isWord b = true) : isSolid b = true := by
  simp only [isWord, isAlphanumeric, isLetter, isUpper, isLower, isDigit, isSolid, isSpace, space,
    openBrace, closeBrace, Bool.or_eq_true, Bool.and_eq_true, beq_iff_eq, decide_eq_true_eq,
    bne_iff_ne, Bool.not_eq_true', Bool.or_eq_false_iff, beq_eq_false_iff_ne, Bool.and_eq_false_iff,
    decide_eq_false_iff_not, UInt8.le_iff_toNat_le, ← UInt8.toNat_inj, ne_eq,
    UInt8.reduceToNat] at *
  omega

/-- A getter without parameters ends in its name, so its body is all that is dropped. -/
theorem isHead_dropBody_iff {t : Text} :
    isHead bareGetter (dropBody t) = true ↔ ∃ h ∈ bareGetters, h.length ≤ 256 ∧ Bodied h t := by
  rw [isHead_iff, language_bareGetter]
  constructor
  · rintro ⟨hl, hn⟩
    exact ⟨dropBody t, hl, hn, bodied_dropBody t⟩
  · rintro ⟨h, hl, hn, hb⟩
    have hsolid : ∃ c ∈ h.getLast?, isSolid c = true := by
      obtain ⟨u, -, n, ⟨hne, hw⟩, rfl⟩ := Language.mem_mul.1 hl
      refine ⟨n.getLast hne, ?_, isSolid_of_isWord (hw _ (List.getLast_mem hne))⟩
      rw [List.getLast?_append_of_ne_nil u hne]
      exact List.getLast?_eq_some_getLast hne
    rw [dropBody_eq_of_bodied hb hsolid]
    exact ⟨hl, hn⟩

/-- A member is a head of at most 256 bytes, a parameter list and perhaps a body. The parameter list
of a getter is empty, or left out. -/
theorem declaresMember_iff_grammar {t : Text} :
    declaresMember t = true ↔
      (∃ h ∈ methodHeads + accessorHeads "set", h.length ≤ 256 ∧ ∃ x, ∃ e ∈ Grammar.blanks,
        ∃ b ∈ bodies, t = withList h x ++ e ++ b) ∨
      (∃ h ∈ accessorHeads "get", h.length ≤ 256 ∧ ∃ e ∈ Grammar.blanks, ∃ b ∈ bodies,
        t = withList h [] ++ e ++ b) ∨
      openParen ∉ t ∧ ∃ h ∈ bareGetters, h.length ≤ 256 ∧ ∃ e ∈ Grammar.blanks, ∃ b ∈ bodies,
        t = h ++ e ++ b := by
  simp only [declaresMember_iff, isHead_dropBody_iff, ← bodied_iff]
  constructor
  · rintro (⟨h, x, -, hm, hb⟩ | hg)
    · obtain ⟨hn, hl | ⟨hl, rfl⟩⟩ := memberHead_iff.1 hm
      · exact .inl ⟨h, hl, hn, x, hb⟩
      · exact .inr (.inl ⟨h, hl, hn, hb⟩)
    · exact .inr (.inr hg)
  · rintro (⟨h, hl, hn, x, hb⟩ | ⟨h, hl, hn, hb⟩ | hg)
    · have hm : MemberHead h x := memberHead_iff.2 ⟨hn, .inl hl⟩
      exact .inl ⟨h, x, hm.not_mem (by decide), hm, hb⟩
    · have hm : MemberHead h [] := memberHead_iff.2 ⟨hn, .inr ⟨hl, rfl⟩⟩
      exact .inl ⟨h, [], hm.not_mem (by decide), hm, hb⟩
    · exact .inr hg

/-- `get` may be the name of a method, which has parameters, or make a getter, which has none. -/
example : declaresMember "async get(a) {}" = true ∧ declaresMember "get a() {}" = true ∧
    declaresMember "get a {}" = true ∧ declaresMember "get a(b) {}" = false := by decide +kernel

end Line
end SourceBundle
