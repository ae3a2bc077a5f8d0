import Mathlib.Logic.Function.Iterate
import SourceBundle.Proofs.Line.Conditional
import SourceBundle.Proofs.Line.Grammar
/-!
# Searching for the end of a condition

Parentheses nest, so the one that closes a condition is found by trying: a search goes from one
closing parenthesis to the next and looks for a brace behind it. It works on offsets, which may lie
past the end of the line. Each turn moves it to the right, so that it stops on every line, and what
it finds is what the grammar of conditionals says.
-/
namespace SourceBundle.Line

open Text

/-! ## Offsets -/

/-- Where a byte of a class first stands from an offset on. -/
def firstFrom (p : UInt8 → Bool) (t : Text) (i : Nat) : Option Nat :=
  ((t.drop i).findIdx? p).map (i + ·)

/-- The byte behind the blanks at an offset. -/
def solidFrom (t : Text) (i : Nat) : Option UInt8 := (firstFrom (!isSpace ·) t i).bind (t[·]?)

theorem drop_of_drop_eq_cons {t s : Text} {b : UInt8} {i : Nat} (h : t.drop i = b :: s) :
    t.drop (i + 1) = s := by
  rw [← List.tail_drop, h, List.tail_cons]

theorem firstFrom_of_nil {p : UInt8 → Bool} {t : Text} {i : Nat} (h : t.drop i = []) :
    firstFrom p t i = none := by
  simp [firstFrom, h]

theorem firstFrom_of_cons {p : UInt8 → Bool} {t s : Text} {b : UInt8} {i : Nat}
    (h : t.drop i = b :: s) :
    firstFrom p t i = if p b then some i else firstFrom p t (i + 1) := by
  unfold firstFrom
  rw [drop_of_drop_eq_cons h, h, List.findIdx?_cons]
  split
  · simp
  · rw [Option.map_map]
    congr 1
    funext j
    simp only [Function.comp_apply]
    omega

/-- Going to the first byte that is no blank trims what stands before it. -/
theorem trimStart_drop (t : Text) (i : Nat) :
    trimStart (t.drop i) = ((firstFrom (!isSpace ·) t i).map (t.drop ·)).getD [] := by
  generalize hs : t.drop i = s
  induction s generalizing i with
  | nil => simp [firstFrom_of_nil hs, trimStart]
  | cons b s ih =>
    rw [firstFrom_of_cons hs]
    cases hb : isSpace b with
    | true =>
      rw [show trimStart (b :: s) = trimStart s from List.dropWhile_cons_of_pos hb]
      simpa [hb] using ih (i + 1) (drop_of_drop_eq_cons hs)
    | false =>
      rw [show trimStart (b :: s) = b :: s from List.dropWhile_cons_of_neg (by simp [hb])]
      simp [hs]

theorem solidFrom_eq (t : Text) (i : Nat) : solidFrom t i = (trimStart (t.drop i)).head? := by
  unfold solidFrom
  rw [trimStart_drop]
  cases firstFrom (!isSpace ·) t i with
  | none => rfl
  | some j => simp [List.head?_drop]

/-! ## The search -/

/-- How far a search has come: to a closing parenthesis that is to be tried, or to its end. -/
inductive Search where
  | trying (close : Nat)
  | stopped (found : Bool)
  deriving DecidableEq, Repr

namespace Search

/-- Goes to the first closing parenthesis from an offset on. -/
def goTo (t : Text) (i : Nat) : Search :=
  match firstFrom (· == closeParen) t i with
  | some close => trying close
  | none => stopped false

/-- The word `if` and an opening parenthesis come first, and one byte at least is the condition. -/
def start (t : Text) : Search :=
  if startsWith "if" t then
    match firstFrom (!isSpace ·) t 2 with
    | some i => if t[i]? = some openParen then goTo t (i + 2) else stopped false
    | none => stopped false
  else stopped false

/-- Tries one closing parenthesis: a brace behind it ends the search, and otherwise the next one has
its turn. -/
def turn (t : Text) : Search → Search
  | trying close =>
    if solidFrom t (close + 1) = some openBrace then stopped true else goTo t (close + 1)
  | stopped found => stopped found

theorem goTo_of_nil {t : Text} {i : Nat} (h : t.drop i = []) : goTo t i = stopped false := by
  rw [goTo, firstFrom_of_nil h]

theorem goTo_of_cons {t s : Text} {b : UInt8} {i : Nat} (h : t.drop i = b :: s) :
    goTo t i = if b = closeParen then trying i else goTo t (i + 1) := by
  unfold goTo
  rw [firstFrom_of_cons h]
  by_cases hb : b = closeParen
  · simp [hb]
  · simp [hb]

/-- A turn at a parenthesis looks at what the line holds behind it. -/
theorem turn_trying {t s : Text} {b : UInt8} {i : Nat} (h : t.drop i = b :: s) :
    turn t (trying i) =
      if (trimStart s).head? = some openBrace then stopped true else goTo t (i + 1) := by
  rw [turn, solidFrom_eq, drop_of_drop_eq_cons h]

/-- From any offset the search stops, with no more turns than there are bytes left. -/
theorem exists_iterate_goTo (t : Text) (i : Nat) : ∃ n ≤ (t.drop i).length,
    (turn t)^[n] (goTo t i) = stopped (closesThenOpens (t.drop i)) := by
  generalize hs : t.drop i = s
  induction s generalizing i with
  | nil =>
    refine ⟨0, Nat.le_refl 0, ?_⟩
    rw [goTo_of_nil hs]
    rfl
  | cons b s ih =>
    obtain ⟨n, hn, hrun⟩ := ih (i + 1) (drop_of_drop_eq_cons hs)
    rw [goTo_of_cons hs, closesThenOpens]
    by_cases hb : b = closeParen
    · subst hb
      by_cases hbrace : (trimStart s).head? = some openBrace
      · refine ⟨1, by simp, ?_⟩
        simp [turn_trying hs, hbrace]
      · refine ⟨n + 1, by simpa using hn, ?_⟩
        rw [if_pos rfl, Function.iterate_succ_apply, turn_trying hs, if_neg hbrace, hrun]
        simp [hbrace]
    · refine ⟨n, by rw [List.length_cons]; omega, ?_⟩
      simp [hb, hrun]

/-- The search stops on every line, and its answer is that of the recognizer. -/
theorem exists_iterate_start (t : Text) :
    ∃ n ≤ t.length, (turn t)^[n] (start t) = stopped (isConditional t) := by
  unfold start isConditional
  rw [trimStart_drop]
  by_cases hif : startsWith "if" t = true
  · rw [if_pos hif, hif, Bool.true_and]
    cases hopen : firstFrom (!isSpace ·) t 2 with
    | none => exact ⟨0, Nat.zero_le _, rfl⟩
    | some i =>
      simp only [Option.map_some, Option.getD_some]
      rw [← List.head?_drop]
      cases hdrop : t.drop i with
      | nil => exact ⟨0, Nat.zero_le _, rfl⟩
      | cons b s =>
        rw [List.head?_cons]
        by_cases hb : b = openParen
        · subst hb
          obtain ⟨n, hn, hrun⟩ := exists_iterate_goTo t (i + 2)
          refine ⟨n, hn.trans (by simp), ?_⟩
          rw [if_pos rfl, hrun, ← List.tail_drop, drop_of_drop_eq_cons hdrop]
          cases s <;> rfl
        · refine ⟨0, Nat.zero_le _, ?_⟩
          rw [if_neg (by simpa using hb)]
          split
          · next h => exact absurd (List.cons_eq_cons.1 h).1 hb
          · rfl
  · rw [if_neg hif, Bool.eq_false_iff.2 hif]
    exact ⟨0, Nat.zero_le _, rfl⟩

end Search

/-! ## What is found -/

/-- A line is a conditional exactly when it reads `if`, a condition in parentheses that is not
empty, and a brace; and the search that tells so stops on every line, with at most one turn for each
byte. -/
theorem isConditional_iff_grammar (t : Text) :
    (isConditional t = true ↔ ∃ e ∈ Grammar.blanks, ∃ x, x ≠ [] ∧ ∃ f ∈ Grammar.blanks, ∃ y,
      t = ofString "if" ++ e ++ openParen :: x ++ closeParen :: f ++ openBrace :: y) ∧
    ∃ n ≤ t.length, (Search.turn t)^[n] (Search.start t) = .stopped (isConditional t) := by
  refine ⟨?_, Search.exists_iterate_start t⟩
  rw [isConditional_iff]
  constructor
  · rintro ⟨e, x, f, y, rfl, he, hx, hf⟩
    exact ⟨e, isBlank_iff.1 he, x, hx, f, isBlank_iff.1 hf, y, by simp [withList, ifWord]⟩
  · rintro ⟨e, he, x, hx, f, hf, y, rfl⟩
    exact ⟨e, x, f, y, by simp [withList, ifWord], isBlank_iff.2 he, hx, isBlank_iff.2 hf⟩

/-- A stray parenthesis makes a condition out of `()`, which is none by itself. -/
example : isConditional "if (a(b) + (c)) \x7b" = true ∧ isConditional "if () \x7b" = false ∧
    isConditional "if () ) \x7b" = true := by decide +kernel

end SourceBundle.Line
