import SourceBundle.Proofs.Text.Lines
import SourceBundle.Proofs.Skeleton.Entry
/-!
# Steps and runs of the scanner

`Taken` says what one line does to the scanner, with one case for every way a rule can go, and holds
of exactly one entry and next state. What a run does to a list of lines is what it does to the parts
of the list one after another.
-/
namespace SourceBundle.Skeleton

open Text

/-! ## One line -/

/-- A trimmed line that none of the rules takes that look at it before its scope counts. -/
structure Plain (t : Text) : Prop where
  notDoc : Line.isDocStart t = false
  notConditional : Line.isConditional t = false
  notType : Line.declaresType t = false
  notClose : t ≠ [closeBrace]

/-- The entry a line gets in a state, and the state it leaves. -/
inductive Taken : State → Text → Entry → State → Prop
  | bodySkip (c : Scope) (d : Int) (line : Text) :
    Taken ⟨c, .skipping d⟩ line ⟨.bodySkip, none⟩
      ⟨c, if d + Line.braceBalance (trim line) ≤ 0 then .classifying
        else .skipping (d + Line.braceBalance (trim line))⟩
  | docBody (c : Scope) (line : Text) :
    Taken ⟨c, .inDoc⟩ line ⟨.docBody, some line⟩
      ⟨c, if Line.isDocEnd (trim line) then .classifying else .inDoc⟩
  | docOpen {c : Scope} {line : Text} (h : Line.isDocStart (trim line) = true) :
    Taken ⟨c, .classifying⟩ line ⟨.docOpen, some line⟩ ⟨c, .inDoc⟩
  | conditional {c : Scope} {line : Text} (hd : Line.isDocStart (trim line) = false)
    (h : Line.isConditional (trim line) = true) :
    Taken ⟨c, .classifying⟩ line ⟨.conditional, none⟩ ⟨c, .classifying⟩
  | typeOpen {c : Scope} {line : Text} (hd : Line.isDocStart (trim line) = false)
    (hc : Line.isConditional (trim line) = false) (h : Line.declaresType (trim line) = true) :
    Taken ⟨c, .classifying⟩ line ⟨.typeOpen, some (Line.openType (trim line))⟩
      ⟨.typeBlock, .classifying⟩
  | blockClose {line : Text} (h : trim line = [closeBrace]) :
    Taken ⟨.typeBlock, .classifying⟩ line ⟨.blockClose, some [closeBrace]⟩
      ⟨.topLevel, .classifying⟩
  | strayClose {line : Text} (h : trim line = [closeBrace]) :
    Taken ⟨.topLevel, .classifying⟩ line ⟨.blockClose, none⟩ ⟨.topLevel, .classifying⟩
  | member {line : Text} (hp : Plain (trim line)) (h : Line.declaresMember (trim line) = true) :
    Taken ⟨.typeBlock, .classifying⟩ line ⟨.member, some ("  " ++ Line.finalize (trim line))⟩
      (State.enterBody ⟨.typeBlock, .classifying⟩ (trim line))
  | nonMember {line : Text} (hp : Plain (trim line))
    (h : Line.declaresMember (trim line) = false) :
    Taken ⟨.typeBlock, .classifying⟩ line ⟨.member, none⟩ ⟨.typeBlock, .classifying⟩
  | function {line : Text} (hp : Plain (trim line))
    (h : Line.declaresFunction (trim line) = true) :
    Taken ⟨.topLevel, .classifying⟩ line ⟨.function, some (Line.finalize (trim line))⟩
      (State.enterBody ⟨.topLevel, .classifying⟩ (trim line))
  | passthrough {line : Text} (hp : Plain (trim line))
    (hf : Line.declaresFunction (trim line) = false)
    (h : (Line.isImportOrExport (trim line) || Line.isComment (trim line)) = true) :
    Taken ⟨.topLevel, .classifying⟩ line ⟨.passthrough, some line⟩ ⟨.topLevel, .classifying⟩
  | logic {line : Text} (hp : Plain (trim line))
    (hf : Line.declaresFunction (trim line) = false)
    (h : (Line.isImportOrExport (trim line) || Line.isComment (trim line)) = false) :
    Taken ⟨.topLevel, .classifying⟩ line ⟨.logic, none⟩ ⟨.topLevel, .classifying⟩

theorem ordinaryKind_of_plain {t : Text} (c : Scope) (h : Plain t) :
    ordinaryKind c t =
      if c = .typeBlock then .member
      else if Line.declaresFunction t then .function
      else if Line.isImportOrExport t || Line.isComment t then .passthrough
      else .logic := by
  rw [ordinaryKind, if_neg (by simp [h.notDoc]), if_neg (by simp [h.notConditional]),
    if_neg (by simp [h.notType]), if_neg h.notClose]

theorem ordinaryKind_closeBrace (c : Scope) : ordinaryKind c [closeBrace] = .blockClose := by
  cases c <;> decide

theorem step_of_taken {s s' : State} {line : Text} {e : Entry} (h : Taken s line e s') :
    step s line = (e, s') := by
  cases h with
  | bodySkip c d => rfl
  | docBody c => simp only [step, classify, apply]; split <;> rfl
  | docOpen h => simp [step, classify, ordinaryKind, apply, h]
  | conditional hd h => simp [step, classify, ordinaryKind, apply, hd, h]
  | typeOpen hd hc h => simp [step, classify, ordinaryKind, apply, hd, hc, h]
  | blockClose h => simp [step, classify, apply, h, ordinaryKind_closeBrace]
  | strayClose h => simp [step, classify, apply, h, ordinaryKind_closeBrace]
  | member hp h => simp [step, classify, ordinaryKind_of_plain _ hp, apply, h]
  | nonMember hp h => simp [step, classify, ordinaryKind_of_plain _ hp, apply, h]
  | function hp h => simp [step, classify, ordinaryKind_of_plain _ hp, apply, h]
  | passthrough hp hf h => simp [step, classify, ordinaryKind_of_plain _ hp, apply, hf, h]
  | logic hp hf h => simp [step, classify, ordinaryKind_of_plain _ hp, apply, hf, h]

theorem exists_taken (s : State) (line : Text) : ∃ e s', Taken s line e s' := by
  obtain ⟨c, a⟩ := s
  cases a with
  | skipping d => exact ⟨_, _, .bodySkip c d line⟩
  | inDoc => exact ⟨_, _, .docBody c line⟩
  | classifying =>
    cases hd : Line.isDocStart (trim line)
    case true => exact ⟨_, _, .docOpen hd⟩
    cases hc : Line.isConditional (trim line)
    case true => exact ⟨_, _, .conditional hd hc⟩
    cases ht : Line.declaresType (trim line)
    case true => exact ⟨_, _, .typeOpen hd hc ht⟩
    by_cases hb : trim line = [closeBrace]
    · cases c with
      | topLevel => exact ⟨_, _, .strayClose hb⟩
      | typeBlock => exact ⟨_, _, .blockClose hb⟩
    · have hp : Plain (trim line) := ⟨hd, hc, ht, hb⟩
      cases c with
      | topLevel =>
        cases hf : Line.declaresFunction (trim line)
        case true => exact ⟨_, _, .function hp hf⟩
        cases hi : Line.isImportOrExport (trim line) || Line.isComment (trim line)
        case true => exact ⟨_, _, .passthrough hp hf hi⟩
        exact ⟨_, _, .logic hp hf hi⟩
      | typeBlock =>
        cases hm : Line.declaresMember (trim line)
        case true => exact ⟨_, _, .member hp hm⟩
        exact ⟨_, _, .nonMember hp hm⟩

theorem step_taken (s : State) (line : Text) : Taken s line (step s line).1 (step s line).2 := by
  obtain ⟨e, s', h⟩ := exists_taken s line
  rw [step_of_taken h]
  exact h

/-! ## Many lines -/

@[simp] theorem run_nil (s : State) : run s [] = s := rfl

theorem run_cons (s : State) (line : Text) (ls : List Text) :
    run s (line :: ls) = run (step s line).2 ls := rfl

theorem run_append (s : State) (as bs : List Text) : run s (as ++ bs) = run (run s as) bs :=
  List.foldl_append

theorem scan_append (s : State) (as bs : List Text) :
    scan s (as ++ bs) = scan s as ++ scan (run s as) bs := by
  induction as generalizing s with
  | nil => rfl
  | cons line as ih => rw [List.cons_append, scan_cons, ih, scan_cons, run_cons, List.cons_append]

theorem length_scan (s : State) (ls : List Text) : (scan s ls).length = ls.length := by
  induction ls generalizing s with
  | nil => rfl
  | cons line ls ih => rw [scan_cons, List.length_cons, ih, List.length_cons]

theorem emissions_append (s : State) (as bs : List Text) :
    emissions s (as ++ bs) = emissions s as ++ emissions (run s as) bs := by
  rw [emissions, scan_append, List.filterMap_append, emissions, emissions]

theorem skeletonize_joinLines {ls : List Text} (hls : ls ≠ []) (h : ∀ l ∈ ls, newline ∉ l) :
    skeletonize (joinLines ls) = render (emissions .initial ls) := by
  rw [skeletonize_eq, lines_joinLines hls h]

end SourceBundle.Skeleton
