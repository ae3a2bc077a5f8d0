import SourceBundle.Proofs.Skeleton.Concat
/-!
# Documentation comments

A line that starts with `/**` opens a comment. The lines after it belong to the comment and are
written as they stand, through the first of them that ends with `*/`, and the scanner is then where
it was before. Whether the first line ends the comment itself is not looked at, so a comment on one
line takes the source below it along.
-/
namespace SourceBundle.Skeleton

open Text

/-! ## Inside a comment -/

theorem step_inDoc (c : Scope) (line : Text) :
    step ⟨c, .inDoc⟩ line = (⟨.docBody, some line⟩,
      ⟨c, if Line.isDocEnd (trim line) then .classifying else .inDoc⟩) :=
  step_of_taken (.docBody c line)

/-- A comment goes on, and is written, until a line ends it. -/
theorem read_inner {c : Scope} {inner : List Text}
    (h : ∀ l ∈ inner, Line.isDocEnd (trim l) = false) :
    emissions ⟨c, .inDoc⟩ inner = inner ∧ run ⟨c, .inDoc⟩ inner = ⟨c, .inDoc⟩ := by
  induction inner with
  | nil => exact ⟨rfl, rfl⟩
  | cons l inner ih =>
    obtain ⟨hl, hinner⟩ := List.forall_mem_cons.1 h
    have hstep : step ⟨c, .inDoc⟩ l = (⟨.docBody, some l⟩, ⟨c, .inDoc⟩) := by
      rw [step_inDoc, hl]
      rfl
    rw [emissions_cons, run_cons, hstep]
    simp [ih hinner]

theorem step_docOpen {c : Scope} {first : Text} (h : Line.isDocStart (trim first) = true) :
    step ⟨c, .classifying⟩ first = (⟨.docOpen, some first⟩, ⟨c, .inDoc⟩) :=
  step_of_taken (.docOpen h)

theorem read_doc {c : Scope} {first last : Text} {inner : List Text}
    (starts : Line.isDocStart (trim first) = true)
    (goesOn : ∀ l ∈ inner, Line.isDocEnd (trim l) = false)
    (ends : Line.isDocEnd (trim last) = true) :
    emissions ⟨c, .classifying⟩ (first :: (inner ++ [last])) = first :: (inner ++ [last]) ∧
      run ⟨c, .classifying⟩ (first :: (inner ++ [last])) = ⟨c, .classifying⟩ := by
  have hlast : step ⟨c, .inDoc⟩ last = (⟨.docBody, some last⟩, ⟨c, .classifying⟩) := by
    rw [step_inDoc, ends]
    rfl
  obtain ⟨hwritten, hrun⟩ := read_inner (c := c) goesOn
  rw [emissions_cons, run_cons, step_docOpen starts, emissions_append, run_append, hwritten, hrun,
    emissions_cons, run_cons, hlast]
  simp

/-- The lines that an open comment goes on for, through the first that ends it. -/
def openComment : List Text → List Text
  | [] => []
  | l :: ls => if Line.isDocEnd (trim l) then [l] else l :: openComment ls

theorem head?_openComment (ls : List Text) : (openComment ls).head? = ls.head? := by
  cases ls with
  | nil => rfl
  | cons l ls =>
    rw [openComment]
    split <;> rfl

/-- An open comment takes its lines, and the lines after them are read as source. -/
theorem scan_inDoc (c : Scope) (ls : List Text) :
    scan ⟨c, .inDoc⟩ ls = (openComment ls).map (⟨.docBody, some ·⟩) ++
      scan ⟨c, .classifying⟩ (ls.drop (openComment ls).length) := by
  induction ls with
  | nil => rfl
  | cons l ls ih =>
    rw [scan_cons, step_inDoc, openComment]
    cases hl : Line.isDocEnd (trim l) with
    | true => rfl
    | false =>
      simp only [Bool.false_eq_true, if_false]
      rw [ih]
      rfl

/-! ## A line that opens a comment -/

/-- The entry of a line is made in the state that the lines before it leave. -/
theorem getElem?_trace {x line : Text} {as bs : List Text} (hx : lines x = as ++ line :: bs) :
    (trace x)[as.length]? = some (step (run .initial as) line).1 := by
  rw [trace, hx, scan_append, List.getElem?_append_right (length_scan _ _).le, length_scan,
    Nat.sub_self, scan_cons]
  rfl

theorem Taken.of_docOpen {s s' : State} {line : Text} {e : Entry} (h : Taken s line e s')
    (hk : e.kind = .docOpen) :
    s.activity = .classifying ∧ Line.isDocStart (trim line) = true := by
  cases h <;> simp_all

theorem opens_of_kind {x first : Text} {as bs : List Text} (hx : lines x = as ++ first :: bs)
    (hk : (trace x)[as.length]?.map (·.kind) = some .docOpen) :
    run .initial as = ⟨(run .initial as).scope, .classifying⟩ ∧
      Line.isDocStart (trim first) = true := by
  rw [getElem?_trace hx, Option.map_some, Option.some.injEq] at hk
  obtain ⟨hstate, hstart⟩ := (step_taken (run .initial as) first).of_docOpen hk
  exact ⟨by rw [← hstate], hstart⟩

/-- A line that opens a comment takes the lines after it along, through the first of them that ends
with `*/`, even if it ends with `*/` itself. So the next line is never read as source, and the first
that is again is read in the scope that the comment stands in. -/
theorem trace_of_docOpen {x first : Text} {as bs : List Text} (hx : lines x = as ++ first :: bs)
    (hk : (trace x)[as.length]?.map (·.kind) = some .docOpen) :
    trace x = scan .initial as ++ ⟨.docOpen, some first⟩ ::
        ((openComment bs).map (⟨.docBody, some ·⟩) ++
          scan ⟨(run .initial as).scope, .classifying⟩ (bs.drop (openComment bs).length)) ∧
      ∀ next ∈ bs.head?, (trace x)[as.length + 1]? = some ⟨.docBody, some next⟩ := by
  obtain ⟨hrun, hstart⟩ := opens_of_kind hx hk
  have htrace : trace x = scan .initial as ++ ⟨.docOpen, some first⟩ ::
      ((openComment bs).map (⟨.docBody, some ·⟩) ++
        scan ⟨(run .initial as).scope, .classifying⟩ (bs.drop (openComment bs).length)) := by
    rw [trace, hx, scan_append, scan_cons, hrun, step_docOpen hstart, scan_inDoc]
  refine ⟨htrace, fun next hnext => ?_⟩
  obtain ⟨rest, hrest⟩ := List.head?_eq_some_iff.1 ((head?_openComment bs).trans hnext)
  rw [htrace, List.getElem?_append_right (by rw [length_scan]; omega), length_scan, hrest]
  simp

/-- A whole comment on one line, and below it a function and a call. -/
def oneLine : Text :=
  ofString "/** Adds. */\nfunction add(a, b) \x7b\n  return a + b;\n\x7d\nrun();"

theorem trace_of_docOpen_oneLine :
    (trace oneLine)[0]?.map (·.kind) = some .docOpen ∧
      (trace oneLine)[1]? = some ⟨.docBody, some (ofString "function add(a, b) \x7b")⟩ := by
  have hx : lines oneLine = [] ++ ofString "/** Adds. */" :: [ofString "function add(a, b) \x7b",
      ofString "  return a + b;", ofString "\x7d", ofString "run();"] := by decide +kernel
  have hk : (trace oneLine)[0]?.map (·.kind) = some .docOpen := by decide +kernel
  exact ⟨hk, (trace_of_docOpen hx hk).2 _ rfl⟩

/-- So the line below a comment that is over on its own line need not be read as source. -/
theorem not_forall_ordinaryKind :
    ¬∀ (x first next : Text) (as bs : List Text), lines x = as ++ first :: next :: bs →
      (trace x)[as.length]?.map (·.kind) = some .docOpen →
      Line.isDocEnd ((trim first).drop 3) = true →
      (trace x)[as.length + 1]?.map (·.kind) =
        some (ordinaryKind (run .initial as).scope (trim next)) := by
  intro h
  have hnext := h oneLine (ofString "/** Adds. */") (ofString "function add(a, b) \x7b") []
    [ofString "  return a + b;", ofString "\x7d", ofString "run();"] (by decide +kernel)
    (by decide +kernel) (by decide +kernel)
  exact absurd hnext (by decide +kernel)

/-! ## Comments in a skeleton -/

theorem isBlank_eq_false_of {p : Text → Bool} (hp : p [] = false) {l : Text}
    (h : p (trim l) = true) : isBlank l = false := by
  refine isBlank_eq_false_of_trim fun hn => ?_
  rw [hn, hp] at h
  cases h

/-- A comment that is ended stands in the skeleton as it does in the source, after what is written
for the lines before it and before what is written for those after it, and leaves the scanner as it
found it. One that stays open loses no more than the blank lines at the end of the text. -/
theorem skeletonize_docOpen {x first : Text} {as bs : List Text} (hx : lines x = as ++ first :: bs)
    (hk : (trace x)[as.length]?.map (·.kind) = some .docOpen) :
    (∀ inner last cs, bs = inner ++ last :: cs →
      (∀ l ∈ inner, Line.isDocEnd (trim l) = false) → Line.isDocEnd (trim last) = true →
        skeletonize x = joinLines (emissions .initial as ++ first :: (inner ++ [last]) ++
          (emissions ⟨(run .initial as).scope, .classifying⟩ cs).rdropWhile isBlank) ++
            [newline] ∧
        run .initial (as ++ first :: (inner ++ [last])) =
          ⟨(run .initial as).scope, .classifying⟩ ∧
        ∀ next ∈ cs.head?, (trace x)[as.length + (inner.length + 2)]?.map (·.kind) =
          some (ordinaryKind (run .initial as).scope (trim next))) ∧
    ((∀ l ∈ bs, Line.isDocEnd (trim l) = false) →
      skeletonize x =
        joinLines (emissions .initial as ++ first :: bs.rdropWhile isBlank) ++ [newline]) := by
  obtain ⟨hrun, hstart⟩ := opens_of_kind hx hk
  constructor
  · rintro inner last cs rfl goesOn ends
    obtain ⟨hwritten, hread⟩ := read_doc (c := (run .initial as).scope) hstart goesOn ends
    have hcut : lines x = (as ++ first :: (inner ++ [last])) ++ cs := by simp [hx]
    have hstate : run .initial (as ++ first :: (inner ++ [last])) =
        ⟨(run .initial as).scope, .classifying⟩ := by rw [run_append, hrun, hread]
    have hlast : ∀ t ∈ (emissions .initial as ++ first :: (inner ++ [last])).getLast?,
        isBlank t = false := by
      intro t ht
      rw [← List.cons_append, ← List.append_assoc, List.getLast?_concat, Option.mem_some_iff] at ht
      exact ht ▸ isBlank_eq_false_of rfl ends
    refine ⟨?_, hstate, ?_⟩
    · rw [skeletonize_eq_written, written, hcut, emissions_append, hstate, emissions_append, hrun,
        hwritten, rdropWhile_append _ hlast]
    · intro next hnext
      obtain ⟨rest, rfl⟩ := List.head?_eq_some_iff.1 hnext
      have hlength : as.length + (inner.length + 2) =
          (as ++ first :: (inner ++ [last])).length := by simp
      rw [hlength, getElem?_trace hcut, hstate]
      rfl
  · intro goesOn
    have hwritten : emissions .initial (lines x) = (emissions .initial as ++ [first]) ++ bs := by
      rw [hx, emissions_append, emissions_cons, hrun, step_docOpen hstart, (read_inner goesOn).1]
      simp
    have hfirst : ∀ t ∈ (emissions .initial as ++ [first]).getLast?, isBlank t = false := by
      intro t ht
      rw [List.getLast?_concat, Option.mem_some_iff] at ht
      exact ht ▸ isBlank_eq_false_of rfl hstart
    rw [skeletonize_eq_written, written, hwritten, rdropWhile_append _ hfirst, List.append_assoc]
    rfl

/-- A class with a comment that looks like code, and a comment that stays open. -/
def documented : Text :=
  ofString "class A \x7b\n  /** if (a) \x7b\n\n  if (b) \x7b\r\n   */\n  run()\n\x7d\n/** open\n\n  \n"

theorem skeletonize_docOpen_documented :
    (trace documented)[1]?.map (·.kind) = some .docOpen ∧
      (trace documented)[7]?.map (·.kind) = some .docOpen ∧
      skeletonize documented = ofString ("class A \x7b\n  /** if (a) \x7b\n\n  if (b) \x7b\r\n   */\n" ++
        "  run()\x7b\x7d\n\x7d\n/** open\n") ∧
      skeletonize documented = joinLines (emissions .initial ((lines documented).take 7) ++
        [ofString "/** open"]) ++ [newline] := by
  have hended : lines documented = [ofString "class A \x7b"] ++ ofString "  /** if (a) \x7b" ::
      ([[], ofString "  if (b) \x7b\r"] ++ ofString "   */" ::
        (lines documented).drop 5) := by decide +kernel
  have hopen : lines documented = (lines documented).take 7 ++ ofString "/** open" ::
      [[], ofString "  ", []] := by decide +kernel
  have hkended : (trace documented)[1]?.map (·.kind) = some .docOpen := by decide +kernel
  have hkopen : (trace documented)[7]?.map (·.kind) = some .docOpen := by decide +kernel
  refine ⟨hkended, hkopen, ?_, ?_⟩
  · rw [((skeletonize_docOpen hended hkended).1 _ _ _ rfl (by decide +kernel)
      (by decide +kernel)).1]
    decide +kernel
  · rw [(skeletonize_docOpen hopen hkopen).2 (by decide +kernel)]
    rfl

end SourceBundle.Skeleton
