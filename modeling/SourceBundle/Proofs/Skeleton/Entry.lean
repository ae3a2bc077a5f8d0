import SourceBundle.Skeleton.Basic
/-!
# The entries of a scan

A rule writes its line and says so by two separate means. `act_eq` shows that they never disagree: a
rule pushes one line when it says that the line is written, and no line otherwise. So what becomes
of a line is one entry, its kind with the line that is written if there is one, and the entries of a
text are a function of its lines.
-/
namespace SourceBundle.Skeleton

open Text

/-- What the rule of this kind writes for the line, and the state it leaves. -/
def apply (k : Kind) (s : State) (line : Text) : Option Text × State :=
  let t := trim line
  match k with
  | .bodySkip =>
    match s.activity with
    | .skipping depth =>
      let depth := depth + Line.braceBalance t
      (none, { s with activity := if depth ≤ 0 then .classifying else .skipping depth })
    | _ => (none, s)
  | .docBody => (some line, if Line.isDocEnd t then { s with activity := .classifying } else s)
  | .docOpen => (some line, { s with activity := .inDoc })
  | .conditional => (none, s)
  | .typeOpen => (some (Line.openType t), { s with scope := .typeBlock })
  | .blockClose =>
    if s.scope = .typeBlock then (some [closeBrace], { s with scope := .topLevel }) else (none, s)
  | .member =>
    if Line.declaresMember t then
      (some ("  " ++ Line.finalize t), s.enterBody t)
    else (none, s)
  | .function => (some (Line.finalize t), s.enterBody t)
  | .passthrough => (some line, s)
  | .logic => (none, s)

/-- What became of one line. -/
structure Entry where
  kind : Kind
  emitted : Option Text
  deriving DecidableEq, Repr

/-- The entry for a line and the state after it. -/
def step (s : State) (line : Text) : Entry × State :=
  let k := classify s line
  (⟨k, (apply k s line).1⟩, (apply k s line).2)

/-- The entries for the lines in order. -/
def scan (s : State) : List Text → List Entry
  | [] => []
  | line :: ls => (step s line).1 :: scan (step s line).2 ls

/-- The state after the lines. -/
def run (s : State) (ls : List Text) : State := ls.foldl (fun s line => (step s line).2) s

/-- The entries for a text, one per line. -/
def trace (text : Text) : List Entry := scan .initial (lines text)

/-- What the scanner writes for some lines. -/
def emissions (s : State) (ls : List Text) : List Text := (scan s ls).filterMap (·.emitted)

/-! ## One line -/

/-- A rule says that a line is written exactly when it writes one, and it leaves what is written
already as it is. -/
theorem act_eq (k : Kind) (line : Text) (c : Draft) :
    act k line c = (⟨(apply k c.state line).2, c.out ++ (apply k c.state line).1.toArray⟩,
      (apply k c.state line).1.isSome) := by
  obtain ⟨⟨scope, activity⟩, out⟩ := c
  -- Three rules may let a line go that they took: each is split where its own test is made.
  cases k with
  | bodySkip => cases activity <;> simp [act, apply]
  | docBody | docOpen | conditional | typeOpen | function | passthrough | logic =>
    simp [act, apply]
  | blockClose => by_cases h : scope = .typeBlock <;> simp [act, apply, h]
  | member => cases h : Line.declaresMember (trim line) <;> simp [act, apply, h]

/-- The row of an entry. -/
def Entry.row (e : Entry) (index : Nat) : Row := ⟨index + 1, e.kind, e.emitted.isSome⟩

theorem read_eq (p : Progress) (line : Text) (index : Nat) :
    p.read line index =
      ⟨⟨(step p.draft.state line).2, p.draft.out ++ (step p.draft.state line).1.emitted.toArray⟩,
        p.rows.push ((step p.draft.state line).1.row index)⟩ := by
  rw [Progress.read, act_eq]
  rfl

/-! ## Many lines -/

@[simp] theorem scan_nil (s : State) : scan s [] = [] := rfl

theorem scan_cons (s : State) (line : Text) (ls : List Text) :
    scan s (line :: ls) = (step s line).1 :: scan (step s line).2 ls := rfl

@[simp] theorem emissions_nil (s : State) : emissions s [] = [] := rfl

theorem emissions_cons (s : State) (line : Text) (ls : List Text) :
    emissions s (line :: ls) =
      (step s line).1.emitted.toList ++ emissions (step s line).2 ls := by
  rw [emissions, scan_cons, List.filterMap_cons]
  cases (step s line).1.emitted <;> rfl

/-- A run adds to what is written the lines that its entries have, and to the report one row for
each entry. -/
theorem foldl_read (p : Progress) (ls : List Text) (n : Nat) :
    let q := (ls.zipIdx n).foldl (fun p (line, index) => p.read line index) p
    q.draft.out.toList = p.draft.out.toList ++ emissions p.draft.state ls ∧
      q.rows.toList =
        p.rows.toList ++ ((scan p.draft.state ls).zipIdx n).map fun e => e.1.row e.2 := by
  induction ls generalizing p n with
  | nil => simp
  | cons line ls ih =>
    obtain ⟨hout, hrows⟩ := ih (p.read line n) (n + 1)
    rw [List.zipIdx_cons, List.foldl_cons]
    refine ⟨hout.trans ?_, hrows.trans ?_⟩ <;> rw [read_eq]
    · simp [emissions_cons]
    · simp [scan_cons]

theorem skeletonize_eq (x : Text) : skeletonize x = render (emissions .initial (lines x)) :=
  congrArg render (foldl_read .start (lines x) 0).1

theorem rows_eq (x : Text) : rows x = (trace x).mapIdx fun i e => e.row i := by
  rw [List.mapIdx_eq_zipIdx_map]
  exact (foldl_read .start (lines x) 0).2

end SourceBundle.Skeleton
