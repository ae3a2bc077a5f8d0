import SourceBundle.Proofs.Line.Opening
import SourceBundle.Proofs.Skeleton.Scan
/-!
# The order of the rules

The rules of the scanner as a table in which the first that takes a line counts. Four of them look
only at how a line opens, and as no line opens in two ways their order does not matter.
-/
namespace SourceBundle.Skeleton

open Text

/-! ## The rules as a table -/

/-- Whether the rule of this kind takes a line that no rule before it has taken. -/
def Kind.takes (s : State) (line : Text) : Kind → Bool
  | .bodySkip =>
    match s.activity with
    | .skipping _ => true
    | _ => false
  | .docBody => s.activity == .inDoc
  | .docOpen => Line.isDocStart (trim line)
  | .conditional => Line.isConditional (trim line)
  | .typeOpen => Line.declaresType (trim line)
  | .blockClose => trim line == [closeBrace]
  | .member => s.scope == .typeBlock
  | .function => Line.declaresFunction (trim line)
  | .passthrough => Line.isImportOrExport (trim line) || Line.isComment (trim line)
  | .logic => true

/-- The first rule of a table that takes the line. -/
def firstTaking (s : State) (line : Text) : List Kind → Kind
  | [] => .logic
  | k :: rules => if k.takes s line then k else firstTaking s line rules

/-- The rules that look only at how a line opens, in their order. -/
def openers : List Kind := [.docOpen, .conditional, .typeOpen, .blockClose]

/-- The table of all rules, with those that look only at how a line opens in the order given. -/
def tableWith (openers : List Kind) : List Kind :=
  [.bodySkip, .docBody] ++ openers ++ [.member, .function, .passthrough, .logic]

/-- The scanner's classification reads the table from the front. -/
theorem classify_eq_firstTaking (s : State) (line : Text) :
    classify s line = firstTaking s line (tableWith openers) := by
  obtain ⟨c, a⟩ := s
  cases a with
  | skipping | inDoc => rfl
  | classifying => simp [classify, ordinaryKind, tableWith, openers, firstTaking, Kind.takes]

/-! ## Scanning by a table -/

def stepBy (rules : List Kind) (s : State) (line : Text) : Entry × State :=
  let k := firstTaking s line rules
  (⟨k, (apply k s line).1⟩, (apply k s line).2)

def scanBy (rules : List Kind) (s : State) : List Text → List Entry
  | [] => []
  | line :: ls => (stepBy rules s line).1 :: scanBy rules (stepBy rules s line).2 ls

/-- The skeleton of a text when the rules stand in the order of the table. -/
def skeletonizeBy (rules : List Kind) (text : Text) : Text :=
  render ((scanBy rules .initial (lines text)).filterMap (·.emitted))

theorem scanBy_eq {rules : List Kind}
    (h : ∀ s line, firstTaking s line rules = firstTaking s line (tableWith openers)) (s : State)
    (ls : List Text) : scanBy rules s ls = scan s ls := by
  have hstep (s : State) (line : Text) : stepBy rules s line = step s line := by
    rw [stepBy, h, ← classify_eq_firstTaking, step]
  induction ls generalizing s with
  | nil => rfl
  | cons line ls ih => rw [scanBy, hstep, ih, scan_cons]

/-! ## Rules that change places -/

/-- Of rules that never take the same line the order does not matter. -/
theorem firstTaking_perm {s : State} {line : Text} {ks ks' : List Kind} (h : ks.Perm ks')
    (hu : ∀ k ∈ ks, ∀ l ∈ ks, k.takes s line = true → l.takes s line = true → k = l)
    (before after : List Kind) :
    firstTaking s line (before ++ ks ++ after) = firstTaking s line (before ++ ks' ++ after) := by
  induction before with
  | cons k before ih =>
    simp only [List.cons_append, firstTaking]
    rw [ih]
  | nil =>
    rw [List.nil_append, List.nil_append]
    induction h with
    | nil => rfl
    | cons k _ ih =>
      simp only [List.cons_append, firstTaking]
      rw [ih fun a ha b hb => hu a (List.mem_cons_of_mem k ha) b (List.mem_cons_of_mem k hb)]
    | swap k l ks =>
      simp only [List.cons_append, firstTaking]
      by_cases hk : k.takes s line = true <;> by_cases hl : l.takes s line = true
      · rw [hu k (by simp) l (by simp) hk hl]
      all_goals simp [hk, hl]
    | trans h _ ih ih' =>
      exact (ih hu).trans (ih' fun a ha b hb => hu a (h.mem_iff.2 ha) b (h.mem_iff.2 hb))

/-- The rule for lines that open so. -/
def ofOpening : Line.Opening → Kind
  | .doc => .docOpen
  | .conditional => .conditional
  | .type => .typeOpen
  | .close => .blockClose
  | .function => .function

theorem takes_ofOpening (o : Line.Opening) (s : State) (line : Text) :
    (ofOpening o).takes s line = o.reads (trim line) := by
  cases o <;> rfl

theorem exists_opening : ∀ k ∈ openers, ∃ o, k = ofOpening o := by
  simp only [openers, List.forall_mem_cons, List.not_mem_nil, false_implies, implies_true, and_true]
  exact ⟨⟨.doc, rfl⟩, ⟨.conditional, rfl⟩, ⟨.type, rfl⟩, ⟨.close, rfl⟩⟩

theorem eq_of_takes {k l : Kind} {s : State} {line : Text} (hk : k ∈ openers) (hl : l ∈ openers)
    (ht : k.takes s line = true) (ht' : l.takes s line = true) : k = l := by
  obtain ⟨o, rfl⟩ := exists_opening k hk
  obtain ⟨o', rfl⟩ := exists_opening l hl
  rw [takes_ofOpening] at ht ht'
  rw [Line.Opening.eq_of_reads ht ht']

theorem scanBy_of_perm {order : List Kind} (h : order.Perm openers) (s : State) (ls : List Text) :
    scanBy (tableWith order) s ls = scan s ls := by
  refine scanBy_eq (fun s line => ?_) s ls
  refine firstTaking_perm h (fun k hk l hl => ?_) [.bodySkip, .docBody] _
  exact eq_of_takes (h.mem_iff.1 hk) (h.mem_iff.1 hl)

/-- A type is told by the first 256 bytes of its line, so nothing that follows them and no brace at
the end makes a difference. No line opens in two ways, and the four rules that look only at how a
line opens may stand in any order. -/
theorem openings_are_apart :
    (∀ t, Line.declaresType t = true ↔
        ∃ h ∈ Line.Grammar.typeHeads, h.length ≤ 256 ∧ h <+: t) ∧
      (∀ t, Line.declaresType t = true →
        (∀ u, Line.declaresType (t ++ u) = true) ∧ Line.declaresType (Line.openType t) = true ∧
          Line.openType (Line.openType t) = Line.openType t) ∧
      (∀ (a b : Line.Opening) (t : Text), a.reads t = true → b.reads t = true → a = b) ∧
      ∀ order : List Kind, order.Perm openers → ∀ x,
        scanBy (tableWith order) .initial (lines x) = trace x ∧
          skeletonizeBy (tableWith order) x = skeletonize x := by
  refine ⟨fun t => Line.declaresType_iff, fun t ht => ⟨fun u => ?_, Line.declaresType_openType ht,
    Line.openType_openType t⟩, fun a b t => Line.Opening.eq_of_reads, fun order h x => ?_⟩
  · exact Line.startsAs_of_isPrefix (List.prefix_append t u) ht
  · have hscan := scanBy_of_perm h .initial (lines x)
    exact ⟨hscan, by rw [skeletonizeBy, hscan, skeletonize_eq, emissions]⟩

/-- A type that goes on is still a type and nothing else, also for a scanner that looks for the four
openings the other way round. -/
theorem openings_are_apart_reversed :
    let t := ofString "export abstract class A1"
    let x := ofString "class A \x7b\n  if (a) \x7b\n/** b\n*/\n\x7d\n\x7d\nfunction f() \x7b"
    Line.declaresType (t ++ ofString "2 extends B") = true ∧
      Line.declaresType (Line.openType t) = true ∧
      (∀ b : Line.Opening, b.reads t = true → .type = b) ∧
      scanBy (tableWith openers.reverse) .initial (lines x) = trace x ∧
      skeletonizeBy (tableWith openers.reverse) x = skeletonize x := by
  intro t x
  have ht : Line.declaresType t = true := by decide +kernel
  obtain ⟨-, htype, hapart, horder⟩ := openings_are_apart
  obtain ⟨happend, hopen, -⟩ := htype t ht
  obtain ⟨htrace, hskeleton⟩ := horder openers.reverse (List.reverse_perm openers) x
  exact ⟨happend _, hopen, fun b hb => hapart .type b t ht hb, htrace, hskeleton⟩

end SourceBundle.Skeleton
