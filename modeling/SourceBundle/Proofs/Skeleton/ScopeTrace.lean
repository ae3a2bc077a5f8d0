import SourceBundle.Proofs.Skeleton.Report
/-!
# Scopes told from the trace

Only an opened type and a written closing line change the scope, so the entries made so far tell in
which scope the scanner stands: in a type when one of them opens it and none after that closes it.
The kinds that each scope allows, and the balance of types opened and closed, follow from the trace
alone.
-/
namespace SourceBundle.Skeleton

open Text

/-! ## Entries that change the scope -/

/-- A lone brace that is written. -/
def Entry.ClosesType (e : Entry) : Prop := e.kind = .blockClose ∧ e.emitted.isSome = true

instance (e : Entry) : Decidable e.ClosesType :=
  inferInstanceAs (Decidable (e.kind = .blockClose ∧ e.emitted.isSome = true))

/-- The scope after an entry, from the scope before it. -/
def Entry.scopeAfter (c : Scope) (e : Entry) : Scope :=
  if e.kind = .typeOpen then .typeBlock else if e.ClosesType then .topLevel else c

/-- The scope that some entries lead to from outside all types. -/
def scopeOf (es : List Entry) : Scope := es.foldl Entry.scopeAfter .topLevel

theorem scopeOf_append (es fs : List Entry) :
    scopeOf (es ++ fs) = fs.foldl Entry.scopeAfter (scopeOf es) := List.foldl_append

theorem scopeOf_concat (es : List Entry) (e : Entry) :
    scopeOf (es ++ [e]) = e.scopeAfter (scopeOf es) := scopeOf_append es [e]

theorem Entry.ClosesType.scopeAfter {e : Entry} (h : e.ClosesType) (c : Scope) :
    e.scopeAfter c = .topLevel := by
  rw [Entry.scopeAfter, if_neg (by rw [h.1]; exact nofun), if_pos h]

/-- Outside all types the scope stays until an entry opens one. -/
theorem foldl_scopeAfter_topLevel {es : List Entry} (h : ∀ e ∈ es, e.kind ≠ .typeOpen) :
    es.foldl Entry.scopeAfter .topLevel = .topLevel := by
  induction es with
  | nil => rfl
  | cons e es ih =>
    obtain ⟨he, hes⟩ := List.forall_mem_cons.1 h
    rw [List.foldl_cons, Entry.scopeAfter, if_neg he, ite_self]
    exact ih hes

/-- In a type the scope stays until an entry closes it. -/
theorem foldl_scopeAfter_typeBlock {es : List Entry} (h : ∀ e ∈ es, ¬e.ClosesType) :
    es.foldl Entry.scopeAfter .typeBlock = .typeBlock := by
  induction es with
  | nil => rfl
  | cons e es ih =>
    obtain ⟨he, hes⟩ := List.forall_mem_cons.1 h
    rw [List.foldl_cons, Entry.scopeAfter, if_neg he, ite_self]
    exact ih hes

theorem Taken.scope_eq {s s' : State} {line : Text} {e : Entry} (h : Taken s line e s') :
    s'.scope = e.scopeAfter s.scope := by
  have hbody (c : Scope) (t : Text) : (State.enterBody ⟨c, .classifying⟩ t).scope = c := by
    rw [State.enterBody]
    split <;> rfl
  cases h with
  | member => exact hbody .typeBlock _
  | function => exact hbody .topLevel _
  | bodySkip | docBody | docOpen | conditional | typeOpen | blockClose | strayClose | nonMember
  | passthrough | logic => rfl

/-- The scope a run ends in is the one its entries lead to. -/
theorem scope_run (ls : List Text) : (run .initial ls).scope = scopeOf (scan .initial ls) := by
  induction ls using List.reverseRecOn with
  | nil => rfl
  | append_singleton ls line ih =>
    rw [run_append, run_cons, run_nil, (step_taken _ line).scope_eq, ih, scan_append, scan_cons,
      scan_nil, scopeOf_concat]

/-! ## In a type or outside -/

/-- Some entry opens a type, and no entry after it closes one. -/
def InType (es : List Entry) : Prop :=
  ∃ before e after, es = before ++ e :: after ∧ e.kind = .typeOpen ∧ ∀ f ∈ after, ¬f.ClosesType

/-- No entry opens a type, or one that closes it comes after the last one that does. -/
def OutsideTypes (es : List Entry) : Prop :=
  (∀ e ∈ es, e.kind ≠ .typeOpen) ∨
    ∃ before e after, es = before ++ e :: after ∧ e.kind = .typeOpen ∧
      (∀ f ∈ after, f.kind ≠ .typeOpen) ∧ ∃ f ∈ after, f.ClosesType

theorem exists_last_open (es : List Entry) : (∀ e ∈ es, e.kind ≠ .typeOpen) ∨
    ∃ before e after, es = before ++ e :: after ∧ e.kind = .typeOpen ∧
      ∀ f ∈ after, f.kind ≠ .typeOpen := by
  induction es using List.reverseRecOn with
  | nil => exact .inl nofun
  | append_singleton es f ih =>
    by_cases hf : f.kind = .typeOpen
    · exact .inr ⟨es, f, [], rfl, hf, nofun⟩
    have hlast {fs : List Entry} (hfs : ∀ g ∈ fs, g.kind ≠ .typeOpen) :
        ∀ g ∈ fs ++ [f], g.kind ≠ .typeOpen :=
      List.forall_mem_append.2 ⟨hfs, List.forall_mem_singleton.2 hf⟩
    rcases ih with hnone | ⟨before, e, after, rfl, he, hafter⟩
    · exact .inl (hlast hnone)
    · exact .inr ⟨before, e, after ++ [f], by simp, he, hlast hafter⟩

theorem scopeOf_cut {before after : List Entry} {e : Entry} (he : e.kind = .typeOpen) :
    scopeOf (before ++ e :: after) = after.foldl Entry.scopeAfter .typeBlock := by
  rw [scopeOf_append, List.foldl_cons, Entry.scopeAfter, if_pos he]

theorem InType.scopeOf_eq {es : List Entry} (h : InType es) : scopeOf es = .typeBlock := by
  obtain ⟨before, e, after, rfl, he, hafter⟩ := h
  rw [scopeOf_cut he, foldl_scopeAfter_typeBlock hafter]

theorem OutsideTypes.scopeOf_eq {es : List Entry} (h : OutsideTypes es) :
    scopeOf es = .topLevel := by
  rcases h with hnone | ⟨before, e, after, rfl, he, hafter, f, hf, hclose⟩
  · exact foldl_scopeAfter_topLevel hnone
  · obtain ⟨as, bs, rfl⟩ := List.append_of_mem hf
    rw [scopeOf_cut he, List.foldl_append, List.foldl_cons, hclose.scopeAfter,
      foldl_scopeAfter_topLevel fun g hg =>
        hafter g (List.mem_append_right as (List.mem_cons_of_mem f hg))]

/-- Of the entries that open a type the last one decides, so there is no third case. -/
theorem inType_or_outsideTypes (es : List Entry) : InType es ∨ OutsideTypes es := by
  rcases exists_last_open es with hnone | ⟨before, e, after, hes, he, hafter⟩
  · exact .inr (.inl hnone)
  · by_cases hclose : ∃ f ∈ after, f.ClosesType
    · exact .inr (.inr ⟨before, e, after, hes, he, hafter, hclose⟩)
    · exact .inl ⟨before, e, after, hes, he, fun f hf hc => hclose ⟨f, hf, hc⟩⟩

theorem inType_iff {es : List Entry} : InType es ↔ scopeOf es = .typeBlock := by
  refine ⟨InType.scopeOf_eq, fun h => (inType_or_outsideTypes es).resolve_right fun ho => ?_⟩
  rw [ho.scopeOf_eq] at h
  cases h

theorem outsideTypes_iff {es : List Entry} : OutsideTypes es ↔ scopeOf es = .topLevel := by
  refine ⟨OutsideTypes.scopeOf_eq, fun h => (inType_or_outsideTypes es).resolve_left fun hi => ?_⟩
  rw [hi.scopeOf_eq] at h
  cases h

/-! ## One entry -/

/-- What the kind of an entry says of the scope it is made in. -/
structure FitsScope (c : Scope) (e : Entry) : Prop where
  member : e.kind = .member → c = .typeBlock
  topLevel : e.kind = .function ∨ e.kind = .passthrough ∨ e.kind = .logic → c = .topLevel
  blockClose : e.kind = .blockClose → (e.emitted.isSome = true ↔ c = .typeBlock)

theorem Taken.fitsScope {s s' : State} {line : Text} {e : Entry} (h : Taken s line e s') :
    FitsScope s.scope e := by
  cases h <;> exact ⟨by simp, by simp, by simp⟩

/-- An entry of a trace is made for one line, in the state that the lines before it lead to. -/
theorem exists_of_scan_eq {s : State} {ls : List Text} {es fs : List Entry} {e : Entry}
    (h : scan s ls = es ++ e :: fs) :
    ∃ as line, es = scan s as ∧ e = (step (run s as) line).1 := by
  induction es generalizing s ls with
  | nil =>
    cases ls with
    | nil => cases h
    | cons line ls => exact ⟨[], line, rfl, (List.cons_eq_cons.1 h).1.symm⟩
  | cons d es ih =>
    cases ls with
    | nil => cases h
    | cons line ls =>
      obtain ⟨rfl, htail⟩ := List.cons_eq_cons.1 h
      obtain ⟨as, line', rfl, rfl⟩ := ih htail
      exact ⟨line :: as, line', rfl, rfl⟩

theorem fitsScope_of_trace {x : Text} {es fs : List Entry} {e : Entry}
    (h : trace x = es ++ e :: fs) : FitsScope (scopeOf es) e := by
  obtain ⟨as, line, rfl, rfl⟩ := exists_of_scan_eq h
  rw [← scope_run]
  exact (step_taken _ line).fitsScope

/-! ## Types opened and closed -/

def opened (es : List Entry) : Nat := es.countP (·.kind = .typeOpen)

def closed (es : List Entry) : Nat := es.countP (·.ClosesType)

/-- Every closed type has been opened, and in a type there is one that is not closed. -/
theorem closed_le_opened (ls : List Text) :
    closed (scan .initial ls) + (if (run .initial ls).scope = .typeBlock then 1 else 0) ≤
      opened (scan .initial ls) := by
  induction ls using List.reverseRecOn with
  | nil => exact Nat.le_refl 0
  | append_singleton ls line ih =>
    have h := step_taken (run .initial ls) line
    have hfits := h.fitsScope.blockClose
    rw [scan_append, scan_cons, scan_nil, run_append, run_cons, run_nil, h.scope_eq,
      Entry.scopeAfter, closed, opened, List.countP_append, List.countP_append,
      List.countP_singleton, List.countP_singleton, ← closed, ← opened]
    generalize (step (run .initial ls) line).1 = e at hfits ⊢
    by_cases ho : e.kind = .typeOpen
    · have hc : ¬e.ClosesType := fun hc => by rw [hc.1] at ho; cases ho
      simp only [ho, hc, if_true, if_false, decide_true, decide_false, Bool.false_eq_true]
      split at ih <;> omega
    by_cases hc : e.ClosesType
    · rw [if_pos ((hfits hc.1).1 hc.2)] at ih
      simp only [ho, hc, if_true, if_false, decide_true, decide_false, Bool.false_eq_true,
        reduceCtorEq]
      omega
    · simp only [ho, hc, if_false, decide_false, Bool.false_eq_true]
      omega

theorem take_scan (s : State) (ls : List Text) (n : Nat) :
    (scan s ls).take n = scan s (ls.take n) := by
  induction ls generalizing s n with
  | nil => rw [scan_nil, List.take_nil, List.take_nil, scan_nil]
  | cons line ls ih =>
    cases n with
    | zero => rfl
    | succ n => rw [scan_cons, List.take_succ_cons, List.take_succ_cons, scan_cons, ih]

/-- Members stand in a type that is open; functions, imports, comments and statements stand outside
all types. A closing line is written exactly when a type is open, so no more types are closed than
were opened, and between two that are closed one is opened. -/
theorem trace_keeps_scope (x : Text) :
    (∀ es e fs, trace x = es ++ e :: fs →
      (e.kind = .member → InType es) ∧
      (e.kind = .function ∨ e.kind = .passthrough ∨ e.kind = .logic → OutsideTypes es) ∧
      (e.kind = .blockClose → (e.emitted.isSome = true ↔ InType es))) ∧
    (∀ n, closed ((trace x).take n) ≤ opened ((trace x).take n)) ∧
    ∀ es e mid f fs, trace x = es ++ e :: (mid ++ f :: fs) → e.ClosesType → f.ClosesType →
      ∃ g ∈ mid, g.kind = .typeOpen := by
  refine ⟨fun es e fs h => ?_, fun n => ?_, fun es e mid f fs h he hf => ?_⟩
  · rw [inType_iff, outsideTypes_iff]
    obtain ⟨hm, ht, hb⟩ := fitsScope_of_trace h
    exact ⟨hm, ht, hb⟩
  · rw [trace, take_scan]
    exact Nat.le_of_add_right_le (closed_le_opened _)
  · -- The first one leads out of all types, and the second stands in one.
    rw [← List.cons_append, ← List.append_assoc] at h
    have hin := ((fitsScope_of_trace h).blockClose hf.1).1 hf.2
    rw [scopeOf_append, List.foldl_cons, he.scopeAfter] at hin
    by_contra hnone
    rw [foldl_scopeAfter_topLevel fun g hg hk => hnone ⟨g, hg, hk⟩] at hin
    cases hin

/-- A type in a type, both closed at once, and below them a stray brace, a call and a type. -/
def nested : Text :=
  ofString ("class A \x7b\n  class B \x7b\n  f() \x7b\n  \x7d\n\x7d\n\x7d\nrun();\n" ++
    "interface C\n\x7d")

theorem trace_keeps_scope_nested :
    InType ((trace nested).take 2) ∧ OutsideTypes ((trace nested).take 6) ∧
      closed (trace nested) ≤ opened (trace nested) ∧
      ∃ g ∈ ((trace nested).take 8).drop 5, g.kind = .typeOpen := by
  obtain ⟨hfits, hcount, hbetween⟩ := trace_keeps_scope nested
  have hmember := (hfits ((trace nested).take 2)
    ⟨.member, some (ofString "  f()\x7b\x7d")⟩ ((trace nested).drop 3) (by decide +kernel)).1 rfl
  have hlogic := (hfits ((trace nested).take 6) ⟨.logic, none⟩ ((trace nested).drop 7)
    (by decide +kernel)).2.1 (.inr (.inr rfl))
  refine ⟨hmember, hlogic, ?_, ?_⟩
  · have := hcount (trace nested).length
    rwa [List.take_length] at this
  · exact hbetween ((trace nested).take 4) ⟨.blockClose, some [closeBrace]⟩ _
      ⟨.blockClose, some [closeBrace]⟩ [] (by decide +kernel) (by decide) (by decide)

end SourceBundle.Skeleton
