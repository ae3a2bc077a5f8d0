import SourceBundle.Proofs.Line.Declaration
import SourceBundle.Proofs.Line.Shape
import SourceBundle.Proofs.Skeleton.Report
/-!
# The second pass

A scanner that reads what a scanner has written follows it from state to state, except that it opens
no bodies, and every line it meets is taken by the rule that wrote it. The one exception is a member
that has become a conditional by its empty body.
-/
namespace SourceBundle.Skeleton

open Text

/-! ## The second pass over one line -/

/-- The state in which the lines written so far leave a scanner: no body is ever open. -/
def State.settled : State → State
  | ⟨c, .skipping _⟩ => ⟨c, .classifying⟩
  | s => s

/-- The entry that the line an entry has written gets in a second pass. -/
def Entry.reread : Entry → Entry
  | ⟨.member, some t⟩ =>
    if Line.isConditional (trim t) then ⟨.conditional, none⟩ else ⟨.member, some t⟩
  | e => e

theorem settled_enterBody (c : Scope) (t : Text) :
    (State.enterBody ⟨c, .classifying⟩ t).settled = ⟨c, .classifying⟩ := by
  rw [State.enterBody]
  split <;> rfl

/-- A reduced line leaves no body open. -/
theorem enterBody_of_reduced {h t f : Text} (hr : Line.Reduced h t f) (s : State) :
    s.enterBody f = s := by
  obtain ⟨u, hu⟩ := hr.closed
  have hlast : f.getLast? = some closeBrace := by
    rw [hu, show u ++ Line.emptyBody = u ++ [openBrace] ++ [closeBrace] by simp [Line.emptyBody],
      List.getLast?_concat]
  rw [State.enterBody, Line.leavesBodyOpen, hlast]
  rfl

theorem notDoc_of_reduced {h t f : Text} (hp : Plain t) (hr : Line.Reduced h t f) :
    Line.isDocStart f = false := by
  obtain ⟨u, hu⟩ := hr.paren
  rw [Bool.eq_false_iff]
  intro hd
  have := Line.isDocStart_of_isPrefix hr.start (Line.isDocStart_of_append (hu ▸ hd))
  rw [hp.notDoc] at this
  cases this

/-- Reducing a line makes nothing of it that an earlier rule takes, conditionals apart. -/
theorem plain_of_reduced {h t f : Text} (hp : Plain t) (hr : Line.Reduced h t f)
    (hc : Line.isConditional f = false) : Plain f := by
  obtain ⟨u, hu⟩ := hr.paren
  refine ⟨notDoc_of_reduced hp hr, hc, ?_, ?_⟩
  · rw [Bool.eq_false_iff]
    intro hd
    have := Line.startsAs_of_isPrefix hr.start (Line.declaresType_of_append (hu ▸ hd))
    rw [show Line.startsAs Line.typeHead t = false from hp.notType] at this
    cases this
  · rintro rfl
    have : openParen ∈ [closeBrace] := hu ▸ by simp
    exact absurd this (by decide)

/-- A line that writes nothing leaves the second pass where it is. -/
theorem Taken.settled_of_silent {s s' : State} {line : Text} {e : Entry}
    (h : Taken s line e s') (he : e.emitted = none) : s'.settled = s.settled := by
  cases h with
  | bodySkip c d => split <;> rfl
  | conditional | strayClose | nonMember | logic => rfl
  | docBody | docOpen | typeOpen | blockClose | member | function | passthrough => cases he

theorem trim_indented {f : Text} (hf : Trimmed f) : trim ("  " ++ f) = f := by
  rw [trim, trimStart_append f (e := "  ") (by decide)]
  exact trim_eq_self hf

/-- A written line meets the rule that wrote it, unless it has become a conditional. -/
theorem Taken.settled {s s' : State} {line t : Text} {e : Entry} (h : Taken s line e s')
    (he : e.emitted = some t) : Taken s.settled t e.reread s'.settled := by
  cases h with
  | bodySkip | conditional | strayClose | nonMember | logic => cases he
  | docBody c =>
    obtain rfl := Option.some.inj he
    have := Taken.docBody c line
    split
    · next hd => rwa [if_pos hd] at this
    · next hd => rwa [if_neg hd] at this
  | docOpen hd =>
    obtain rfl := Option.some.inj he
    exact .docOpen hd
  | @typeOpen c _ hd hc ht =>
    obtain rfl := Option.some.inj he
    have htrim := trim_eq_self (Line.trimmed_openType (trimmed_trim line) ht)
    have hty := Line.declaresType_openType ht
    have := @Taken.typeOpen c (Line.openType (trim line))
      (htrim.symm ▸ Line.not_isDocStart_of_declaresType hty)
      (htrim.symm ▸ Line.not_isConditional_of_declaresType hty) (htrim.symm ▸ hty)
    rw [htrim, Line.openType_openType] at this
    exact this
  | blockClose =>
    obtain rfl := Option.some.inj he
    exact .blockClose rfl
  | member hp hm =>
    obtain rfl := Option.some.inj he
    obtain ⟨_, hr, hm'⟩ := Line.reduced_of_member (trimmed_trim line) hm
    have htrim := trim_indented hr.trimmed
    rw [settled_enterBody, Entry.reread, htrim]
    -- Of the rules before this one only that for conditionals looks at how a line ends.
    split
    · next hc => exact .conditional (htrim.symm ▸ notDoc_of_reduced hp hr) (htrim.symm ▸ hc)
    · next hc =>
      have := @Taken.member ("  " ++ Line.finalize (trim line))
        (htrim.symm ▸ plain_of_reduced hp hr (Bool.eq_false_iff.2 hc)) (htrim.symm ▸ hm')
      rw [htrim, hr.stable, enterBody_of_reduced hr] at this
      exact this
  | function hp hf =>
    obtain rfl := Option.some.inj he
    obtain ⟨_, hr, -, hf'⟩ := Line.reduced_of_function (trimmed_trim line) hf
    have htrim := trim_eq_self hr.trimmed
    have hc := Line.not_isConditional_finalize (trimmed_trim line) hf
    have := @Taken.function (Line.finalize (trim line))
      (htrim.symm ▸ plain_of_reduced hp hr hc) (htrim.symm ▸ hf')
    rw [htrim, hr.stable, enterBody_of_reduced hr] at this
    rw [settled_enterBody]
    exact this
  | passthrough hp hf hi =>
    obtain rfl := Option.some.inj he
    exact .passthrough hp hf hi

/-! ## The second pass over a whole output -/

/-- What a second pass reports of the line an entry has written, if it has. -/
def Entry.echo (e : Entry) : Option (Text × Entry) := e.emitted.map fun t => (t, e.reread)

theorem report_emissions (s : State) (ls : List Text) :
    report s.settled (emissions s ls) = (report s ls).filterMap (·.2.echo) := by
  induction ls generalizing s with
  | nil => rfl
  | cons line ls ih =>
    rw [emissions_cons, report_cons, List.filterMap_cons, ← ih]
    cases h : (step s line).1.emitted with
    | none =>
      rw [Option.toList_none, List.nil_append, (step_taken s line).settled_of_silent h]
      simp [Entry.echo, h]
    | some t =>
      rw [Option.toList_some, List.singleton_append, report_cons,
        step_of_taken ((step_taken s line).settled h)]
      simp [Entry.echo, h]

/-- A line of a second pass is written as it stands, conditionals apart. -/
def Faithful (p : Text × Entry) : Prop :=
  p.2.emitted = if p.2.kind = .conditional then none else some p.1

theorem Taken.faithful {s s' : State} {line : Text} {e : Entry} {p : Text × Entry}
    (h : Taken s line e s') (hp : e.echo = some p) : Faithful p := by
  cases h with
  | bodySkip | conditional | strayClose | nonMember | logic => cases hp
  | docBody | docOpen | typeOpen | blockClose | function | passthrough =>
    obtain rfl := Option.some.inj hp
    rfl
  | member =>
    obtain rfl := Option.some.inj hp
    rw [Faithful, Entry.reread]
    split <;> rfl

theorem filterMap_emitted {ps : List (Text × Entry)} (h : ∀ p ∈ ps, Faithful p) :
    ps.filterMap (·.2.emitted) = (ps.filter (·.2.kind != .conditional)).map (·.1) := by
  induction ps with
  | nil => rfl
  | cons p ps ih =>
    have hp := h p List.mem_cons_self
    rw [Faithful] at hp
    rw [List.filterMap_cons, hp, List.filter_cons, ih fun p hp => h p (List.mem_cons_of_mem _ hp)]
    by_cases hk : p.2.kind = .conditional
    · simp [hk]
    · simp [hk]

/-- A conditional of a second pass is a member that its empty body has made one. -/
theorem Taken.member_of_echo {s s' : State} {line : Text} {e : Entry} {p : Text × Entry}
    (h : Taken s line e s') (hp : e.echo = some p) (hk : p.2.kind = .conditional) :
    e = ⟨.member, some p.1⟩ ∧ p.1 = "  " ++ Line.finalize (trim line) ∧
      Line.isConditional (Line.finalize (trim line)) = true := by
  cases h with
  | bodySkip | conditional | strayClose | nonMember | logic => cases hp
  | docBody | docOpen | typeOpen | blockClose | function | passthrough =>
    obtain rfl := Option.some.inj hp
    cases hk
  | member _ hm =>
    obtain rfl := Option.some.inj hp
    obtain ⟨_, hr, -⟩ := Line.reduced_of_member (trimmed_trim line) hm
    refine ⟨rfl, rfl, ?_⟩
    rw [Entry.reread, trim_indented hr.trimmed] at hk
    split at hk
    · next hc => exact hc
    · cases hk

/-- A line that is still a member in a second pass is reduced already. -/
theorem Taken.stable_of_echo {s s' : State} {line : Text} {e : Entry} {p : Text × Entry}
    (h : Taken s line e s') (hp : e.echo = some p) (hk : p.2.kind = .member) :
    Line.finalize (trim p.1) = trim p.1 := by
  cases h with
  | bodySkip | conditional | strayClose | nonMember | logic => cases hp
  | docBody | docOpen | typeOpen | blockClose | function | passthrough =>
    obtain rfl := Option.some.inj hp
    cases hk
  | member _ hm =>
    obtain rfl := Option.some.inj hp
    obtain ⟨_, hr, -⟩ := Line.reduced_of_member (trimmed_trim line) hm
    dsimp only
    rw [trim_indented hr.trimmed, hr.stable]

theorem Taken.plain_of_member {s s' : State} {line t : Text} {e : Entry} (h : Taken s line e s')
    (he : e = ⟨.member, some t⟩) :
    Plain (trim line) ∧ Line.declaresMember (trim line) = true := by
  cases h with
  | member hp hm => exact ⟨hp, hm⟩
  | bodySkip | docBody | docOpen | conditional | typeOpen | blockClose | strayClose | nonMember
  | function | passthrough | logic => cases he

theorem Taken.scope_of_member {s s' : State} {line : Text} {e : Entry} (h : Taken s line e s')
    (hk : e.kind = .member) : s.scope = .typeBlock := by
  cases h with
  | member | nonMember => rfl
  | bodySkip | docBody | docOpen | conditional | typeOpen | blockClose | strayClose | function
  | passthrough | logic => cases hk

theorem settled_scope (s : State) : s.settled.scope = s.scope := by
  obtain ⟨c, a⟩ := s
  cases a <;> rfl

/-- A run that starts outside all types does not write a member first. -/
theorem first_echo {s : State} {ls : List Text} {p : Text × Entry} {ps : List (Text × Entry)}
    (hs : s.scope = .topLevel) (h : (report s ls).filterMap (·.2.echo) = p :: ps) :
    p.2.kind ≠ .conditional := by
  induction ls generalizing s with
  | nil => cases h
  | cons line ls ih =>
    have ht := step_taken s line
    rw [report_cons, List.filterMap_cons] at h
    cases he : (step s line).1.echo with
    | none =>
      rw [he] at h
      refine ih ?_ h
      rw [← settled_scope, ht.settled_of_silent (Option.map_eq_none_iff.1 he), settled_scope, hs]
    | some q =>
      rw [he] at h
      obtain ⟨rfl, -⟩ := List.cons_eq_cons.1 h
      intro hk
      have hm := ht.scope_of_member (by rw [(ht.member_of_echo he hk).1])
      rw [hs] at hm
      cases hm

end SourceBundle.Skeleton
