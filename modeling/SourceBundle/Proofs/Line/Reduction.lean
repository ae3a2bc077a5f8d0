import SourceBundle.Proofs.Line.Declaration
/-!
# Reducing twice

Reducing any text leaves a declaration that is trimmed, has its parentheses and has no blanks around
its arrow, and an empty body after it. Such a text reduces to itself. A function or a member stays
one, with the head it had.
-/
namespace SourceBundle.Line

open Text

/-! ## Any text -/

theorem dropBody_append_emptyBody (s : Text) : dropBody (s ++ emptyBody) = trimEnd s := by
  have hs : endsWith [openBrace, closeBrace] (s ++ emptyBody) = true :=
    endsWith_iff.2 (List.suffix_append s _)
  rw [dropBody, if_pos hs, dropEnd_append (n := 2) rfl]

/-- Text without parentheses at the end makes no difference to whether there are parameters. -/
theorem hasParameters_append {s e : Text} (ho : openParen ∉ e) (hc : closeParen ∉ e) :
    hasParameters (s ++ e) = hasParameters s := by
  by_cases hm : openParen ∈ s
  · obtain ⟨h, u, rfl, hh⟩ := List.eq_append_cons_of_mem hm
    rw [hasParameters, hasParameters, List.append_assoc, List.cons_append, tail_append hh,
      tail_append hh]
    simp [hc]
  · have hse : openParen ∉ s ++ e := by simp [hm, ho]
    rw [hasParameters, hasParameters, tail_eq_nil hm, tail_eq_nil hse]

theorem hasParameters_append_list (s : Text) : hasParameters (withList s []) = true := by
  by_cases hm : openParen ∈ s
  · obtain ⟨h, u, rfl, hh⟩ := List.eq_append_cons_of_mem hm
    rw [hasParameters, withList, List.append_assoc, List.cons_append, tail_append hh]
    simp
  · simpa using hasParameters_withList_append [] hm

/-- Tightening an arrow takes away the blanks before it, where there is an arrow after a parameter
list; it leaves every other text as it is. -/
theorem tightenArrow_cases (t : Text) : tightenArrow t = t ∨
    ∃ p e, isBlank e = true ∧ p.getLast? = some closeParen ∧ t = p ++ e ++ arrow ∧
      tightenArrow t = p ++ arrow := by
  rw [tightenArrow, arrow_eq]
  split
  · next ha =>
    dsimp only
    split
    · next hp =>
      obtain ⟨e, he, hb⟩ := exists_append_dropEndWhile isSpace (dropEnd 2 t)
      refine .inr ⟨trimEnd (dropEnd 2 t), e, isBlank_iff.2 hb, by simpa using hp, ?_, rfl⟩
      rw [show trimEnd (dropEnd 2 t) ++ e = dropEnd 2 t from he.symm]
      exact exists_append_dropEnd ha
    · exact .inl rfl
  · exact .inl rfl

/-- A declaration that reducing leaves as it is. -/
structure Settled (d : Text) : Prop where
  trimmed : Trimmed d
  hasParameters : hasParameters d = true
  tight : tightenArrow d = d

theorem Settled.finalize_eq {d : Text} (h : Settled d) :
    finalize (d ++ emptyBody) = d ++ emptyBody := by
  rw [finalize, dropBody_append_emptyBody, trimEnd_eq_self h.trimmed.stop, trim_eq_self h.trimmed,
    if_pos h.hasParameters, h.tight]
  rfl

theorem trimmed_withList {s : Text} (hs : Trimmed s) (x : Text) : Trimmed (withList s x) := by
  refine ⟨?_, fun b hb => ?_⟩
  · cases s with
    | nil =>
      intro b hb
      cases hb
      rfl
    | cons => exact hs.start
  · rw [getLast?_withList, Option.mem_some_iff] at hb
    rw [← hb]
    rfl

theorem settled_tightenArrow {d : Text} (hd : Trimmed d) (hp : hasParameters d = true) :
    Settled (tightenArrow d) := by
  rcases tightenArrow_cases d with h | ⟨p, e, he, hlast, rfl, h⟩
  · rw [h]
    exact ⟨hd, hp, h⟩
  · have hno (c : UInt8) (hc : isSpace c = false) (ha : c ∉ arrow) : c ∉ e ++ arrow := by
      rw [List.mem_append, not_or]
      refine ⟨fun hm => ?_, ha⟩
      rw [isBlank_iff.1 he c hm] at hc
      cases hc
    have hpe : hasParameters (p ++ (e ++ arrow)) = hasParameters p :=
      hasParameters_append (hno _ rfl (by decide)) (hno _ rfl (by decide))
    have hpa : hasParameters (p ++ arrow) = hasParameters p :=
      hasParameters_append (by decide) (by decide)
    have hne : p ≠ [] := by
      rintro rfl
      cases hlast
    rw [h]
    refine ⟨⟨?_, ?_⟩, ?_, by simpa using tightenArrow_append (e := []) hlast rfl⟩
    · rw [head?_of_isPrefix hne (List.prefix_append p arrow),
        ← head?_of_isPrefix hne (List.prefix_append p (e ++ arrow)), ← List.append_assoc]
      exact hd.start
    · rw [getLast?_append_arrow]
      rintro b ⟨⟩
      rfl
    · rw [hpa, ← hpe, ← List.append_assoc, hp]

/-- Whatever a text is, reducing it gives a settled declaration and an empty body. -/
theorem exists_settled (s : Text) : ∃ d, Settled d ∧ finalize s = d ++ emptyBody := by
  refine ⟨_, settled_tightenArrow ?_ ?_, rfl⟩
  · split
    · exact trimmed_trim _
    · exact trimmed_withList (trimmed_trim _) []
  · split
    · next hp => exact hp
    · exact hasParameters_append_list _

/-! ## Functions and members -/

/-- How a declaration that `accepts` tells reads once it is reduced, with the head `h`. -/
structure Closed (accepts : Text → Bool) (h f : Text) : Prop where
  trimmed : Trimmed f
  accepted : accepts f = true
  /-- The head is followed by a parenthesis. -/
  head_eq : ∃ u, f = h ++ openParen :: u ∧ openParen ∉ h
  /-- No white space stands before the empty body. -/
  closed : ∃ d, f = d ++ emptyBody ∧ ∃ b ∈ d.getLast?, isSpace b = false
  not_open : leavesBodyOpen f = false

theorem Settled.ne_nil {d : Text} (h : Settled d) : d ≠ [] := by
  rintro rfl
  cases h.hasParameters

theorem closed_of_reduced {accepts : Text → Bool} {h t : Text} (hr : Reduced h t (finalize t))
    (ha : accepts (finalize t) = true) : Closed accepts h (finalize t) := by
  obtain ⟨d, hd, hf⟩ := exists_settled t
  obtain ⟨u, hu⟩ := hr.paren
  have hlast : d.getLast? = some (d.getLast hd.ne_nil) := List.getLast?_eq_some_getLast hd.ne_nil
  refine ⟨hr.trimmed, ha, ⟨u, hu, hr.noParen⟩, ⟨d, hf, _, hlast, hd.trimmed.stop _ hlast⟩, ?_⟩
  rw [leavesBodyOpen, hf, emptyBody, List.getLast?_append_of_ne_nil d (by simp)]
  rfl

theorem head_eq_of_bodied {h s t : Text} (hh : openParen ∉ h)
    (hb : Bodied (h ++ openParen :: s) t) : head t = h := by
  obtain ⟨u, rfl, -⟩ := bodied_of_isPrefix hb
  exact head_append hh

theorem closed_of_function {t : Text} (ht : Trimmed t) (hf : declaresFunction t = true) :
    Closed declaresFunction (head t) (finalize t) := by
  obtain ⟨-, -, -, ha⟩ := reduced_of_function ht hf
  rcases declaresFunction_iff.1 hf with ⟨h, x, hh, -, hb⟩ | ⟨h, x, e, hh, -, he, hb⟩
  · rw [head_eq_of_bodied hh hb]
    exact closed_of_reduced (reduced_withList ht hh hb) ha
  · have hr := reduced_arrow ht hh he hb
    rw [withList, List.append_assoc, List.append_assoc, List.cons_append] at hb
    rw [head_eq_of_bodied hh hb]
    exact closed_of_reduced hr ha

/-- An arrow function is a head, a parameter list right before the arrow, and the body right after
it. -/
theorem finalize_of_arrow {t : Text} (ht : Trimmed t) (ha : isArrowParameterList (tail t) = true) :
    ∃ x, finalize t = withList (head t) x ++ arrow ++ emptyBody := by
  have hm : openParen ∈ t := by
    by_contra hm
    rw [tail_eq_nil hm] at ha
    cases ha
  obtain ⟨h, u, rfl, hh⟩ := List.eq_append_cons_of_mem hm
  rw [tail_append hh] at ha
  obtain ⟨x, e, he, hb⟩ := isArrowParameterList_iff.1 ha
  refine ⟨x, ?_⟩
  rw [head_append hh]
  refine finalize_arrow ht hh he ?_
  rw [withList_append, List.append_assoc, List.append_assoc, ← List.append_assoc (withList [] x)]
  exact (bodied_append_left h).2 hb

theorem closed_of_member {t : Text} (ht : Trimmed t) (hm : declaresMember t = true) :
    Closed declaresMember (if openParen ∈ t then head t else dropBody t) (finalize t) := by
  obtain ⟨-, -, ha⟩ := reduced_of_member ht hm
  rcases declaresMember_iff.1 hm with ⟨h, x, hh, -, hb⟩ | ⟨hn, hg⟩
  · have hmem : openParen ∈ t := hb.isPrefix.subset (by simp [withList])
    rw [if_pos hmem, head_eq_of_bodied hh hb]
    exact closed_of_reduced (reduced_withList ht hh hb) ha
  · rw [if_neg hn]
    exact closed_of_reduced (reduced_bare ht hn hg) ha

/-- Reducing a second time changes nothing. A function or a member stays one when it is reduced,
with the head it had, and ends in an empty body that nothing separates from it; an arrow has nothing
around it either. -/
theorem finalize_stable :
    (∀ s, finalize (finalize s) = finalize s) ∧
      (∀ t, Trimmed t → declaresFunction t = true →
        Closed declaresFunction (head t) (finalize t) ∧
          (isArrowParameterList (tail t) = true →
            ∃ x, finalize t = withList (head t) x ++ arrow ++ emptyBody)) ∧
      ∀ t, Trimmed t → declaresMember t = true →
        Closed declaresMember (if openParen ∈ t then head t else dropBody t) (finalize t) := by
  refine ⟨fun s => ?_, fun t ht hf => ?_, fun t ht hm => closed_of_member ht hm⟩
  · obtain ⟨d, hd, hf⟩ := exists_settled s
    rw [hf, hd.finalize_eq]
  · exact ⟨closed_of_function ht hf, finalize_of_arrow ht⟩

/-- The last arrow is the one that counts, and a getter gets the parentheses it lacks. -/
theorem finalize_stable_arrow :
    let t := ofString "const f = async (a = (b) => 1)  => \x7b"
    let g := ofString "get size \x7b\x7d"
    (Closed declaresFunction (head t) (finalize t) ∧
      ∃ x, finalize t = withList (head t) x ++ arrow ++ emptyBody) ∧
      Closed declaresMember (ofString "get size") (finalize g) := by
  intro t g
  have ht : Trimmed t := ⟨by decide +kernel, by decide +kernel⟩
  have hg : Trimmed g := ⟨by decide +kernel, by decide +kernel⟩
  obtain ⟨-, hfunction, hmember⟩ := finalize_stable
  obtain ⟨hc, ha⟩ := hfunction t ht (by decide +kernel)
  exact ⟨⟨hc, ha (by decide +kernel)⟩, hmember g hg (by decide +kernel)⟩

end SourceBundle.Line
