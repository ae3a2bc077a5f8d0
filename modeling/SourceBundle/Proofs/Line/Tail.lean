import SourceBundle.Line.Shape
import SourceBundle.Proofs.Text.Trim
/-!
# Bodies and parameter lists

What follows the head of a declaration, said as a grammar. `Bodied s t` says that `t` is `s` and
perhaps a body, and the three readers of tails are put in those terms.
-/
namespace SourceBundle.Line

open Text

/-! ## Bodies -/

/-- No body, an open one and an empty one. -/
def bodies : List Text := [[], [openBrace], [openBrace, closeBrace]]

/-- A text and after it, blanks aside, perhaps a body. -/
def Bodied (s t : Text) : Prop := ∃ e b : Text, t = s ++ e ++ b ∧ isBlank e = true ∧ b ∈ bodies

theorem Bodied.isPrefix {s t : Text} (h : Bodied s t) : s <+: t := by
  obtain ⟨e, b, rfl, -⟩ := h
  exact ⟨e ++ b, (List.append_assoc s e b).symm⟩

theorem bodied_append_left {s t : Text} (h : Text) : Bodied (h ++ s) (h ++ t) ↔ Bodied s t := by
  constructor
  · rintro ⟨e, b, hst, he, hb⟩
    simp only [List.append_assoc, List.append_cancel_left_eq] at hst
    exact ⟨e, b, by rw [hst, List.append_assoc], he, hb⟩
  · rintro ⟨e, b, rfl, he, hb⟩
    exact ⟨e, b, by simp only [List.append_assoc], he, hb⟩

theorem bodied_emptyBody (s : Text) : Bodied s (s ++ [openBrace, closeBrace]) :=
  ⟨[], [openBrace, closeBrace], by simp, rfl, by simp [bodies]⟩

theorem endsWith_iff {m s : Text} : endsWith m s = true ↔ m <:+ s := List.isSuffixOf_iff_suffix

theorem getLast?_of_endsWith {m s : Text} {b : UInt8} (h : endsWith (m ++ [b]) s = true) :
    s.getLast? = some b := by
  obtain ⟨u, rfl⟩ := endsWith_iff.1 h
  rw [← List.append_assoc, List.getLast?_concat]

theorem endsWith_singleton {b : UInt8} {s : Text} :
    endsWith [b] s = true ↔ s.getLast? = some b := by
  constructor
  · exact getLast?_of_endsWith (m := [])
  · intro h
    obtain ⟨u, rfl⟩ := List.getLast?_eq_some_iff.1 h
    exact endsWith_iff.2 (List.suffix_append u [b])

theorem dropEnd_append {n : Nat} {s e : Text} (h : e.length = n) : dropEnd n (s ++ e) = s := by
  rw [dropEnd, List.length_append, h, Nat.add_sub_cancel, List.take_left']
  rfl

theorem exists_append_dropEnd {m s : Text} (h : endsWith m s = true) :
    s = dropEnd m.length s ++ m := by
  obtain ⟨u, rfl⟩ := endsWith_iff.1 h
  rw [dropEnd_append rfl]

theorem bodied_dropBody (t : Text) : Bodied (dropBody t) t := by
  have key : ∀ s b : Text, t = s ++ b → b ∈ bodies → dropBody t = trimEnd s →
      Bodied (dropBody t) t := by
    intro s b ht hb hd
    obtain ⟨e, hs, he⟩ := exists_append_dropEndWhile isSpace s
    refine ⟨e, b, ?_, isBlank_iff.2 he, hb⟩
    rw [hd, ht, show trimEnd s ++ e = s from hs.symm]
  by_cases h₂ : endsWith [openBrace, closeBrace] t = true
  · exact key _ _ (exists_append_dropEnd h₂) (by simp [bodies]) (by rw [dropBody, if_pos h₂]; rfl)
  · by_cases h₁ : endsWith [openBrace] t = true
    · exact key _ _ (exists_append_dropEnd h₁) (by simp [bodies])
        (by rw [dropBody, if_neg h₂, if_pos h₁]; rfl)
    · exact key t [] (List.append_nil t).symm (by simp [bodies])
        (by rw [dropBody, if_neg h₂, if_neg h₁])

theorem dropBody_isPrefix (t : Text) : dropBody t <+: t := (bodied_dropBody t).isPrefix

/-- A byte that neither white space nor a body can hold. -/
def isSolid (b : UInt8) : Bool := !isSpace b && b != openBrace && b != closeBrace

theorem getLast?_append_blank {s e : Text} {b : UInt8} (hs : ∃ c ∈ s.getLast?, isSolid c = true)
    (he : isBlank e = true) (hb : isSpace b = false) (hn : isSolid b = false) :
    (s ++ e).getLast? ≠ some b := by
  intro h
  cases e using List.reverseRecOn with
  | nil =>
    obtain ⟨c, hc, hsc⟩ := hs
    rw [List.append_nil, hc] at h
    rw [← Option.some.inj h, hsc] at hn
    cases hn
  | append_singleton e c =>
    rw [← List.append_assoc, List.getLast?_concat, Option.some.injEq] at h
    rw [isBlank_append, Bool.and_eq_true, h] at he
    simp [isBlank, hb] at he

/-- Nothing but the body goes when what stands before it ends in a solid byte. -/
theorem dropBody_eq_of_bodied {s t : Text} (h : Bodied s t)
    (hs : ∃ c ∈ s.getLast?, isSolid c = true) : dropBody t = s := by
  obtain ⟨e, b, rfl, he, hb⟩ := h
  have hse : trimEnd (s ++ e) = s := by
    rw [trimEnd_append s he, trimEnd_eq_self]
    obtain ⟨c, hc, hsc⟩ := hs
    intro d hd
    rw [hc, Option.mem_some_iff] at hd
    simp only [isSolid, Bool.and_eq_true, Bool.not_eq_true', hd] at hsc
    exact hsc.1.1
  simp only [bodies, List.mem_cons, List.not_mem_nil, or_false] at hb
  -- The end of the text tells the three bodies apart, since a solid byte is no brace.
  rcases hb with rfl | rfl | rfl
  · rw [List.append_nil]
    have h₂ : ¬endsWith [openBrace, closeBrace] (s ++ e) = true := fun h =>
      getLast?_append_blank hs he (b := closeBrace) rfl rfl
        (getLast?_of_endsWith (m := [openBrace]) h)
    have h₁ : ¬endsWith [openBrace] (s ++ e) = true := fun h =>
      getLast?_append_blank hs he (b := openBrace) rfl rfl (getLast?_of_endsWith (m := []) h)
    rw [dropBody, if_neg h₂, if_neg h₁, hse]
  · have h₂ : ¬endsWith [openBrace, closeBrace] (s ++ e ++ [openBrace]) = true := by
      intro h
      have := getLast?_of_endsWith (m := [openBrace]) h
      rw [List.getLast?_concat] at this
      cases this
    rw [dropBody, if_neg h₂, if_pos (endsWith_iff.2 (List.suffix_append _ _)),
      dropEnd_append (n := 1) rfl, hse]
  · rw [dropBody, if_pos (endsWith_iff.2 (List.suffix_append _ _)), dropEnd_append (n := 2) rfl,
      hse]

/-! ## Parameter lists -/

/-- A parameter list with the text before it. -/
def withList (h x : Text) : Text := h ++ openParen :: (x ++ [closeParen])

theorem withList_eq (h x : Text) : withList h x = (h ++ openParen :: x) ++ [closeParen] := by
  simp [withList]

theorem getLast?_withList (h x : Text) : (withList h x).getLast? = some closeParen := by
  rw [withList_eq, List.getLast?_concat]

theorem withList_solid (h x : Text) : ∃ c ∈ (withList h x).getLast?, isSolid c = true :=
  ⟨closeParen, getLast?_withList h x, rfl⟩

theorem closesList_iff {s : Text} :
    closesList s = true ↔ ∃ b x, s = b :: (x ++ [closeParen]) := by
  rw [closesList, Bool.and_eq_true, decide_eq_true_eq, beq_iff_eq]
  constructor
  · rintro ⟨hl, hs⟩
    obtain ⟨u, rfl⟩ := List.getLast?_eq_some_iff.1 hs
    cases u with
    | nil => simp at hl
    | cons b x => exact ⟨b, x, rfl⟩
  · rintro ⟨b, x, rfl⟩
    refine ⟨by simp, ?_⟩
    rw [← List.cons_append, List.getLast?_concat]

theorem closesList_withList (x : Text) : closesList (withList [] x) = true :=
  closesList_iff.2 ⟨openParen, x, rfl⟩

theorem eq_withList_of_isPrefix {s u : Text} (h : s <+: openParen :: u) (hs : closesList s = true) :
    ∃ x, s = withList [] x := by
  obtain ⟨b, x, rfl⟩ := closesList_iff.1 hs
  obtain ⟨rfl, -⟩ := List.cons_prefix_cons.1 h
  exact ⟨x, rfl⟩

theorem isParameterList_iff {p : Parameters} {u : Text} :
    isParameterList p (openParen :: u) = true ↔
      ∃ x, Bodied (withList [] x) (openParen :: u) ∧ (p = .none → x = []) := by
  have hnil : ∀ x : Text, withList [] x = ("()" : Text) → x = [] := by
    intro x hx
    have := congrArg List.length hx
    rw [withList_eq, show ("()" : Text).length = 2 from rfl] at this
    simpa using this
  rw [isParameterList, Bool.and_eq_true, Bool.or_eq_true, beq_iff_eq, beq_iff_eq]
  constructor
  · rintro ⟨hc, hp⟩
    obtain ⟨x, hx⟩ := eq_withList_of_isPrefix (dropBody_isPrefix _) hc
    refine ⟨x, hx ▸ bodied_dropBody _, ?_⟩
    rintro rfl
    rcases hp with hp | hp
    · cases hp
    · exact hnil x (hx ▸ hp)
  · rintro ⟨x, hb, hp⟩
    rw [dropBody_eq_of_bodied hb (withList_solid [] x)]
    refine ⟨closesList_withList x, ?_⟩
    cases p with
    | any => exact .inl rfl
    | none =>
      rw [hp rfl]
      exact .inr rfl

/-! ## Arrows -/

def arrow : Text := [equals, 0x3E]

theorem arrow_eq : ("=>" : Text) = arrow := rfl

theorem getLast?_append_arrow (s : Text) : (s ++ arrow).getLast? = some 0x3E := by
  rw [show s ++ arrow = (s ++ [equals]) ++ [0x3E] by simp [arrow], List.getLast?_concat]

theorem append_arrow_solid (s : Text) : ∃ c ∈ (s ++ arrow).getLast?, isSolid c = true :=
  ⟨0x3E, getLast?_append_arrow s, rfl⟩

/-- Blanks after a closing parenthesis go when the end is trimmed. -/
theorem trimEnd_closed_append {p e : Text} (hp : p.getLast? = some closeParen)
    (he : isBlank e = true) : trimEnd (p ++ e) = p := by
  rw [trimEnd_append _ he, trimEnd_eq_self]
  intro b hb
  rw [hp, Option.mem_some_iff] at hb
  rw [← hb]
  rfl

theorem trimEnd_withList_append {h x e : Text} (he : isBlank e = true) :
    trimEnd (withList h x ++ e) = withList h x :=
  trimEnd_closed_append (getLast?_withList h x) he

theorem isArrowParameterList_iff {u : Text} :
    isArrowParameterList (openParen :: u) = true ↔
      ∃ x e, isBlank e = true ∧ Bodied (withList [] x ++ e ++ arrow) (openParen :: u) := by
  rw [isArrowParameterList, Bool.and_eq_true, arrow_eq]
  constructor
  · rintro ⟨ha, hc⟩
    have hd : dropBody (openParen :: u) = dropEnd 2 (dropBody (openParen :: u)) ++ arrow :=
      exists_append_dropEnd ha
    obtain ⟨e, he, hbe⟩ :=
      exists_append_dropEndWhile isSpace (dropEnd 2 (dropBody (openParen :: u)))
    have hp : trimEnd (dropEnd 2 (dropBody (openParen :: u))) <+: openParen :: u :=
      (List.rdropWhile_prefix isSpace _).trans ((List.take_prefix _ _).trans (dropBody_isPrefix _))
    obtain ⟨x, hx⟩ := eq_withList_of_isPrefix hp hc
    refine ⟨x, e, isBlank_iff.2 hbe, ?_⟩
    rw [← hx, show trimEnd (dropEnd 2 (dropBody (openParen :: u))) ++ e = _ from he.symm, ← hd]
    exact bodied_dropBody _
  · rintro ⟨x, e, he, hb⟩
    rw [dropBody_eq_of_bodied hb (append_arrow_solid _), dropEnd_append (n := 2) rfl,
      trimEnd_withList_append he]
    exact ⟨endsWith_iff.2 (List.suffix_append _ _), closesList_withList x⟩

end SourceBundle.Line
