import SourceBundle.Line.Declaration
import SourceBundle.Proofs.Line.Shape
import SourceBundle.Proofs.Line.Tail
import SourceBundle.Proofs.Regex.Language
/-!
# Declarations as a grammar

A function or member is a head, a parameter list and perhaps a body, and reducing one keeps its head
and its parameters. The reduced line is declared by the same head and reduces to itself.
-/
namespace SourceBundle.Line

open Text

/-! ## Cutting at the first parenthesis -/

theorem forall_bne_of_not_mem {h : Text} {c : UInt8} (hc : c ∉ h) :
    ∀ b ∈ h, (b != c) = true := by
  intro b hb
  rw [bne_iff_ne]
  rintro rfl
  exact hc hb

theorem head_append {h u : Text} (hh : openParen ∉ h) : head (h ++ openParen :: u) = h := by
  rw [head, List.takeWhile_append_of_pos (forall_bne_of_not_mem hh),
    List.takeWhile_cons_of_neg (by simp), List.append_nil]

theorem tail_append {h u : Text} (hh : openParen ∉ h) :
    tail (h ++ openParen :: u) = openParen :: u := by
  rw [tail, List.dropWhile_append_of_pos (forall_bne_of_not_mem hh),
    List.dropWhile_cons_of_neg (by simp)]

theorem tail_eq_nil {t : Text} (ht : openParen ∉ t) : tail t = [] := by
  rw [tail, List.dropWhile_eq_nil_iff]
  exact forall_bne_of_not_mem ht

theorem withList_append (h x : Text) : withList h x = h ++ withList [] x := rfl

theorem bodied_of_isPrefix {h s t : Text} (hb : Bodied (h ++ openParen :: s) t) :
    ∃ u, t = h ++ openParen :: u ∧ Bodied (openParen :: s) (openParen :: u) := by
  obtain ⟨e, b, rfl, he, hm⟩ := hb
  exact ⟨s ++ e ++ b, by simp, e, b, by simp, he, hm⟩

/-! ## Functions -/

theorem declaresFunction_append {h u : Text} (hh : openParen ∉ h) :
    declaresFunction (h ++ openParen :: u) = true ↔
      (isHead functionHead h = true ∧ isParameterList .any (openParen :: u) = true) ∨
        (isHead arrowHead h = true ∧ isArrowParameterList (openParen :: u) = true) := by
  have hm : (h ++ openParen :: u).contains openParen = true := by simp
  rw [declaresFunction, hm, head_append hh, tail_append hh, Bool.true_and, Bool.or_eq_true,
    Bool.and_eq_true, Bool.and_eq_true]

/-- A function is a head, a list of parameters, an arrow where the head is one of an arrow
function, and perhaps a body. -/
theorem declaresFunction_iff {t : Text} :
    declaresFunction t = true ↔
      (∃ h x, openParen ∉ h ∧ isHead functionHead h = true ∧ Bodied (withList h x) t) ∨
        ∃ h x e, openParen ∉ h ∧ isHead arrowHead h = true ∧ isBlank e = true ∧
          Bodied (withList h x ++ e ++ arrow) t := by
  constructor
  · intro ht
    have hm : openParen ∈ t := by
      rw [declaresFunction, Bool.and_eq_true, List.contains_iff_mem] at ht
      exact ht.1
    obtain ⟨h, u, rfl, hh⟩ := List.eq_append_cons_of_mem hm
    rcases (declaresFunction_append hh).1 ht with ⟨hf, hp⟩ | ⟨ha, hp⟩
    · obtain ⟨x, hb, -⟩ := isParameterList_iff.1 hp
      exact .inl ⟨h, x, hh, hf, (bodied_append_left h).2 hb⟩
    · obtain ⟨x, e, he, hb⟩ := isArrowParameterList_iff.1 hp
      refine .inr ⟨h, x, e, hh, ha, he, ?_⟩
      rw [withList_append, List.append_assoc, List.append_assoc]
      rw [List.append_assoc] at hb
      exact (bodied_append_left h).2 hb
  · rintro (⟨h, x, hh, hf, hb⟩ | ⟨h, x, e, hh, ha, he, hb⟩)
    · obtain ⟨u, rfl, hu⟩ := bodied_of_isPrefix hb
      exact (declaresFunction_append hh).2
        (.inl ⟨hf, isParameterList_iff.2 ⟨x, hu, fun h => nomatch h⟩⟩)
    · rw [withList, List.append_assoc, List.append_assoc, List.cons_append] at hb
      obtain ⟨u, rfl, hu⟩ := bodied_of_isPrefix hb
      refine (declaresFunction_append hh).2 (.inr ⟨ha, isArrowParameterList_iff.2 ⟨x, e, he, ?_⟩⟩)
      rw [withList, List.nil_append, List.append_assoc, List.cons_append]
      exact hu

/-! ## Members -/

/-- Whether the head of some member takes these parameters. -/
def MemberHead (h x : Text) : Prop :=
  ∃ r ∈ memberHeads, isHead r.1 h = true ∧ (r.2 = .none → x = [])

theorem declaresMember_append {h u : Text} (hh : openParen ∉ h) :
    declaresMember (h ++ openParen :: u) = true ↔
      ∃ x, MemberHead h x ∧ Bodied (withList [] x) (openParen :: u) := by
  have hm : (h ++ openParen :: u).contains openParen = true := by simp
  rw [declaresMember, if_pos hm, head_append hh, tail_append hh, List.any_eq_true]
  constructor
  · rintro ⟨r, hr, h'⟩
    obtain ⟨hd, hp⟩ := (Bool.and_eq_true _ _).mp h'
    obtain ⟨x, hb, hx⟩ := isParameterList_iff.1 hp
    exact ⟨x, ⟨r, hr, hd, hx⟩, hb⟩
  · rintro ⟨x, ⟨r, hr, hd, hx⟩, hb⟩
    exact ⟨r, hr, (Bool.and_eq_true _ _).mpr ⟨hd, isParameterList_iff.2 ⟨x, hb, hx⟩⟩⟩

/-- A member is a head, the parameters it takes, and perhaps a body; or a getter without any. -/
theorem declaresMember_iff {t : Text} :
    declaresMember t = true ↔
      (∃ h x, openParen ∉ h ∧ MemberHead h x ∧ Bodied (withList h x) t) ∨
        (openParen ∉ t ∧ isHead bareGetter (dropBody t) = true) := by
  by_cases hm : openParen ∈ t
  · constructor
    · intro ht
      obtain ⟨h, u, rfl, hh⟩ := List.eq_append_cons_of_mem hm
      obtain ⟨x, hx, hb⟩ := (declaresMember_append hh).1 ht
      exact .inl ⟨h, x, hh, hx, (bodied_append_left h).2 hb⟩
    · rintro (⟨h, x, hh, hx, hb⟩ | ⟨hn, -⟩)
      · obtain ⟨u, rfl, hu⟩ := bodied_of_isPrefix hb
        exact (declaresMember_append hh).2 ⟨x, hx, hu⟩
      · exact absurd hm hn
  · rw [declaresMember, if_neg (by simpa using hm)]
    constructor
    · intro h
      exact .inr ⟨hm, h⟩
    · rintro (⟨h, x, -, -, hb⟩ | ⟨-, h⟩)
      · exact absurd (hb.isPrefix.subset (by simp [withList])) hm
      · exact h

theorem memberHead_of_bareGetter {h : Text} (hb : isHead bareGetter h = true) :
    MemberHead h [] := by
  -- The head of a getter with parameters ends in blanks, and here there are none.
  refine ⟨(getterHead, .none), by simp [memberHeads], ?_, fun _ => rfl⟩
  rw [isHead, Bool.and_eq_true, Regex.isMatch_iff] at hb ⊢
  refine ⟨hb.1, ?_⟩
  have hnil : (Regex.concat [blanks]).Accepts [] :=
    Regex.accepts_concat_cons.2 ⟨[], [], rfl, List.forall_mem_nil _, rfl⟩
  exact (Regex.accepts_concat_append [modifier "async", keyword "get", name] [blanks]).2
    ⟨h, [], (List.append_nil h).symm, hb.2, hnil⟩

theorem exists_memberHead {t : Text} (hm : declaresMember t = true) :
    ∃ h x, MemberHead h x ∧ h <+: t := by
  rcases declaresMember_iff.1 hm with ⟨h, x, -, hx, hb⟩ | ⟨-, hg⟩
  · exact ⟨h, x, hx, (List.prefix_append _ _).trans hb.isPrefix⟩
  · exact ⟨dropBody t, [], memberHead_of_bareGetter hg, dropBody_isPrefix t⟩

theorem MemberHead.ne_nil {h x : Text} (hm : MemberHead h x) : h ≠ [] := by
  obtain ⟨r, hr, hd, -⟩ := hm
  have hempty : ∀ r ∈ memberHeads, isHead r.1 [] = false := by decide
  rintro rfl
  rw [hempty r hr] at hd
  cases hd

theorem MemberHead.not_mem {h x : Text} (hm : MemberHead h x) {b : UInt8}
    (hb : ∀ r ∈ memberHeads, r.1.mentions b = false) : b ∉ h := by
  obtain ⟨r, hr, hd, -⟩ := hm
  rw [isHead, Bool.and_eq_true, Regex.isMatch_iff] at hd
  exact Regex.not_mem_of_mentions (hb r hr) hd.2

/-- A member starts with its head, which documentation cannot start with. -/
theorem not_isDocStart_of_declaresMember {t : Text} (hm : declaresMember t = true) :
    isDocStart t = false := by
  rw [Bool.eq_false_iff]
  intro hd
  obtain ⟨h, x, hx, hp⟩ := exists_memberHead hm
  obtain ⟨u, rfl⟩ := startsWith_iff.1 hd
  have hhead := head?_of_isPrefix hx.ne_nil hp
  exact hx.not_mem (by decide) (List.mem_of_head? hhead.symm)

/-! ## Reduced declarations -/

/-- The body every reduced declaration ends in. -/
def emptyBody : Text := [openBrace, closeBrace]

theorem hasParameters_withList_append {h x : Text} (s : Text) (hh : openParen ∉ h) :
    hasParameters (withList h x ++ s) = true := by
  rw [hasParameters, withList, List.append_assoc, List.cons_append, tail_append hh]
  simp

/-- A prefix of a trimmed text that ends in a solid byte is trimmed. -/
theorem trim_of_isPrefix {s t : Text} (ht : Trimmed t) (h : s <+: t)
    (hs : ∃ c ∈ s.getLast?, isSolid c = true) : trim s = s := by
  refine trim_eq_self (Trimmed.of_isPrefix h ht.start ?_)
  obtain ⟨c, hc, hsc⟩ := hs
  intro b hb
  rw [hc, Option.mem_some_iff] at hb
  simp only [isSolid, Bool.and_eq_true, Bool.not_eq_true', hb] at hsc
  exact hsc.1.1

theorem endsWith_arrow_withList (h x : Text) : ¬endsWith arrow (withList h x) = true := by
  intro ha
  have := getLast?_of_endsWith (m := [equals]) ha
  rw [getLast?_withList] at this
  cases this

theorem finalize_withList {h x t : Text} (ht : Trimmed t) (hh : openParen ∉ h)
    (hb : Bodied (withList h x) t) : finalize t = withList h x ++ emptyBody := by
  have hd : dropBody t = withList h x := dropBody_eq_of_bodied hb (withList_solid h x)
  have hp : hasParameters (withList h x) = true := by
    simpa using hasParameters_withList_append [] hh
  rw [finalize, hd, trim_of_isPrefix ht hb.isPrefix (withList_solid h x), if_pos hp, tightenArrow,
    arrow_eq, if_neg (endsWith_arrow_withList h x)]
  rfl

/-- The blanks between a closing parenthesis and a last arrow go. -/
theorem tightenArrow_append {p e : Text} (hp : p.getLast? = some closeParen)
    (he : isBlank e = true) : tightenArrow (p ++ e ++ arrow) = p ++ arrow := by
  have ha : endsWith arrow (p ++ e ++ arrow) = true := endsWith_iff.2 (List.suffix_append _ _)
  rw [tightenArrow, arrow_eq, if_pos ha]
  dsimp only
  rw [dropEnd_append (n := 2) rfl, trimEnd_closed_append hp he, hp]
  rfl

theorem finalize_arrow {h x e t : Text} (ht : Trimmed t) (hh : openParen ∉ h)
    (he : isBlank e = true) (hb : Bodied (withList h x ++ e ++ arrow) t) :
    finalize t = withList h x ++ arrow ++ emptyBody := by
  have hs := append_arrow_solid (withList h x ++ e)
  have hd : dropBody t = withList h x ++ e ++ arrow := dropBody_eq_of_bodied hb hs
  have hp : hasParameters (withList h x ++ e ++ arrow) = true := by
    rw [List.append_assoc]
    exact hasParameters_withList_append _ hh
  rw [finalize, hd, trim_of_isPrefix ht hb.isPrefix hs, if_pos hp,
    tightenArrow_append (getLast?_withList h x) he]
  rfl

/-- A getter without parameters gets an empty list of them. -/
theorem finalize_bare {t : Text} (ht : Trimmed t) (hn : openParen ∉ t) :
    finalize t = withList (dropBody t) [] ++ emptyBody := by
  have hp : ¬hasParameters (dropBody t) = true := by
    rw [hasParameters, tail_eq_nil fun h => hn ((dropBody_isPrefix t).subset h)]
    simp
  have hd : trim (dropBody t) = dropBody t := by
    refine trim_eq_self (Trimmed.of_isPrefix (dropBody_isPrefix t) ht.start ?_)
    rw [dropBody]
    exact getLast?_dropEndWhile
  rw [finalize, hd, if_neg hp, tightenArrow, arrow_eq,
    show dropBody t ++ ("()" : Text) = withList (dropBody t) [] from rfl,
    if_neg (endsWith_arrow_withList _ [])]
  rfl

/-- How the reduced form `f` of a line `t` reads: a beginning `h` of the line, then a parenthesis
that was the first or has been added, and an empty body at the end. -/
structure Reduced (h t f : Text) : Prop where
  noParen : openParen ∉ h
  start : h <+: t
  paren : ∃ u, f = h ++ openParen :: u
  closed : ∃ s, f = s ++ emptyBody
  trimmed : Trimmed f
  stable : finalize f = f

/-- A reduced line starts as the line did, and its last byte is a brace. -/
theorem trimmed_append_emptyBody {s t : Text} (ht : Trimmed t) (hs : s ≠ []) (h : s <+: t)
    (u : Text) : Trimmed (s ++ u ++ emptyBody) := by
  refine ⟨?_, ?_⟩
  · have hp : s <+: s ++ u ++ emptyBody := ⟨u ++ emptyBody, (List.append_assoc s u _).symm⟩
    rw [head?_of_isPrefix hs hp, ← head?_of_isPrefix hs h]
    exact ht.start
  · intro b hb
    rw [show s ++ u ++ emptyBody = s ++ u ++ [openBrace] ++ [closeBrace] by simp [emptyBody],
      List.getLast?_concat, Option.mem_some_iff] at hb
    rw [← hb]
    rfl

theorem withList_ne_nil (h x : Text) : withList h x ≠ [] := by simp [withList]

theorem reduced_withList {h x t : Text} (ht : Trimmed t) (hh : openParen ∉ h)
    (hb : Bodied (withList h x) t) : Reduced h t (finalize t) := by
  have hf := finalize_withList ht hh hb
  have htrim : Trimmed (withList h x ++ emptyBody) := by
    simpa using trimmed_append_emptyBody ht (withList_ne_nil h x) hb.isPrefix []
  refine ⟨hh, (List.prefix_append _ _).trans hb.isPrefix, ?_, ⟨_, hf⟩, hf ▸ htrim, ?_⟩
  · exact ⟨x ++ [closeParen] ++ emptyBody, by rw [hf, withList]; simp⟩
  · rw [hf, finalize_withList htrim hh (bodied_emptyBody _)]

theorem reduced_arrow {h x e t : Text} (ht : Trimmed t) (hh : openParen ∉ h)
    (he : isBlank e = true) (hb : Bodied (withList h x ++ e ++ arrow) t) :
    Reduced h t (finalize t) := by
  have hf := finalize_arrow ht hh he hb
  have hp : withList h x <+: t := by
    rw [List.append_assoc] at hb
    exact (List.prefix_append _ _).trans hb.isPrefix
  have htrim : Trimmed (withList h x ++ arrow ++ emptyBody) :=
    trimmed_append_emptyBody ht (withList_ne_nil h x) hp arrow
  refine ⟨hh, (List.prefix_append _ _).trans hp, ?_, ⟨_, hf⟩, hf ▸ htrim, ?_⟩
  · exact ⟨x ++ [closeParen] ++ arrow ++ emptyBody, by rw [hf, withList]; simp⟩
  · have hb' : Bodied (withList h x ++ [] ++ arrow) (withList h x ++ arrow ++ emptyBody) := by
      rw [List.append_nil]
      exact bodied_emptyBody _
    rw [hf, finalize_arrow htrim hh rfl hb']

theorem reduced_bare {t : Text} (ht : Trimmed t) (hn : openParen ∉ t)
    (hg : isHead bareGetter (dropBody t) = true) : Reduced (dropBody t) t (finalize t) := by
  have hf := finalize_bare ht hn
  have hne : dropBody t ≠ [] := by
    intro h
    rw [h] at hg
    exact absurd hg (by decide)
  have hh : openParen ∉ dropBody t := fun h => hn ((dropBody_isPrefix t).subset h)
  have htrim : Trimmed (withList (dropBody t) [] ++ emptyBody) :=
    trimmed_append_emptyBody ht hne (dropBody_isPrefix t) [openParen, closeParen]
  refine ⟨hh, dropBody_isPrefix t, ?_, ⟨_, hf⟩, hf ▸ htrim, ?_⟩
  · exact ⟨closeParen :: emptyBody, by rw [hf, withList]; simp⟩
  · rw [hf, finalize_withList htrim hh (bodied_emptyBody _)]

/-- A reduced member is a member. -/
theorem reduced_of_member {t : Text} (ht : Trimmed t) (hm : declaresMember t = true) :
    ∃ h, Reduced h t (finalize t) ∧ declaresMember (finalize t) = true := by
  rcases declaresMember_iff.1 hm with ⟨h, x, hh, hx, hb⟩ | ⟨hn, hg⟩
  · refine ⟨h, reduced_withList ht hh hb, ?_⟩
    rw [finalize_withList ht hh hb]
    exact declaresMember_iff.2 (.inl ⟨h, x, hh, hx, bodied_emptyBody _⟩)
  · have hr := reduced_bare ht hn hg
    refine ⟨dropBody t, hr, ?_⟩
    rw [finalize_bare ht hn]
    exact declaresMember_iff.2
      (.inl ⟨dropBody t, [], hr.noParen, memberHead_of_bareGetter hg, bodied_emptyBody _⟩)

/-- A reduced function is a function, with the head it had. -/
theorem reduced_of_function {t : Text} (ht : Trimmed t) (hf : declaresFunction t = true) :
    ∃ h, Reduced h t (finalize t) ∧ (isHead functionHead h = true ∨ isHead arrowHead h = true) ∧
      declaresFunction (finalize t) = true := by
  rcases declaresFunction_iff.1 hf with ⟨h, x, hh, hx, hb⟩ | ⟨h, x, e, hh, hx, he, hb⟩
  · refine ⟨h, reduced_withList ht hh hb, .inl hx, ?_⟩
    rw [finalize_withList ht hh hb]
    exact declaresFunction_iff.2 (.inl ⟨h, x, hh, hx, bodied_emptyBody _⟩)
  · refine ⟨h, reduced_arrow ht hh he hb, .inr hx, ?_⟩
    rw [finalize_arrow ht hh he hb]
    refine declaresFunction_iff.2 (.inr ⟨h, x, [], hh, hx, rfl, ?_⟩)
    rw [List.append_nil]
    exact bodied_emptyBody _

/-- A reduced function starts with its head, which no conditional does. -/
theorem not_isConditional_finalize {t : Text} (ht : Trimmed t) (hf : declaresFunction t = true) :
    isConditional (finalize t) = false := by
  obtain ⟨h, hr, hh, -⟩ := reduced_of_function ht hf
  obtain ⟨u, hu⟩ := hr.paren
  rw [hu]
  exact not_isConditional_of_isHead hh

end SourceBundle.Line
