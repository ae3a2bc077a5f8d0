import SourceBundle.Path.Normal
import SourceBundle.Proofs.Text.Lines
/-!
# Names of normal paths

Below the root a normal form has plain names only, each that of something in the folder before it.
A path without `..` keeps all names that lead somewhere.
-/
namespace SourceBundle.Path

open Text

/-- A name that leads from a folder to something in it. -/
structure IsPlain (name : Text) : Prop where
  ne_nil : name ≠ []
  slash_not_mem : slash ∉ name
  ne_here : name ≠ here
  ne_up : name ≠ up

/-! ## The names that are left -/

/-- The names of a path once `.` and `..` are gone. -/
def kept (p : Path) : List Text := (p.names.foldl (push p.rooted) []).reverse

/-- Whether a name leads somewhere, which the empty one and `.` do not. -/
def isStep (name : Text) : Bool := !(name = [] || name = here)

theorem here_ne_nil : here ≠ [] := by decide

theorem ne_nil_of_isStep {name : Text} (h : isStep name = true) : name ≠ [] := by
  rintro rfl
  cases h

theorem push_of_not_isStep {name : Text} (rooted : Bool) (done : List Text)
    (h : isStep name = false) : push rooted done name = done :=
  if_pos (by rwa [isStep, Bool.not_eq_false'] at h)

theorem mem_push {rooted : Bool} {done : List Text} {name n : Text}
    (h : n ∈ push rooted done name) : n ∈ done ∨ n = name ∧ isStep name = true := by
  unfold push at h
  split at h
  · exact .inl h
  · next hskip =>
    have hstep : isStep name = true := by rwa [isStep, Bool.not_eq_true', Bool.eq_false_iff]
    split at h
    · next hup =>
      cases done with
      | nil =>
        cases rooted with
        | true => cases h
        | false => exact .inr ⟨(List.mem_singleton.1 h).trans hup.symm, hstep⟩
      | cons last rest =>
        dsimp only at h
        split at h
        · exact (List.mem_cons.1 h).elim (fun hn => .inr ⟨hn.trans hup.symm, hstep⟩) .inl
        · exact .inl (List.mem_cons_of_mem last h)
    · exact (List.mem_cons.1 h).elim (fun hn => .inr ⟨hn, hstep⟩) .inl

theorem isPlain_push {done : List Text} {name : Text} (hname : slash ∉ name)
    (h : ∀ n ∈ done, IsPlain n) : ∀ n ∈ push true done name, IsPlain n := by
  unfold push
  split
  · exact h
  · next hskip =>
    rw [Bool.or_eq_true, decide_eq_true_iff, decide_eq_true_iff, not_or] at hskip
    split
    · cases done with
      | nil => exact nofun
      | cons last rest =>
        -- A plain name is no `..`, so it is taken back.
        simp only [if_neg (h last List.mem_cons_self).ne_up]
        exact fun n hn => h n (List.mem_cons_of_mem last hn)
    · next hup => exact List.forall_mem_cons.2 ⟨⟨hskip.1, hname, hskip.2, hup⟩, h⟩

theorem mem_kept {p : Path} {n : Text} (h : n ∈ p.kept) : n ∈ p.names ∧ isStep n = true := by
  have key : ∀ (names done : List Text), n ∈ names.foldl (push p.rooted) done →
      n ∈ done ∨ n ∈ names ∧ isStep n = true := by
    intro names
    induction names with
    | nil => exact fun _ => .inl
    | cons name names ih =>
      intro done hn
      rcases ih _ hn with hdone | ⟨hmem, hstep⟩
      · rcases mem_push hdone with hdone | ⟨rfl, hstep⟩
        · exact .inl hdone
        · exact .inr ⟨List.mem_cons_self, hstep⟩
      · exact .inr ⟨List.mem_cons_of_mem name hmem, hstep⟩
  rw [kept, List.mem_reverse] at h
  exact (key p.names [] h).resolve_left List.not_mem_nil

theorem nil_not_mem_kept (p : Path) : [] ∉ p.kept := fun h => ne_nil_of_isStep (mem_kept h).2 rfl

/-- Below the root nothing is left of `.` and `..`. -/
theorem isPlain_of_mem_kept {p : Path} (hp : p.rooted = true) (h : ∀ n ∈ p.names, slash ∉ n) :
    ∀ n ∈ p.kept, IsPlain n := by
  have key : ∀ (names done : List Text), (∀ n ∈ names, slash ∉ n) → (∀ n ∈ done, IsPlain n) →
      ∀ n ∈ names.foldl (push true) done, IsPlain n := by
    intro names
    induction names with
    | nil => exact fun _ _ h => h
    | cons name names ih =>
      intro done hn hd
      exact ih _ (fun n hmem => hn n (List.mem_cons_of_mem name hmem))
        (isPlain_push (hn name List.mem_cons_self) hd)
  intro n hn
  rw [kept, List.mem_reverse, hp] at hn
  exact key p.names [] h nofun n hn

theorem slash_not_mem_of_mem_namesOf {s n : Text} (h : n ∈ namesOf s) : slash ∉ n := by
  unfold namesOf at h
  split at h
  · cases h
  · rcases List.mem_append.1 h with h | h
    · exact not_mem_of_mem_splitOn (List.mem_filter.1 h).1
    · split at h
      · rw [List.mem_singleton.1 h]
        exact List.not_mem_nil
      · cases h

/-! ## The normal form without a slash at its end -/

@[simp] theorem rooted_dropTrailing (p : Path) : p.dropTrailing.rooted = p.rooted := by
  rw [dropTrailing]
  split <;> rfl

/-- Below the root a path without a file name loses its last name by going to its parent. -/
theorem parent_eq_dropTrailing {p : Path} (hp : p.rooted = true) :
    (if p.fileName = [] && p.hasParent then p.parent else p) = p.dropTrailing := by
  obtain ⟨_, names⟩ := p
  cases hp
  cases hl : names.getLast? with
  | none =>
    rw [List.getLast?_eq_none_iff.1 hl]
    rfl
  | some name => by_cases h : name = [] <;> simp [fileName, dropTrailing, hasTrailing, hl, h]

theorem dropTrailing_of_nil_not_mem {p : Path} (h : [] ∉ p.names) : p.dropTrailing = p := by
  unfold dropTrailing hasTrailing
  rw [if_neg]
  rw [beq_iff_eq]
  exact fun hl => h (List.mem_of_getLast? hl)

/-- The normal form of a path has the names that are left, and `.` stands for none of them where
the path is relative. -/
theorem dropTrailing_normal (p : Path) :
    p.normal.dropTrailing =
      { p with
        names := if p.kept = [] ∧ p.rooted = false ∧ p.names ≠ [] then [here] else p.kept } := by
  have hnil := nil_not_mem_kept p
  unfold normal
  rw [show (p.names.foldl (push p.rooted) []).reverse = p.kept from rfl]
  dsimp only
  by_cases hk : p.kept = []
  · rw [if_pos hk]
    by_cases hp : p.rooted = true ∨ p.names = []
    · rw [if_pos (by simpa using hp), dropTrailing_of_nil_not_mem List.not_mem_nil, if_neg, hk]
      rintro ⟨-, hr, hn⟩
      rcases hp with hp | hp
      · simp [hr] at hp
      · exact hn hp
    · rw [not_or, Bool.not_eq_true] at hp
      rw [if_neg (by simpa using hp), if_pos ⟨hk, hp⟩]
      exact dropTrailing_of_nil_not_mem fun h => here_ne_nil (List.mem_singleton.1 h).symm
  · simp only [hk, false_and, if_false]
    split
    · simp [dropTrailing, hasTrailing]
    · exact dropTrailing_of_nil_not_mem hnil

theorem dropTrailing_normal_of_rooted {p : Path} (hp : p.rooted = true) :
    p.normal.dropTrailing = ⟨true, p.kept⟩ := by
  rw [dropTrailing_normal, if_neg (by simp [hp]), hp]

/-! ## Paths without `..` -/

theorem kept_eq_filter {p : Path} (h : up ∉ p.names) : p.kept = p.names.filter isStep := by
  have key : ∀ (names done : List Text), up ∉ names →
      names.foldl (push p.rooted) done = (names.filter isStep).reverse ++ done := by
    intro names
    induction names with
    | nil => exact fun _ _ => rfl
    | cons name names ih =>
      intro done h
      rw [List.mem_cons, not_or] at h
      rw [List.foldl_cons, ih _ h.2, List.filter_cons]
      unfold push isStep
      by_cases hskip : (name = [] || name = here) = true
      · rw [if_pos hskip, hskip, Bool.not_true, if_neg Bool.false_ne_true]
      · rw [if_neg hskip, if_neg (Ne.symm h.1), Bool.eq_false_iff.2 hskip, Bool.not_false,
          if_pos rfl, List.reverse_cons, List.append_assoc, List.singleton_append]
  rw [kept, key p.names [] h, List.append_nil, List.reverse_reverse]

/-- Slashes in front are cut off as empty names. -/
theorem filter_splitOn_dropWhile {keep : Text → Bool} (hkeep : keep [] = false) (s : Text) :
    (splitOn slash (s.dropWhile (· == slash))).filter keep = (splitOn slash s).filter keep := by
  induction s with
  | nil => rfl
  | cons b s ih =>
    by_cases hb : b = slash
    · subst hb
      rw [List.dropWhile_cons_of_pos (by simp), ih, splitOn_cons, if_pos rfl,
        List.filter_cons_of_neg (by simp [hkeep])]
    · rw [List.dropWhile_cons_of_neg (by simpa using hb)]

/-- Reading a path and cutting it give the same names that lead somewhere. -/
theorem filter_namesOf (s : Text) :
    (namesOf s).filter isStep = (splitOn slash s).filter isStep := by
  have hempty (ls : List Text) : (ls.filter (!·.isEmpty)).filter isStep = ls.filter isStep := by
    rw [List.filter_filter]
    refine List.filter_congr fun n _ => ?_
    cases n <;> simp [isStep]
  rw [← filter_splitOn_dropWhile (show isStep [] = false from rfl), namesOf]
  split
  · next h =>
    rw [h]
    rfl
  · rw [List.filter_append, hempty]
    split <;> simp [isStep]

theorem up_not_mem_namesOf {s : Text} (h : up ∉ splitOn slash s) : up ∉ namesOf s := by
  intro hup
  have hmem : up ∈ (namesOf s).filter isStep := List.mem_filter.2 ⟨hup, by decide⟩
  rw [filter_namesOf] at hmem
  exact h (List.mem_filter.1 hmem).1

theorem namesOf_ne_nil {s : Text} (hs : s ≠ []) (hroot : s.head? ≠ some slash) :
    namesOf s ≠ [] := by
  obtain ⟨b, s, rfl⟩ := List.exists_cons_of_ne_nil hs
  have hb : b ≠ slash := fun h => hroot (congrArg some h)
  obtain ⟨p, ps, hp⟩ := List.exists_cons_of_ne_nil (splitOn_ne_nil slash s)
  rw [namesOf, List.dropWhile_cons_of_neg (by simpa using hb)]
  simp [splitOn_cons, hb, hp]

/-! ## The normal form, written out -/

theorem filter_splitOn_toText {p : Path} (h : ∀ n ∈ p.names, slash ∉ n) :
    (splitOn slash p.toText).filter isStep = p.names.filter isStep := by
  have hnames : (splitOn slash ([slash].intercalate p.names)).filter isStep =
      p.names.filter isStep := by
    by_cases hp : p.names = []
    · rw [hp]
      rfl
    · rw [splitOn_intercalate hp h]
  rw [toText]
  cases p.rooted with
  | false => exact hnames
  | true =>
    rw [if_pos rfl, List.singleton_append, splitOn_cons, if_pos rfl]
    exact hnames

theorem head?_toText_iff {p : Path} (hnil : [] ∉ p.names) (h : ∀ n ∈ p.names, slash ∉ n) :
    p.toText.head? = some slash ↔ p.rooted = true := by
  rw [toText]
  cases p.rooted with
  | true => simp
  | false =>
    simp only [Bool.false_eq_true, if_false, List.nil_append, iff_false]
    exact head?_intercalate (fun hn => hnil (List.mem_of_head? hn)) h

/-- The names that are left do not depend on those that lead nowhere. -/
theorem kept_filter (rooted : Bool) (names : List Text) :
    kept ⟨rooted, names.filter isStep⟩ = kept ⟨rooted, names⟩ := by
  have key : ∀ (names done : List Text),
      (names.filter isStep).foldl (push rooted) done = names.foldl (push rooted) done := by
    intro names
    induction names with
    | nil => exact fun _ => rfl
    | cons name names ih =>
      intro done
      rw [List.filter_cons, List.foldl_cons]
      split
      · exact ih _
      · next hskip => rw [push_of_not_isStep rooted done (Bool.not_eq_true _ ▸ hskip), ih]
  rw [kept, kept, key names []]

section

variable {s : Text}

theorem kept_splitOn (s : Text) :
    kept ⟨s.head? == some slash, splitOn slash s⟩ = (ofText s).kept := by
  rw [← kept_filter _ (splitOn slash s), ← filter_namesOf, kept_filter]
  rfl

theorem mem_names_normal {n : Text} (hn : n ∈ (ofText s).normal.dropTrailing.names) :
    n ≠ [] ∧ slash ∉ n := by
  rw [dropTrailing_normal] at hn
  dsimp only at hn
  split at hn
  · rw [List.mem_singleton.1 hn]
    decide
  · obtain ⟨hmem, hstep⟩ := mem_kept hn
    exact ⟨ne_nil_of_isStep hstep, slash_not_mem_of_mem_namesOf hmem⟩

/-- Normalizing a path leaves, of the names that lead somewhere, those that are kept. -/
theorem filter_splitOn_normal :
    (splitOn slash (ofText s).normal.dropTrailing.toText).filter isStep = (ofText s).kept := by
  rw [filter_splitOn_toText fun n hn => (mem_names_normal hn).2, dropTrailing_normal]
  dsimp only
  split
  · next hnone =>
    rw [hnone.1]
    rfl
  · rw [List.filter_eq_self]
    exact fun n hn => (mem_kept hn).2

theorem head?_normal :
    (ofText s).normal.dropTrailing.toText.head? = some slash ↔ s.head? = some slash := by
  rw [head?_toText_iff (fun hn => (mem_names_normal hn).1 rfl) fun n hn => (mem_names_normal hn).2,
    dropTrailing_normal, ofText, beq_iff_eq]

theorem normal_ne_nil (hs : s ≠ []) : (ofText s).normal.dropTrailing.toText ≠ [] := by
  intro hnil
  have hroot : s.head? ≠ some slash := by
    rw [ne_eq, ← head?_normal, hnil]
    exact nofun
  have hkept : (ofText s).kept = [] := by
    rw [← filter_splitOn_normal, hnil]
    rfl
  rw [dropTrailing_normal, if_pos ⟨hkept, by simpa [ofText] using hroot,
    namesOf_ne_nil hs hroot⟩, ofText, beq_eq_false_iff_ne.2 hroot] at hnil
  cases hnil

end

end SourceBundle.Path
