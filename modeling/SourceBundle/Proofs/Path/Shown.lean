import SourceBundle.Proofs.Path.Join
import SourceBundle.Proofs.Path.Normal
/-!
# How a file is shown

A file is shown from a working folder by the way to it, or by its absolute path where that way would
lead upward. Both are read off the names of normal paths, so that what is shown leads back to the
file: from the folder, or from the root.
-/
namespace SourceBundle.Path

open Text

/-! ## Names below the root -/

/-- The names of a normal path from the root on: plain ones, and after them an empty one where a
slash stands at the end. -/
structure Tidy (p : Path) (names : List Text) : Prop where
  rooted : p.rooted = true
  isPlain : ∀ n ∈ names, IsPlain n
  names_eq : p.names = names ∨ names ≠ [] ∧ p.names = names ++ [[]]

theorem tidy_normal {p : Path} (hp : p.rooted = true) (h : ∀ n ∈ p.names, slash ∉ n) :
    Tidy p.normal p.kept := by
  have hplain := isPlain_of_mem_kept hp h
  unfold normal
  rw [show (p.names.foldl (push p.rooted) []).reverse = p.kept from rfl]
  dsimp only
  by_cases hk : p.kept = []
  · simp only [hk, hp, Bool.true_or, if_true]
    exact ⟨rfl, nofun, .inl rfl⟩
  · rw [if_neg hk]
    split
    · exact ⟨hp, hplain, .inr ⟨hk, rfl⟩⟩
    · exact ⟨hp, hplain, .inl rfl⟩

namespace Tidy

variable {p : Path} {names : List Text}

theorem nil_not_mem (h : Tidy p names) : [] ∉ names := fun hn => (h.isPlain [] hn).ne_nil rfl

theorem up_not_mem (h : Tidy p names) : up ∉ names := fun hn => (h.isPlain up hn).ne_up rfl

theorem slash_not_mem (h : Tidy p names) : ∀ n ∈ p.names, slash ∉ n := by
  intro n hn
  rcases h.names_eq with hp | ⟨-, hp⟩
  · exact (h.isPlain n (hp ▸ hn)).slash_not_mem
  · rw [hp, List.mem_append, List.mem_singleton] at hn
    rcases hn with hn | rfl
    · exact (h.isPlain n hn).slash_not_mem
    · exact List.not_mem_nil

theorem filter_isStep (h : Tidy p names) : p.names.filter isStep = names := by
  have hself : names.filter isStep = names := by
    rw [List.filter_eq_self]
    intro n hn
    simp [isStep, (h.isPlain n hn).ne_nil, (h.isPlain n hn).ne_here]
  rcases h.names_eq with hp | ⟨-, hp⟩
  · rw [hp, hself]
  · rw [hp, List.filter_append, hself]
    simp [isStep]

theorem head?_ne_nil (h : Tidy p names) : p.names.head? ≠ some [] := by
  intro hnil
  rcases h.names_eq with hp | ⟨hne, hp⟩
  · exact h.nil_not_mem (List.mem_of_head? (hp ▸ hnil))
  · rw [hp, List.head?_append_of_ne_nil _ hne] at hnil
    exact h.nil_not_mem (List.mem_of_head? hnil)

/-- An empty name is the last one. -/
theorem eq_nil_of_names_eq {front rest : List Text} (h : Tidy p names)
    (hp : p.names = front ++ [] :: rest) : rest = [] := by
  by_contra hrest
  refine h.nil_not_mem ?_
  rcases h.names_eq with hn | ⟨-, hn⟩
  · rw [← hn, hp]
    simp
  · have hnames : names = (front ++ [] :: rest).dropLast := by
      rw [← hp, hn, List.dropLast_concat]
    rw [hnames, List.dropLast_append_cons, List.dropLast_cons_of_ne_nil hrest]
    simp

end Tidy

/-! ## Working folders -/

/-- The path of a working folder starts at the root and is in normal form, without a slash at its
end. -/
structure IsWorking (folder : Text) : Prop where
  rooted : folder.head? = some slash
  normal : (ofText folder).normal = ofText folder
  hasTrailing : (ofText folder).hasTrailing = false

theorem ofText_rooted {s : Text} (h : s.head? = some slash) : (ofText s).rooted = true := by
  simp [ofText, h]

theorem IsWorking.isPlain {folder : Text} (h : IsWorking folder) :
    ∀ n ∈ (ofText folder).names, IsPlain n := by
  have hr := ofText_rooted h.rooted
  have hkept : ofText folder = ⟨true, (ofText folder).kept⟩ := by
    rw [← dropTrailing_normal_of_rooted hr, h.normal, dropTrailing, h.hasTrailing]
    rfl
  rw [hkept]
  exact isPlain_of_mem_kept hr fun n hn => slash_not_mem_of_mem_namesOf hn

theorem tidy_absolute {folder : Text} (h : folder.head? = some slash) (file : Text) :
    Tidy (absolute folder file) (ofText (join folder file)).kept :=
  tidy_normal (ofText_rooted (head?_join h file)) fun _ hn => slash_not_mem_of_mem_namesOf hn

/-! ## The way from one path to another -/

theorem dropCommon_append_append (xs as bs : List Text) :
    dropCommon (xs ++ as) (xs ++ bs) = dropCommon as bs := by
  induction xs with
  | nil => rfl
  | cons x xs ih => rw [List.cons_append, List.cons_append, dropCommon, if_pos rfl, ih]

theorem dropCommon_append (bs rest : List Text) : dropCommon (bs ++ rest) bs = (rest, []) := by
  have h := dropCommon_append_append bs rest []
  rw [List.append_nil] at h
  rw [h]
  cases rest <;> rfl

/-- Names that do not begin as `bs` does leave some of `bs` over. -/
theorem exists_dropCommon {as bs : List Text} (h : ¬bs <+: as) :
    ∃ rest name above, dropCommon as bs = (rest, name :: above) ∧ name :: above <:+ bs := by
  fun_induction dropCommon as bs with
  | case1 as a bs ih =>
    obtain ⟨rest, name, above, heq, hsuffix⟩ := ih fun hp => h (List.cons_prefix_cons.2 ⟨rfl, hp⟩)
    exact ⟨rest, name, above, heq, hsuffix.trans (List.suffix_cons _ _)⟩
  | case2 a as b bs => exact ⟨a :: as, b, bs, rfl, List.suffix_rfl⟩
  | case3 as bs =>
    cases bs with
    | nil => exact absurd List.nil_prefix h
    | cons b bs => exact ⟨as, b, bs, rfl, List.suffix_rfl⟩

theorem depth_of_isPlain {names : List Text} (h : ∀ n ∈ names, IsPlain n) :
    depth names = names.length := by
  have key : ∀ (names : List Text) (d : Int), (∀ n ∈ names, IsPlain n) →
      names.foldl (fun n name => if name = up then n - 1 else if name = [] || name = here then n
        else n + 1) d = d + names.length := by
    intro names
    induction names with
    | nil => simp
    | cons name names ih =>
      intro d h
      obtain ⟨hname, hnames⟩ := List.forall_mem_cons.1 h
      rw [List.foldl_cons, ih _ hnames]
      simp [hname.ne_up, hname.ne_nil, hname.ne_here]
      omega
  have := key names 0 h
  rw [depth]
  omega

/-- The way to something in a folder is the names that are left, and `.` where none are. -/
theorem relativeTo?_below {p base : Path} {rest : List Text} (hr : p.rooted = base.rooted)
    (h : p.names = base.names ++ rest) :
    p.relativeTo? base = some ⟨false, if rest.head?.getD [] = [] then [here] else rest⟩ := by
  rw [relativeTo?, h, dropCommon_append]
  by_cases hrest : rest.head?.getD [] = []
  · simp [hr, depth, hrest]
  · simp [hr, depth, hrest]

/-- The way to anything else starts upward. -/
theorem relativeTo?_outside {p base : Path} (hr : p.rooted = base.rooted)
    (hbase : ∀ n ∈ base.names, IsPlain n) (h : ¬base.names <+: p.names) :
    ∃ names, p.relativeTo? base = some ⟨false, up :: names⟩ := by
  obtain ⟨rest, name, above, heq, hsuffix⟩ := exists_dropCommon h
  have hdepth : depth (name :: above) = above.length + 1 := by
    rw [depth_of_isPlain fun n hn => hbase n (hsuffix.subset hn)]
    simp
  have hneg : ¬depth (name :: above) < 0 := by omega
  have hzero : depth (name :: above) ≠ 0 := by omega
  have hnat : (depth (name :: above)).toNat = above.length + 1 := by omega
  refine ⟨List.replicate above.length up ++ rest, ?_⟩
  rw [relativeTo?, heq]
  simp [hr, hneg, hzero, hnat, List.replicate_succ]

/-! ## Names in a text -/

/-- The names in a text that lead somewhere. -/
def steps (s : Text) : List Text := (splitOn slash s).filter isStep

theorem up_mem_steps {s : Text} : up ∈ steps s ↔ up ∈ splitOn slash s := by
  rw [steps, List.mem_filter]
  exact and_iff_left (by decide)

theorem steps_join (s : Text) {t : Text} (ht : t.head? ≠ some slash) :
    steps (join s t) = steps s ++ steps t :=
  filter_splitOn_join rfl s ht

theorem steps_eq (s : Text) : steps s = (ofText s).names.filter isStep := (filter_namesOf s).symm

/-- Without `..` a path keeps the names that lead somewhere. -/
theorem kept_ofText {s : Text} (h : up ∉ steps s) : (ofText s).kept = steps s := by
  rw [up_mem_steps] at h
  rw [kept_eq_filter (p := ofText s) (up_not_mem_namesOf h), steps_eq]

/-- Slashes in front lead nowhere. -/
theorem steps_dropWhile_toText {p : Path} (h : ∀ n ∈ p.names, slash ∉ n) :
    steps (p.toText.dropWhile (· == slash)) = p.names.filter isStep := by
  rw [steps, filter_splitOn_dropWhile rfl, filter_splitOn_toText h]

theorem head?_dropWhile_slash (s : Text) : (s.dropWhile (· == slash)).head? ≠ some slash := by
  intro hs
  have := List.head?_dropWhile_not (· == slash) s
  rw [hs] at this
  simp at this

/-- Below the root no second slash follows the first. -/
theorem Tidy.cons_dropWhile {p : Path} {names : List Text} (h : Tidy p names) :
    slash :: p.toText.dropWhile (· == slash) = p.toText := by
  have hhead : ([slash].intercalate p.names).head? ≠ some slash :=
    head?_intercalate h.head?_ne_nil h.slash_not_mem
  rw [toText, h.rooted, if_pos rfl, List.singleton_append, List.dropWhile_cons_of_pos (by simp)]
  congr 1
  cases hs : [slash].intercalate p.names with
  | nil => rfl
  | cons b s =>
    rw [hs, List.head?_cons] at hhead
    exact List.dropWhile_cons_of_neg (by simpa using hhead)

/-! ## What is shown -/

section

variable {folder file : Text} (h : IsWorking folder)
include h

/-- In the folder a file is shown by the names that lead to it. -/
theorem shownFrom_below {rest : List Text}
    (hrest : (absolute folder file).names = (ofText folder).names ++ rest) :
    shownFrom folder file =
      (toText ⟨false, if rest.head?.getD [] = [] then [here] else rest⟩).dropWhile
        (· == slash) := by
  have htidy := tidy_absolute h.rooted file
  rw [shownFrom, relativeTo?_below (htidy.rooted.trans (ofText_rooted h.rooted).symm) hrest]
  dsimp only
  rw [if_neg]
  split
  · exact fun hup => absurd (Option.some.inj hup) (by decide)
  · intro hup
    have hmem : up ∈ (absolute folder file).names.filter isStep := by
      rw [hrest, List.mem_filter]
      exact ⟨List.mem_append_right _ (List.mem_of_head? hup), by decide⟩
    rw [htidy.filter_isStep] at hmem
    exact htidy.up_not_mem hmem

/-- Outside of the folder it is shown by its absolute path. -/
theorem shownFrom_outside (hout : ¬(ofText folder).names <+: (absolute folder file).names) :
    shownFrom folder file = (absolute folder file).toText.dropWhile (· == slash) := by
  have htidy := tidy_absolute h.rooted file
  obtain ⟨names, hnames⟩ := relativeTo?_outside
    (htidy.rooted.trans (ofText_rooted h.rooted).symm) h.isPlain hout
  rw [shownFrom, hnames]
  simp

theorem steps_shownFrom_below {rest : List Text}
    (hrest : (absolute folder file).names = (ofText folder).names ++ rest) :
    steps (shownFrom folder file) = rest.filter isStep := by
  have htidy := tidy_absolute h.rooted file
  rw [shownFrom_below h hrest, steps_dropWhile_toText]
  · dsimp only
    split
    · next hnone =>
      -- No name is left, or only the empty one that stands for a slash at the end.
      cases rest with
      | nil => rfl
      | cons n rest =>
        obtain rfl : n = [] := hnone
        rw [htidy.eq_nil_of_names_eq hrest]
        rfl
    · rfl
  · dsimp only
    split
    · simp [here]
      decide
    · exact fun n hn => htidy.slash_not_mem n (hrest ▸ List.mem_append_right _ hn)

theorem up_not_mem_splitOn_shownFrom : up ∉ splitOn slash (shownFrom folder file) := by
  have htidy := tidy_absolute h.rooted file
  rw [← up_mem_steps]
  intro hup
  refine htidy.up_not_mem ?_
  rw [← htidy.filter_isStep]
  by_cases hin : (ofText folder).names <+: (absolute folder file).names
  · obtain ⟨rest, hrest⟩ := hin
    rw [steps_shownFrom_below h hrest.symm] at hup
    rw [← hrest, List.filter_append]
    exact List.mem_append_right _ hup
  · rwa [shownFrom_outside h hin, steps_dropWhile_toText htidy.slash_not_mem] at hup

/-- What is shown is no absolute path and has no `..`. It leads back to the file: from the folder
where the file is in it, name by name, and otherwise from the root. -/
theorem absolute_shownFrom :
    (shownFrom folder file).head? ≠ some slash ∧ up ∉ splitOn slash (shownFrom folder file) ∧
      ((ofText folder).names <+: (absolute folder file).names →
        (absolute folder (shownFrom folder file)).dropTrailing =
          (absolute folder file).dropTrailing) ∧
      (¬(ofText folder).names <+: (absolute folder file).names →
        slash :: shownFrom folder file = (absolute folder file).toText) := by
  have htidy := tidy_absolute h.rooted file
  have hhead : (shownFrom folder file).head? ≠ some slash := head?_dropWhile_slash _
  refine ⟨hhead, up_not_mem_splitOn_shownFrom h, ?_, ?_⟩
  · rintro ⟨rest, hrest⟩
    have hsteps : steps (join folder (shownFrom folder file)) =
        (ofText (join folder file)).kept := by
      calc steps (join folder (shownFrom folder file))
          = steps folder ++ steps (shownFrom folder file) := steps_join folder hhead
        _ = ((ofText folder).names ++ rest).filter isStep := by
          rw [steps_eq folder, steps_shownFrom_below h hrest.symm, List.filter_append]
        _ = (ofText (join folder file)).kept := by rw [hrest, htidy.filter_isStep]
    have hkept : (ofText (join folder (shownFrom folder file))).kept =
        (ofText (join folder file)).kept := by
      rw [kept_ofText (hsteps ▸ htidy.up_not_mem), hsteps]
    rw [absolute, absolute, dropTrailing_normal_of_rooted (ofText_rooted (head?_join h.rooted _)),
      dropTrailing_normal_of_rooted (ofText_rooted (head?_join h.rooted _)), hkept]
  · intro hout
    rw [shownFrom_outside h hout, htidy.cons_dropWhile]

end

/-- A sibling whose name starts as that of the folder is outside of it, and a name that starts with
two dots does not lead out of it. -/
theorem absolute_shownFrom_lookalikes :
    IsWorking "/home/ab" ∧
      slash :: shownFrom "/home/ab" "../abc/./x//y" = ofString "/home/abc/x/y" ∧
      (absolute "/home/ab" (shownFrom "/home/ab" "..c/d/..")).dropTrailing =
        ⟨true, ["home", "ab", "..c"]⟩ := by
  have h : IsWorking "/home/ab" := ⟨rfl, by decide, by decide⟩
  exact ⟨h, (absolute_shownFrom h).2.2.2 (by decide), (absolute_shownFrom h).2.2.1 (by decide)⟩

end SourceBundle.Path
