import SourceBundle.Proofs.FileTree.Names
import SourceBundle.Proofs.Path.Shown
/-!
# Names behind the path of a folder

Names of entries that are put behind any path at all, with a slash at its end or without, in normal
form or not, read back as they are: the whole path ends in them, and the way to it from the path in
front is made of them alone.
-/
namespace SourceBundle.Path

open Text

variable {names : List Text} {name : Text}

/-- The names in a text that are not empty. -/
def solid (s : Text) : List Text := (splitOn slash s).filter (!·.isEmpty)

/-- The names of a path, and behind them an empty one that only a slash at the end leaves. -/
theorem exists_namesOf_eq (s : Text) : ∃ rest, namesOf s = solid s ++ rest ∧
    (rest = [] ∨ rest = [[]] ∧ s.getLast? = some slash) := by
  have hsolid : (splitOn slash (s.dropWhile (· == slash))).filter (!·.isEmpty) = solid s :=
    filter_splitOn_dropWhile rfl s
  rw [namesOf]
  split
  · next hs =>
    rw [hs] at hsolid
    exact ⟨[], by rw [← hsolid]; rfl, .inl rfl⟩
  · next hs =>
    rw [hsolid]
    split
    · next hlast =>
      refine ⟨[[]], rfl, .inr ⟨rfl, ?_⟩⟩
      rw [← List.takeWhile_append_dropWhile (p := (· == slash)) (l := s),
        List.getLast?_append_of_ne_nil _ hs, hlast]
    · exact ⟨[], rfl, .inl rfl⟩

theorem head?_join_eq (dir : Text) {t : Text} (ht : t.head? ≠ some slash) :
    ((join dir t).head? == some slash) = (dir.head? == some slash) := by
  rw [join, if_neg (by simpa using ht)]
  cases dir with
  | nil => simpa using ht
  | cons b dir => split <;> rfl

section

variable (hne : names ≠ []) (hn : ∀ n ∈ names, IsName n)
include hne hn

theorem ofText_join (dir : Text) : ofText (join dir (toText ⟨false, names⟩)) =
    ⟨dir.head? == some slash, solid dir ++ names⟩ := by
  have hhead := head?_toText hn
  obtain ⟨rest, hrest, hlast⟩ := exists_namesOf_eq (join dir (toText ⟨false, names⟩))
  have hnames : (splitOn slash (toText ⟨false, names⟩)).filter (!·.isEmpty) = names := by
    rw [splitOn_toText hne hn, List.filter_eq_self]
    intro n hmem
    simpa using (hn n hmem).ne_nil
  have hsolid : solid (join dir (toText ⟨false, names⟩)) = solid dir ++ names := by
    rw [solid, filter_splitOn_join rfl dir hhead, hnames, solid]
  rcases hlast with rfl | ⟨-, hlast⟩
  · rw [ofText, hrest, hsolid, head?_join_eq dir hhead, List.append_nil]
  · -- A slash at the end would be the last byte of the names, and those end in none.
    refine absurd hlast ?_
    have htext : toText ⟨false, names⟩ ≠ [] := fun h => hne (toText_eq_nil hn h)
    have hend : (join dir (toText ⟨false, names⟩)).getLast? = (toText ⟨false, names⟩).getLast? := by
      rw [join, if_neg (by simpa using hhead)]
      split
      · exact List.getLast?_append_of_ne_nil _ htext
      · rw [List.getLast?_append_of_ne_nil _ (List.cons_ne_nil _ _), List.getLast?_cons,
          List.getLast?_eq_some_getLast htext]
        rfl
    rw [hend]
    exact getLast?_toText hn

theorem fileName_join (dir : Text) : (ofText (join dir (toText ⟨false, names⟩))).fileName =
    names.getLast?.getD [] := by
  rw [ofText_join hne hn, fileName, List.getLast?_append_of_ne_nil _ hne]

/-- The way to what is behind a path is the names that stand there. -/
theorem relativeTo?_join (dir : Text) :
    (ofText (join dir (toText ⟨false, names⟩))).relativeTo? (ofText dir) = some ⟨false, names⟩ := by
  obtain ⟨name, rest, rfl⟩ := List.exists_cons_of_ne_nil hne
  have hname : name ≠ [] := (hn name List.mem_cons_self).ne_nil
  obtain ⟨last, hlast, hcases⟩ := exists_namesOf_eq dir
  -- An empty name at the end of the path in front is left over, and leads nowhere.
  have hdrop : dropCommon (solid dir ++ name :: rest) (solid dir ++ last) =
      (name :: rest, last) := by
    rw [dropCommon_append_append]
    rcases hcases with rfl | ⟨rfl, -⟩
    · rfl
    · exact if_neg hname
  have hdepth : depth last = 0 := by
    rcases hcases with rfl | ⟨rfl, -⟩ <;> rfl
  rw [ofText_join hne hn, ofText, hlast, relativeTo?, hdrop]
  simp [hdepth, hname]

end

/-- A name behind the path of a folder that is itself behind one. -/
theorem join_join_toText (dir : Text) (hne : names ≠ []) (hn : ∀ n ∈ names, IsName n)
    (hname : IsName name) :
    join (join dir (toText ⟨false, names⟩)) name = join dir (toText ⟨false, names ++ [name]⟩) := by
  have htext : toText ⟨false, names ++ [name]⟩ = toText ⟨false, names⟩ ++ slash :: name := by
    simp only [toText, Bool.false_eq_true, if_false, List.nil_append]
    rw [intercalate_append slash hne (List.cons_ne_nil name []), List.intercalate_singleton]
  rw [join_join (fun h => hne (toText_eq_nil hn h)) (head?_toText hn) (getLast?_toText hn), htext]
  exact fun h => hname.slash_not_mem (List.mem_of_head? h)

end SourceBundle.Path
