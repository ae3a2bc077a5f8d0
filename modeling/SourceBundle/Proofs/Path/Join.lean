import Mathlib.Data.List.Basic
import SourceBundle.Path.Basic
import SourceBundle.Proofs.Text.Lines
/-!
# One path behind another

Paths that do not start at the root are put one behind the other, whatever stands in front.
-/
namespace SourceBundle.Path

open Text

theorem join_join {a b c : Text} (hne : b ≠ []) (hfirst : b.head? ≠ some slash)
    (hlast : b.getLast? ≠ some slash) (hc : c.head? ≠ some slash) :
    join (join a b) c = join a (b ++ slash :: c) := by
  have hjoin (d : Text) (hd : d.head? ≠ some slash) : join a d =
      (if a.isEmpty || a.getLast? == some slash then a else a ++ [slash]) ++ d := by
    rw [join, if_neg (by simpa using hd)]
    split
    · rfl
    · rw [List.append_assoc, List.singleton_append]
  rw [hjoin b hfirst, hjoin (b ++ slash :: c) (by rwa [List.head?_append_of_ne_nil _ hne])]
  generalize (if a.isEmpty || a.getLast? == some slash then a else a ++ [slash]) = d
  rw [join, if_neg (by simpa using hc), if_neg (by simpa [hne] using hlast), List.append_assoc]

/-- What is put behind an absolute path is one. -/
theorem head?_join {folder : Text} (h : folder.head? = some slash) (file : Text) :
    (join folder file).head? = some slash := by
  unfold join
  split
  · next hfile => simpa using hfile
  · split <;> simp [h]

theorem filter_splitOn_append_cons (keep : Text → Bool) (s t : Text) :
    (splitOn slash (s ++ slash :: t)).filter keep =
      (splitOn slash s).filter keep ++ (splitOn slash t).filter keep := by
  rw [splitOn_append_cons, List.filter_append]

/-- Empty names apart, one path behind another has the names of both. -/
theorem filter_splitOn_join {keep : Text → Bool} (hkeep : keep [] = false) (s : Text) {t : Text}
    (ht : t.head? ≠ some slash) :
    (splitOn slash (join s t)).filter keep =
      (splitOn slash s).filter keep ++ (splitOn slash t).filter keep := by
  have hempty : (splitOn slash []).filter keep = [] := by
    rw [splitOn_nil, List.filter_cons_of_neg (by simp [hkeep]), List.filter_nil]
  rw [join, if_neg (by simpa using ht)]
  split
  · next hs =>
    rw [Bool.or_eq_true, List.isEmpty_iff, beq_iff_eq] at hs
    rcases hs with rfl | hs
    · rw [hempty, List.nil_append, List.nil_append]
    · obtain ⟨s, rfl⟩ := List.getLast?_eq_some_iff.1 hs
      rw [List.append_assoc, List.singleton_append, filter_splitOn_append_cons,
        filter_splitOn_append_cons, hempty, List.append_nil]
  · exact filter_splitOn_append_cons keep s t

/-- A name without slashes is the last one of a path that it is put behind. -/
theorem exists_splitOn_join (dir : Text) {name : Text} (hname : slash ∉ name) :
    ∃ xs, splitOn slash (join dir name) = xs ++ [name] := by
  have hself : splitOn slash name = [name] := splitOn_of_not_mem hname
  have hfirst : name.head? ≠ some slash := fun h => hname (List.mem_of_head? h)
  rw [join, if_neg (by simpa using hfirst)]
  split
  · next hdir =>
    rw [Bool.or_eq_true, List.isEmpty_iff, beq_iff_eq] at hdir
    rcases hdir with rfl | hdir
    · exact ⟨[], hself⟩
    · obtain ⟨front, rfl⟩ := List.getLast?_eq_some_iff.1 hdir
      rw [List.append_assoc, List.singleton_append, splitOn_append_cons, hself]
      exact ⟨_, rfl⟩
  · rw [splitOn_append_cons, hself]
    exact ⟨_, rfl⟩

end SourceBundle.Path
