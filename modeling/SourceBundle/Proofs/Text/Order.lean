import SourceBundle.Text.Basic
/-!
# The order of texts

Texts are compared byte by byte, as lists are.
-/
namespace SourceBundle.Text

theorem isBefore_iff {s t : Text} : isBefore s t = true ↔ s < t := by
  induction s generalizing t with
  | nil =>
    cases t with
    | nil => exact ⟨nofun, fun h => absurd h (List.not_lt_nil [])⟩
    | cons b t => exact ⟨fun _ => .nil, fun _ => rfl⟩
  | cons a s ih =>
    cases t with
    | nil => exact ⟨nofun, fun h => absurd h (List.not_lt_nil _)⟩
    | cons b t =>
      rw [isBefore, Bool.or_eq_true, Bool.and_eq_true, decide_eq_true_iff, beq_iff_eq, ih,
        List.cons_lt_cons_iff]

theorem lt_of_not_isBefore {s t : Text} (h : ¬isBefore s t = true) (hne : s ≠ t) : t < s := by
  rw [isBefore_iff] at h
  exact Classical.byContradiction fun hts => hne (Std.Trichotomous.trichotomous s t h hts)

end SourceBundle.Text
