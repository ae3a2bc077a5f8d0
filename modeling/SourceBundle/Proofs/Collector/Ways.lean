import SourceBundle.Proofs.Collector.Outline
/-!
# The ways to the entries of an outline

An outline is drawn folder by folder: an entry, then what is in it, then the entries after it. In a
sorted outline that is the order of the ways that lead to the entries, compared name by name, and
whether an entry closes its folder can be told from the ways alone.
-/
namespace SourceBundle

open Text

namespace Outline

/-- A step on the way to an entry: a name, and whether no entry of its folder comes after it. -/
structure Step where
  name : Text
  isLast : Bool
  deriving DecidableEq, Repr

/-- The ways to the entries, in the order in which these are drawn. -/
def ways : Outline → List (List Step)
  | nil => []
  | entry name _ inside rest =>
    [⟨name, decide (rest = nil)⟩] :: inside.ways.map (⟨name, decide (rest = nil)⟩ :: ·) ++ rest.ways

def namesOn (way : List Step) : List Text := way.map (·.name)

/-- The names that lead to the entries, in the same order. -/
def places (o : Outline) : List (List Text) := o.ways.map namesOn

variable {name n : Text} {kind : Kind} {inside rest o : Outline} {names : List Text}

theorem places_entry : (entry name kind inside rest).places =
    [name] :: inside.places.map (name :: ·) ++ rest.places := by
  simp [places, ways, namesOn]

theorem exists_of_mem_places (h : names ∈ o.places) : ∃ n ∈ o.names, ∃ t, names = n :: t := by
  induction o with
  | nil => cases h
  | entry name kind inside rest _ ih =>
    rw [places_entry, List.cons_append, List.mem_cons, List.mem_append] at h
    rcases h with rfl | h | h
    · exact ⟨name, List.mem_cons_self, [], rfl⟩
    · obtain ⟨t, -, rfl⟩ := List.mem_map.1 h
      exact ⟨name, List.mem_cons_self, t, rfl⟩
    · obtain ⟨n, hn, ht⟩ := ih h
      exact ⟨n, List.mem_cons_of_mem name hn, ht⟩

theorem ne_nil_of_mem_places (h : names ∈ o.places) : names ≠ [] := by
  obtain ⟨_, -, _, rfl⟩ := exists_of_mem_places h
  exact List.cons_ne_nil _ _

theorem ne_nil_of_mem_ways {way : List Step} (h : way ∈ o.ways) : way ≠ [] := by
  rintro rfl
  exact ne_nil_of_mem_places (List.mem_map_of_mem h) rfl

theorem singleton_mem_places (h : n ∈ o.names) : [n] ∈ o.places := by
  induction o with
  | nil => cases h
  | entry name kind inside rest _ ih =>
    rw [places_entry]
    rcases List.mem_cons.1 h with rfl | h
    · exact List.mem_cons_self
    · exact List.mem_append_right _ (ih h)

/-! ## Their order -/

theorem singleton_lt_cons (hn : names ≠ []) : [name] < name :: names := by
  obtain ⟨n, t, rfl⟩ := List.exists_cons_of_ne_nil hn
  exact .cons .nil

theorem cons_lt_cons_iff {as bs : List Text} : name :: as < name :: bs ↔ as < bs := by
  rw [List.cons_lt_cons_iff]
  simp [List.lt_irrefl]

/-- The entries of a sorted outline come in the order of the names that lead to them. -/
theorem pairwise_places (h : o.Sorted) : o.places.Pairwise (· < ·) := by
  induction o with
  | nil => exact .nil
  | entry name kind inside rest ihi ihr =>
    obtain ⟨hlt, hi, hr⟩ := h
    rw [places_entry, List.cons_append, List.pairwise_cons, List.pairwise_append, List.pairwise_map]
    -- All names of the first entry start with its own, and no names after them do.
    have hrest {t names : List Text} (hn : names ∈ rest.places) : name :: t < names := by
      obtain ⟨n, hname, _, rfl⟩ := exists_of_mem_places hn
      exact .rel (hlt n hname)
    refine ⟨fun names hn => ?_, (ihi hi).imp cons_lt_cons_iff.2, ihr hr, fun names hn _ hm => ?_⟩
    · rcases List.mem_append.1 hn with hn | hn
      · obtain ⟨t, ht, rfl⟩ := List.mem_map.1 hn
        exact singleton_lt_cons (ne_nil_of_mem_places ht)
      · exact hrest hn
    · obtain ⟨t, -, rfl⟩ := List.mem_map.1 hn
      exact hrest hm

/-! ## The last of a folder -/

/-- Of some entries none of the same folder comes after this one. -/
def IsLast (places : List (List Text)) (names : List Text) : Prop :=
  ∀ other ∈ places, other.dropLast = names.dropLast → ¬names < other

instance (places : List (List Text)) (names : List Text) : Decidable (IsLast places names) :=
  inferInstanceAs (Decidable (∀ other ∈ places, other.dropLast = names.dropLast → ¬names < other))

theorem isLast_entry_iff : IsLast (entry name kind inside rest).places names ↔
    ([] = names.dropLast → ¬names < [name]) ∧
      (∀ p ∈ inside.places, name :: p.dropLast = names.dropLast → ¬names < name :: p) ∧
        IsLast rest.places names := by
  rw [IsLast, places_entry, List.cons_append, List.forall_mem_cons, List.forall_mem_append,
    List.forall_mem_map, IsLast]
  refine and_congr Iff.rfl (and_congr (forall_congr' fun p => forall_congr' fun hp => ?_) Iff.rfl)
  rw [List.dropLast_cons_of_ne_nil (ne_nil_of_mem_places hp)]

section Sorted

variable (h : (entry name kind inside rest).Sorted)
include h

theorem isLast_first : IsLast (entry name kind inside rest).places [name] ↔ rest = nil := by
  rw [isLast_entry_iff]
  constructor
  · rintro ⟨-, -, hlast⟩
    cases rest with
    | nil => rfl
    | entry n k i r =>
      exact absurd (.rel (h.1 n List.mem_cons_self))
        (hlast [n] (singleton_mem_places List.mem_cons_self) rfl)
  · rintro rfl
    exact ⟨fun _ => List.lt_irrefl _, fun _ _ => nofun, nofun⟩

theorem isLast_inside (hn : names ≠ []) :
    IsLast (entry name kind inside rest).places (name :: names) ↔ IsLast inside.places names := by
  rw [isLast_entry_iff]
  simp only [IsLast, List.dropLast_cons_of_ne_nil hn, List.cons.injEq, true_and, cons_lt_cons_iff]
  constructor
  · exact fun ⟨_, hi, _⟩ => hi
  · intro hi
    refine ⟨nofun, hi, fun other ho hd => ?_⟩
    -- What comes after the folder does not start with its name.
    obtain ⟨n, hmem, t, rfl⟩ := exists_of_mem_places ho
    have hne : name ≠ n := fun he => List.lt_irrefl _ (he ▸ h.1 n hmem)
    cases t with
    | nil => cases hd
    | cons m t => exact absurd (List.cons_eq_cons.1 hd).1.symm hne

theorem isLast_rest (hn : n ∈ rest.names) :
    IsLast (entry name kind inside rest).places (n :: names) ↔ IsLast rest.places (n :: names) := by
  have hlt := h.1 n hn
  have hnot (t : List Text) : ¬n :: names < name :: t := by
    rw [List.cons_lt_cons_iff]
    rintro (hlt' | ⟨rfl, -⟩)
    · exact List.lt_asymm hlt hlt'
    · exact List.lt_irrefl _ hlt
  rw [isLast_entry_iff]
  exact ⟨fun ⟨_, _, hr⟩ => hr, fun hr => ⟨fun _ => hnot [], fun p _ _ => hnot p, hr⟩⟩

end Sorted

theorem beginnings_cons (n : Text) (names : List Text) :
    FileSystem.beginnings (n :: names) = [n] :: (FileSystem.beginnings names).map (n :: ·) := by
  simp [FileSystem.beginnings, List.range_succ_eq_map, Function.comp_def]

theorem ne_nil_of_mem_beginnings {start : List Text} (h : start ∈ FileSystem.beginnings names) :
    start ≠ [] := by
  cases names with
  | nil => cases h
  | cons n names =>
    rw [beginnings_cons] at h
    rcases List.mem_cons.1 h with rfl | h
    · exact List.cons_ne_nil _ _
    · obtain ⟨_, -, rfl⟩ := List.mem_map.1 h
      exact List.cons_ne_nil _ _

/-- Every step of a way says whether the folder or entry it leads to is the last of its folder. -/
theorem map_isLast {way : List Step} (h : o.Sorted) (hw : way ∈ o.ways) :
    way.map (·.isLast) =
      (FileSystem.beginnings (namesOn way)).map fun names => decide (IsLast o.places names) := by
  induction o generalizing way with
  | nil => cases hw
  | entry name kind inside rest ihi ihr =>
    have hfirst : decide (IsLast (entry name kind inside rest).places [name]) =
        decide (rest = nil) := decide_eq_decide.2 (isLast_first h)
    rw [ways, List.cons_append, List.mem_cons, List.mem_append] at hw
    rcases hw with rfl | hw | hw
    · rw [namesOn, List.map_singleton, List.map_singleton, beginnings_cons, List.map_cons, hfirst]
      rfl
    · obtain ⟨way, hway, rfl⟩ := List.mem_map.1 hw
      rw [namesOn, List.map_cons, List.map_cons, beginnings_cons, List.map_cons, hfirst,
        ihi h.2.1 hway, List.map_map]
      refine congrArg _ (List.map_congr_left fun start hs => ?_)
      exact decide_eq_decide.2 (isLast_inside h (ne_nil_of_mem_beginnings hs)).symm
    · obtain ⟨n, hn, t, ht⟩ := exists_of_mem_places (List.mem_map_of_mem hw)
      rw [ihr h.2.2 hw, ht, beginnings_cons]
      refine List.map_congr_left fun start hs => decide_eq_decide.2 ?_
      rcases List.mem_cons.1 hs with rfl | hs
      · exact (isLast_rest h hn).symm
      · obtain ⟨_, -, rfl⟩ := List.mem_map.1 hs
        exact (isLast_rest h hn).symm

end Outline
end SourceBundle
