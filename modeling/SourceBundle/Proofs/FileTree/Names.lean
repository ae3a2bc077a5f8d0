import SourceBundle.FileTree.System
import SourceBundle.Proofs.Text.Lines
import SourceBundle.Proofs.Text.Trim
/-!
# Names of entries

What may be the name of an entry, and that paths made of such names read back as those names.
-/
namespace SourceBundle

open Text

/-- A name that an entry of a folder may have. -/
structure IsName (name : Text) : Prop where
  ne_nil : name ≠ []
  slash_not_mem : slash ∉ name
  ne_here : name ≠ Path.here
  ne_up : name ≠ Path.up
  length_le : name.length ≤ FileSystem.nameLimit

theorem isName_iff {name : Text} : IsName name ↔
    name ≠ [] ∧ slash ∉ name ∧ name ≠ Path.here ∧ name ≠ Path.up ∧
      name.length ≤ FileSystem.nameLimit :=
  ⟨fun ⟨h₁, h₂, h₃, h₄, h₅⟩ => ⟨h₁, h₂, h₃, h₄, h₅⟩,
    fun ⟨h₁, h₂, h₃, h₄, h₅⟩ => ⟨h₁, h₂, h₃, h₄, h₅⟩⟩

instance (name : Text) : Decidable (IsName name) := decidable_of_iff _ isName_iff.symm

namespace Path

variable {names : List Text}

theorem splitOn_toText (hne : names ≠ []) (h : ∀ n ∈ names, IsName n) :
    splitOn slash (toText ⟨false, names⟩) = names :=
  splitOn_intercalate hne fun n hn => (h n hn).slash_not_mem

theorem nil_not_mem (h : ∀ n ∈ names, IsName n) : [] ∉ names := fun hn => (h [] hn).ne_nil rfl

/-- A path made of names neither starts nor ends with a slash: an empty name would stand there. -/
theorem head?_toText (h : ∀ n ∈ names, IsName n) :
    (toText ⟨false, names⟩).head? ≠ some slash :=
  head?_intercalate (fun hn => nil_not_mem h (List.mem_of_head? hn)) fun n hn =>
    (h n hn).slash_not_mem

theorem getLast?_toText (h : ∀ n ∈ names, IsName n) :
    (toText ⟨false, names⟩).getLast? ≠ some slash := by
  rcases eq_or_ne names [] with rfl | hne
  · exact nofun
  intro hs
  obtain ⟨t, ht⟩ := List.getLast?_eq_some_iff.1 hs
  have := splitOn_toText hne h
  rw [ht, splitOn_append_cons] at this
  exact nil_not_mem h (this ▸ List.mem_append_right _ List.mem_cons_self)

theorem toText_eq_nil (h : ∀ n ∈ names, IsName n) (ht : toText ⟨false, names⟩ = []) :
    names = [] := by
  by_contra hne
  have := splitOn_toText hne h
  rw [ht, splitOn_nil] at this
  exact nil_not_mem h (this ▸ List.mem_cons_self)

theorem namesOf_toText (h : ∀ n ∈ names, IsName n) : namesOf (toText ⟨false, names⟩) = names := by
  have hdrop : (toText ⟨false, names⟩).dropWhile (· == slash) = toText ⟨false, names⟩ := by
    rw [List.dropWhile_eq_self_iff]
    intro hlt hs
    refine head?_toText h ?_
    rw [List.head?_eq_getElem?, List.getElem?_eq_getElem hlt, beq_iff_eq.1 hs]
  have hfilter : names.filter (!·.isEmpty) = names := by
    rw [List.filter_eq_self]
    intro n hn
    simpa using (h n hn).ne_nil
  rw [namesOf, hdrop]
  split
  · next ht => exact (toText_eq_nil h ht).symm
  · next ht =>
    have hne : names ≠ [] := by
      rintro rfl
      exact ht rfl
    rw [splitOn_toText hne h, hfilter, if_neg (getLast?_toText h), List.append_nil]

/-- Names that were written out are read again. -/
theorem ofText_toText (h : ∀ n ∈ names, IsName n) :
    ofText (toText ⟨false, names⟩) = ⟨false, names⟩ := by
  rw [ofText, namesOf_toText h, beq_eq_false_iff_ne.2 (head?_toText h)]

end Path
end SourceBundle
