import SourceBundle.Proofs.FileTree.WellFormed
/-!
# Entries and changes

What stands some names down in a tree, and what a change at one place leaves as it was: every file
and link elsewhere, and every folder but for what is inside it.
-/
namespace SourceBundle

open Text

/-- The entry without what is inside it. -/
def Entry.face : Entry → Entry
  | .folder _ => .folder .empty
  | e => e

namespace Folder

/-! ## Entries -/

/-- The entry some names down; the folder itself where there are none. -/
def entryAt? (f : Folder) : List Text → Option Entry
  | [] => some (.folder f)
  | name :: names =>
    match f.get? name with
    | some (.folder inside) => inside.entryAt? names
    | some e => if names = [] then some e else none
    | none => none

/-- What stands some names down, without what is inside it. -/
def face? (f : Folder) (names : List Text) : Option Entry := (f.entryAt? names).map Entry.face

/-- A file stands some names down, or nothing does. -/
def FileOrFree (f : Folder) (names : List Text) : Prop :=
  ∀ e, f.entryAt? names = some e → ∃ content, e = .file content

variable {f g : Folder} {name : Text} {names other : List Text} {e : Entry}

theorem entryAt?_singleton (f : Folder) (name : Text) : f.entryAt? [name] = f.get? name := by
  rw [entryAt?]
  split
  · next h => rw [h, entryAt?]
  · next h => rw [h, if_pos rfl]
  · next h => rw [h]

theorem at?_eq_some_iff : f.at? names = some g ↔ f.entryAt? names = some (.folder g) := by
  induction names generalizing f with
  | nil => simp [at?, entryAt?]
  | cons name names ih =>
    rw [at?, entryAt?]
    cases f.get? name with
    | none => simp
    | some e =>
      cases e with
      | folder inside => exact ih
      | file | link => by_cases hn : names = [] <;> simp [hn]

/-- The last of some names is looked up in the folder that the others lead to. -/
theorem entryAt?_concat (f : Folder) (names : List Text) (name : Text) :
    f.entryAt? (names ++ [name]) = (f.at? names).bind (·.get? name) := by
  induction names generalizing f with
  | nil => exact entryAt?_singleton f name
  | cons n names ih =>
    rw [List.cons_append, entryAt?, at?]
    cases f.get? n with
    | none => rfl
    | some e =>
      cases e with
      | folder inside => exact ih inside
      | file | link => simp

theorem not_folder_of_fileOrFree (h : f.FileOrFree names) :
    f.entryAt? names ≠ some (.folder g) := by
  intro he
  obtain ⟨content, hc⟩ := h _ he
  cases hc

/-- Nothing is below a file or a free place. -/
theorem entryAt?_of_fileOrFree (h : f.FileOrFree [name]) (hne : names ≠ []) :
    f.entryAt? (name :: names) = none := by
  rw [FileOrFree, entryAt?_singleton] at h
  rw [entryAt?]
  split
  · next inside he =>
    obtain ⟨content, hc⟩ := h _ he
    cases hc
  · exact if_neg hne
  · rfl

theorem fileOrFree_cons {inside : Folder} (he : f.get? name = some (.folder inside)) :
    f.FileOrFree (name :: names) ↔ inside.FileOrFree names := by
  rw [FileOrFree, FileOrFree, entryAt?, he]

/-! ## Changes -/

/-- The folder changed under the last of some names. When the others lead nowhere, nothing
changes. -/
def alterAt (change : Text → Folder → Folder) (f : Folder) : List Text → Folder
  | [] => f
  | [name] => change name f
  | name :: names =>
    match f.get? name with
    | some (.folder inside) => f.put name (.folder (inside.alterAt change names))
    | _ => f

section Frame

variable {change : Text → Folder → Folder}

theorem alterAt_cons {inside : Folder} (he : f.get? name = some (.folder inside))
    (hne : names ≠ []) :
    f.alterAt change (name :: names) = f.put name (.folder (inside.alterAt change names)) := by
  rw [alterAt, he]
  exact hne

theorem alterAt_cons_of_not_folder (h : ∀ inside, f.get? name ≠ some (.folder inside))
    (hne : names ≠ []) : f.alterAt change (name :: names) = f := by
  rw [alterAt]
  · split
    · next inside he => exact absurd he (h inside)
    · rfl
  · exact hne

/-- What the change of one folder keeps is kept some names up, when a folder that is put in the
place of another keeps it. -/
theorem alterAt_induction {P : Folder → Prop} (hchange : ∀ name f, P f → P (change name f))
    (hput : ∀ f name inside inside', P f → f.get? name = some (.folder inside) →
      (P inside → P inside') → P (f.put name (.folder inside')))
    (names : List Text) (h : P f) : P (f.alterAt change names) := by
  induction names generalizing f with
  | nil => exact h
  | cons name names ih =>
    by_cases hne : names = []
    · rw [hne]
      exact hchange name f h
    · by_cases hf : ∃ inside, f.get? name = some (.folder inside)
      · obtain ⟨inside, he⟩ := hf
        rw [alterAt_cons he hne]
        exact hput f name inside _ h he ih
      · rw [not_exists] at hf
        rwa [alterAt_cons_of_not_folder hf hne]

/-- A change below a folder leaves it a folder, changed below. -/
theorem at?_alterAt (hat : f.at? names = some g) (hne : other ≠ []) :
    (f.alterAt change (names ++ other)).at? names = some (g.alterAt change other) := by
  induction names generalizing f with
  | nil =>
    cases hat
    rfl
  | cons name names ih =>
    rw [at?] at hat
    split at hat
    · next inside he =>
      rw [List.cons_append, alterAt_cons he (List.append_ne_nil_of_right_ne_nil names hne), at?,
        get?_put_self]
      exact ih hat
    · cases hat

theorem entryAt?_alterAt_self (hat : f.at? names = some g) :
    (f.alterAt change (names ++ [name])).entryAt? (names ++ [name]) =
      (change name g).get? name := by
  rw [entryAt?_concat, at?_alterAt hat (List.cons_ne_nil name [])]
  rfl

theorem entryAt?_congr (h : f.get? name = g.get? name) :
    f.entryAt? (name :: names) = g.entryAt? (name :: names) := by
  rw [entryAt?, entryAt?, h]

/-- A change of one file, or of a free place, leaves all else as it was. -/
theorem face?_alterAt_of_ne (hchange : ∀ n f m, m ≠ n → (change n f).get? m = f.get? m)
    (hold : f.FileOrFree names) (hnew : (f.alterAt change names).FileOrFree names)
    (hne : other ≠ names) : (f.alterAt change names).face? other = f.face? other := by
  induction names generalizing f other with
  | nil => rfl
  | cons n names ih =>
    cases other with
    | nil => rfl
    | cons m other =>
      rw [face?, face?]
      rcases eq_or_ne names [] with rfl | hnames
      · -- The change is in this folder: only what is below the place could be affected.
        by_cases hm : m = n
        · subst hm
          have hother : other ≠ [] := fun h => hne (h ▸ rfl)
          rw [entryAt?_of_fileOrFree hold hother, entryAt?_of_fileOrFree hnew hother]
        · rw [alterAt, entryAt?_congr (hchange n f m hm)]
      · by_cases hf : ∃ inside, f.get? n = some (.folder inside)
        · obtain ⟨inside, he⟩ := hf
          rw [alterAt_cons he hnames] at hnew ⊢
          by_cases hm : m = n
          · subst hm
            rw [fileOrFree_cons (get?_put_self m _ f)] at hnew
            rw [entryAt?, get?_put_self, entryAt?, he]
            exact ih ((fileOrFree_cons he).1 hold) hnew fun h => hne (h ▸ rfl)
          · rw [entryAt?_congr (get?_put_of_ne (Ne.symm hm) _ f)]
        · rw [not_exists] at hf
          rw [alterAt_cons_of_not_folder hf hnames]

end Frame

/-! ## Putting and removing -/

theorem putAt_eq_alterAt (e : Entry) (f : Folder) (names : List Text) :
    f.putAt e names = f.alterAt (fun name g => g.put name e) names := by
  induction names generalizing f with
  | nil => rfl
  | cons name names ih =>
    cases names with
    | nil => rfl
    | cons m names =>
      rw [putAt, alterAt]
      · cases f.get? name with
        | none => rfl
        | some d =>
          cases d with
          | folder inside => exact congrArg (fun g => f.put name (.folder g)) (ih inside)
          | file | link => rfl
      · exact List.cons_ne_nil m names
      · exact List.cons_ne_nil m names

/-- The folder without the first entry under a name. -/
def remove (name : Text) : Folder → Folder
  | empty => empty
  | file n content rest => if n = name then rest else file n content (rest.remove name)
  | link n target rest => if n = name then rest else link n target (rest.remove name)
  | folder n inside rest => if n = name then rest else folder n inside (rest.remove name)

theorem remove_cons (name n : Text) (d : Entry) (rest : Folder) :
    (cons n d rest).remove name = if n = name then rest else cons n d (rest.remove name) := by
  cases d <;> rfl

theorem get?_remove_of_ne (n : Text) (f : Folder) (m : Text) (h : m ≠ n) :
    (f.remove n).get? m = f.get? m := by
  induction f using cons_induction with
  | empty => rfl
  | cons k d rest ih =>
    rw [remove_cons, get?_cons]
    split
    · next hk => rw [if_neg fun hkm => h (hkm.symm.trans hk)]
    · rw [get?_cons, ih]

/-- In a well-formed folder no other entry is left under the name. -/
theorem get?_remove_self (h : f.WellFormed) : (f.remove name).get? name = none := by
  induction f using cons_induction with
  | empty => rfl
  | cons n d rest ih =>
    obtain ⟨-, hfresh, -, hrest⟩ := wellFormed_cons.1 h
    rw [remove_cons]
    split
    · next hn => exact hn ▸ hfresh
    · next hn => rw [get?_cons, if_neg hn, ih hrest]

theorem wellFormed_remove (name : Text) (f : Folder) (h : f.WellFormed) :
    (f.remove name).WellFormed := by
  induction f using cons_induction with
  | empty => trivial
  | cons n d rest ih =>
    obtain ⟨hn, hfresh, hd, hrest⟩ := wellFormed_cons.1 h
    rw [remove_cons]
    split
    · exact hrest
    · next hne =>
      refine wellFormed_cons.2 ⟨hn, ?_, hd, ih hrest⟩
      rw [get?_remove_of_ne name rest n hne, hfresh]

/-- The folder without the entry some names down. -/
def removeAt (f : Folder) (names : List Text) : Folder := f.alterAt remove names

theorem wellFormed_removeAt (names : List Text) (h : f.WellFormed) :
    (f.removeAt names).WellFormed := by
  refine alterAt_induction wellFormed_remove (fun f name inside inside' hf he hin => ?_) names h
  obtain ⟨hname, hinside⟩ := hf.get? he
  exact wellFormed_put hf hname (hin hinside)

end Folder
end SourceBundle
