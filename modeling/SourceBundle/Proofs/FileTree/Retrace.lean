import SourceBundle.Proofs.FileTree.Follow
import SourceBundle.Proofs.Path.Normal
/-!
# Normal forms of paths to folders

In a normal form `..` takes back the name before it, while on the way it leaves the folder that the
name has led to. The two come to one folder unless that name is a link which leads elsewhere.
-/
namespace SourceBundle

open Text

namespace Path

/-! ## Names kept so far -/

/-- What one more name makes of the names that are kept. -/
inductive Pushed (rooted : Bool) (names : List Text) : Text → List Text → Prop
  | skipped {name : Text} (h : isStep name = false) : Pushed rooted names name names
  | atRoot (hroot : rooted = true) (hnames : names = []) : Pushed rooted names up names
  | takenBack {way : List Text} {last : Text} (hnames : names = way ++ [last]) (hlast : last ≠ up) :
    Pushed rooted names up way
  | kept (name : Text) : Pushed rooted names name (names ++ [name])

theorem pushed_push (rooted : Bool) (done : List Text) (name : Text) :
    Pushed rooted done.reverse name (push rooted done name).reverse := by
  by_cases hstep : isStep name = true
  · have hskip : ¬(name = [] || name = here) = true := by
      rwa [isStep, Bool.not_eq_true', ← Bool.not_eq_true] at hstep
    unfold push
    rw [if_neg hskip]
    split
    · next hup =>
      subst hup
      cases done with
      | nil =>
        cases rooted with
        | true => exact .atRoot rfl rfl
        | false => exact .kept up
      | cons last rest =>
        dsimp only
        split
        · rw [show (up :: last :: rest).reverse = (last :: rest).reverse ++ [up] from
            List.reverse_cons]
          exact .kept up
        · next hlast => exact .takenBack List.reverse_cons hlast
    · rw [List.reverse_cons]
      exact .kept name
  · rw [Bool.not_eq_true] at hstep
    rw [push_of_not_isStep rooted done hstep]
    exact .skipped hstep

theorem pushed_kept (rooted : Bool) (names : List Text) (name : Text) :
    Pushed rooted (kept ⟨rooted, names⟩) name (kept ⟨rooted, names ++ [name]⟩) := by
  rw [kept, kept, List.foldl_append]
  exact pushed_push rooted _ name

/-- A `..` of the path takes `name` back, and `way` are the names that are left before it. -/
def TakesBack (path : Text) (way : List Text) (name : Text) : Prop :=
  ∃ before after, splitOn slash path = before ++ up :: after ∧
    kept ⟨path.head? == some slash, before⟩ = way ++ [name] ∧ name ≠ up

theorem TakesBack.isStep {path : Text} {way : List Text} {name : Text}
    (h : TakesBack path way name) : isStep name = true := by
  obtain ⟨before, after, -, hkept, -⟩ := h
  have hmem : name ∈ kept _ := hkept ▸ List.mem_append_right way List.mem_cons_self
  exact (mem_kept hmem).2

theorem TakesBack.ne_up {path : Text} {way : List Text} {name : Text}
    (h : TakesBack path way name) : name ≠ up := by
  obtain ⟨before, after, -, -, hup⟩ := h
  exact hup

end Path

namespace FileSystem

/-- Where a `..` of the path takes a name back, the folder around what the name leads to is the one
that the name stands in. -/
def Retraces (fs : FileSystem) (path : Text) : Prop :=
  ∀ way name, Path.TakesBack path way name → ∀ here inside,
    follow fs.root linkLimit (startOf fs.working path) (way ++ [name]) =
      .ok (.folder here inside) →
    ∃ above, follow fs.root linkLimit (startOf fs.working path) way =
      .ok (.folder here.dropLast above)

variable {fs : FileSystem} {path : Text} {root inside : Folder} {links left : Nat}
  {folder here before after xs : List Text} {name : Text}

/-! ## Names kept on a passage -/

theorem Passes.of_up (h : Passes root links folder (Path.up :: xs) left here) :
    Passes root links folder.dropLast xs left here := by
  cases h with
  | up h => exact h
  | skip hskip => exact absurd hskip (by decide)
  | enter hname | link hname => exact absurd rfl hname.ne_up

theorem Passes.of_filter_isStep
    (h : Passes root links folder (xs.filter Path.isStep) left here) :
    Passes root links folder xs left here := by
  induction xs generalizing links folder with
  | nil => exact h
  | cons name xs ih =>
    rw [List.filter_cons] at h
    split at h
    · rw [← List.singleton_append] at h
      obtain ⟨mid, there, hname, hrest⟩ := h.exists_mid
      exact hname.trans (ih hrest)
    · next hskip =>
      rw [Path.isStep, Bool.not_eq_true', Bool.not_eq_false] at hskip
      exact .skip hskip (ih h)

/-- A name that a `..` takes back is that of a folder, or of a link, in the folder it leads from. -/
theorem Passes.exists_entry {way : List Text} (h : Passes root links folder [name] left here)
    (hback : Path.TakesBack path way name) :
    ∃ f, root.at? folder = some f ∧
      (here = folder ++ [name] ∨ ∃ target, f.get? name = some (.link target)) := by
  cases h with
  | skip hskip =>
    have hstep := hback.isStep
    rw [Path.isStep, hskip] at hstep
    cases hstep
  | up => exact absurd rfl hback.ne_up
  | enter _ he hnil =>
    cases hnil
    obtain ⟨f, hf, -⟩ := Option.bind_eq_some_iff.1 he
    exact ⟨f, hf, .inl rfl⟩
  | link _ he =>
    obtain ⟨f, hf, hlink⟩ := Option.bind_eq_some_iff.1 he
    exact ⟨f, hf, .inr ⟨_, hlink⟩⟩

/-- Where a passage leads, there the names lead that are kept of it, with no more links. -/
theorem exists_passes_kept (h : fs.Retraces path)
    (hsplit : splitOn slash path = before ++ after)
    (hpass : Passes fs.root linkLimit (startOf fs.working path) before left here) :
    ∃ spare, left ≤ spare ∧ Passes fs.root linkLimit (startOf fs.working path)
      (Path.kept ⟨path.head? == some slash, before⟩) spare here := by
  -- The induction is on the last name, since the names that are kept are a stack.
  induction before using List.reverseRecOn generalizing after left here with
  | nil => exact ⟨left, Nat.le_refl left, hpass⟩
  | append_singleton before name ih =>
    obtain ⟨mid, there, hbefore, hname⟩ := hpass.exists_mid
    rw [List.append_assoc, List.singleton_append] at hsplit
    obtain ⟨spare, hspare, hkept⟩ := ih hsplit hbefore
    have hpushed := Path.pushed_kept (path.head? == some slash) before name
    generalize Path.kept ⟨path.head? == some slash, before ++ [name]⟩ = names at hpushed ⊢
    generalize hold : Path.kept ⟨path.head? == some slash, before⟩ = old at hpushed hkept
    cases hpushed with
    | skipped hskip =>
      rw [Path.isStep, Bool.not_eq_false'] at hskip
      cases (passes_skip_iff hskip).1 hname
      exact ⟨spare, hspare, hkept⟩
    | atRoot hroot hnames =>
      subst hnames
      have hstart : startOf fs.working path = [] := if_pos (beq_iff_eq.1 hroot)
      rw [hstart] at hkept ⊢
      cases hkept
      cases hname.of_up
      exact ⟨linkLimit, hspare, .nil linkLimit []⟩
    | takenBack hnames hlast =>
      subst hnames
      cases hname.of_up
      obtain ⟨middle, base, hway, hlink⟩ := hkept.exists_mid
      have hback : Path.TakesBack path names _ := ⟨before, after, hsplit, hold, hlast⟩
      obtain ⟨g, hg, -⟩ := hlink.exists_entry hback
      obtain ⟨f, hf⟩ := hlink.exists_at? ⟨g, hg⟩
      obtain ⟨above, habove⟩ := h names _ hback there f (follow_eq_folder_iff.2 ⟨hf, spare, hkept⟩)
      have hnil := hway.follow_append []
      rw [List.append_nil, habove] at hnil
      obtain ⟨rfl, -⟩ := follow_nil hnil.symm
      exact ⟨middle, hspare.trans hlink.left_le, hway⟩
    | kept =>
      refine ⟨left + (spare - mid), by omega, hkept.trans ?_⟩
      have hadd := hname.add_links (spare - mid)
      rwa [Nat.add_sub_cancel' hspare] at hadd

/-! ## Normal forms -/

/-- The normal form of a path leads to the folder that the path leads to, when the names taken back
allow for it. -/
theorem resolve_normal (h : fs.Retraces path) (hr : fs.resolve path = .ok (.folder here inside)) :
    fs.resolve (Path.ofText path).normal.dropTrailing.toText = .ok (.folder here inside) := by
  obtain ⟨hne, hat, left, hpass⟩ := resolve_eq_folder_iff.1 hr
  obtain ⟨spare, -, hkept⟩ := exists_passes_kept h (List.append_nil _).symm hpass
  rw [Path.kept_splitOn, ← Path.filter_splitOn_normal] at hkept
  have hstart : startOf fs.working (Path.ofText path).normal.dropTrailing.toText =
      startOf fs.working path := by
    simp only [startOf, Path.head?_normal]
  exact resolve_eq_folder_iff.2
    ⟨Path.normal_ne_nil hne, hat, spare, hstart ▸ hkept.of_filter_isStep⟩

theorem retraces_of_up_not_mem (h : Path.up ∉ splitOn slash path) : fs.Retraces path := by
  rintro way name ⟨before, after, hsplit, -⟩
  exact absurd (hsplit ▸ List.mem_append_right before List.mem_cons_self) h

/-- Names that are taken back do no harm unless one is a link. -/
theorem retraces_of_forall_ne_link (h : ∀ way name, Path.TakesBack path way name → ∀ there f,
    follow fs.root linkLimit (startOf fs.working path) way = .ok (.folder there f) →
    ∀ target, f.get? name ≠ some (.link target)) : fs.Retraces path := by
  intro way name hback here inside hr
  obtain ⟨-, left, hpass⟩ := follow_eq_folder_iff.1 hr
  obtain ⟨mid, there, hway, hname⟩ := hpass.exists_mid
  obtain ⟨f, hf, hentry⟩ := hname.exists_entry hback
  have hfolder : follow fs.root linkLimit (startOf fs.working path) way = .ok (.folder there f) :=
    follow_eq_folder_iff.2 ⟨hf, mid, hway⟩
  rcases hentry with rfl | ⟨target, hlink⟩
  · exact ⟨f, List.dropLast_concat ▸ hfolder⟩
  · exact absurd hlink (h way name hback there f hfolder target)

end FileSystem
end SourceBundle
