import SourceBundle.Proofs.Collector.Files
import SourceBundle.Proofs.Collector.Ways
/-!
# The entries that are shown

Which entries below a folder a drawing has, said of paths and of what stands under them. The files
that are collected are the shown entries that are text files and not too large.
-/
namespace SourceBundle.Collector

open Text

variable {c : Collector} {above names : List Text} {name : Text} {f : Folder} {content : Text}

/-- Names that lead from the folder at `above` from entry to entry. No folder on the way is a link,
and nothing on the way is out of sight. -/
structure Shown (c : Collector) (above names : List Text) : Prop where
  ne_nil : names ≠ []
  isEntry : ∀ way name rest, names = way ++ name :: rest → ∃ inside e,
    c.fs.find (c.pathOf (above ++ way)) = .ok (.folder inside) ∧ inside.get? name = some e ∧
      (rest ≠ [] → ∀ target, e ≠ .link target)
  inSight : ∀ way, way ≠ [] → way <+: names → c.InSight (above ++ way)

theorem forall_prefix_cons {P : List Text → Prop} :
    (∀ way, way ≠ [] → way <+: name :: names → P way) ↔
      P [name] ∧ ∀ way, way ≠ [] → way <+: names → P (name :: way) := by
  constructor
  · intro h
    refine ⟨h [name] (List.cons_ne_nil _ _) (List.cons_prefix_cons.2 ⟨rfl, List.nil_prefix⟩), ?_⟩
    exact fun way _ hpre => h (name :: way) (List.cons_ne_nil _ _)
      (List.cons_prefix_cons.2 ⟨rfl, hpre⟩)
  · rintro ⟨hname, hrest⟩ way hne hpre
    obtain ⟨n, way, rfl⟩ := List.exists_cons_of_ne_nil hne
    obtain ⟨rfl, hway⟩ := List.cons_prefix_cons.1 hpre
    rcases eq_or_ne way [] with rfl | hne
    · exact hname
    · exact hrest way hne hway

theorem StandsAt.shown_singleton (h : c.StandsAt above f) :
    c.Shown above [name] ↔ (∃ e, f.get? name = some e) ∧ c.InSight (above ++ [name]) := by
  constructor
  · rintro ⟨-, hentry, hsight⟩
    obtain ⟨inside, e, hfind, he, -⟩ := hentry [] name [] rfl
    rw [List.append_nil, h.find] at hfind
    cases hfind
    exact ⟨⟨e, he⟩, (forall_prefix_cons.1 hsight).1⟩
  · rintro ⟨⟨e, he⟩, hsight⟩
    refine ⟨List.cons_ne_nil _ _, fun way n rest hw => ?_, forall_prefix_cons.2 ⟨hsight, ?_⟩⟩
    · cases way with
      | nil =>
        obtain ⟨rfl, rfl⟩ := List.cons_eq_cons.1 hw
        exact ⟨f, e, by rw [List.append_nil, h.find], he, fun hne => absurd rfl hne⟩
      | cons m way => simp at hw
    · exact fun way hne hpre => absurd (List.prefix_nil.1 hpre) hne

theorem StandsAt.shown_cons (h : c.StandsAt above f) (hne : names ≠ []) :
    c.Shown above (name :: names) ↔ ∃ g, f.get? name = some (.folder g) ∧
      c.InSight (above ++ [name]) ∧ c.Shown (above ++ [name]) names := by
  have happ (way : List Text) : above ++ [name] ++ way = above ++ name :: way := by simp
  constructor
  · rintro ⟨-, hentry, hsight⟩
    obtain ⟨hname, hsight⟩ := forall_prefix_cons.1 hsight
    have hfolder : ∃ g, f.get? name = some (.folder g) := by
      obtain ⟨inside, e, hfind, he, hlink⟩ := hentry [] name names rfl
      rw [List.append_nil, h.find] at hfind
      cases hfind
      cases e with
      | folder g => exact ⟨g, he⟩
      | link target => exact absurd rfl (hlink hne target)
      | file content =>
        -- The next name has to stand in a folder.
        obtain ⟨n, rest, rfl⟩ := List.exists_cons_of_ne_nil hne
        obtain ⟨inside', -, hfind', -⟩ := hentry [name] n rest rfl
        rw [h.find_file he] at hfind'
        cases hfind'
    obtain ⟨g, he⟩ := hfolder
    refine ⟨g, he, hname, hne, fun way n rest hw => ?_, fun way hway hpre => ?_⟩
    · rw [happ]
      exact hentry (name :: way) n rest (by rw [hw, List.cons_append])
    · rw [happ]
      exact hsight way hway hpre
  · rintro ⟨g, he, hname, -, hentry, hsight⟩
    refine ⟨List.cons_ne_nil _ _, fun way n rest hw => ?_, forall_prefix_cons.2 ⟨hname, ?_⟩⟩
    · cases way with
      | nil =>
        obtain ⟨rfl, rfl⟩ := List.cons_eq_cons.1 hw
        exact ⟨f, .folder g, by rw [List.append_nil, h.find], he, fun _ => nofun⟩
      | cons m way =>
        obtain ⟨rfl, rfl⟩ := List.cons_eq_cons.1 hw
        rw [← happ]
        exact hentry way n rest rfl
    · intro way hway hpre
      rw [← happ]
      exact hsight way hway hpre

/-! ## Drawn entries -/

theorem gathers_places : Gathers Outline.places
    fun name _ inside => [name] :: inside.places.map (name :: ·) :=
  ⟨rfl, fun _ _ _ _ => Outline.places_entry⟩

/-- The entries in the outline of a folder are those that are shown below it. -/
theorem StandsAt.mem_places (h : c.StandsAt above f) :
    names ∈ (c.outlineOf above f).places ↔ c.Shown above names := by
  induction f using Folder.inside_induction generalizing above names with
  | h f ih =>
    rw [gathers_places.mem_outlineOf h.wellFormed]
    constructor
    · rintro ⟨name, e, he, hv, hn⟩
      rw [h.hides_eq_false_iff he] at hv
      rcases List.mem_cons.1 hn with rfl | hn
      · exact h.shown_singleton.2 ⟨⟨e, he⟩, hv⟩
      · obtain ⟨rest, hrest, rfl⟩ := List.mem_map.1 hn
        cases e with
        | folder g =>
          refine (h.shown_cons (Outline.ne_nil_of_mem_places hrest)).2 ⟨g, he, hv, ?_⟩
          exact (ih name g he (h.enter he)).1 hrest
        | file | link => cases hrest
    · intro hs
      obtain ⟨name, rest, rfl⟩ := List.exists_cons_of_ne_nil hs.ne_nil
      rcases eq_or_ne rest [] with rfl | hne
      · obtain ⟨⟨e, he⟩, hv⟩ := h.shown_singleton.1 hs
        exact ⟨name, e, he, (h.hides_eq_false_iff he).2 hv, List.mem_cons_self⟩
      · obtain ⟨g, he, hv, hs⟩ := (h.shown_cons hne).1 hs
        refine ⟨name, .folder g, he, (h.hides_eq_false_iff he).2 hv, List.mem_cons_of_mem _ ?_⟩
        exact List.mem_map_of_mem ((ih name g he (h.enter he)).2 hs)

/-! ## Collected files -/

/-- A file is reached when it is shown. -/
theorem StandsAt.reaches_iff (h : c.StandsAt above f) :
    c.Reaches above names content ↔
      c.Shown above names ∧ c.fs.find (c.pathOf (above ++ names)) = .ok (.file content) := by
  induction names generalizing above f with
  | nil => exact ⟨fun hr => absurd rfl hr.ne_nil, fun hs => absurd rfl hs.1.ne_nil⟩
  | cons name names ih =>
    rcases eq_or_ne names [] with rfl | hne
    · rw [h.reaches_singleton, h.shown_singleton, and_assoc, and_congr_right_iff]
      exact fun _ => and_comm
    · rw [h.reaches_cons hne, h.shown_cons hne]
      constructor
      · rintro ⟨g, he, hv, hr⟩
        obtain ⟨hs, hfind⟩ := (ih (h.enter he)).1 hr
        exact ⟨⟨g, he, hv, hs⟩, by simpa using hfind⟩
      · rintro ⟨⟨g, he, hv, hs⟩, hfind⟩
        exact ⟨g, he, hv, (ih (h.enter he)).2 ⟨hs, by simpa using hfind⟩⟩

/-- Whether some names lead to a text file that is not too large. -/
def takes (c : Collector) (names : List Text) : Bool :=
  match c.fs.find (c.pathOf names) with
  | .ok (.file content) =>
    c.config.allows (below names).extension &&
      decide (c.config.maxFileBytes = 0 ∨ content.length ≤ c.config.maxFileBytes)
  | _ => false

theorem takes_iff : c.takes names = true ↔
    ∃ content, c.fs.find (c.pathOf names) = .ok (.file content) ∧
      c.config.allows (below names).extension = true ∧
      (c.config.maxFileBytes = 0 ∨ content.length ≤ c.config.maxFileBytes) := by
  rw [takes]
  split
  · next content h => simp [h]
  · next h => exact ⟨nofun, fun ⟨content, hfind, _⟩ => absurd hfind (h content)⟩

/-- A file is wanted when it is shown and of the kind that is taken. -/
theorem StandsAt.wanted_iff (h : c.StandsAt [] f) :
    c.Wanted names ↔ c.Shown [] names ∧ c.takes names = true := by
  rw [takes_iff]
  constructor
  · rintro ⟨⟨content, hr, hsize⟩, htext⟩
    obtain ⟨hs, hfind⟩ := h.reaches_iff.1 hr
    exact ⟨hs, content, hfind, htext, hsize⟩
  · rintro ⟨hs, content, hfind, htext, hsize⟩
    exact ⟨⟨content, h.reaches_iff.2 ⟨hs, hfind⟩, hsize⟩, htext⟩

/-- Paths in the order of their names are told by which they are. -/
theorem eq_of_pairwise_names {ps qs : List Path}
    (hps : ps.Pairwise fun p q => p.names < q.names)
    (hqs : qs.Pairwise fun p q => p.names < q.names) (h : ∀ p, p ∈ ps ↔ p ∈ qs) : ps = qs := by
  have hnodup {rs : List Path} (hrs : rs.Pairwise fun p q => p.names < q.names) : rs.Nodup := by
    refine hrs.imp ?_
    rintro p _ hlt rfl
    exact List.lt_irrefl _ hlt
  exact List.Perm.eq_of_pairwise (fun p q _ _ hlt hgt => absurd hgt (List.lt_asymm hlt)) hps hqs
    ((List.perm_ext_iff_of_nodup (hnodup hps) (hnodup hqs)).2 h)

/-- The files that are collected are the drawn entries that are taken, in the same order. -/
theorem paths_eq (hfs : f.WellFormed) (h : c.fs.find c.root = .ok (.folder f)) :
    (c.findings [] (c.outlineOf [] f)).filterMap Finding.path? =
      ((c.outlineOf [] f).places.filter c.takes).map below := by
  have hsorted : (c.outlineOf [] f).Sorted := sorted_outlineOf hfs
  have hroot := standsAt_root hfs h
  refine eq_of_pairwise_names ?_ ?_ fun p => ?_
  · refine (pairwise_findings hsorted).filterMap _ fun x y hlt p hp q hq => ?_
    rwa [← Finding.path_of_path? hp, ← Finding.path_of_path? hq]
  · exact List.pairwise_map.2 ((Outline.pairwise_places hsorted).filter _)
  · rw [mem_paths_iff hfs h, List.mem_map]
    refine exists_congr fun names => ?_
    rw [hroot.wanted_iff, List.mem_filter, hroot.mem_places, eq_comm (a := p)]

end SourceBundle.Collector
