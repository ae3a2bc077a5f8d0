import Mathlib.Data.List.Forall2
import SourceBundle.Config.Load
import SourceBundle.Json.Parser
import SourceBundle.Proofs.Collector.Files
import SourceBundle.Proofs.Except
/-!
# Extensions in canonical form

Extensions are compared in lower case and with a dot in front. Settings hold them in that form only,
whether they are listed, added or built in, so it does not matter how an extension is spelled, and a
file without one is no text file.
-/
namespace SourceBundle

namespace Text

/-! ## The case of letters -/

theorem isUpper_toLower (b : UInt8) : isUpper (toLower b) = false := by
  unfold toLower
  split
  · next h =>
    simp only [isUpper, Bool.and_eq_true, decide_eq_true_eq, Bool.and_eq_false_iff,
      decide_eq_false_iff_not, UInt8.le_iff_toNat_le, UInt8.toNat_add, UInt8.reduceToNat] at h ⊢
    omega
  · next h => simpa using h

theorem toLower_of_not_isUpper {b : UInt8} (h : isUpper b = false) : toLower b = b := by
  rw [toLower, h]
  rfl

theorem toLower_eq_dot_iff {b : UInt8} : toLower b = dot ↔ b = dot := by
  unfold toLower
  split
  · next h =>
    simp only [isUpper, dot, Bool.and_eq_true, decide_eq_true_eq, UInt8.le_iff_toNat_le,
      ← UInt8.toNat_inj, UInt8.toNat_add, UInt8.reduceToNat] at h ⊢
    omega
  · exact Iff.rfl

/-- The same byte, or the same letter in the other case. -/
def SameLetter (a b : UInt8) : Prop :=
  a = b ∨ (isUpper a = true ∧ b = a + 0x20) ∨ (isUpper b = true ∧ a = b + 0x20)

theorem toLower_eq_of_sameLetter {a b : UInt8} (h : SameLetter a b) : toLower a = toLower b := by
  have key : ∀ {u : UInt8}, isUpper u = true → toLower u = toLower (u + 0x20) := by
    intro u hu
    have hlower : isUpper (u + 0x20) = false := by
      have := isUpper_toLower u
      rwa [toLower, if_pos hu] at this
    rw [toLower_of_not_isUpper hlower, toLower, if_pos hu]
  rcases h with rfl | ⟨ha, rfl⟩ | ⟨hb, rfl⟩
  · rfl
  · exact key ha
  · exact (key hb).symm

theorem map_toLower_eq {s t : Text} (h : List.Forall₂ SameLetter s t) :
    s.map toLower = t.map toLower := by
  induction h with
  | nil => rfl
  | cons hb _ ih => rw [List.map_cons, List.map_cons, toLower_eq_of_sameLetter hb, ih]

end Text

open Text

/-! ## The canonical form -/

/-- An extension with a dot in front and without capitals. -/
structure IsCanonical (e : Text) : Prop where
  head? : e.head? = some dot
  isUpper : ∀ b ∈ e, isUpper b = false

theorem canonicalExtension_of_dot {e : Text} (h : e.head? = some dot) :
    canonicalExtension e = e.map toLower := by
  obtain ⟨s, rfl⟩ := List.head?_eq_some_iff.1 h
  rfl

theorem canonicalExtension_of_not_dot {e : Text} (hne : e ≠ []) (h : e.head? ≠ some dot) :
    canonicalExtension e = dot :: e.map toLower := by
  obtain ⟨b, s, rfl⟩ := List.exists_cons_of_ne_nil hne
  have hb : toLower b ≠ dot := fun hd => h (by rw [toLower_eq_dot_iff.1 hd]; rfl)
  rw [canonicalExtension, List.map_cons]
  split
  · next heq => cases heq
  · next heq => exact absurd (List.cons_eq_cons.1 heq).1 hb
  · rfl

/-- A dot that is missing is put in front. -/
theorem canonicalExtension_dot_cons {e : Text} (hne : e ≠ []) (h : e.head? ≠ some dot) :
    canonicalExtension (dot :: e) = canonicalExtension e := by
  rw [canonicalExtension_of_not_dot hne h, canonicalExtension_of_dot rfl]
  rfl

theorem isCanonical_canonicalExtension {e : Text} (h : e ≠ []) :
    IsCanonical (canonicalExtension e) := by
  have hlower : ∀ b ∈ e.map toLower, Text.isUpper b = false := by
    intro b hb
    obtain ⟨a, -, rfl⟩ := List.mem_map.1 hb
    exact isUpper_toLower a
  by_cases hd : e.head? = some dot
  · rw [canonicalExtension_of_dot hd]
    refine ⟨?_, hlower⟩
    rw [List.head?_map, hd]
    rfl
  · rw [canonicalExtension_of_not_dot h hd]
    exact ⟨rfl, List.forall_mem_cons.2 ⟨rfl, hlower⟩⟩

theorem IsCanonical.ne_nil {e : Text} (h : IsCanonical e) : e ≠ [] := by
  rintro rfl
  cases h.head?

theorem IsCanonical.canonicalExtension_eq {e : Text} (h : IsCanonical e) :
    canonicalExtension e = e := by
  rw [canonicalExtension_of_dot h.head?,
    List.map_congr_left fun b hb => toLower_of_not_isUpper (h.isUpper b hb), List.map_id']

namespace Config

open JsonLibrary

variable {c : Config} {e : Text}

/-! ## Asking for an extension -/

/-- Every extension that counts as text is in canonical form. -/
def Canonical (c : Config) : Prop := ∀ e ∈ c.extensions, IsCanonical e

theorem canonical_builtIn : builtIn.Canonical := by
  have h : ∀ e ∈ builtInExtensions, e.head? = some dot ∧ ∀ b ∈ e, Text.isUpper b = false := by
    decide +kernel
  intro e he
  obtain ⟨hdot, hlower⟩ := h e (TextSet.mem_ofList.1 he)
  exact ⟨hdot, hlower⟩

theorem allows_congr {s t : Text} (h : List.Forall₂ SameLetter s t) :
    c.allows s = c.allows t := by
  rw [allows, allows, canonicalExtension, canonicalExtension, map_toLower_eq h]

theorem allows_dot_cons (hne : e ≠ []) (h : e.head? ≠ some dot) :
    c.allows (dot :: e) = c.allows e := by
  rw [allows, allows, canonicalExtension_dot_cons hne h]

theorem Canonical.allows_nil (h : c.Canonical) : c.allows [] = false := by
  have hmem : [] ∉ c.extensions := fun hmem => (h [] hmem).ne_nil rfl
  simpa [allows, canonicalExtension] using hmem

/-- A file without an extension is no text file. -/
theorem Canonical.extension_ne_nil {collector : Collector} {f : Collected}
    (h : collector.config.Canonical) (hfs : collector.fs.root.WellFormed)
    (hf : f ∈ collector.files) : (Path.ofText f.relative).extension ≠ [] := by
  obtain ⟨inside, hin⟩ := FileSystem.isFolder_iff.1 (Collector.isFolder_of_mem_files hf)
  obtain ⟨links, here, hat, -⟩ := FileSystem.exists_resolve_join hin
  obtain ⟨names, hw, rfl⟩ := Collector.exists_wanted_of_mem_files (hfs.at? hat) hin hf
  rw [hw.ofText_toText]
  intro hnil
  have htext := hw.is_text
  rw [hnil, h.allows_nil] at htext
  cases htext

/-! ## The texts of a member -/

theorem orFlaw_eq_ok {α : Type} {why : Flaw} {x : Option α} {a : α} (h : orFlaw why x = .ok a) :
    x = some a := by
  cases x with
  | none => cases h
  | some b => exact congrArg some (Except.ok.inj h)

theorem mem_extensionsOf {es : List Text} :
    e ∈ extensionsOf es ↔ ∃ s ∈ es, s ≠ [] ∧ e = canonicalExtension s := by
  rw [extensionsOf, List.mem_map]
  refine exists_congr fun s => ?_
  rw [List.mem_filter, Bool.not_eq_true', List.isEmpty_eq_false_iff, and_assoc,
    eq_comm (b := e)]

section Library

variable [JsonLibrary] {v : Value}

/-- The texts a member lists; `default` where there is no such member. -/
def Lists (v : Value) (key : Text) (default ts : List Text) : Prop :=
  match at? v key with
  | none => ts = default
  | some x => ∃ xs, elements? x = some xs ∧ xs.mapM text? = some ts

theorem exists_elements_of_texts? [Lawful] {ts : List Text} (h : texts? v = some ts) :
    ∃ xs, elements? v = some xs ∧ xs.mapM text? = some ts := by
  rw [Lawful.texts?_eq] at h
  exact Option.bind_eq_some_iff.1 h

theorem lists_of_allowedOf [Lawful] {ts : List Text} (h : allowedOf v = .ok ts) :
    Lists v "allowed_extensions" builtInExtensions ts := by
  rw [allowedOf] at h
  rw [Lists]
  split at h
  · obtain ⟨x, hx, hts⟩ := Option.bind_eq_some_iff.1 (orFlaw_eq_ok h)
    rw [hx]
    exact exists_elements_of_texts? hts
  · next hno =>
    -- What has no member of the name gives none, so the default stands on both sides.
    have hnone : at? v "allowed_extensions" = none := by
      rw [Lawful.contains_iff, ← Option.ne_none_iff_exists', not_not] at hno
      exact hno
    rw [hnone]
    exact (Except.ok.inj h).symm

theorem lists_of_textsOr? [Lawful] {key : Text} {default ts : List Text}
    (h : textsOr? v key default = some ts) : Lists v key default ts := by
  rw [Lists]
  cases hx : at? v key with
  | none =>
    have hno : contains v key = false := by
      rw [Bool.eq_false_iff, ne_eq, Lawful.contains_iff, hx]
      exact nofun
    exact Lawful.textsOr?_of_missing v key default ts hno h
  | some x =>
    rw [Lawful.textsOr?_of_at? v x key default hx] at h
    exact exists_elements_of_texts? h

theorem mem_extensions_of_ofJson (h : ofJson v = .ok c) : ∃ allowed extra,
    allowedOf v = .ok allowed ∧ textsOr? v "extra_extensions" [] = some extra ∧
      ∀ e, e ∈ c.extensions ↔ ∃ s ∈ allowed ++ extra, s ≠ [] ∧ e = canonicalExtension s := by
  obtain ⟨allowed, hallowed, h⟩ := exists_of_bind_ok h
  obtain ⟨extra, hextra, h⟩ := exists_of_bind_ok h
  obtain ⟨patterns, -, h⟩ := exists_of_bind_ok h
  obtain ⟨bytes, -, h⟩ := exists_of_bind_ok h
  obtain ⟨mode, -, h⟩ := exists_of_bind_ok h
  cases h
  refine ⟨allowed, extra, hallowed, orFlaw_eq_ok hextra, fun e => ?_⟩
  rw [TextSet.mem_ofList, List.mem_append, mem_extensionsOf, mem_extensionsOf]
  simp only [List.mem_append, or_and_right, exists_or]

/-! ## Settings in canonical form -/

theorem canonical_ofJson (h : ofJson v = .ok c) : c.Canonical := by
  obtain ⟨allowed, extra, -, -, hmem⟩ := mem_extensions_of_ofJson h
  intro e he
  obtain ⟨s, -, hs, rfl⟩ := (hmem e).1 he
  exact isCanonical_canonicalExtension hs

theorem canonical_ofEntry (path : Text) (entry : Entry) : (ofEntry path entry).1.Canonical := by
  cases entry with
  | file content =>
    rw [ofEntry]
    split
    · next c h =>
      obtain ⟨_, -, h⟩ := exists_of_bind_ok h
      have hc : c.Canonical := canonical_ofJson h
      exact hc
    · exact canonical_builtIn
    · exact canonical_builtIn
  | link | folder => exact canonical_builtIn

/-- Whatever a folder holds, its settings are in canonical form. -/
theorem canonical_load {fs : FileSystem} {folder : Text} {log : Log}
    (h : load fs folder = .ok (c, log)) : c.Canonical := by
  obtain ⟨found, -, h⟩ := exists_of_bind_ok h
  cases found with
  | none =>
    cases h
    exact canonical_builtIn
  | some found =>
    have hentry : (ofEntry found.1 found.2).1.Canonical := canonical_ofEntry found.1 found.2
    rwa [Except.ok.inj h] at hentry

/-- Whatever the library, the extensions of settings that are accepted are those that are allowed,
or the built-in ones, and those that are added, in canonical form. The case of letters and a missing
dot make no difference to what is asked, and files without an extension are left out. -/
theorem extensions_canonical [Lawful] (h : ofJson v = .ok c) :
    (∃ allowed extra, Lists v "allowed_extensions" builtInExtensions allowed ∧
        Lists v "extra_extensions" [] extra ∧
        ∀ e, e ∈ c.extensions ↔ ∃ s ∈ allowed ++ extra, s ≠ [] ∧ e = canonicalExtension s) ∧
      (∀ e ∈ c.extensions, IsCanonical e ∧ canonicalExtension e = e) ∧
      (∀ s t, List.Forall₂ SameLetter s t → c.allows s = c.allows t) ∧
      (∀ e, e ≠ [] → e.head? ≠ some dot → c.allows (dot :: e) = c.allows e) ∧
      c.allows [] = false ∧
      ∀ collector : Collector, collector.config.extensions = c.extensions →
        collector.fs.root.WellFormed →
        ∀ f ∈ collector.files, (Path.ofText f.relative).extension ≠ [] := by
  have hc : c.Canonical := canonical_ofJson h
  obtain ⟨allowed, extra, hallowed, hextra, hmem⟩ := mem_extensions_of_ofJson h
  refine ⟨⟨allowed, extra, lists_of_allowedOf hallowed, lists_of_textsOr? hextra, hmem⟩,
    fun e he => ⟨hc e he, (hc e he).canonicalExtension_eq⟩, fun s t => allows_congr,
    fun e => allows_dot_cons, hc.allows_nil, ?_⟩
  intro collector heq hfs f hf
  have hcanonical : collector.config.Canonical := by
    rw [Canonical, heq]
    exact hc
  exact hcanonical.extension_ne_nil hfs hf

end Library

/-! ## A library that does so -/

theorem memberOr?_of_get? {α : Type} {read? : Json → Option α} {v x : Json} {key : Text}
    (default : α) (h : v.get? key = some x) : v.memberOr? read? key default = read? x := by
  cases v with
  | object members => simp only [Json.memberOr?, h]
  | null | bool | number | string | array => cases h

theorem eq_default_of_memberOr? {α : Type} {read? : Json → Option α} {v : Json} {key : Text}
    {default a : α} (hno : v.get? key = none) (h : v.memberOr? read? key default = some a) :
    a = default := by
  cases v with
  | object members =>
    simp only [Json.memberOr?, hno] at h
    exact (Option.some.inj h).symm
  | null | bool | number | string | array => cases h

/-- The values that are read here meet the documentation. -/
instance : Lawful where
  contains_iff _ _ := Option.isSome_iff_exists
  texts?_eq _ := rfl
  textsOr?_of_at? _ _ _ default h := memberOr?_of_get? default h
  textsOr?_of_missing _ _ _ _ hno h :=
    eq_default_of_memberOr? (Option.isNone_iff_eq_none.1 (Option.isSome_eq_false_iff.1 hno)) h

/-- Settings that list one extension without a dot and add one in capitals. A file whose name has no
extension stays out. -/
theorem extensions_canonical_spellings :
    let fs : FileSystem := .ofItems (ofString "w") [⟨ofString "a.Ts", .file (ofString "let a")⟩,
      ⟨ofString "README", .file (ofString "text")⟩]
    ∃ c, ofJson (Json.object [("allowed_extensions", .array [.string "TS", .string []]),
        ("extra_extensions", .array [.string ".MD"])]) = .ok c ∧
      c.extensions = [".md", ".ts"] ∧ (∀ e ∈ c.extensions, IsCanonical e) ∧
      c.allows (ofString "Md") = c.allows (ofString "mD") ∧
      c.allows (ofString ".Md") = c.allows (ofString "Md") ∧ c.allows [] = false ∧
      fs.root.WellFormed ∧
      ∀ f ∈ Collector.files ⟨fs, Collector.rootOf (ofString "."), c, []⟩,
        (Path.ofText f.relative).extension ≠ [] := by
  intro fs
  have hfs : fs.root.WellFormed := FileSystem.wellFormed_ofItems (by decide +kernel) _
  obtain ⟨-, hmem, hcase, hdot, hnil, hfiles⟩ :=
    extensions_canonical (v := Json.object
      [("allowed_extensions", .array [.string "TS", .string []]),
        ("extra_extensions", .array [.string ".MD"])]) rfl
  exact ⟨_, rfl, by decide +kernel, fun e he => (hmem e he).1,
    hcase _ _ (.cons (.inr (.inl ⟨rfl, rfl⟩)) (.cons (.inr (.inr ⟨rfl, rfl⟩)) .nil)),
    hdot (ofString "Md") (by decide) (by decide), hnil, hfs, hfiles _ rfl hfs⟩

end Config

end SourceBundle
