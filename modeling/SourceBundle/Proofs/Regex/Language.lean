import SourceBundle.Regex.Basic
/-!
# The language of an expression

Which texts an expression stands for, said without the matcher, and the matcher's answer in those
terms: it finds a rest exactly when some text of the expression leaves that rest.
-/
namespace SourceBundle.Regex

open Text

def Accepts : Regex → Text → Prop
  | empty, s => s = []
  | one p, s => ∃ b, s = [b] ∧ p.contains b = true
  | seq a b, s => ∃ u v, s = u ++ v ∧ a.Accepts u ∧ b.Accepts v
  | alt a b, s => a.Accepts s ∨ b.Accepts s
  | many p, s => ∀ b ∈ s, p.contains b = true

/-! ## The matcher -/

theorem manyThen_iff {p : UInt8 → Bool} {k : Text → Bool} {s : Text} :
    manyThen p k s = true ↔ ∃ u v, s = u ++ v ∧ (∀ b ∈ u, p b = true) ∧ k v = true := by
  induction s with
  | nil =>
    constructor
    · intro h
      exact ⟨[], [], rfl, by simp, h⟩
    · rintro ⟨u, v, h, -, hk⟩
      obtain ⟨rfl, rfl⟩ := List.append_eq_nil_iff.1 h.symm
      exact hk
  | cons b s ih =>
    rw [manyThen, Bool.or_eq_true, Bool.and_eq_true, ih]
    constructor
    · rintro (h | ⟨hb, u, v, rfl, hu, hk⟩)
      · exact ⟨[], b :: s, rfl, by simp, h⟩
      · exact ⟨b :: u, v, rfl, List.forall_mem_cons.2 ⟨hb, hu⟩, hk⟩
    · rintro ⟨u, v, h, hu, hk⟩
      cases u with
      | nil => exact .inl (by rw [h]; exact hk)
      | cons c u =>
        obtain ⟨rfl, rfl⟩ := List.cons_eq_cons.1 h
        exact .inr ⟨hu b List.mem_cons_self, u, v, rfl, fun c hc =>
          hu c (List.mem_cons_of_mem _ hc), hk⟩

/-- The matcher tries every way to take a text of the expression from the front. -/
theorem thenRest_iff {r : Regex} {k : Text → Bool} {s : Text} :
    r.thenRest k s = true ↔ ∃ u v, s = u ++ v ∧ r.Accepts u ∧ k v = true := by
  induction r generalizing k s with
  | empty =>
    constructor
    · intro h
      exact ⟨[], s, rfl, rfl, h⟩
    · rintro ⟨u, v, rfl, rfl, hk⟩
      exact hk
  | one p =>
    cases s with
    | nil =>
      constructor
      · intro h
        cases h
      · rintro ⟨u, v, h, ⟨b, rfl, -⟩, -⟩
        cases h
    | cons b s =>
      rw [thenRest, Bool.and_eq_true]
      constructor
      · rintro ⟨hb, hk⟩
        exact ⟨[b], s, rfl, ⟨b, rfl, hb⟩, hk⟩
      · rintro ⟨u, v, h, ⟨c, rfl, hc⟩, hk⟩
        obtain ⟨rfl, rfl⟩ := List.cons_eq_cons.1 h
        exact ⟨hc, hk⟩
  | seq a b iha ihb =>
    rw [thenRest, iha]
    constructor
    · rintro ⟨u, v, rfl, hu, h⟩
      obtain ⟨w, x, rfl, hw, hk⟩ := ihb.1 h
      exact ⟨u ++ w, x, (List.append_assoc u w x).symm, ⟨u, w, rfl, hu, hw⟩, hk⟩
    · rintro ⟨_, x, rfl, ⟨u, w, rfl, hu, hw⟩, hk⟩
      exact ⟨u, w ++ x, List.append_assoc u w x, hu, ihb.2 ⟨w, x, rfl, hw, hk⟩⟩
  | alt a b iha ihb =>
    rw [thenRest, Bool.or_eq_true, iha, ihb]
    constructor
    · rintro (⟨u, v, h, hu, hk⟩ | ⟨u, v, h, hu, hk⟩)
      · exact ⟨u, v, h, .inl hu, hk⟩
      · exact ⟨u, v, h, .inr hu, hk⟩
    · rintro ⟨u, v, h, hu | hu, hk⟩
      · exact .inl ⟨u, v, h, hu, hk⟩
      · exact .inr ⟨u, v, h, hu, hk⟩
  | many p => exact manyThen_iff

theorem isMatch_iff {r : Regex} {s : Text} : r.isMatch s = true ↔ r.Accepts s := by
  rw [isMatch, thenRest_iff]
  constructor
  · rintro ⟨u, v, rfl, hu, hv⟩
    rw [List.isEmpty_iff.1 hv, List.append_nil]
    exact hu
  · intro h
    exact ⟨s, [], (List.append_nil s).symm, h, rfl⟩

theorem matchesStart_iff {r : Regex} {s : Text} :
    r.matchesStart s = true ↔ ∃ u, u <+: s ∧ r.Accepts u := by
  rw [matchesStart, thenRest_iff]
  constructor
  · rintro ⟨u, v, rfl, hu, -⟩
    exact ⟨u, List.prefix_append u v, hu⟩
  · rintro ⟨u, ⟨v, rfl⟩, hu⟩
    exact ⟨u, v, rfl, hu, rfl⟩

theorem matchesStart_of_isPrefix {r : Regex} {s t : Text} (h : s <+: t) (hs : r.matchesStart s) :
    r.matchesStart t := by
  obtain ⟨u, hu, ha⟩ := matchesStart_iff.1 hs
  exact matchesStart_iff.2 ⟨u, hu.trans h, ha⟩

/-! ## Derived forms -/

theorem accepts_seq {a b : Regex} {s : Text} :
    (seq a b).Accepts s ↔ ∃ u v, s = u ++ v ∧ a.Accepts u ∧ b.Accepts v := .rfl

theorem accepts_byte {b : UInt8} {s : Text} : (byte b).Accepts s ↔ s = [b] := by
  constructor
  · rintro ⟨c, rfl, hc⟩
    rw [ByteSet.contains_single, beq_iff_eq] at hc
    rw [hc]
  · rintro rfl
    exact ⟨b, rfl, by rw [ByteSet.contains_single, beq_iff_eq]⟩

theorem accepts_concat_cons {r : Regex} {rs : List Regex} {s : Text} :
    (concat (r :: rs)).Accepts s ↔ ∃ u v, s = u ++ v ∧ r.Accepts u ∧ (concat rs).Accepts v := .rfl

theorem accepts_concat_append (as bs : List Regex) {s : Text} :
    (concat (as ++ bs)).Accepts s ↔
      ∃ u v, s = u ++ v ∧ (concat as).Accepts u ∧ (concat bs).Accepts v := by
  induction as generalizing s with
  | nil =>
    constructor
    · intro h
      exact ⟨[], s, rfl, rfl, h⟩
    · rintro ⟨u, v, rfl, rfl, hv⟩
      exact hv
  | cons a as ih =>
    constructor
    · rintro ⟨u, v, rfl, hu, hv⟩
      obtain ⟨w, x, rfl, hw, hx⟩ := ih.1 hv
      exact ⟨u ++ w, x, (List.append_assoc u w x).symm, ⟨u, w, rfl, hu, hw⟩, hx⟩
    · rintro ⟨_, x, rfl, ⟨u, w, rfl, hu, hw⟩, hx⟩
      exact ⟨u, w ++ x, List.append_assoc u w x, hu, ih.2 ⟨w, x, rfl, hw, hx⟩⟩

/-! ## The bytes of a language -/

/-- Whether a text of the expression may hold the byte. -/
def mentions : Regex → UInt8 → Bool
  | empty, _ => false
  | one p, b | many p, b => p.contains b
  | seq r s, b | alt r s, b => r.mentions b || s.mentions b

theorem mentions_of_mem {r : Regex} {s : Text} {b : UInt8} (h : r.Accepts s) (hb : b ∈ s) :
    r.mentions b = true := by
  induction r generalizing s with
  | empty =>
    rw [show s = [] from h] at hb
    cases hb
  | one p =>
    obtain ⟨c, rfl, hc⟩ := h
    rw [List.mem_singleton.1 hb]
    exact hc
  | seq r t ihr iht =>
    obtain ⟨u, v, rfl, hu, hv⟩ := h
    rw [mentions, Bool.or_eq_true]
    rcases List.mem_append.1 hb with hb | hb
    · exact .inl (ihr hu hb)
    · exact .inr (iht hv hb)
  | alt r t ihr iht =>
    rw [mentions, Bool.or_eq_true]
    rcases h with h | h
    · exact .inl (ihr h hb)
    · exact .inr (iht h hb)
  | many p => exact h b hb

theorem not_mem_of_mentions {r : Regex} {s : Text} {b : UInt8} (hr : r.mentions b = false)
    (h : r.Accepts s) : b ∉ s := by
  intro hb
  rw [mentions_of_mem h hb] at hr
  cases hr

end SourceBundle.Regex
