import SourceBundle.Proofs.Line.Grammar
/-!
# How lines open

A line that documents, decides, opens a type, closes a block or declares a function is told by its
first two bytes, once an `export` has been passed over. No two of these openings are alike, so that
no line is of two kinds.
-/
namespace SourceBundle.Line

open Text Grammar

/-! ## Types -/

namespace Grammar

/-- `[export] [abstract] class|interface name` -/
def typeHeads : Language UInt8 :=
  optionally "export" * optionally "abstract" * ({ofString "class"} + {ofString "interface"}) *
    gaps * names

theorem language_typeHead : typeHead.language = typeHeads := by
  simp [typeHead, typeHeads, mul_assoc, add_mul]

end Grammar

/-- A line opens a type when it starts with the head of one, which has at most 256 bytes. What
follows the head does not count. -/
theorem declaresType_iff {t : Text} :
    declaresType t = true ↔ ∃ h ∈ typeHeads, h.length ≤ 256 ∧ h <+: t := by
  rw [declaresType, startsAs, Regex.matchesStart_iff, ← language_typeHead]
  simp only [List.prefix_take_iff]
  constructor
  · rintro ⟨h, ⟨hp, hl⟩, ha⟩
    exact ⟨h, ha, hl, hp⟩
  · rintro ⟨h, ha, hl, hp⟩
    exact ⟨h, ⟨hp, hl⟩, ha⟩

/-! ## The first two bytes -/

/-- The first two bytes of a line, or of what follows when the line starts with `export`. -/
def lead (t : Text) : Text :=
  (if startsWith "export" t then trimStart (t.drop 6) else t).take 2

theorem lead_optionally {m v : Text} {a b : UInt8} (hm : m ∈ optionally "export")
    (ha : isSpace a = false) (he : a ≠ 0x65) : lead (m ++ a :: b :: v) = [a, b] := by
  rcases hm with rfl | hm
  · have hs : ¬startsWith "export" (a :: b :: v) = true := by
      rw [startsWith_iff]
      exact fun h => he (List.cons_prefix_cons.1 h).1.symm
    rw [List.nil_append, lead, if_neg hs]
    rfl
  · obtain ⟨_, rfl, e, ⟨-, hb⟩, rfl⟩ := Language.mem_mul.1 hm
    have hs : startsWith "export" (ofString "export" ++ e ++ a :: b :: v) = true := by
      rw [startsWith_iff, List.append_assoc]
      exact List.prefix_append _ _
    have hstart : trimStart (a :: b :: v) = a :: b :: v := by
      refine trimStart_eq_self fun c hc => ?_
      rw [← Option.some.inj hc, ha]
    rw [lead, if_pos hs, List.append_assoc, List.drop_left' (by decide),
      trimStart_append _ (isBlank_iff.2 hb), hstart]
    rfl

/-- Some words of which one starts a text. -/
def StartsWithWord (words : List Text) (q : Text) : Prop := ∃ w ∈ words, w <+: q

theorem startsWithWord_optionally {word q : Text} {L : Language UInt8} {words : List Text}
    (hL : ∀ r ∈ L, StartsWithWord words r) (h : q ∈ optionally word * L) :
    StartsWithWord (word :: words) q := by
  obtain ⟨m, hm, r, hr, rfl⟩ := Language.mem_mul.1 h
  rcases hm with rfl | hm
  · obtain ⟨w, hw, hp⟩ := hL r hr
    exact ⟨w, List.mem_cons_of_mem word hw, hp⟩
  · obtain ⟨_, rfl, e, -, rfl⟩ := Language.mem_mul.1 hm
    refine ⟨_, List.mem_cons_self, ?_⟩
    rw [List.append_assoc]
    exact List.prefix_append _ _

theorem prefix_of_mem_mul {word q : Text} {L : Language UInt8}
    (h : q ∈ ({word} : Language UInt8) * L) : word <+: q := by
  obtain ⟨_, rfl, r, -, rfl⟩ := Language.mem_mul.1 h
  exact List.prefix_append _ _

theorem startsWithWord_single {word q : Text} {L : Language UInt8}
    (h : q ∈ ({word} : Language UInt8) * L) : StartsWithWord [word] q :=
  ⟨word, List.mem_singleton_self word, prefix_of_mem_mul h⟩

theorem startsWithWord_or {word q : Text} {K M : Language UInt8} {words : List Text}
    (hK : ∀ r ∈ K * M, StartsWithWord words r) (h : q ∈ ({word} + K) * M) :
    StartsWithWord (word :: words) q := by
  rw [add_mul] at h
  rcases h with h | h
  · exact ⟨word, List.mem_cons_self, prefix_of_mem_mul h⟩
  · obtain ⟨w, hw, hp⟩ := hK q h
    exact ⟨w, List.mem_cons_of_mem word hw, hp⟩

theorem exists_word_of_typeHeads {h : Text} (hh : h ∈ typeHeads) :
    ∃ m ∈ optionally "export", ∃ q, h = m ++ q ∧
      StartsWithWord [ofString "abstract", ofString "class", ofString "interface"] q := by
  simp only [typeHeads, mul_assoc] at hh
  obtain ⟨m, hm, q, hq, rfl⟩ := Language.mem_mul.1 hh
  refine ⟨m, hm, q, rfl, startsWithWord_optionally (fun r hr => ?_) hq⟩
  exact startsWithWord_or (fun _ => startsWithWord_single) hr

/-- The head of a function, with or without an arrow, and the word after an `export`. -/
theorem exists_word_of_declaresFunction {t : Text} (ht : declaresFunction t = true) :
    ∃ m ∈ optionally "export", ∃ q, m ++ q <+: t ∧
      StartsWithWord [ofString "async", ofString "function", ofString "const", ofString "let",
        ofString "var"] q := by
  have hsub {ws : List Text} {q : Text} (h : StartsWithWord ws q) {vs : List Text} (hs : ws ⊆ vs) :
      StartsWithWord vs q := by
    obtain ⟨w, hw, hp⟩ := h
    exact ⟨w, hs hw, hp⟩
  rcases declaresFunction_iff_grammar.1 ht with
    ⟨h, hh, -, x, e, -, b, -, rfl⟩ | ⟨h, hh, -, x, e, -, f, -, b, -, rfl⟩
  · simp only [functionHeads, mul_assoc] at hh
    obtain ⟨m, hm, q, hq, rfl⟩ := Language.mem_mul.1 hh
    have hw := startsWithWord_optionally (fun _ => startsWithWord_single) hq
    exact ⟨m, hm, q, by simp [withList], hsub hw (by decide)⟩
  · simp only [arrowHeads, mul_assoc, add_assoc] at hh
    obtain ⟨m, hm, q, hq, rfl⟩ := Language.mem_mul.1 hh
    have hw := startsWithWord_or (fun _ => startsWithWord_or fun _ => startsWithWord_single) hq
    exact ⟨m, hm, q, by simp [withList], hsub hw (by decide)⟩

/-! ## Kinds of opening -/

/-- What a line can be told to be by how it opens. -/
inductive Opening where
  | doc
  | conditional
  | type
  | close
  | function
  deriving DecidableEq, Repr

namespace Opening

/-- Whether the line opens so. -/
def reads : Opening → Text → Bool
  | doc, t => isDocStart t
  | conditional, t => isConditional t
  | type, t => declaresType t
  | close, t => t == [closeBrace]
  | function, t => declaresFunction t

/-- The words a line that opens so may start with, once an `export` has been passed over. -/
def words : Opening → List Text
  | doc => [ofString "/**"]
  | conditional => [ofString "if"]
  | type => [ofString "abstract", ofString "class", ofString "interface"]
  | close => [[closeBrace]]
  | function =>
    [ofString "async", ofString "function", ofString "const", ofString "let", ofString "var"]

/-- No two words of different openings start alike. -/
theorem eq_of_take_words {a b : Opening} :
    ∀ v ∈ a.words, ∀ w ∈ b.words, v.take 2 = w.take 2 → a = b := by
  cases a <;> cases b <;> decide

/-- A word of an opening is the lead of a line that starts with it, exported or not. -/
theorem exists_lead {o : Opening} {m q t : Text} (ho : o ≠ close) (hm : m ∈ optionally "export")
    (hq : StartsWithWord o.words q) (hp : m ++ q <+: t) : ∃ w ∈ o.words, lead t = w.take 2 := by
  have hwords : ∀ w ∈ o.words, 2 ≤ w.length ∧ ∀ b ∈ w.head?, isSpace b = false ∧ b ≠ 0x65 := by
    revert ho
    cases o <;> decide +kernel
  obtain ⟨w, hw, r, rfl⟩ := hq
  obtain ⟨s, rfl⟩ := hp
  obtain ⟨hlength, hfirst⟩ := hwords w hw
  match w, hlength, hfirst with
  | a :: b :: v, _, hfirst =>
    obtain ⟨ha, he⟩ := hfirst a rfl
    refine ⟨_, hw, ?_⟩
    rw [List.append_assoc, List.append_assoc]
    exact lead_optionally hm ha he

/-- How a line opens shows in its first two bytes. -/
theorem lead_of_reads {o : Opening} {t : Text} (h : o.reads t = true) :
    ∃ w ∈ o.words, lead t = w.take 2 := by
  have hplain {word : Text} (ho : o ≠ close) (hw : word ∈ o.words) (hp : word <+: t) :
      ∃ w ∈ o.words, lead t = w.take 2 :=
    exists_lead ho (.inl rfl) ⟨word, hw, List.prefix_rfl⟩ hp
  cases o with
  | doc => exact hplain (by decide) (by decide) (startsWith_iff.1 h)
  | conditional =>
    rw [reads, isConditional, Bool.and_eq_true] at h
    exact hplain (by decide) (by decide) (startsWith_iff.1 h.1)
  | type =>
    obtain ⟨hd, hh, -, hp⟩ := declaresType_iff.1 h
    obtain ⟨m, hm, q, rfl, hq⟩ := exists_word_of_typeHeads hh
    exact exists_lead (by decide) hm hq hp
  | close =>
    rw [reads, beq_iff_eq] at h
    exact ⟨_, List.mem_singleton_self _, by rw [h]; rfl⟩
  | function =>
    obtain ⟨m, hm, q, hp, hq⟩ := exists_word_of_declaresFunction h
    exact exists_lead (by decide) hm hq hp

/-- No line opens in two ways. -/
theorem eq_of_reads {a b : Opening} {t : Text} (ha : a.reads t = true) (hb : b.reads t = true) :
    a = b := by
  obtain ⟨v, hv, hlead⟩ := lead_of_reads ha
  obtain ⟨w, hw, hlead'⟩ := lead_of_reads hb
  exact eq_of_take_words v hv w hw (hlead.symm.trans hlead')

end Opening

end SourceBundle.Line
