import SourceBundle.Ignore.Glob
import SourceBundle.Proofs.Regex.Language
import SourceBundle.Proofs.Regex.Parser
/-!
# What a glob reads

`Reads start g s` says that the glob `g` reads the text `s`, where `start` tells whether a name
starts at `g`. The main result is that a glob without brackets compiles, to an expression for
exactly the texts it reads.
-/
namespace SourceBundle.Ignore.Glob

open Text

/-- No newline and no carriage return. -/
def InLine (s : Text) : Prop := ∀ b ∈ s, isBreak b = false

instance (s : Text) : Decidable (InLine s) := inferInstanceAs (Decidable (∀ b ∈ s, _))

/-! ## The reading of a glob -/

inductive Reads : Bool → Text → Text → Prop
  | nil (start : Bool) : Reads start [] []
  /-- `**/` at the start of a name stands for no folder, -/
  | noFolders {g s : Text} (h : Reads true g s) : Reads true (asterisk :: asterisk :: slash :: g) s
  /-- or for folders within a line. -/
  | folders {g w s : Text} (hw : InLine w) (h : Reads true g s) :
    Reads true (asterisk :: asterisk :: slash :: g) (w ++ slash :: s)
  /-- Any other `**` stands for any text within a line, -/
  | anything {start : Bool} {g w s : Text} (hg : start = true → g.head? ≠ some slash)
    (hw : InLine w) (h : Reads false g s) : Reads start (asterisk :: asterisk :: g) (w ++ s)
  /-- any other `*` for any text within a name, -/
  | star {start : Bool} {g w s : Text} (hg : g.head? ≠ some asterisk) (hw : slash ∉ w)
    (h : Reads false g s) : Reads start (asterisk :: g) (w ++ s)
  /-- and `?` for one byte within a name. -/
  | question {start : Bool} {g s : Text} {b : UInt8} (hb : b ≠ slash) (h : Reads false g s) :
    Reads start (question :: g) (b :: s)
  /-- A backslash at the end stands for nothing, -/
  | loneBackslash (start : Bool) : Reads start [backslash] []
  /-- and elsewhere it makes the next byte stand for itself, -/
  | escape {start : Bool} {g s : Text} {b : UInt8} (h : Reads (b == slash) g s) :
    Reads start (backslash :: b :: g) (b :: s)
  /-- as every other byte does. -/
  | byte {start : Bool} {g s : Text} {b : UInt8} (ha : b ≠ asterisk) (hq : b ≠ Text.question)
    (hb : b ≠ backslash) (h : Reads (b == slash) g s) : Reads start (b :: g) (b :: s)

theorem reads_nil_iff {start : Bool} {s : Text} : Reads start [] s ↔ s = [] := by
  constructor
  · intro h
    cases h
    rfl
  · rintro rfl
    exact .nil start

theorem reads_folders_iff {g s : Text} :
    Reads true (asterisk :: asterisk :: slash :: g) s ↔
      Reads true g s ∨ ∃ w v, s = w ++ slash :: v ∧ InLine w ∧ Reads true g v := by
  constructor
  · intro h
    cases h with
    | noFolders h => exact .inl h
    | folders hw h => exact .inr ⟨_, _, rfl, hw, h⟩
    | anything hg => exact absurd rfl (hg rfl)
    | star hg => exact absurd rfl hg
    | byte ha => exact absurd rfl ha
  · rintro (h | ⟨w, v, rfl, hw, h⟩)
    · exact .noFolders h
    · exact .folders hw h

theorem reads_anything_iff {start : Bool} {g s : Text}
    (hg : start = true → g.head? ≠ some slash) :
    Reads start (asterisk :: asterisk :: g) s ↔
      ∃ w v, s = w ++ v ∧ InLine w ∧ Reads false g v := by
  constructor
  · intro h
    cases h with
    | noFolders | folders => exact absurd rfl (hg rfl)
    | anything _ hw h => exact ⟨_, _, rfl, hw, h⟩
    | star hg => exact absurd rfl hg
    | byte ha => exact absurd rfl ha
  · rintro ⟨w, v, rfl, hw, h⟩
    exact .anything hg hw h

theorem reads_star_iff {start : Bool} {g s : Text} (hg : g.head? ≠ some asterisk) :
    Reads start (asterisk :: g) s ↔ ∃ w v, s = w ++ v ∧ slash ∉ w ∧ Reads false g v := by
  constructor
  · intro h
    cases h with
    | noFolders | folders | anything => exact absurd rfl hg
    | star _ hw h => exact ⟨_, _, rfl, hw, h⟩
    | byte ha => exact absurd rfl ha
  · rintro ⟨w, v, rfl, hw, h⟩
    exact .star hg hw h

theorem reads_question_iff {start : Bool} {g s : Text} :
    Reads start (question :: g) s ↔ ∃ b v, s = b :: v ∧ b ≠ slash ∧ Reads false g v := by
  constructor
  · intro h
    cases h with
    | question hb h => exact ⟨_, _, rfl, hb, h⟩
    | byte _ hq => exact absurd rfl hq
  · rintro ⟨b, v, rfl, hb, h⟩
    exact .question hb h

theorem reads_loneBackslash_iff {start : Bool} {s : Text} : Reads start [backslash] s ↔ s = [] := by
  constructor
  · intro h
    cases h with
    | loneBackslash => rfl
    | byte _ _ hb => exact absurd rfl hb
  · rintro rfl
    exact .loneBackslash start

theorem reads_escape_iff {start : Bool} {g s : Text} {b : UInt8} :
    Reads start (backslash :: b :: g) s ↔ ∃ v, s = b :: v ∧ Reads (b == slash) g v := by
  constructor
  · intro h
    cases h with
    | escape h => exact ⟨_, rfl, h⟩
    | byte _ _ hb => exact absurd rfl hb
  · rintro ⟨v, rfl, h⟩
    exact .escape h

theorem reads_byte_iff {start : Bool} {g s : Text} {b : UInt8} (ha : b ≠ asterisk)
    (hq : b ≠ question) (hb : b ≠ backslash) :
    Reads start (b :: g) s ↔ ∃ v, s = b :: v ∧ Reads (b == slash) g v := by
  constructor
  · intro h
    cases h with
    | noFolders | folders | anything | star => exact absurd rfl ha
    | question => exact absurd rfl hq
    | loneBackslash | escape => exact absurd rfl hb
    | byte _ _ _ h => exact ⟨_, rfl, h⟩
  · rintro ⟨v, rfl, h⟩
    exact .byte ha hq hb h

/-! ## Its expression -/

/-- A glob's text never starts with a star, so it adds none to the part before it. -/
theorem head?_written (start : Bool) (g : Text) : (written start g).head? ≠ some asterisk := by
  fun_cases written start g with
  | case1 | case7 => exact nofun
  | case2 | case3 | case4 | case5 | case6 | case9 | case10 => exact nofun
  | case8 b s =>
    rw [escaped]
    split
    · next hb =>
      intro h
      obtain rfl := Option.some.inj h
      exact absurd hb (by decide)
    · exact nofun
  | case11 b s _ _ ha =>
    rw [plain]
    split
    · exact nofun
    · intro h
      exact ha (Option.some.inj h)

open Regex

/-- That a text reads as an expression for the texts that a glob reads. -/
def Means (t : Text) (start : Bool) (g : Text) : Prop :=
  ∃ r, parse? t = some r ∧ ∀ s, r.Accepts s ↔ Reads start g s

theorem Means.of_parse? {t t' g g' : Text} {start start' : Bool} {r : Regex}
    (h : Means t' start' g') (ht : parse? t = (parse? t').map (seq r))
    (hg : ∀ s, Reads start g s ↔ ∃ u v, s = u ++ v ∧ r.Accepts u ∧ Reads start' g' v) :
    Means t start g := by
  obtain ⟨r', hr', ha⟩ := h
  refine ⟨seq r r', by rw [ht, hr', Option.map_some], fun s => ?_⟩
  rw [accepts_seq, hg]
  simp only [ha]

theorem accepts_inLine {s : Text} : (many .inLine).Accepts s ↔ InLine s := by
  simp [Accepts, InLine]

theorem accepts_inName {s : Text} : (many .inName).Accepts s ↔ slash ∉ s := by
  constructor
  · intro h hs
    have := h slash hs
    simp at this
  · intro h b hb
    rw [ByteSet.contains_inName, bne_iff_ne]
    rintro rfl
    exact h hb

theorem accepts_leadingFolders {s : Text} :
    leadingFolders.Accepts s ↔ s = [] ∨ ∃ w, s = w ++ [slash] ∧ InLine w := by
  have hseq : (seq (many .inLine) (byte slash)).Accepts s ↔ ∃ w, s = w ++ [slash] ∧ InLine w := by
    constructor
    · rintro ⟨w, v, rfl, hw, hv⟩
      exact ⟨w, by rw [accepts_byte.1 hv], accepts_inLine.1 hw⟩
    · rintro ⟨w, rfl, hw⟩
      exact ⟨w, [slash], rfl, accepts_inLine.2 hw, accepts_byte.2 rfl⟩
  rw [leadingFolders, Regex.optional, Accepts, hseq, or_comm]
  rfl

theorem accepts_one_inName {s : Text} :
    (one .inName).Accepts s ↔ ∃ b, s = [b] ∧ b ≠ slash := by
  simp only [Accepts, ByteSet.contains_inName, bne_iff_ne]

/-! ## Bytes of a glob -/

theorem set?_escaped (b : UInt8) (s : Text) : set? (escaped b ++ s) = some (.single b, s) := by
  rw [escaped]
  split
  · next hb =>
    refine set?_byte s ?_ ?_ ?_
    all_goals
      rintro rfl
      exact absurd hb (by decide)
  · exact set?_backslash b s

theorem head?_escaped (b : UInt8) (s : Text) : (escaped b ++ s).head? ≠ some openParen := by
  rw [escaped]
  split
  · next hb =>
    intro h
    obtain rfl := Option.some.inj h
    exact absurd hb (by decide)
  · exact nofun

theorem set?_plain {b : UInt8} (s : Text) (ho : b ≠ openBracket) (hb : b ≠ backslash) :
    set? (plain b ++ s) = some (.single b, s) := by
  rw [plain]
  split
  · exact set?_backslash b s
  · next hs =>
    refine set?_byte s ?_ ho hb
    rintro rfl
    exact hs (by decide)

theorem head?_plain (b : UInt8) (s : Text) : (plain b ++ s).head? ≠ some openParen := by
  rw [plain]
  split
  · exact nofun
  · next hs =>
    intro h
    obtain rfl := Option.some.inj h
    exact hs (by decide)

theorem Means.of_byte {t t' g g' : Text} {start start' : Bool} {b : UInt8}
    (h : Means t' start' g') (ht' : t'.head? ≠ some asterisk) (ht : t.head? ≠ some openParen)
    (hs : set? t = some (.single b, t'))
    (hg : ∀ s, Reads start g s ↔ ∃ v, s = b :: v ∧ Reads start' g' v) : Means t start g := by
  refine h.of_parse? (parse?_one ht ht' hs) fun s => ?_
  rw [hg]
  constructor
  · rintro ⟨v, rfl, hv⟩
    exact ⟨[b], v, rfl, accepts_byte.2 rfl, hv⟩
  · rintro ⟨u, v, rfl, hu, hv⟩
    exact ⟨v, by rw [accepts_byte.1 hu]; rfl, hv⟩

/-! ## One step of a glob each -/

theorem Means.nil (start : Bool) : Means [] start [] :=
  ⟨.empty, parse?_nil, fun _ => reads_nil_iff.symm⟩

theorem Means.loneBackslash (start : Bool) : Means [] start [backslash] :=
  ⟨.empty, parse?_nil, fun _ => reads_loneBackslash_iff.symm⟩

theorem Means.folders {t g : Text} (h : Means t true g) :
    Means (leadingFoldersText ++ t) true (asterisk :: asterisk :: slash :: g) := by
  refine h.of_parse? (parse?_leadingFolders t) fun s => ?_
  rw [reads_folders_iff]
  constructor
  · rintro (h | ⟨w, v, rfl, hw, h⟩)
    · exact ⟨[], s, rfl, accepts_leadingFolders.2 (.inl rfl), h⟩
    · refine ⟨w ++ [slash], v, by simp, ?_, h⟩
      exact accepts_leadingFolders.2 (.inr ⟨w, rfl, hw⟩)
  · rintro ⟨u, v, rfl, hu, h⟩
    rcases accepts_leadingFolders.1 hu with rfl | ⟨w, rfl, hw⟩
    · exact .inl h
    · exact .inr ⟨w, v, by simp, hw, h⟩

theorem Means.anything {t g : Text} {start : Bool} (h : Means t false g)
    (hg : start = true → g.head? ≠ some slash) :
    Means (".*" ++ t) start (asterisk :: asterisk :: g) := by
  refine h.of_parse? (parse?_many nofun (set?_dot _)) fun s => ?_
  rw [reads_anything_iff hg]
  simp only [accepts_inLine]

theorem Means.star {t g : Text} {start : Bool} (h : Means t false g)
    (hg : g.head? ≠ some asterisk) : Means ("[^/]*" ++ t) start (asterisk :: g) := by
  refine h.of_parse? (parse?_many nofun (set?_inName _)) fun s => ?_
  rw [reads_star_iff hg]
  simp only [accepts_inName]

theorem Means.question {t g : Text} {start : Bool} (h : Means t false g)
    (ht : t.head? ≠ some asterisk) : Means ("[^/]" ++ t) start (Text.question :: g) := by
  refine h.of_parse? (parse?_one nofun ht (set?_inName t)) fun s => ?_
  rw [reads_question_iff]
  constructor
  · rintro ⟨b, v, rfl, hb, h⟩
    exact ⟨[b], v, rfl, accepts_one_inName.2 ⟨b, rfl, hb⟩, h⟩
  · rintro ⟨u, v, rfl, hu, h⟩
    obtain ⟨b, rfl, hb⟩ := accepts_one_inName.1 hu
    exact ⟨b, v, rfl, hb, h⟩

theorem Means.escape {t g : Text} {start : Bool} {b : UInt8} (h : Means t (b == slash) g)
    (ht : t.head? ≠ some asterisk) : Means (escaped b ++ t) start (backslash :: b :: g) :=
  h.of_byte ht (head?_escaped b t) (set?_escaped b t) fun _ => reads_escape_iff

theorem Means.byte {t g : Text} {start : Bool} {b : UInt8} (h : Means t (b == slash) g)
    (ht : t.head? ≠ some asterisk) (ha : b ≠ asterisk) (hq : b ≠ Text.question)
    (hb : b ≠ backslash) (ho : b ≠ openBracket) : Means (plain b ++ t) start (b :: g) :=
  h.of_byte ht (head?_plain b t) (set?_plain t ho hb) fun _ => reads_byte_iff ha hq hb

/-! ## The whole glob -/

/-- A glob without brackets is written out as an expression for exactly the texts it reads. -/
theorem means_written (start : Bool) {g : Text} (hg : openBracket ∉ g) :
    Means (written start g) start g := by
  fun_induction written start g with
  | case1 start => exact .nil start
  | case2 s ih =>
    have hs : openBracket ∉ s := fun h => hg (by simp [h])
    exact (ih hs).folders
  | case3 start s hstart ih =>
    -- Within a name, `**/` is any text within a line and then a slash.
    have hs : openBracket ∉ s := fun h => hg (by simp [h])
    have hslash : Means (plain slash ++ written true s) false (slash :: s) :=
      (ih hs).byte (head?_written true s) (by decide) (by decide) (by decide) (by decide)
    exact hslash.anything fun h => absurd h hstart
  | case4 start s hslash ih =>
    have hs : openBracket ∉ s := fun h => hg (by simp [h])
    refine (ih hs).anything fun _ h => ?_
    obtain ⟨t, rfl⟩ := List.head?_eq_some_iff.1 h
    exact hslash t rfl
  | case5 start s _ hstar ih =>
    have hs : openBracket ∉ s := fun h => hg (by simp [h])
    refine (ih hs).star fun h => ?_
    obtain ⟨t, rfl⟩ := List.head?_eq_some_iff.1 h
    exact hstar t rfl
  | case6 start s ih =>
    have hs : openBracket ∉ s := fun h => hg (by simp [h])
    exact (ih hs).question (head?_written false s)
  | case7 start => exact .loneBackslash start
  | case8 start b s ih =>
    have hs : openBracket ∉ s := fun h => hg (by simp [h])
    exact (ih hs).escape (head?_written _ s)
  | case9 | case10 => exact absurd List.mem_cons_self hg
  | case11 start b s _ _ ha hq hlone hcons ho ih =>
    have hs : openBracket ∉ s := fun h => hg (by simp [h])
    exact (ih hs).byte (head?_written _ s) ha hq (ne_backslash hlone hcons) ho

end SourceBundle.Ignore.Glob
