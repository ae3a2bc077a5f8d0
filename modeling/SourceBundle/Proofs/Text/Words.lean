import SourceBundle.Proofs.Text.Pieces
import SourceBundle.Proofs.Text.Trim
/-!
# Words

The words of a text are its maximal runs of bytes that are not white space. Cutting a text at white
space cuts its words (`words_append_cons`), and all else follows: words are told from the bytes that
are not white space, and joining words with white space and reading them again gives them back.
-/
namespace SourceBundle.Text

/-- The maximal runs of bytes that are not white space. -/
def words (s : Text) : List Text := (s.splitOnP isSpace).filter (!·.isEmpty)

variable {b sep : UInt8} {w : Text} {ws ls : List Text}

theorem words_append_cons (hb : isSpace b = true) (s t : Text) :
    words (s ++ b :: t) = words s ++ words t := by
  rw [words, List.splitOnP_append_cons s t hb, List.filter_append]
  rfl

theorem words_of_run (hw : ∀ b ∈ w, isSpace b = false) :
    words w = if w = [] then [] else [w] := by
  rw [words, List.splitOnP_eq_singleton hw]
  cases w <;> simp

@[simp] theorem words_nil : words [] = [] := words_of_run (w := []) (by simp)

theorem words_of_solid (h : Solid w) : words w = [w] := by
  rw [words_of_run h.isSpace_eq_false, if_neg h.ne_nil]

theorem words_cons (hb : isSpace b = true) (s : Text) : words (b :: s) = words s := by
  simpa using words_append_cons hb [] s

theorem solid_of_mem_words {s : Text} (h : w ∈ words s) : Solid w := by
  have hrun {l : Text} (hl : ∀ b ∈ l, isSpace b = false) (h : w ∈ words l) : Solid w := by
    rw [words_of_run hl] at h
    split at h
    · simp at h
    · next hne =>
      rw [List.mem_singleton.1 h]
      exact ⟨hne, hl⟩
  induction s using piece_induction isSpace with
  | last l hl => exact hrun hl h
  | piece l b s hl hb ih =>
    rw [words_append_cons hb, List.mem_append] at h
    rcases h with h | h
    · exact hrun hl h
    · exact ih h

/-- The words of a text put together are its bytes that are not white space. -/
theorem flatten_words (s : Text) : (words s).flatten = s.filter (!isSpace ·) := by
  have hrun {l : Text} (hl : ∀ b ∈ l, isSpace b = false) :
      (words l).flatten = l.filter (!isSpace ·) := by
    rw [words_of_run hl, List.filter_eq_self.2 fun b hb => by simp [hl b hb]]
    split
    · next h => simp [h]
    · simp
  induction s using piece_induction isSpace with
  | last l hl => exact hrun hl
  | piece l b s hl hb ih =>
    rw [words_append_cons hb, List.flatten_append, hrun hl, ih, List.filter_append,
      List.filter_cons_of_neg (by simp [hb])]

theorem words_eq_nil_iff {s : Text} : words s = [] ↔ isBlank s = true := by
  have hflat := flatten_words s
  constructor
  · intro h
    rw [h, List.flatten_nil, eq_comm, List.filter_eq_nil_iff] at hflat
    simpa [isBlank] using hflat
  · intro h
    rw [List.filter_eq_nil_iff.2 (by simpa [isBlank] using h)] at hflat
    apply List.eq_nil_iff_forall_not_mem.2
    intro w hw
    exact (solid_of_mem_words hw).ne_nil (List.flatten_eq_nil_iff.1 hflat w hw)

theorem words_append_blank {e : Text} (s : Text) (he : isBlank e = true) :
    words (s ++ e) = words s := by
  induction e using List.reverseRecOn with
  | nil => simp
  | append_singleton e b ih =>
    rw [isBlank_append, Bool.and_eq_true] at he
    have hb : isSpace b = true := by simpa [isBlank] using he.2
    have := words_append_cons hb (s ++ e) []
    simpa [ih he.1] using this

theorem words_trim (s : Text) : words (trim s) = words s := by
  obtain ⟨a, e, hs, ha, he⟩ := exists_append_trim s
  have hstart {a t : Text} (ha : isBlank a = true) : words (a ++ t) = words t := by
    induction a with
    | nil => rfl
    | cons b a ih =>
      rw [isBlank, List.all_cons, Bool.and_eq_true] at ha
      rw [List.cons_append, words_cons ha.1, ih ha.2]
  conv_rhs => rw [hs, words_append_blank _ he, hstart ha]

/-! ## Joined pieces -/

theorem words_intercalate (hsep : isSpace sep = true) (ls : List Text) :
    words ([sep].intercalate ls) = ls.flatMap words := by
  induction ls with
  | nil => simp
  | cons l ls ih =>
    cases ls with
    | nil => simp
    | cons m ls =>
      rw [List.intercalate_cons_cons, List.append_assoc, List.singleton_append,
        words_append_cons hsep, ih]
      rfl

theorem words_joinWords (hsep : isSpace sep = true) (h : ∀ w ∈ ws, Solid w) :
    words ([sep].intercalate ws) = ws := by
  rw [words_intercalate hsep]
  induction ws with
  | nil => rfl
  | cons w ws ih =>
    obtain ⟨hw, hws⟩ := List.forall_mem_cons.1 h
    rw [List.flatMap_cons, words_of_solid hw, ih hws]
    rfl

/-- A text has the words of its lines. -/
theorem words_eq_flatMap (s : Text) : words s = (lines s).flatMap words := by
  have h : words (joinLines (lines s)) = _ := words_intercalate (by decide) (lines s)
  rwa [joinLines_lines] at h

theorem mem_intercalate (h : b ∈ [sep].intercalate ls) : b = sep ∨ ∃ l ∈ ls, b ∈ l := by
  induction ls with
  | nil => simp at h
  | cons l ls ih =>
    cases ls with
    | nil => exact .inr ⟨l, by simpa using h⟩
    | cons m ls =>
      rw [List.intercalate_cons_cons, List.append_assoc, List.singleton_append, List.mem_append,
        List.mem_cons] at h
      rcases h with h | rfl | h
      · exact .inr ⟨l, List.mem_cons_self, h⟩
      · exact .inl rfl
      · refine (ih h).imp_right ?_
        rintro ⟨k, hk, hb⟩
        exact ⟨k, List.mem_cons_of_mem l hk, hb⟩

theorem Solid.trimmed (h : Solid w) : Trimmed w :=
  ⟨fun b hb => h.isSpace_eq_false b (List.mem_of_mem_head? hb),
    fun b hb => h.isSpace_eq_false b (List.mem_of_getLast? hb)⟩

theorem intercalate_ne_nil (hls : ls ≠ []) (h : ∀ l ∈ ls, l ≠ []) : [sep].intercalate ls ≠ [] := by
  cases ls with
  | nil => exact absurd rfl hls
  | cons l ls =>
    cases ls with
    | nil => simpa using h l List.mem_cons_self
    | cons m ls => simp [List.intercalate_cons_cons]

/-- Pieces that are not empty and have no white space at their ends, joined. -/
theorem trimmed_intercalate (h : ∀ l ∈ ls, l ≠ [] ∧ Trimmed l) :
    Trimmed ([sep].intercalate ls) := by
  induction ls with
  | nil => exact ⟨by simp, by simp⟩
  | cons l ls ih =>
    obtain ⟨⟨hne, hl⟩, hls⟩ := List.forall_mem_cons.1 h
    cases ls with
    | nil => simpa using hl
    | cons m ls =>
      have hrest : [sep].intercalate (m :: ls) ≠ [] :=
        intercalate_ne_nil (List.cons_ne_nil m ls) fun l hl => (hls l hl).1
      rw [List.intercalate_cons_cons]
      constructor
      · rw [List.append_assoc, List.head?_append_of_ne_nil _ hne]
        exact hl.start
      · rw [List.getLast?_append_of_ne_nil _ hrest]
        exact (ih hls).stop

end SourceBundle.Text
