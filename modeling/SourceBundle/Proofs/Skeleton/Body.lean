import SourceBundle.Proofs.Skeleton.Scan
/-!
# Bodies

A scanner in a body only counts braces. Whatever the lines of the body hold, it writes nothing, and
it leaves the body at the line that closes the last brace, so a skeleton does not depend on what
stands in a body.
-/
namespace SourceBundle.Skeleton

open Text

/-- The braces some lines open less those they close. -/
def balance : List Text → Int
  | [] => 0
  | l :: ls => Line.braceBalance (trim l) + balance ls

/-- Before their last line, some lines do not close the braces they stand in. -/
def StaysOpen (depth : Int) (ls : List Text) : Prop :=
  ∀ n < ls.length, 0 < n → 0 < depth + balance (ls.take n)

instance (depth : Int) (ls : List Text) : Decidable (StaysOpen depth ls) :=
  inferInstanceAs (Decidable (∀ n < ls.length, 0 < n → 0 < depth + balance (ls.take n)))

/-- The lines of a body with one brace open: the last of them, and none before, closes it. -/
structure IsBody (ls : List Text) : Prop where
  staysOpen : StaysOpen 1 ls
  closes : 1 + balance ls ≤ 0

theorem StaysOpen.tail {depth : Int} {l : Text} {ls : List Text}
    (h : StaysOpen depth (l :: ls)) : StaysOpen (depth + Line.braceBalance (trim l)) ls := by
  intro n hn hpos
  have := h (n + 1) (Nat.succ_lt_succ hn) n.succ_pos
  rw [List.take_succ_cons, balance] at this
  omega

theorem StaysOpen.head {depth : Int} {l : Text} {ls : List Text}
    (h : StaysOpen depth (l :: ls)) (hls : ls ≠ []) :
    0 < depth + Line.braceBalance (trim l) := by
  have := h 1 (by simpa [List.length_pos_iff] using hls) Nat.one_pos
  rw [List.take_succ_cons, List.take_zero, balance] at this
  simpa [balance] using this

theorem step_skipping (c : Scope) (d : Int) (l : Text) :
    step ⟨c, .skipping d⟩ l = (⟨.bodySkip, none⟩,
      ⟨c, if d + Line.braceBalance (trim l) ≤ 0 then .classifying
        else .skipping (d + Line.braceBalance (trim l))⟩) :=
  step_of_taken (.bodySkip c d l)

/-- Every line of a body is skipped. -/
theorem scan_skipping {c : Scope} {d : Int} {ls : List Text} (h : StaysOpen d ls) :
    scan ⟨c, .skipping d⟩ ls = List.replicate ls.length ⟨.bodySkip, none⟩ := by
  induction ls generalizing d with
  | nil => rfl
  | cons l ls ih =>
    rw [scan_cons, step_skipping, List.length_cons, List.replicate_succ]
    by_cases hls : ls = []
    · rw [hls]
      rfl
    · have := h.head hls
      rw [if_neg (by omega), ih h.tail]

theorem emissions_skipping {c : Scope} {d : Int} {ls : List Text} (h : StaysOpen d ls) :
    emissions ⟨c, .skipping d⟩ ls = [] := by
  rw [emissions, scan_skipping h, List.filterMap_replicate_of_none rfl]

/-- After the line that closes it, a body leaves the scanner as it found it. -/
theorem run_skipping {c : Scope} {d : Int} {ls : List Text} (hls : ls ≠ []) (h : StaysOpen d ls)
    (hc : d + balance ls ≤ 0) : run ⟨c, .skipping d⟩ ls = ⟨c, .classifying⟩ := by
  induction ls generalizing d with
  | nil => exact absurd rfl hls
  | cons l ls ih =>
    rw [balance] at hc
    rw [run_cons, step_skipping]
    by_cases hn : ls = []
    · subst hn
      have : balance [] = 0 := rfl
      rw [if_pos (by omega), run_nil]
    · have := h.head hn
      rw [if_neg (by omega)]
      exact ih hn h.tail (by omega)

theorem IsBody.ne_nil {ls : List Text} (h : IsBody ls) : ls ≠ [] := by
  rintro rfl
  exact absurd h.closes (by decide)

/-- What is written for lines with a body among them is what is written for those before it and for
those after it. -/
theorem emissions_body {s : State} {as b : List Text} (cs : List Text)
    (hs : (run s as).activity = .skipping 1) (hb : IsBody b) :
    emissions s (as ++ (b ++ cs)) =
      emissions s as ++ emissions ⟨(run s as).scope, .classifying⟩ cs := by
  have hrun : run s as = ⟨(run s as).scope, .skipping 1⟩ := by rw [← hs]
  rw [emissions_append, emissions_append, hrun, emissions_skipping hb.staysOpen,
    run_skipping hb.ne_nil hb.staysOpen hb.closes, List.nil_append]

/-- Two texts that differ only in the body of one declaration have the same skeleton. -/
theorem skeletonize_eq_of_bodies {a c b₁ b₂ : List Text} {h : Text}
    (hlines : ∀ l ∈ a ++ h :: (b₁ ++ b₂ ++ c), newline ∉ l)
    (hopen : (run .initial (a ++ [h])).activity = .skipping 1) (h₁ : IsBody b₁) (h₂ : IsBody b₂) :
    skeletonize (joinLines (a ++ h :: (b₁ ++ c))) =
      skeletonize (joinLines (a ++ h :: (b₂ ++ c))) := by
  have key : ∀ b, b ⊆ b₁ ++ b₂ → IsBody b → skeletonize (joinLines (a ++ h :: (b ++ c))) =
      render (emissions .initial (a ++ [h]) ++
        emissions ⟨(run .initial (a ++ [h])).scope, .classifying⟩ c) := by
    intro b hsub hb
    have hl : ∀ l ∈ a ++ h :: (b ++ c), newline ∉ l := by
      intro l hl
      apply hlines
      simp only [List.mem_append, List.mem_cons] at hl ⊢
      rcases hl with hl | hl | hl | hl
      · exact .inl hl
      · exact .inr (.inl hl)
      · exact .inr (.inr (.inl (List.mem_append.1 (hsub hl))))
      · exact .inr (.inr (.inr hl))
    rw [skeletonize_joinLines (by simp) hl, List.append_cons, emissions_body c hopen hb]
  rw [key b₁ (List.subset_append_left b₁ b₂) h₁, key b₂ (List.subset_append_right b₁ b₂) h₂]

/-- Lines that look like declarations but close one brace more than they open. -/
def busyBody : List Text := [ofString "/** doc", ofString "class B \x7b", ofString "\x7d\x7d"]

def plainBody : List Text := [ofString "return 1;", ofString "  \x7d"]

/-- A method with a busy body and the same method with a plain one. -/
theorem skeletonize_eq_of_bodies_method :
    IsBody busyBody ∧ IsBody plainBody ∧
      skeletonize (joinLines ([ofString "class A \x7b"] ++ ofString "  f() \x7b" ::
          (busyBody ++ [[closeBrace]]))) =
        skeletonize (joinLines ([ofString "class A \x7b"] ++ ofString "  f() \x7b" ::
          (plainBody ++ [[closeBrace]]))) := by
  have h₁ : IsBody busyBody := ⟨by decide +kernel, by decide +kernel⟩
  have h₂ : IsBody plainBody := ⟨by decide +kernel, by decide +kernel⟩
  exact ⟨h₁, h₂, skeletonize_eq_of_bodies (by decide +kernel) (by decide +kernel) h₁ h₂⟩

end SourceBundle.Skeleton
