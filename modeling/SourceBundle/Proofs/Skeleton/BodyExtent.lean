import SourceBundle.Proofs.Skeleton.Body
import SourceBundle.Proofs.Skeleton.Documentation
/-!
# Where bodies end

A declaration that is written and leaves its body open sets the scanner skipping, and the scanner
skips through the first line after it that balances the braces. `exists_opener` is the converse: a
scanner that skips has met such a declaration, has not met that line yet, and has a brace open.
-/
namespace SourceBundle.Skeleton

open Text

/-! ## Lines that balance the braces -/

theorem balance_append (as bs : List Text) : balance (as ++ bs) = balance as + balance bs := by
  induction as with
  | nil => rw [List.nil_append, balance, Int.zero_add]
  | cons l as ih => rw [List.cons_append, balance, balance, ih, Int.add_assoc]

/-- Lines that leave a brace open can be followed by any one line. -/
theorem StaysOpen.concat {depth : Int} {ls : List Text} (h : StaysOpen depth ls)
    (hpos : 0 < depth + balance ls) (l : Text) : StaysOpen depth (ls ++ [l]) := by
  intro n hn hn0
  rw [List.length_append, List.length_singleton] at hn
  rw [List.take_append_of_le_length (by omega)]
  rcases Nat.lt_or_eq_of_le (Nat.le_of_lt_succ hn) with hlt | rfl
  · exact h n hlt hn0
  · rwa [List.take_length]

theorem StaysOpen.of_append {depth : Int} {as bs : List Text} (h : StaysOpen depth (as ++ bs)) :
    StaysOpen depth as := by
  intro n hn hn0
  have := h n (by rw [List.length_append]; omega) hn0
  rwa [List.take_append_of_le_length (by omega)] at this

/-- Lines that do not begin with a body never balance the brace they stand in. -/
theorem not_exists_isBody_iff {bs : List Text} :
    (¬∃ body cs, bs = body ++ cs ∧ IsBody body) ↔ StaysOpen 1 bs ∧ 0 < 1 + balance bs := by
  constructor
  · induction bs using List.reverseRecOn with
    | nil => exact fun _ => ⟨fun n hn => absurd hn (Nat.not_lt_zero n), Int.one_pos⟩
    | append_singleton bs l ih =>
      intro hnone
      obtain ⟨hopen, hpos⟩ := ih fun ⟨body, cs, hbs, hbody⟩ =>
        hnone ⟨body, cs ++ [l], by rw [hbs, List.append_assoc], hbody⟩
      have hopen' := hopen.concat hpos l
      refine ⟨hopen', Int.not_le.1 fun hclose => ?_⟩
      exact hnone ⟨bs ++ [l], [], (List.append_nil _).symm, hopen', hclose⟩
  · rintro ⟨hopen, hpos⟩ ⟨body, cs, rfl, hbody⟩
    have hclose := hbody.closes
    cases cs with
    | nil =>
      rw [List.append_nil] at hpos
      omega
    | cons c cs =>
      have := hopen body.length (by simp) (List.length_pos_iff.2 hbody.ne_nil)
      rw [List.take_left] at this
      omega

/-! ## One line -/

/-- A member or a function that is written and leaves its body open. -/
structure OpensBody (line : Text) (e : Entry) : Prop where
  declares : e.kind = .member ∨ e.kind = .function
  is_written : e.emitted.isSome = true
  leavesOpen : Line.leavesBodyOpen (trim line) = true

theorem Taken.of_opensBody {s s' : State} {line : Text} {e : Entry} (h : Taken s line e s')
    (ho : OpensBody line e) : s = ⟨s.scope, .classifying⟩ ∧ s' = ⟨s.scope, .skipping 1⟩ := by
  obtain ⟨hkind, hwritten, hopen⟩ := ho
  cases h with
  | member | function => exact ⟨rfl, if_pos hopen⟩
  | nonMember => cases hwritten
  | bodySkip | docBody | docOpen | conditional | typeOpen | blockClose | strayClose | passthrough
  | logic => simp at hkind

/-- A scanner that skips after a line either skipped before it, and a brace is still open, or has
just met a declaration that opens a body. -/
theorem Taken.of_skipping {s s' : State} {line : Text} {e : Entry} {d : Int}
    (h : Taken s line e s') (hs : s'.activity = .skipping d) :
    (∃ d₀, s.activity = .skipping d₀ ∧ d = d₀ + Line.braceBalance (trim line) ∧ 0 < d) ∨
      OpensBody line e ∧ d = 1 := by
  have hopens {c : Scope} (hbody : (State.enterBody ⟨c, .classifying⟩ (trim line)).activity =
      .skipping d) : Line.leavesBodyOpen (trim line) = true ∧ d = 1 := by
    rw [State.enterBody] at hbody
    split at hbody
    · next hopen => exact ⟨hopen, (Activity.skipping.inj hbody).symm⟩
    · cases hbody
  cases h with
  | bodySkip c d₀ =>
    dsimp only at hs
    split at hs
    · cases hs
    · next hpos =>
      obtain rfl := Activity.skipping.inj hs
      exact .inl ⟨d₀, rfl, rfl, Int.not_le.1 hpos⟩
  | docBody =>
    dsimp only at hs
    split at hs <;> cases hs
  | member =>
    obtain ⟨hopen, hd⟩ := hopens hs
    exact .inr ⟨⟨.inl rfl, rfl, hopen⟩, hd⟩
  | function =>
    obtain ⟨hopen, hd⟩ := hopens hs
    exact .inr ⟨⟨.inr rfl, rfl, hopen⟩, hd⟩
  | docOpen | conditional | typeOpen | blockClose | strayClose | nonMember | passthrough | logic =>
    cases hs

theorem Taken.of_bodySkip {s s' : State} {line : Text} {e : Entry} (h : Taken s line e s')
    (hk : e.kind = .bodySkip) : ∃ d, s.activity = .skipping d := by
  cases h with
  | bodySkip c d => exact ⟨d, rfl⟩
  | docBody | docOpen | conditional | typeOpen | blockClose | strayClose | member | nonMember
  | function | passthrough | logic => cases hk

/-! ## Runs that end in a body -/

/-- A scanner skips only after a declaration that opens a body, and while the lines since then have
not balanced its brace. What it counts is the braces that are open. -/
theorem exists_opener {ls : List Text} {d : Int} (h : (run .initial ls).activity = .skipping d) :
    ∃ as decl body, ls = as ++ decl :: body ∧
      OpensBody decl (step (run .initial as) decl).1 ∧ StaysOpen 1 body ∧
      d = 1 + balance body ∧ 0 < d := by
  -- From the end: the last line goes on in a body that was open before it, or opens one.
  induction ls using List.reverseRecOn generalizing d with
  | nil => cases h
  | append_singleton ls line ih =>
    rw [run_append, run_cons, run_nil] at h
    rcases (step_taken (run .initial ls) line).of_skipping h with ⟨d₀, hd₀, hd, hpos⟩ | ⟨ho, hd⟩
    · obtain ⟨as, decl, body, rfl, ho, hopen, rfl, hpos₀⟩ := ih hd₀
      refine ⟨as, decl, body ++ [line], by simp, ho, hopen.concat hpos₀ line, ?_, hpos⟩
      rw [hd, balance_append, balance, balance, Int.add_zero, Int.add_assoc]
    · refine ⟨ls, line, [], rfl, ho, fun n hn => absurd hn (Nat.not_lt_zero n), hd, ?_⟩
      rw [hd]
      exact Int.one_pos

/-! ## The lines of a body -/

/-- The place of a declaration that opens a body, by the entry it has in the trace. -/
structure OpensAt (x : Text) (as : List Text) (decl : Text) (bs : List Text) : Prop where
  lines_eq : lines x = as ++ decl :: bs
  opens : ∃ e ∈ (trace x)[as.length]?, OpensBody decl e

theorem OpensAt.opensBody {x decl : Text} {as bs : List Text} (h : OpensAt x as decl bs) :
    OpensBody decl (step (run .initial as) decl).1 := by
  obtain ⟨e, he, ho⟩ := h.opens
  rw [getElem?_trace h.lines_eq, Option.mem_some_iff] at he
  exact he ▸ ho

theorem OpensAt.run_eq {x decl : Text} {as bs : List Text} (h : OpensAt x as decl bs)
    (ls : List Text) :
    run .initial (as ++ decl :: ls) = run ⟨(run .initial as).scope, .skipping 1⟩ ls := by
  rw [run_append, run_cons, ((step_taken _ _).of_opensBody h.opensBody).2]

theorem OpensAt.trace_eq {x decl : Text} {as bs : List Text} (h : OpensAt x as decl bs) :
    trace x = (trace x).take (as.length + 1) ++
      scan ⟨(run .initial as).scope, .skipping 1⟩ bs := by
  have hcut : trace x = scan .initial (as ++ [decl]) ++
      scan ⟨(run .initial as).scope, .skipping 1⟩ bs := by
    rw [trace, h.lines_eq, List.append_cons, scan_append, h.run_eq, run_nil]
  rw [hcut, List.take_left' (by rw [length_scan, List.length_append, List.length_singleton])]

/-- While its braces are open, a body is read in the scope it stands in. -/
theorem scope_skipping (c : Scope) {d : Int} {ls : List Text} (h : StaysOpen d ls) :
    (run ⟨c, .skipping d⟩ ls).scope = c := by
  induction ls generalizing d with
  | nil => rfl
  | cons l ls ih =>
    rw [run_cons, step_skipping]
    by_cases hls : ls = []
    · rw [hls, run_nil]
    · have := h.head hls
      rw [if_neg (by omega)]
      exact ih h.tail

/-- The body of a declaration is skipped through the line that balances its braces, the line after
that is read as source, and all in the scope of the declaration. A body that no line balances is
skipped to the end. Nothing else is skipped, and a scanner that skips has a brace open. -/
theorem trace_skips_bodies (x : Text) :
    (∀ as decl bs, OpensAt x as decl bs →
      (∀ body cs, bs = body ++ cs → IsBody body →
        trace x = (trace x).take (as.length + 1) ++ (List.replicate body.length ⟨.bodySkip, none⟩ ++
          scan ⟨(run .initial as).scope, .classifying⟩ cs) ∧
        (∀ n ≤ body.length,
          (run .initial (as ++ decl :: body.take n)).scope = (run .initial as).scope) ∧
        run .initial (as ++ decl :: body) = ⟨(run .initial as).scope, .classifying⟩) ∧
      ((¬∃ body cs, bs = body ++ cs ∧ IsBody body) →
        trace x = (trace x).take (as.length + 1) ++
          List.replicate bs.length ⟨.bodySkip, none⟩)) ∧
    (∀ before line after, lines x = before ++ line :: after →
      (trace x)[before.length]?.map (·.kind) = some .bodySkip →
        ∃ as decl body, before = as ++ decl :: body ∧ OpensAt x as decl (body ++ line :: after) ∧
          StaysOpen 1 (body ++ [line])) ∧
    ∀ n d, (run .initial ((lines x).take n)).activity = .skipping d → 0 < d := by
  refine ⟨fun as decl bs h => ⟨?_, ?_⟩, ?_, ?_⟩
  · rintro body cs rfl hbody
    refine ⟨?_, fun n hn => ?_, ?_⟩
    · have htrace := h.trace_eq
      rwa [scan_append, scan_skipping hbody.staysOpen,
        run_skipping hbody.ne_nil hbody.staysOpen hbody.closes] at htrace
    · rw [h.run_eq]
      have hopen := hbody.staysOpen
      rw [← List.take_append_drop n body] at hopen
      exact scope_skipping _ hopen.of_append
    · rw [h.run_eq, run_skipping hbody.ne_nil hbody.staysOpen hbody.closes]
  · intro hnone
    obtain ⟨hopen, -⟩ := not_exists_isBody_iff.1 hnone
    have htrace := h.trace_eq
    rwa [scan_skipping hopen] at htrace
  · intro before line after hx hk
    rw [getElem?_trace hx, Option.map_some, Option.some.injEq] at hk
    obtain ⟨d, hd⟩ := (step_taken _ _).of_bodySkip hk
    obtain ⟨as, decl, body, rfl, ho, hopen, rfl, hpos⟩ := exists_opener hd
    have hcut : lines x = as ++ decl :: (body ++ line :: after) := by simp [hx]
    refine ⟨as, decl, body, rfl, ⟨hcut, _, ?_, ho⟩, hopen.concat hpos line⟩
    rw [getElem?_trace hcut, Option.mem_some_iff]
  · intro n d h
    obtain ⟨-, -, -, -, -, -, -, hpos⟩ := exists_opener h
    exact hpos

/-- A function whose body closes one brace too many, and a method whose body is never closed. -/
def unbalanced : Text :=
  ofString ("function f() \x7b\n  if (a) \x7b\n  \x7d \x7d \x7d\nclass A \x7b\n  g() \x7b\n" ++
    "    if (b) \x7b\n  \x7d\nrun();")

theorem trace_skips_bodies_unbalanced :
    trace unbalanced = (trace unbalanced).take 1 ++
        (List.replicate 2 ⟨.bodySkip, none⟩ ++ scan .initial ((lines unbalanced).drop 3)) ∧
      trace unbalanced = (trace unbalanced).take 5 ++ List.replicate 3 ⟨.bodySkip, none⟩ ∧
      ∃ as decl body, (lines unbalanced).take 2 = as ++ decl :: body ∧
        OpensAt unbalanced as decl (body ++ (lines unbalanced).drop 2) := by
  have hf : OpensAt unbalanced [] (ofString "function f() \x7b") ((lines unbalanced).drop 1) :=
    ⟨by decide +kernel, _, rfl, by decide +kernel, by decide +kernel, by decide +kernel⟩
  have hg : OpensAt unbalanced ((lines unbalanced).take 4) (ofString "  g() \x7b")
      ((lines unbalanced).drop 5) :=
    ⟨by decide +kernel, _, rfl, by decide +kernel, by decide +kernel, by decide +kernel⟩
  have hbody : IsBody [ofString "  if (a) \x7b", ofString "  \x7d \x7d \x7d"] :=
    ⟨by decide +kernel, by decide +kernel⟩
  have h := trace_skips_bodies unbalanced
  refine ⟨((h.1 _ _ _ hf).1 _ ((lines unbalanced).drop 3) (by decide +kernel) hbody).1, ?_, ?_⟩
  · exact (h.1 _ _ _ hg).2 (not_exists_isBody_iff.2 ⟨by decide +kernel, by decide +kernel⟩)
  · obtain ⟨as, decl, body, hcut, hopens, -⟩ := h.2.1 ((lines unbalanced).take 2)
      (ofString "  \x7d \x7d \x7d") ((lines unbalanced).drop 3) (by decide +kernel)
      (by decide +kernel)
    exact ⟨as, decl, body, hcut, hopens⟩

end SourceBundle.Skeleton
