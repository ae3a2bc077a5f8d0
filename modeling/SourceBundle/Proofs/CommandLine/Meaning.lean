import Mathlib.Data.List.TakeWhile
import SourceBundle.Proofs.CommandLine.Items
/-!
# What arguments mean

What the options of an accepted list hold is said by its items, each read by itself: which flags are
among them, which value of an option comes last, which operands stand before the files are asked for
and which after. An item more changes what that item says and nothing else.
-/
namespace SourceBundle.Options

open Text

variable {d d' : Draft} {o : Options} {args : List Text} {i : Item} {items done : List Item}

/-! ## What items say -/

/-- The last value of an option that is spelled as the word says. -/
def lastValue (w : Word) (items : List Item) : Option Text :=
  (items.filterMap (Item.value? w)).getLast?

/-- The operands before the files are asked for. -/
def namedBefore (items : List Item) : List Text :=
  (items.takeWhile (!·.startsFiles)).filterMap Item.operand?

/-- The operands after that. -/
def namedAfter (items : List Item) : List Text :=
  (items.dropWhile (!·.startsFiles)).filterMap Item.operand?

theorem lastValue_concat (w : Word) (items : List Item) (i : Item) :
    lastValue w (items ++ [i]) = (i.value? w).or (lastValue w items) := by
  unfold lastValue
  rw [List.filterMap_append, List.getLast?_append]
  cases h : i.value? w <;> simp [h]

theorem operand?_of_startsFiles (h : i.startsFiles = true) : i.operand? = none := by
  cases i with
  | single arg =>
    have hw : wordOf arg = .files := by simpa [Item.startsFiles] using h
    simp [Item.operand?, hw]
  | pair option value => rfl
  | wanting option => rfl

theorem namedBefore_concat (items : List Item) (i : Item) :
    namedBefore (items ++ [i]) =
      namedBefore items ++ if items.any Item.startsFiles then [] else i.operand?.toList := by
  unfold namedBefore
  induction items with
  | nil =>
    cases h : i.startsFiles with
    | true => simp [h, operand?_of_startsFiles h]
    | false => cases hi : i.operand? <;> simp [h, hi]
  | cons first items ih =>
    cases h : first.startsFiles with
    | true => simp [h]
    | false => cases hf : first.operand? <;> simp [h, hf, ih]

theorem namedAfter_concat (items : List Item) (i : Item) :
    namedAfter (items ++ [i]) =
      namedAfter items ++ if items.any Item.startsFiles then i.operand?.toList else [] := by
  unfold namedAfter
  induction items with
  | nil =>
    cases h : i.startsFiles with
    | true => simp [h, operand?_of_startsFiles h]
    | false => simp [h]
  | cons first items ih =>
    cases h : first.startsFiles with
    | true =>
      rw [List.cons_append, List.dropWhile_cons_of_neg (by simp [h]),
        List.dropWhile_cons_of_neg (by simp [h]), ← List.cons_append, List.filterMap_append]
      cases hi : i.operand? <;> simp [h, hi]
    | false => simpa [h] using ih

/-- Whether a flag is set. -/
def has (o : Options) : Flag → Bool
  | .help => o.help
  | .version => o.version
  | .verbose => o.verbose
  | .quiet => o.quiet
  | .stdin => o.stdin

theorem has_set (o : Options) (f g : Flag) : (o.set f).has g = (o.has g || f == g) := by
  cases f <;> cases g <;> simp [has, set]

/-! ## What one item changes -/

namespace Takes

theorem isKnown (h : Takes d i d') : i.isKnown = true := by
  cases h with
  | flag h | files h | file h _ | folder h _ _ => simp [Item.isKnown, h]
  | mode | output => rfl

theorem has_eq (h : Takes d i d') (g : Flag) :
    d'.options.has g = (d.options.has g || i.isFlag g) := by
  cases h with
  | flag h =>
    rw [Draft.options_set, has_set, Bool.eq_iff_iff]
    simp [Item.isFlag, h]
  | files h | file h _ | folder h _ _ => cases g <;> simp [has, Item.isFlag, h]
  | mode | output => cases g <;> simp [has, Item.isFlag, Draft.setOutput]

theorem mode_eq (h : Takes d i d') :
    d'.options.mode.map some =
      ((i.value? .mode).map Mode.ofName?).or (d.options.mode.map some) := by
  cases h with
  | flag | files | file | folder => simp [Item.value?]
  | mode h hm => simp [Item.value?, h, hm]
  | output h => simp [Item.value?, h, Draft.setOutput]

theorem output_eq (h : Takes d i d') :
    d'.options.output = (i.value? .output).or d.options.output := by
  cases h with
  | flag | files | file | folder => simp [Item.value?, output_set]
  | mode h hm => simp [Item.value?, h]
  | output h => simp [Item.value?, h, Draft.setOutput]

theorem listing_eq (h : Takes d i d') : d'.listing = (d.listing || i.startsFiles) := by
  cases h with
  | flag h | file h _ | folder h _ _ => simp [Item.startsFiles, h]
  | files h => simp [Item.startsFiles, h]
  | mode | output => simp [Item.startsFiles, Draft.setOutput]

theorem folder_eq (h : Takes d i d') :
    d'.options.folder.toList =
      d.options.folder.toList ++ if d.listing then [] else i.operand?.toList := by
  cases h with
  | flag h | files h => simp [Item.operand?, h]
  | file _ hl => simp [hl]
  | folder h hl hf => simp [Item.operand?, h, hl, hf]
  | mode | output => simp [Item.operand?, Draft.setOutput]

theorem files_eq (h : Takes d i d') :
    d'.options.files = d.options.files ++ if d.listing then i.operand?.toList else [] := by
  cases h with
  | flag h | files h => simp [Item.operand?, h]
  | file h hl => simp [Item.operand?, h, hl]
  | folder _ hl _ => simp [hl]
  | mode | output => simp [Item.operand?, Draft.setOutput]

end Takes

/-- The options of a draft are what the items so far say. -/
structure Reflects (items : List Item) (d : Draft) : Prop where
  isKnown : ∀ i ∈ items, i.isKnown = true
  has : ∀ f, d.options.has f = items.any (Item.isFlag f)
  mode : d.options.mode.map some = (lastValue .mode items).map Mode.ofName?
  output : d.options.output = lastValue .output items
  listing : d.listing = items.any Item.startsFiles
  folder : d.options.folder.toList = namedBefore items
  files : d.options.files = namedAfter items

theorem reflects_nil : Reflects [] ⟨{}, false⟩ where
  isKnown := nofun
  has f := by cases f <;> rfl
  mode := rfl
  output := rfl
  listing := rfl
  folder := rfl
  files := rfl

/-- Taking one more item keeps it so. -/
theorem Reflects.concat (hr : Reflects items d) (ht : Takes d i d') :
    Reflects (items ++ [i]) d' where
  isKnown := by
    intro j hj
    rcases List.mem_append.1 hj with hj | hj
    · exact hr.isKnown j hj
    · rw [List.mem_singleton.1 hj]
      exact ht.isKnown
  has f := by simp [ht.has_eq, hr.has]
  mode := by rw [ht.mode_eq, hr.mode, lastValue_concat, Option.map_or]
  output := by rw [ht.output_eq, hr.output, lastValue_concat]
  listing := by simp [ht.listing_eq, hr.listing]
  folder := by rw [ht.folder_eq, hr.folder, hr.listing, namedBefore_concat]
  files := by rw [ht.files_eq, hr.files, hr.listing, namedAfter_concat]

/-- What a whole reading leaves is what all the items say. -/
theorem Reflects.append (hr : Reflects done d) (h : items.foldlM Draft.take d = .ok d') :
    Reflects (done ++ items) d' := by
  induction items generalizing done d with
  | nil =>
    cases h
    rwa [List.append_nil]
  | cons i items ih =>
    rw [List.foldlM_cons] at h
    obtain ⟨m, hm, h⟩ := exists_of_bind_ok h
    rw [List.append_cons]
    exact ih (hr.concat (takes_of_take hm)) h

/-! ## Whole lists -/

/-- What accepted arguments say: each is a flag, an option with its value, or an operand. The last
value of an option counts, a folder comes before the files, and there is one source. -/
structure Says (args : List Text) (o : Options) : Prop where
  tokens : (itemsOf args).flatMap Item.tokens = args
  isKnown : ∀ i ∈ itemsOf args, i.isKnown = true
  has : ∀ f, o.has f = (itemsOf args).any (Item.isFlag f)
  mode : o.mode.map some = (lastValue .mode (itemsOf args)).map Mode.ofName?
  output : o.output = lastValue .output (itemsOf args)
  folder : o.folder.toList = namedBefore (itemsOf args)
  files : o.files = namedAfter (itemsOf args)
  source : o.help = false → o.version = false →
    [o.folder.isSome, !o.files.isEmpty, o.stdin].count true = 1

/-- A draft that is finished has one source: the files are one when they are asked for. -/
theorem Reflects.count_sources (hr : Reflects items d) (h : d.finish = .ok o)
    (hhelp : o.help = false) (hversion : o.version = false) :
    [o.folder.isSome, !o.files.isEmpty, o.stdin].count true = 1 := by
  rw [Draft.finish] at h
  split_ifs at h with hasked hnone hmany hempty <;> cases h
  · simp [hhelp, hversion] at hasked
  · have hlisting : (!d.options.files.isEmpty) = d.listing := by
      cases hl : d.listing with
      | true => simpa [hl] using hempty
      | false =>
        have hnoFiles : ∀ i ∈ items, i.startsFiles = false := by
          simpa [hl] using hr.listing.symm
        have hdrop : items.dropWhile (!·.startsFiles) = [] := by
          rw [List.dropWhile_eq_nil_iff]
          intro i hi
          simp [hnoFiles i hi]
        simp [hr.files, namedAfter, hdrop]
    rw [hlisting]
    unfold Draft.sources at hnone hmany
    cases hf : d.options.folder.isSome <;> cases hl : d.listing <;> cases hs : d.options.stdin <;>
      simp_all

theorem says_of_ofArguments (h : ofArguments args = .ok o) : Says args o := by
  obtain ⟨d, hread, hfinish⟩ := ofArguments_eq_ok_iff.1 h
  rw [read_eq_foldlM] at hread
  have hr : Reflects (itemsOf args) d := reflects_nil.append hread
  have hoptions : d.options = o := by
    rw [Draft.finish] at hfinish
    split_ifs at hfinish <;> exact Except.ok.inj hfinish
  subst hoptions
  exact {
    tokens := flatMap_tokens_itemsOf args
    isKnown := hr.isKnown
    has := hr.has
    mode := hr.mode
    output := hr.output
    folder := hr.folder
    files := hr.files
    source := hr.count_sources hfinish }

/-- Accepted arguments say all that the options hold and nothing else, and a flag that only says how
much is reported may be put anywhere but between an option and its value: the options differ in that
flag alone, and an error stays the same. -/
theorem says_and_insert (args : List Text) :
    (∀ o, ofArguments args = .ok o → Says args o) ∧
      ∀ before after arg f, args = before ++ after → Complete before → f ∈ reportFlags →
        wordOf arg = .flag f →
        ofArguments (before ++ arg :: after) = (ofArguments args).map (·.set f) := by
  refine ⟨fun o h => says_of_ofArguments h, ?_⟩
  rintro before after arg f rfl hbefore hf hw
  unfold ofArguments
  rw [read_insert _ hbefore hw]
  cases (Draft.mk {} false).read (before ++ after) with
  | error e => rfl
  | ok d => exact finish_set d hf

/-- The value of an option may be spelled as an option, and a flag may stand behind it. -/
theorem says_and_insert_value :
    let args : List Text := ["-o", "-m", "--mode", "full", "-m", "min", "src"]
    Says args
        { mode := some .minified
          output := some (ofString "-m")
          folder := some (ofString "src") } ∧
      ofArguments ["-o", "-m", "-v", "--mode", "full", "-m", "min", "src"] =
        (ofArguments args).map (·.set .verbose) ∧
      ofArguments (args ++ [ofString "-q"]) = (ofArguments args).map (·.set .quiet) := by
  intro args
  obtain ⟨hmeaning, hinsert⟩ := says_and_insert args
  have hvalue : Complete ["-o", "-m"] := by
    have hitems : itemsOf ["-o", "-m"] = [.pair "-o" "-m"] := by decide
    simp [Complete, hitems]
  have hend : Complete args := complete_of_getLast? (by simp only [args]; decide)
  exact ⟨hmeaning _ (by decide),
    hinsert _ ["--mode", "full", "-m", "min", "src"] "-v" .verbose rfl hvalue (by decide)
      (by decide),
    hinsert args [] "-q" .quiet (List.append_nil args).symm hend (by decide) (by decide)⟩

end SourceBundle.Options
