import SourceBundle.FileTree.Build
import SourceBundle.Json.Parser
import SourceBundle.Proofs.CommandLine.Options
import SourceBundle.Proofs.CommandLine.Reading
import SourceBundle.Proofs.FileTree.Write
/-!
# Where a run writes

A run that fails changes nothing, unless it is its write that fails, and one that succeeds changes
at most the file its output path leads to. The text is the same wherever it goes, since all reading
comes before the one write.
-/
namespace SourceBundle.CommandLine

open Text

variable {fs : FileSystem} {o : Options} {args names : List Text} {input path t : Text}

/-! ## The file that is written -/

/-- The trees differ at most in the file that a path leads to in the first. -/
def OnlyFileAt (path : Text) (fs fs' : FileSystem) : Prop :=
  ∃ p names, fs.resolve path = .ok p ∧ p.names? = some names ∧
    FileSystem.DifferAt names fs.root fs'.root ∧ fs'.working = fs.working ∧
    ∀ other, fs'.contentOf? other ≠ fs.contentOf? other → fs.resolve other = .ok p

theorem onlyFileAt_store (h : fs.target? path = some names) (content : Text) :
    OnlyFileAt path fs (fs.store names content) := by
  obtain ⟨p, hr, hp⟩ := FileSystem.target?_eq_some_iff.1 h
  have hdiffer := FileSystem.differAt_store h content
  have hworking := FileSystem.working_store fs names content
  refine ⟨p, names, hr, hp, hdiffer, hworking, fun other hne => ?_⟩
  obtain ⟨q, hq, hqn⟩ := FileSystem.names?_of_contentOf?_ne hworking hdiffer hne
  rwa [FileSystem.eq_of_stands (FileSystem.stands_of_resolve hr) (FileSystem.stands_of_resolve hq)
    hp hqn]

section

variable [Storage]

/-! ## What is left of a reading -/

/-- What a run may leave of a reading. -/
inductive Leaves (fs : FileSystem) : Option Text → Reading → Effect → Prop
  | failed (output : Option Text) (reading : Reading) : Leaves fs output reading ⟨1, [], fs⟩
  | nothing (output : Option Text) : Leaves fs output .nothing ⟨0, [], fs⟩
  | printed {t : Text} (h : (Storage.toOutput t).complete = true) :
    Leaves fs none (.text t) ⟨0, t, fs⟩
  | printedInPart {t : Text} (h : (Storage.toOutput t).complete = false) :
    Leaves fs none (.text t) ⟨1, (Storage.toOutput t).held, fs⟩
  | written {path t : Text} {names : List Text} (ht : fs.target? path = some names)
    (h : (Storage.toFile names t).complete = true) :
    Leaves fs (some path) (.text t) ⟨0, [], fs.store names (Storage.toFile names t).held⟩
  | writtenInPart {path t : Text} {names : List Text} (ht : fs.target? path = some names)
    (h : (Storage.toFile names t).complete = false) :
    Leaves fs (some path) (.text t) ⟨1, [], fs.store names (Storage.toFile names t).held⟩

theorem effect_text_none (h : (Storage.toOutput t).complete = true) :
    (Reading.text t).effect fs none = ⟨0, t, fs⟩ := by
  simp only [Reading.effect, deliver, Delivery.exitCode, h, if_true, Storage.held_toOutput t h]

theorem effect_text_none_of_incomplete (h : (Storage.toOutput t).complete = false) :
    (Reading.text t).effect fs none = ⟨1, (Storage.toOutput t).held, fs⟩ := by
  simp only [Reading.effect, deliver, Delivery.exitCode, h, Bool.false_eq_true, if_false]

/-- An output path that cannot be opened. -/
theorem effect_text_of_refused (h : (fs.target? path).filter Storage.opens = none) :
    (Reading.text t).effect fs (some path) = ⟨1, [], fs⟩ := by
  simp only [Reading.effect, deliver, Delivery.exitCode, h]

theorem effect_text_some (h : (fs.target? path).filter Storage.opens = some names) :
    (Reading.text t).effect fs (some path) =
      ⟨if (Storage.toFile names t).complete then 0 else 1, [],
        fs.store names (Storage.toFile names t).held⟩ := by
  simp only [Reading.effect, deliver, Delivery.exitCode, h]
  cases (Storage.toFile names t).complete <;> rfl

theorem leaves_effect (fs : FileSystem) (output : Option Text) (reading : Reading) :
    Leaves fs output reading (reading.effect fs output) := by
  cases reading with
  | failed => exact .failed ..
  | nothing => exact .nothing ..
  | text t =>
    cases output with
    | none =>
      cases h : (Storage.toOutput t).complete with
      | true => exact effect_text_none h ▸ .printed h
      | false => exact effect_text_none_of_incomplete h ▸ .printedInPart h
    | some path =>
      cases hopen : (fs.target? path).filter Storage.opens with
      | none => exact effect_text_of_refused hopen ▸ .failed ..
      | some names =>
        have ht := (Option.filter_eq_some_iff.1 hopen).1
        rw [effect_text_some hopen]
        cases h : (Storage.toFile names t).complete with
        | true => exact .written ht h
        | false => exact .writtenInPart ht h

/-! ## Writes that are cut short -/

/-- An outcome of a run that was told while it wrote its text that not all of it was taken: it
fails, and what was taken is in its sink. -/
inductive WriteFailed (fs : FileSystem) (args : List Text) (r : Outcome) : Prop
  | output {o : Options} {t : Text} (ho : Options.ofArguments args = .ok o)
    (hnone : o.output = none) (h : (Storage.toOutput t).complete = false) (hcode : r.exitCode = 1)
    (hout : r.out = (Storage.toOutput t).held) (hfs : r.fs = fs)
  | file {o : Options} {path t : Text} {names : List Text} (ho : Options.ofArguments args = .ok o)
    (hpath : o.output = some path) (ht : fs.target? path = some names)
    (h : (Storage.toFile names t).complete = false) (hcode : r.exitCode = 1) (hout : r.out = [])
    (hfs : r.fs = fs.store names (Storage.toFile names t).held) (honly : OnlyFileAt path fs r.fs)

theorem WriteFailed.not_completes {r : Outcome} (h : WriteFailed fs args r) :
    ¬ Storage.Completes := by
  intro hall
  cases h with
  | output _ _ h => simp [Storage.Completes.toOutput] at h
  | file _ _ _ h => simp [Storage.Completes.toFile] at h

/-! ## What a run changes -/

variable [JsonLibrary]

theorem leaves_ofSource (fs : FileSystem) (o : Options) (input : Text) :
    Leaves fs o.output (Reading.ofSource fs o input) (Outcome.ofSource fs o input).effect := by
  rw [effect_ofSource]
  exact leaves_effect ..

theorem run_eq_ofSource (h : Options.ofArguments args = .ok o) (hhelp : o.help = false)
    (hversion : o.version = false) : run fs args input = Outcome.ofSource fs o input := by
  rw [run, h]
  simp only [hhelp, hversion, Bool.false_eq_true, if_false]

/-- Options under which a run that succeeds writes no file. -/
def WritesNone (fs : FileSystem) (o : Options) : Prop :=
  o.output = none ∨ o.help = true ∨ o.version = true ∨ NoText fs o

/-- An outcome that leaves all as it was when it is a failure, and otherwise all but its sink. -/
structure ChangesOnlySink (fs : FileSystem) (args : List Text) (r : Outcome) : Prop where
  exitCode : r.exitCode = 0 ∨ r.exitCode = 1 ∨ r.exitCode = 2
  of_failed : r.exitCode ≠ 0 → r.out = [] ∧ r.fs = fs
  of_done : r.exitCode = 0 → ∃ o, Options.ofArguments args = .ok o ∧
    (WritesNone fs o → r.fs = fs) ∧
    (¬ WritesNone fs o → r.out = [] ∧ ∃ path, o.output = some path ∧ OnlyFileAt path fs r.fs)

theorem changesOnlySink_ofSource (h : Options.ofArguments args = .ok o) (hhelp : o.help = false)
    (hversion : o.version = false) (input : Text) :
    ChangesOnlySink fs args (Outcome.ofSource fs o input) ∨
      WriteFailed fs args (Outcome.ofSource fs o input) := by
  have hleaves := leaves_ofSource fs o input
  have hnothing : Reading.ofSource fs o input = .nothing → NoText fs o := noText_of_reading
  have htext : NoText fs o → ∀ t, Reading.ofSource fs o input ≠ .text t := by
    intro hno
    refine reading_ne_text hno ?_
    -- A folder is named, so the text is not read from standard input.
    obtain ⟨folder, _, _, hfolder, -⟩ := hno
    cases hs : o.stdin with
    | false => rfl
    | true =>
      rw [Options.folder_eq_none_of_stdin h hhelp hversion hs] at hfolder
      cases hfolder
  generalize Reading.ofSource fs o input = reading at hleaves hnothing htext
  generalize Outcome.ofSource fs o input = r at hleaves ⊢
  obtain ⟨code, out, err, log, fs'⟩ := r
  change Leaves fs o.output reading ⟨code, out, fs'⟩ at hleaves
  generalize houtput : o.output = output at hleaves
  cases hleaves with
  | failed => exact .inl ⟨.inr (.inl rfl), fun _ => ⟨rfl, rfl⟩, nofun⟩
  | nothing =>
    exact .inl ⟨.inl rfl, fun hne => absurd rfl hne, fun _ => ⟨o, h, fun _ => rfl,
      fun hw => absurd (.inr (.inr (.inr (hnothing rfl)))) hw⟩⟩
  | printed =>
    exact .inl ⟨.inl rfl, fun hne => absurd rfl hne, fun _ => ⟨o, h, fun _ => rfl,
      fun hw => absurd (.inl houtput) hw⟩⟩
  | printedInPart hpart => exact .inr (.output h houtput hpart rfl rfl rfl)
  | written htarget =>
    refine .inl ⟨.inl rfl, fun hne => absurd rfl hne, fun _ => ⟨o, h, fun hw => ?_, fun _ =>
      ⟨rfl, _, houtput, onlyFileAt_store htarget _⟩⟩⟩
    -- A text was written, so none of the cases in which no file is can be the one.
    rcases hw with hw | hw | hw | hw
    · rw [houtput] at hw
      cases hw
    · rw [hhelp] at hw
      cases hw
    · rw [hversion] at hw
      cases hw
    · exact absurd rfl (htext hw _)
  | writtenInPart htarget hpart =>
    exact .inr (.file h houtput htarget hpart rfl rfl rfl (onlyFileAt_store htarget _))

/-- A run that puts a text on standard output as its result. -/
def Delivers (fs : FileSystem) (args : List Text) (input t : Text) : Prop :=
  ∃ o, Options.ofArguments args = .ok o ∧ o.help = false ∧ o.version = false ∧ ¬ NoText fs o ∧
    (run fs args input).exitCode = 0 ∧ (run fs args input).out = t

theorem reading_eq_text (h : Options.ofArguments args = .ok o) (houtput : o.output = none)
    (hd : Delivers fs args input t) : Reading.ofSource fs o input = .text t := by
  obtain ⟨o', ho', hhelp, hversion, hno, hcode, hout⟩ := hd
  obtain rfl : o' = o := Except.ok.inj (ho'.symm.trans h)
  rw [run_eq_ofSource h hhelp hversion] at hcode hout
  have hleaves := leaves_ofSource fs o' input
  have hnothing : Reading.ofSource fs o' input = .nothing → NoText fs o' := noText_of_reading
  generalize Reading.ofSource fs o' input = reading at hleaves hnothing ⊢
  generalize Outcome.ofSource fs o' input = r at hleaves hcode hout
  obtain ⟨code, out, err, log, fs'⟩ := r
  change Leaves fs o'.output reading ⟨code, out, fs'⟩ at hleaves
  rw [houtput] at hleaves
  cases hleaves with
  | failed | printedInPart => cases hcode
  | nothing => exact absurd (hnothing rfl) hno
  | printed => rw [← hout]

/-- A path that opens for writing: these names lead to a file, or to a free name in a folder, and
the file may be written. -/
structure Opens (fs : FileSystem) (path : Text) (names : List Text) : Prop where
  target : fs.target? path = some names
  inFolder : FileSystem.IsInFolder fs.root names
  opens : Storage.opens names = true

/-- With an output path at their end, arguments put into that file what they put on standard output
without. What the file holds of it, and whether that is all, is up to the storage. -/
theorem contentOf?_output {f : Text} (hshort : ("-o" : Text) ∉ args)
    (hlong : ("--output" : Text) ∉ args) (h : Delivers fs args input t) (hf : Opens fs f names) :
    (run fs (args ++ [("-o" : Text), f]) input).out = [] ∧
      (run fs (args ++ [("-o" : Text), f]) input).exitCode =
        (if (Storage.toFile names t).complete then 0 else 1) ∧
      (run fs (args ++ [("-o" : Text), f]) input).fs.contentOf? f =
        some (Storage.toFile names t).held ∧
      (Storage.toFile names t = ⟨t, true⟩ →
        (run fs (args ++ [("-o" : Text), f]) input).exitCode = 0 ∧
          (run fs (args ++ [("-o" : Text), f]) input).fs.contentOf? f = some t) := by
  obtain ⟨o, ho, hhelp, hversion, -⟩ := id h
  have hnone : o.output = none := by
    refine Options.output_eq_none (fun arg harg hspelled => ?_) ho
    rcases List.mem_pair.1 hspelled with rfl | rfl
    · exact hshort harg
    · exact hlong harg
  have hopen : (fs.target? f).filter Storage.opens = some names :=
    Option.filter_eq_some_iff.2 ⟨hf.target, hf.opens⟩
  -- The output path is no part of what is read, so the longer arguments come to the same text.
  have heffect : (run fs (args ++ [("-o" : Text), f]) input).effect =
      ⟨if (Storage.toFile names t).complete then 0 else 1, [],
        fs.store names (Storage.toFile names t).held⟩ := by
    rw [run_eq_ofSource (Options.ofArguments_output ho f) hhelp hversion, effect_ofSource,
      Reading.ofSource_output, reading_eq_text ho hnone h, effect_text_some hopen]
  have hcode := congrArg Effect.exitCode heffect
  have hfs : (run fs (args ++ [("-o" : Text), f]) input).fs.contentOf? f =
      some (Storage.toFile names t).held := by
    rw [show (run fs (args ++ [("-o" : Text), f]) input).fs =
      fs.store names (Storage.toFile names t).held from congrArg Effect.fs heffect]
    exact FileSystem.contentOf?_store hf.target hf.inFolder _
  refine ⟨congrArg Effect.out heffect, hcode, hfs, fun hall => ?_⟩
  rw [hall] at hcode hfs
  exact ⟨hcode, hfs⟩

end

/-! ## Runs with and without room -/

/-- A working folder with a folder in it that holds one file. -/
def oneFile : FileSystem := ⟨.folder "d" (.file "a.cpp" "int x;\n" .empty) .empty, []⟩

/-- Arguments for the whole content of that folder. -/
def wholeFolder : List Text := ["d", "-m", "full"]

theorem completes_exceptAt_nil : @Storage.Completes (.exceptAt []) :=
  @Storage.Completes.mk (.exceptAt []) (fun _ _ => rfl) fun _ => rfl

/-- The same bundle is then the content of the file. -/
theorem contentOf?_output_over_source :
    (run oneFile (wholeFolder ++ [("-o" : Text), "d/a.cpp"]) []).exitCode = 0 ∧
      (run oneFile (wholeFolder ++ [("-o" : Text), "d/a.cpp"]) []).fs.contentOf? "d/a.cpp" =
        some (run oneFile wholeFolder []).out := by
  let o : Options := { mode := some .full, folder := some (ofString "d") }
  have hreading : Reading.ofSource oneFile o [] = .text (run oneFile wholeFolder []).out := by
    decide +kernel
  have hd : Delivers oneFile wholeFolder [] (run oneFile wholeFolder []).out :=
    ⟨o, rfl, rfl, rfl, fun hno => reading_ne_text hno rfl _ hreading, by decide +kernel, rfl⟩
  have hf : Opens oneFile "d/a.cpp" ["d", "a.cpp"] := ⟨rfl, ⟨["d"], "a.cpp", _, rfl, rfl⟩, rfl⟩
  exact (contentOf?_output (by decide) (by decide) hd hf).2.2.2 rfl

/-- A working folder with a link to the file that is always full. -/
def linkToFull : FileSystem :=
  .ofItems (ofString "w") [⟨ofString "o.txt", .link (ofString "/dev/full")⟩]

/-- The file that is always full opens for writing and takes nothing, so the run fails. -/
theorem not_forall_contentOf?_output : ¬∀ (fs : FileSystem) (args : List Text) (input t f : Text)
    (names : List Text), ("-o" : Text) ∉ args → ("--output" : Text) ∉ args →
      Delivers fs args input t → Opens fs f names →
        (run fs (args ++ [("-o" : Text), f]) input).exitCode = 0 ∧
          (run fs (args ++ [("-o" : Text), f]) input).out = [] ∧
          (run fs (args ++ [("-o" : Text), f]) input).fs.contentOf? f = some t := by
  intro h
  let o : Options := { stdin := true }
  have hd : Delivers linkToFull ["--stdin"] "x\n" (run linkToFull ["--stdin"] "x\n").out := by
    refine ⟨o, rfl, rfl, rfl, ?_, by decide +kernel, rfl⟩
    rintro ⟨folder, _, _, hfolder, -⟩
    cases hfolder
  have hf : Opens linkToFull "o.txt" FileSystem.fullNames :=
    ⟨by decide +kernel, ⟨["dev"], "full", .file "full" [] .empty, rfl, by decide +kernel⟩, rfl⟩
  -- Nothing of the text is taken, and the exit code says so.
  have hcode := (h linkToFull ["--stdin"] "x\n" _ "o.txt" _ (by decide) (by decide) hd hf).1
  exact absurd hcode (by decide +kernel)

end SourceBundle.CommandLine
