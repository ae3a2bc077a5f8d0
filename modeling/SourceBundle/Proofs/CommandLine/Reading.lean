import SourceBundle.CommandLine.Run
/-!
# What a run reads

A run reads first and delivers then. What it has read does not depend on where the text is to go,
and decides what the run leaves.
-/
namespace SourceBundle.CommandLine

open Text

variable {fs : FileSystem} {o : Options} {input : Text}

/-! ## Readings -/

/-- What a run has come to when it is about to deliver. -/
inductive Reading where
  | failed
  /-- A folder without text files. -/
  | nothing
  | text (t : Text)
  deriving DecidableEq, Repr

namespace Reading

def ofExcept : Except Failure Text → Reading
  | .ok t => .text t
  | .error _ => .failed

def ofCollector (c : Collector) (mode : Option Mode) : Reading :=
  if c.files.isEmpty then .nothing
  else ofExcept (bundleOf c (mode.getD (c.config.mode.getD .skeleton)))

variable [JsonLibrary]

def ofFolder (fs : FileSystem) (mode : Option Mode) (folder : Text) : Reading :=
  if !fs.isFolder folder then .failed
  else
    match Config.load fs folder with
    | .error _ => .failed
    | .ok (config, _) =>
      ofCollector (collectorOf fs folder config (patternLines fs folder config)) mode

def ofSource (fs : FileSystem) (o : Options) (input : Text) : Reading :=
  if o.stdin then .text ((o.mode.getD .skeleton).transform input)
  else
    match o.folder with
    | some folder => ofFolder fs o.mode folder
    | none => ofExcept (bundleOfFiles fs (o.mode.getD .skeleton) o.files)

theorem ofFolder_of_not_isFolder {folder : Text} (h : fs.isFolder folder = false)
    (mode : Option Mode) : ofFolder fs mode folder = .failed := by
  simp only [ofFolder, h, Bool.not_false, if_true]

theorem ofFolder_of_load {folder : Text} {config : Config} {log : Log}
    (h : fs.isFolder folder = true) (hload : Config.load fs folder = .ok (config, log))
    (mode : Option Mode) : ofFolder fs mode folder =
      ofCollector (collectorOf fs folder config (patternLines fs folder config)) mode := by
  simp only [ofFolder, h, hload, Bool.not_true, Bool.false_eq_true, if_false]

/-- What is read does not depend on where the text is to go. -/
theorem ofSource_output (fs : FileSystem) (o : Options) (output : Option Text) (input : Text) :
    ofSource fs { o with output } input = ofSource fs o input := rfl

end Reading

/-! ## What a reading leaves -/

/-- What a run leaves, less its reports. -/
structure Effect where
  exitCode : Nat
  out : Text
  fs : FileSystem

def Outcome.effect (r : Outcome) : Effect := ⟨r.exitCode, r.out, r.fs⟩

section

variable [Storage]

/-- The exit code of a delivery. -/
def Delivery.exitCode (d : Delivery) : Nat :=
  match d.sink with
  | .ok _ => 0
  | .error _ => 1

def Reading.effect (fs : FileSystem) (output : Option Text) : Reading → Effect
  | .failed => ⟨1, [], fs⟩
  | .nothing => ⟨0, [], fs⟩
  | .text t => ⟨(deliver fs output t).exitCode, (deliver fs output t).out, (deliver fs output t).fs⟩

/-- Without an output path, what is printed does not depend on the tree any more. -/
theorem Reading.effect_none (reading : Reading) (fs fs' : FileSystem) :
    (reading.effect fs' none).exitCode = (reading.effect fs none).exitCode ∧
      (reading.effect fs' none).out = (reading.effect fs none).out := by
  cases reading <;> exact ⟨rfl, rfl⟩

theorem effect_conclude (fs : FileSystem) (output : Option Text) (log : Log)
    (report : Text → Log) (x : Except Failure Text) :
    (conclude fs output log report x).effect = (Reading.ofExcept x).effect fs output := by
  cases x with
  | error why => rfl
  | ok t =>
    show (conclude fs output log report (.ok t)).effect = (Reading.text t).effect fs output
    rw [conclude, Reading.effect, Delivery.exitCode]
    cases (deliver fs output t).sink <;> rfl

theorem effect_ofCollector (c : Collector) (o : Options) (log : Log) :
    (Outcome.ofCollector c o log).effect = (Reading.ofCollector c o.mode).effect c.fs o.output := by
  rw [Outcome.ofCollector, Reading.ofCollector]
  split
  · rfl
  · exact effect_conclude ..

variable [JsonLibrary]

theorem effect_ofFolder (fs : FileSystem) (o : Options) (folder : Text) :
    (Outcome.ofFolder fs o folder).effect =
      (Reading.ofFolder fs o.mode folder).effect fs o.output := by
  rw [Outcome.ofFolder, Reading.ofFolder]
  split
  · rfl
  · cases Config.load fs folder with
    | error why => rfl
    | ok loaded => exact effect_ofCollector ..

/-- A run does with its tree and its output what its reading says, whatever it reports. -/
theorem effect_ofSource (fs : FileSystem) (o : Options) (input : Text) :
    (Outcome.ofSource fs o input).effect =
      (Reading.ofSource fs o input).effect fs o.output := by
  have hlog (r : Outcome) (log : Log) : Outcome.effect { r with log } = r.effect := rfl
  rw [Outcome.ofSource, hlog, Reading.ofSource]
  split
  · exact effect_conclude fs o.output [] (fun _ => []) (.ok _)
  · cases o.folder with
    | some folder => exact effect_ofFolder ..
    | none => exact effect_conclude ..

end

/-! ## Folders without text files -/

theorem Reading.ofExcept_ne_nothing (x : Except Failure Text) : ofExcept x ≠ .nothing := by
  cases x <;> exact nofun

section

variable [JsonLibrary]

/-- The options name a folder in which there are no text files. -/
def NoText (fs : FileSystem) (o : Options) : Prop :=
  ∃ folder config log, o.folder = some folder ∧ Config.load fs folder = .ok (config, log) ∧
    (collectorOf fs folder config (patternLines fs folder config)).files = []

theorem noText_of_reading (h : Reading.ofSource fs o input = .nothing) : NoText fs o := by
  rw [Reading.ofSource] at h
  split at h
  · cases h
  · split at h
    · next folder hf =>
      rw [Reading.ofFolder] at h
      split at h
      · cases h
      · split at h
        · cases h
        · next config log hload =>
          rw [Reading.ofCollector] at h
          split at h
          · next hempty => exact ⟨folder, config, log, hf, hload, List.isEmpty_iff.1 hempty⟩
          · exact absurd h (Reading.ofExcept_ne_nothing _)
    · exact absurd h (Reading.ofExcept_ne_nothing _)

theorem reading_ne_text (h : NoText fs o) (hs : o.stdin = false) (t : Text) :
    Reading.ofSource fs o input ≠ .text t := by
  obtain ⟨folder, config, log, hf, hload, hempty⟩ := h
  simp only [Reading.ofSource, hs, hf, Reading.ofFolder, hload, Reading.ofCollector, hempty,
    List.isEmpty_nil, Bool.false_eq_true, if_false, if_true]
  split <;> exact nofun

end

end SourceBundle.CommandLine
