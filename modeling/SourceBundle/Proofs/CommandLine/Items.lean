import SourceBundle.Proofs.CommandLine.Options
/-!
# Argument lists, item by item

An argument list is a row of items: arguments that stand by themselves, and options with the value
that follows them. Reading the list takes one item after another, and it makes no difference between
which two of them a flag stands.
-/
namespace SourceBundle.Options

/-! ## Items -/

/-- An argument with the value that it takes. -/
inductive Item where
  | single (arg : Text)
  | pair (option value : Text)
  /-- An option at the end of a list, where there is no value for it. -/
  | wanting (option : Text)
  deriving DecidableEq, Repr

namespace Item

/-- The arguments an item is made of. -/
def tokens : Item → List Text
  | single arg => [arg]
  | pair option value => [option, value]
  | wanting option => [option]

def isFlag (f : Flag) : Item → Bool
  | single arg => wordOf arg == .flag f
  | _ => false

/-- Whether the operands that follow are files. -/
def startsFiles : Item → Bool
  | single arg => wordOf arg == .files
  | _ => false

def operand? : Item → Option Text
  | single arg => if wordOf arg = .operand then some arg else none
  | _ => none

/-- The value of an option that is spelled as the word says. -/
def value? (w : Word) : Item → Option Text
  | pair option value => if wordOf option = w then some value else none
  | _ => none

/-- Whether an item is one that the command line knows, with its value if it takes one. -/
def isKnown : Item → Bool
  | single arg => wordOf arg != .unknown
  | pair .. => true
  | wanting _ => false

end Item

/-- Whether an argument takes the next one as its value. -/
def takesValue (arg : Text) : Bool := wordOf arg == .mode || wordOf arg == .output

/-- The items of an argument list, from left to right. -/
def itemsOf : List Text → List Item
  | [] => []
  | arg :: rest =>
    if takesValue arg then
      match rest with
      | [] => [.wanting arg]
      | value :: rest => .pair arg value :: itemsOf rest
    else .single arg :: itemsOf rest

variable {d d' : Draft} {o : Options} {arg : Text} {args before after : List Text} {i : Item}
  {f : Flag}

theorem itemsOf_single (h : takesValue arg = false) (rest : List Text) :
    itemsOf (arg :: rest) = .single arg :: itemsOf rest := by
  rw [itemsOf.eq_def]
  simp [h]

theorem itemsOf_pair (h : takesValue arg = true) (value : Text) (rest : List Text) :
    itemsOf (arg :: value :: rest) = .pair arg value :: itemsOf rest := by
  simp [itemsOf, h]

theorem itemsOf_wanting (h : takesValue arg = true) : itemsOf [arg] = [.wanting arg] := by
  simp [itemsOf, h]

/-- No argument is lost. -/
theorem flatMap_tokens_itemsOf (args : List Text) : (itemsOf args).flatMap Item.tokens = args := by
  fun_induction itemsOf args with
  | case1 => rfl
  | case2 arg h => rfl
  | case3 arg h value rest ih => simp [Item.tokens, ih]
  | case4 arg rest h ih => simp [Item.tokens, ih]

/-- No option is left without its value. -/
def Complete (args : List Text) : Prop := ∀ option, Item.wanting option ∉ itemsOf args

theorem itemsOf_append (h : Complete before) (after : List Text) :
    itemsOf (before ++ after) = itemsOf before ++ itemsOf after := by
  unfold Complete at h
  fun_induction itemsOf before with
  | case1 => rfl
  | case2 arg hv => exact absurd List.mem_cons_self (h arg)
  | case3 arg hv value rest ih =>
    rw [List.cons_append, List.cons_append, itemsOf_pair hv, List.cons_append,
      ih fun option hmem => h option (List.mem_cons_of_mem _ hmem)]
  | case4 arg rest hv ih =>
    rw [List.cons_append, itemsOf_single (by simpa using hv), List.cons_append,
      ih fun option hmem => h option (List.mem_cons_of_mem _ hmem)]

/-- An option without a value is the last argument. -/
theorem complete_of_getLast? (h : ∀ last ∈ args.getLast?, takesValue last = false) :
    Complete args := by
  unfold Complete
  fun_induction itemsOf args with
  | case1 => simp
  | case2 arg hv => simp [hv] at h
  | case3 arg hv value rest ih =>
    intro option hmem
    rcases List.mem_cons.1 hmem with hmem | hmem
    · cases hmem
    · refine ih (fun last hlast => h last ?_) option hmem
      simp [List.getLast?_cons, Option.mem_def.1 hlast]
  | case4 arg rest hv ih =>
    intro option hmem
    rcases List.mem_cons.1 hmem with hmem | hmem
    · cases hmem
    · refine ih (fun last hlast => h last ?_) option hmem
      simp [List.getLast?_cons, Option.mem_def.1 hlast]

/-! ## Taking an item -/

def Draft.set (d : Draft) (f : Flag) : Draft := { d with options := d.options.set f }

@[simp] theorem Draft.options_set (d : Draft) (f : Flag) : (d.set f).options = d.options.set f :=
  rfl

@[simp] theorem Draft.listing_set (d : Draft) (f : Flag) : (d.set f).listing = d.listing := rfl

@[simp] theorem mode_set (o : Options) (f : Flag) : (o.set f).mode = o.mode := by
  cases f <;> rfl

@[simp] theorem folder_set (o : Options) (f : Flag) : (o.set f).folder = o.folder := by
  cases f <;> rfl

@[simp] theorem files_set (o : Options) (f : Flag) : (o.set f).files = o.files := by
  cases f <;> rfl

/-- What one item does to a draft. -/
def Draft.take (d : Draft) : Item → Except UsageError Draft
  | .single arg =>
    match wordOf arg with
    | .flag f => .ok (d.set f)
    | .files => .ok { d with listing := true }
    | .operand => d.addOperand arg
    | _ => .error (.unknownOption arg)
  | .pair option value =>
    match wordOf option with
    | .mode => d.setMode value
    | .output => .ok (d.setOutput value)
    | _ => .error (.unknownOption option)
  | .wanting option => .error (.missingValue option)

/-- Reading a list takes its items one after another. -/
theorem read_eq_foldlM (d : Draft) (args : List Text) :
    d.read args = (itemsOf args).foldlM Draft.take d := by
  fun_induction Draft.read d args with
  | case1 => rfl
  | case2 d arg f rest hw ih =>
    rw [itemsOf_single (by simp [takesValue, hw]), List.foldlM_cons, ih]
    simp [Draft.take, Draft.set, hw, bind, Except.bind]
  | case3 d arg rest hw ih =>
    rw [itemsOf_single (by simp [takesValue, hw]), List.foldlM_cons, ih]
    simp [Draft.take, hw, bind, Except.bind]
  | case4 d arg rest hw =>
    rw [itemsOf_single (by simp [takesValue, hw]), List.foldlM_cons]
    simp [Draft.take, hw, bind, Except.bind]
  | case5 d arg rest hw ih =>
    rw [itemsOf_single (by simp [takesValue, hw]), List.foldlM_cons]
    simp only [Draft.take, hw, ih]
    rfl
  | case6 d arg name rest hw ih =>
    rw [itemsOf_pair (by simp [takesValue, hw]), List.foldlM_cons]
    simp only [Draft.take, hw, ih]
    rfl
  | case7 d arg path rest hw ih =>
    rw [itemsOf_pair (by simp [takesValue, hw]), List.foldlM_cons, ih]
    simp [Draft.take, hw, bind, Except.bind]
  | case8 d arg hw | case9 d arg hw =>
    rw [itemsOf_wanting (by simp [takesValue, hw])]
    rfl

/-- What taking an item does, case by case. -/
inductive Takes (d : Draft) : Item → Draft → Prop
  | flag {arg : Text} {f : Flag} (h : wordOf arg = .flag f) :
    Takes d (.single arg) (d.set f)
  | files {arg : Text} (h : wordOf arg = .files) : Takes d (.single arg) { d with listing := true }
  | file {arg : Text} (h : wordOf arg = .operand) (hl : d.listing = true) :
    Takes d (.single arg) { d with options := { d.options with files := d.options.files ++ [arg] } }
  | folder {arg : Text} (h : wordOf arg = .operand) (hl : d.listing = false)
    (hf : d.options.folder = none) :
    Takes d (.single arg) { d with options := { d.options with folder := some arg } }
  | mode {option value : Text} {m : Mode} (h : wordOf option = .mode)
    (hm : Mode.ofName? value = some m) :
    Takes d (.pair option value) { d with options := { d.options with mode := some m } }
  | output {option value : Text} (h : wordOf option = .output) :
    Takes d (.pair option value) (d.setOutput value)

theorem takes_of_take (h : d.take i = .ok d') : Takes d i d' := by
  cases i with
  | single arg =>
    rw [Draft.take] at h
    split at h
    · next f hw =>
      cases h
      exact .flag hw
    · next hw =>
      cases h
      exact .files hw
    · next hw =>
      rw [Draft.addOperand] at h
      split_ifs at h with hl hf
      · cases h
        exact .file hw hl
      · cases h
        exact .folder hw (by simpa using hl) (by simpa using hf)
    · cases h
  | pair option value =>
    rw [Draft.take] at h
    split at h
    · next hw =>
      rw [Draft.setMode] at h
      split at h
      · next m hm =>
        cases h
        exact .mode hw hm
      · cases h
    · next hw =>
      cases h
      exact .output hw
    · cases h
  | wanting option => cases h

/-! ## One more flag -/

theorem set_comm (o : Options) (f g : Flag) : (o.set f).set g = (o.set g).set f := by
  cases f <;> cases g <;> rfl

theorem addOperand_set (d : Draft) (f : Flag) (arg : Text) :
    (d.set f).addOperand arg = (d.addOperand arg).map (·.set f) := by
  unfold Draft.addOperand
  rw [Draft.listing_set, Draft.options_set, folder_set]
  split_ifs
  · cases f <;> rfl
  · cases f <;> rfl
  · rfl

theorem setMode_set (d : Draft) (f : Flag) (name : Text) :
    (d.set f).setMode name = (d.setMode name).map (·.set f) := by
  unfold Draft.setMode
  cases hm : Mode.ofName? name with
  | none => rfl
  | some m => cases f <;> rfl

theorem setOutput_set (d : Draft) (f : Flag) (path : Text) :
    (d.set f).setOutput path = (d.setOutput path).set f := by
  cases f <;> rfl

/-- A flag may as well be set after an item is taken as before. -/
theorem take_set (d : Draft) (f : Flag) (i : Item) :
    (d.set f).take i = (d.take i).map (·.set f) := by
  cases i with
  | single arg =>
    cases hw : wordOf arg with
    | flag g =>
      simp only [Draft.take, hw, Except.map, Draft.set]
      rw [set_comm]
    | operand =>
      simp only [Draft.take, hw]
      exact addOperand_set d f arg
    | files | mode | output | unknown =>
      simp only [Draft.take, hw]
      rfl
  | pair option value =>
    cases hw : wordOf option with
    | mode =>
      simp only [Draft.take, hw]
      exact setMode_set d f value
    | output =>
      simp only [Draft.take, hw]
      exact congrArg Except.ok (setOutput_set d f value)
    | flag | files | operand | unknown =>
      simp only [Draft.take, hw]
      rfl
  | wanting option => rfl

theorem foldlM_set (items : List Item) (d : Draft) (f : Flag) :
    items.foldlM Draft.take (d.set f) = (items.foldlM Draft.take d).map (·.set f) := by
  induction items generalizing d with
  | nil => rfl
  | cons i items ih =>
    rw [List.foldlM_cons, List.foldlM_cons, take_set]
    cases d.take i with
    | error e => rfl
    | ok m => exact ih m

/-- The flags that only say how much is reported. -/
def reportFlags : List Flag := [.verbose, .quiet]

theorem finish_set (d : Draft) (hf : f ∈ reportFlags) :
    (d.set f).finish = d.finish.map (·.set f) := by
  have hd : ∀ g ∈ reportFlags, (d.set g).sources = d.sources ∧ (d.set g).listing = d.listing ∧
      (d.options.set g).help = d.options.help ∧ (d.options.set g).version = d.options.version ∧
      (d.options.set g).files = d.options.files := by
    simp [reportFlags, Draft.set, set, Draft.sources]
  obtain ⟨hsources, hlisting, hhelp, hversion, hfiles⟩ := hd f hf
  unfold Draft.finish
  rw [hsources, hlisting]
  simp only [Draft.set, hhelp, hversion, hfiles]
  split_ifs <;> rfl

/-- Arguments with one more flag among them. -/
theorem read_insert (d : Draft) (hbefore : Complete before) (hw : wordOf arg = .flag f) :
    d.read (before ++ arg :: after) = (d.read (before ++ after)).map (·.set f) := by
  have hsingle : takesValue arg = false := by simp [takesValue, hw]
  rw [read_eq_foldlM, read_eq_foldlM, itemsOf_append hbefore, itemsOf_append hbefore,
    itemsOf_single hsingle, List.foldlM_append, List.foldlM_append]
  cases (itemsOf before).foldlM Draft.take d with
  | error e => rfl
  | ok m =>
    have htake : m.take (.single arg) = .ok (m.set f) := by
      simp [Draft.take, hw, Draft.set]
    calc (Item.single arg :: itemsOf after).foldlM Draft.take m
        = (m.take (.single arg)).bind fun m => (itemsOf after).foldlM Draft.take m := rfl
      _ = (itemsOf after).foldlM Draft.take (m.set f) := by rw [htake]; rfl
      _ = ((itemsOf after).foldlM Draft.take m).map (·.set f) := foldlM_set _ m f

end SourceBundle.Options
