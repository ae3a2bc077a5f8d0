import SourceBundle.Proofs.Skeleton.Body
import SourceBundle.Proofs.Skeleton.Documentation
/-!
# Types

A type is read item by item. A member becomes one line, whatever its body holds, a documentation
comment stays as it is, and after each item the scanner is back in the type with no body open. So
the skeleton of a type has its items in order and nothing else.
-/
namespace SourceBundle.Skeleton

open Text

/-! ## Items -/

/-- A member that is neither a conditional nor a type. -/
structure IsMember (line : Text) : Prop where
  declares : Line.declaresMember (trim line) = true
  notConditional : Line.isConditional (trim line) = false
  notType : Line.declaresType (trim line) = false

/-- What may stand between the line that opens a type and the one that closes it. -/
inductive Item where
  /-- A member that leaves its body open, and the lines of the body. -/
  | method (line : Text) (body : List Text) (isMember : IsMember line)
    (isOpen : Line.leavesBodyOpen (trim line) = true) (isBody : IsBody body)
  /-- A member that leaves no body open. -/
  | signature (line : Text) (isMember : IsMember line)
    (isClosed : Line.leavesBodyOpen (trim line) = false)
  /-- A documentation comment. Its first line does not end it. -/
  | doc (first : Text) (inner : List Text) (last : Text)
    (starts : Line.isDocStart (trim first) = true)
    (goesOn : ∀ l ∈ inner, Line.isDocEnd (trim l) = false)
    (ends : Line.isDocEnd (trim last) = true)

namespace Item

/-- The lines of an item. -/
def source : Item → List Text
  | method line body .. => line :: body
  | signature line .. => [line]
  | doc first inner last .. => first :: (inner ++ [last])

/-- The lines an item has in a skeleton. -/
def kept : Item → List Text
  | method line .. | signature line .. => ["  " ++ Line.finalize (trim line)]
  | doc first inner last .. => first :: (inner ++ [last])

end Item

/-! ## Reading one item -/

/-- The scanner in a type, ready for the next item. -/
def State.inType : State := ⟨.typeBlock, .classifying⟩

theorem IsMember.plain {line : Text} (h : IsMember line) : Plain (trim line) := by
  refine ⟨Line.not_isDocStart_of_declaresMember h.declares, h.notConditional, h.notType, ?_⟩
  intro hc
  have := h.declares
  rw [hc] at this
  exact absurd this (by decide)

theorem step_member {line : Text} (h : IsMember line) :
    step .inType line =
      (⟨.member, some ("  " ++ Line.finalize (trim line))⟩, State.inType.enterBody (trim line)) :=
  step_of_taken (.member h.plain h.declares)

/-- Reading an item writes what is kept of it, and leads back into the type. -/
theorem read_item (i : Item) :
    emissions .inType i.source = i.kept ∧ run .inType i.source = .inType := by
  cases i with
  | method line body isMember isOpen isBody =>
    have hbody : State.inType.enterBody (trim line) = ⟨.typeBlock, .skipping 1⟩ := if_pos isOpen
    simp only [Item.source, Item.kept]
    rw [emissions_cons, run_cons, step_member isMember, hbody,
      emissions_skipping isBody.staysOpen,
      run_skipping isBody.ne_nil isBody.staysOpen isBody.closes]
    exact ⟨rfl, rfl⟩
  | signature line isMember isClosed =>
    have hbody : State.inType.enterBody (trim line) = .inType :=
      if_neg (Bool.eq_false_iff.1 isClosed)
    simp only [Item.source, Item.kept]
    rw [emissions_cons, run_cons, step_member isMember, hbody]
    exact ⟨rfl, rfl⟩
  | doc first inner last starts goesOn ends => exact read_doc starts goesOn ends

theorem read_items (items : List Item) :
    emissions .inType (items.flatMap Item.source) = items.flatMap Item.kept ∧
      run .inType (items.flatMap Item.source) = .inType := by
  induction items with
  | nil => exact ⟨rfl, rfl⟩
  | cons i items ih =>
    obtain ⟨hwritten, hrun⟩ := read_item i
    rw [List.flatMap_cons, List.flatMap_cons, emissions_append, run_append, hwritten, hrun]
    simp [ih]

/-! ## A whole type -/

/-- The lines of a type: one that opens it, its items, and a lone brace. -/
structure TypeBlock where
  header : Text
  items : List Item
  close : Text
  declares : Line.declaresType (trim header) = true
  closes : trim close = [closeBrace]

namespace TypeBlock

def source (b : TypeBlock) : List Text := b.header :: (b.items.flatMap Item.source ++ [b.close])

/-- The lines a type has in a skeleton. -/
def kept (b : TypeBlock) : List Text :=
  Line.openType (trim b.header) :: (b.items.flatMap Item.kept ++ [[closeBrace]])

end TypeBlock

/-- In any scope, a type is read from its opening to its closing line. -/
theorem read_typeBlock (c : Scope) (b : TypeBlock) :
    emissions ⟨c, .classifying⟩ b.source = b.kept ∧
      run ⟨c, .classifying⟩ b.source = .initial := by
  have hheader : step ⟨c, .classifying⟩ b.header =
      (⟨.typeOpen, some (Line.openType (trim b.header))⟩, .inType) :=
    step_of_taken (.typeOpen (Line.not_isDocStart_of_declaresType b.declares)
      (Line.not_isConditional_of_declaresType b.declares) b.declares)
  have hclose : step .inType b.close = (⟨.blockClose, some [closeBrace]⟩, .initial) :=
    step_of_taken (.blockClose b.closes)
  obtain ⟨hwritten, hrun⟩ := read_items b.items
  unfold TypeBlock.source TypeBlock.kept
  rw [emissions_cons, run_cons, hheader, emissions_append, run_append, hwritten, hrun,
    emissions_cons, run_cons, hclose]
  simp

/-- The skeleton of a type is its opening line, then one line for each member and the lines of each
comment, and its closing brace. A newline at the end of the text makes no difference. -/
theorem skeletonize_typeBlock (b : TypeBlock) (h : ∀ l ∈ b.source, newline ∉ l) :
    skeletonize (joinLines b.source) = joinLines b.kept ++ [newline] ∧
      skeletonize (joinLines b.source ++ [newline]) = joinLines b.kept ++ [newline] := by
  obtain ⟨hkept, hrun⟩ := read_typeBlock .topLevel b
  have hlines : lines (joinLines b.source) = b.source := lines_joinLines (List.cons_ne_nil _ _) h
  have hinitial : run .initial (lines (joinLines b.source)) = .initial := by
    rw [hlines]
    exact hrun
  have hwritten : written (joinLines b.source) = b.kept := by
    rw [written_of_run (by rw [hinitial]; exact nofun), hlines]
    exact hkept
  refine ⟨by rw [skeletonize_eq_written, hwritten], ?_⟩
  rw [skeletonize_eq_written, written_append [] hinitial, hwritten, show written [] = [] from rfl,
    List.append_nil]

/-- A class with a comment, a getter with a body and a method without one. -/
def widget : TypeBlock where
  header := ofString "export class Widget"
  items :=
    [.doc (ofString "  /** Size \x7b") [ofString "   class"] (ofString "   */")
      (by decide +kernel) (by decide +kernel) (by decide +kernel),
    .method (ofString "  get size \x7b")
      [ofString "    if (a) \x7b return b; \x7d", ofString "    run(\x7b", ofString "\x7d \x7d"]
      ⟨by decide +kernel, by decide +kernel, by decide +kernel⟩ (by decide +kernel)
      ⟨by decide +kernel, by decide +kernel⟩,
    .signature (ofString "  async load( url )")
      ⟨by decide +kernel, by decide +kernel, by decide +kernel⟩ (by decide +kernel)]
  close := ofString " \x7d "
  declares := by decide +kernel
  closes := by decide +kernel

theorem skeletonize_typeBlock_widget :
    (∀ l ∈ widget.source, newline ∉ l) ∧
      skeletonize (joinLines widget.source) =
        ofString ("export class Widget \x7b\n  /** Size \x7b\n   class\n   */\n  get size()\x7b\x7d\n" ++
          "  async load( url )\x7b\x7d\n\x7d\n") := by
  have h : ∀ l ∈ widget.source, newline ∉ l := by decide +kernel
  refine ⟨h, ?_⟩
  rw [(skeletonize_typeBlock widget h).1]
  decide +kernel

end SourceBundle.Skeleton
