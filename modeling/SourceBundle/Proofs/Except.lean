/-!
# Steps that may be refused

Arguments and settings are read step by step, and the first step that is refused ends the reading.
-/
namespace SourceBundle

/-- What is read in two steps was accepted in both. -/
theorem exists_of_bind_ok {ε α β : Type} {x : Except ε α} {f : α → Except ε β} {b : β}
    (h : x.bind f = .ok b) : ∃ a, x = .ok a ∧ f a = .ok b := by
  cases x with
  | error e => cases h
  | ok a => exact ⟨a, rfl, h⟩

end SourceBundle
