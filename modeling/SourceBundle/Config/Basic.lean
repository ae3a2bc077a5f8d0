import SourceBundle.Mode
/-!
# Project settings

Which extensions count as text, which further patterns are ignored, how large a file may be, and
which mode a project prefers.
-/
namespace SourceBundle

open Text

/-! ## Extensions -/

/-- An extension in lower case with a dot in front. The empty one stays empty. -/
def canonicalExtension (e : Text) : Text :=
  match e.map toLower with
  | [] => []
  | dot :: s => dot :: s
  | s => dot :: s

/-- A set of texts, as a list in order without repetitions. -/
abbrev TextSet := List Text

namespace TextSet

def insert (t : Text) : TextSet → TextSet
  | [] => [t]
  | x :: xs => if isBefore t x then t :: x :: xs else if t = x then x :: xs else x :: insert t xs

def ofList (ts : List Text) : TextSet := ts.foldl (fun s t => insert t s) []

theorem mem_insert {t u : Text} {s : TextSet} : u ∈ insert t s ↔ u = t ∨ u ∈ s := by
  induction s with
  | nil => simp [insert]
  | cons x xs ih =>
    rw [insert]
    split
    · simp
    · split
      · next h => simp [h]
      · simp only [List.mem_cons, ih]
        constructor <;> rintro (h | h | h) <;> simp [h]

theorem mem_ofList {u : Text} {ts : List Text} : u ∈ ofList ts ↔ u ∈ ts := by
  have key : ∀ s : TextSet, u ∈ ts.foldl (fun s t => insert t s) s ↔ u ∈ s ∨ u ∈ ts := by
    induction ts with
    | nil => simp
    | cons t ts ih =>
      intro s
      rw [List.foldl_cons, ih, mem_insert, List.mem_cons]
      constructor
      · rintro ((h | h) | h)
        · exact .inr (.inl h)
        · exact .inl h
        · exact .inr (.inr h)
      · rintro (h | h | h)
        · exact .inl (.inr h)
        · exact .inl (.inl h)
        · exact .inr h
  simpa [ofList] using key []

end TextSet

/-! ## Settings -/

structure Config where
  /-- Extensions of the files that count as text, in lower case with a dot in front. -/
  extensions : TextSet
  ignorePatterns : List Text
  /-- The greatest size of a file in bytes; 0 for no limit. -/
  maxFileBytes : Nat
  mode : Option Mode
  /-- The path the settings were read from; empty for the built-in ones. -/
  source : Text
  deriving DecidableEq, Repr

namespace Config

def builtInExtensions : List Text :=
  ([".asm", ".bat", ".c", ".cfg", ".clj", ".conf", ".cpp", ".cs", ".css", ".csv", ".d", ".dart",
    ".ejs", ".elm", ".erl", ".f", ".go", ".gradle", ".groovy", ".h", ".hbs", ".hpp", ".hs", ".html",
    ".ini", ".jade", ".java", ".js", ".json", ".jsx", ".kt", ".less", ".lisp", ".log", ".lua", ".m",
    ".makefile", ".md", ".mdx", ".ml", ".mjs", ".mustache", ".pas", ".php", ".pl", ".properties",
    ".pug", ".py", ".r", ".rb", ".rs", ".sass", ".scala", ".scheme", ".scss", ".sh", ".sql",
    ".svelte", ".swift", ".tcl", ".tex", ".tpl", ".ts", ".tsx", ".twig", ".txt", ".vb", ".vue",
    ".xml", ".yaml", ".yml"] : List String).map ofString

/-- The built-in settings: files up to a mebibyte, and no mode of their own. -/
def builtIn : Config :=
  { extensions := TextSet.ofList builtInExtensions
    ignorePatterns := []
    maxFileBytes := 1024 * 1024
    mode := none
    source := [] }

/-- Whether files with this extension count as text. -/
def allows (c : Config) (e : Text) : Bool := c.extensions.contains (canonicalExtension e)

end Config
end SourceBundle
