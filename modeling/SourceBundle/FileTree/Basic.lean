import SourceBundle.Text.Basic
/-!
# Folders

A folder is a list of entries: files, symbolic links and further folders, each under a name.
-/
namespace SourceBundle

inductive Folder where
  | empty
  | file (name content : Text) (rest : Folder)
  | link (name target : Text) (rest : Folder)
  | folder (name : Text) (inside rest : Folder)
  deriving DecidableEq, Repr

/-- What stands under a name. -/
inductive Entry where
  | file (content : Text)
  | link (target : Text)
  | folder (inside : Folder)
  deriving DecidableEq, Repr

namespace Folder

/-! ## Looking up -/

/-- The entry under a name. -/
def get? (name : Text) : Folder → Option Entry
  | empty => none
  | file n content rest => if n = name then some (.file content) else rest.get? name
  | link n target rest => if n = name then some (.link target) else rest.get? name
  | folder n inside rest => if n = name then some (.folder inside) else rest.get? name

/-- The folder some names down, links not followed. -/
def at? (f : Folder) : List Text → Option Folder
  | [] => some f
  | name :: names =>
    match f.get? name with
    | some (.folder inside) => inside.at? names
    | _ => none

/-! ## Changing -/

/-- An entry in front of others. -/
def cons (name : Text) : Entry → Folder → Folder
  | .file content, rest => file name content rest
  | .link target, rest => link name target rest
  | .folder inside, rest => folder name inside rest

/-- The folder with an entry under a name, in place of what stood there or at the end. -/
def put (name : Text) (e : Entry) : Folder → Folder
  | empty => cons name e empty
  | file n content rest => if n = name then cons name e rest else file n content (rest.put name e)
  | link n target rest => if n = name then cons name e rest else link n target (rest.put name e)
  | folder n inside rest =>
    if n = name then cons name e rest else folder n inside (rest.put name e)

/-- The folder with an entry put some names down. Nothing changes when the names lead nowhere. -/
def putAt (e : Entry) (f : Folder) : List Text → Folder
  | [] => f
  | [name] => f.put name e
  | name :: names =>
    match f.get? name with
    | some (.folder inside) => f.put name (.folder (inside.putAt e names))
    | _ => f

/-! ## Small facts -/

@[simp] theorem get?_cons_self (name : Text) (e : Entry) (f : Folder) :
    (cons name e f).get? name = some e := by
  cases e <;> simp [cons, get?]

theorem get?_cons_of_ne {name other : Text} (h : name ≠ other) (e : Entry) (f : Folder) :
    (cons name e f).get? other = f.get? other := by
  cases e <;> simp [cons, get?, h]

theorem get?_put_self (name : Text) (e : Entry) (f : Folder) :
    (f.put name e).get? name = some e := by
  induction f with
  | empty => simp [put]
  | file n _ _ ih | link n _ _ ih =>
    by_cases h : n = name
    · simp [put, h]
    · simp [put, get?, h, ih]
  | folder n _ _ _ ih =>
    by_cases h : n = name
    · simp [put, h]
    · simp [put, get?, h, ih]

theorem get?_put_of_ne {name other : Text} (h : name ≠ other) (e : Entry) (f : Folder) :
    (f.put name e).get? other = f.get? other := by
  induction f with
  | empty => simp [put, get?_cons_of_ne h]
  | file n _ _ ih | link n _ _ ih =>
    by_cases hn : n = name
    · subst hn
      simp [put, get?, get?_cons_of_ne h, h]
    · simp [put, get?, hn, ih]
  | folder n _ _ _ ih =>
    by_cases hn : n = name
    · subst hn
      simp [put, get?, get?_cons_of_ne h, h]
    · simp [put, get?, hn, ih]

end Folder
end SourceBundle
