/-!
# Items of a settings document

An `Item` is a value or a table. A table remembers how it came about, because that decides what may
be added to it: one that a dotted key made takes more dotted keys, one that a header only passed
through may still get a header of its own, and one that is written in braces is complete. No key is
given twice.
-/

namespace LayeredConfig.Toml

/-- How a table came about. -/
inductive TableKind where
  /-- By its own header. -/
  | header
  /-- As a table on the way to another header. -/
  | passed
  /-- As a part of a dotted key. -/
  | dotted
  /-- In braces. -/
  | braces
  deriving DecidableEq, Repr

/-- A value or a table. -/
inductive Item where
  | string (text : String)
  | array (items : List Item)
  | table (kind : TableKind) (entries : List (String × Item))
  /-- Tables under one header in double brackets, the last one first. -/
  | tables (elements : List (List (String × Item)))
  /-- A number, a boolean, a date or a time. -/
  | word
  deriving Repr

/-- The items of a table, in order. -/
abbrev Entries := List (String × Item)

namespace Entries

/-- The entries with the item of a key replaced. -/
def set (es : Entries) (key : String) (item : Item) : Entries :=
  es.map fun (k, i) => if k = key then (k, item) else (k, i)

/-- The entries with those of the table at a path changed. Tables on the way are made where they
are missing. With `dotted` the path is part of a key, and then no table on it may have a header of
its own. -/
def changeAt (dotted : Bool) (change : TableKind → Entries → Option Entries) (kind : TableKind)
    (es : Entries) : List String → Option Entries
  | [] => change kind es
  | key :: path =>
    match es.lookup key with
    | none => do
      let made := if dotted then TableKind.dotted else .passed
      let inner ← changeAt dotted change made [] path
      pure (es ++ [(key, .table made inner)])
    | some (.table k inner) =>
      if k = .braces ∨ (dotted ∧ k = .header) then none
      else do
        let inner ← changeAt dotted change k inner path
        pure (es.set key (.table k inner))
    | some (.tables (last :: earlier)) => do
      let last ← changeAt dotted change .header last path
      pure (es.set key (.tables (last :: earlier)))
    | some _ => none

/-- The entries with an item under a dotted key. Only a table that a dotted key made takes the last
part of another one. -/
def insert (es : Entries) (path : List String) (key : String) (item : Item) : Option Entries :=
  let add := fun (kind : TableKind) (inner : Entries) =>
    if (kind = .dotted) = (path ≠ []) ∧ (inner.lookup key).isNone then
      some (inner ++ [(key, item)])
    else none
  changeAt true add .header es path

/-- The entries with a table opened by its header. -/
def openTable (es : Entries) (path : List String) (key : String) : Option Entries :=
  let add := fun (_ : TableKind) (inner : Entries) =>
    match inner.lookup key with
    | none => some (inner ++ [(key, .table .header [])])
    | some (.table .passed entries) => some (inner.set key (.table .header entries))
    | some _ => none
  changeAt false add .header es path

/-- The entries with one more table under a header in double brackets. -/
def openElement (es : Entries) (path : List String) (key : String) : Option Entries :=
  let add := fun (_ : TableKind) (inner : Entries) =>
    match inner.lookup key with
    | none => some (inner ++ [(key, .tables [[]])])
    | some (.tables elements) => some (inner.set key (.tables ([] :: elements)))
    | some _ => none
  changeAt false add .header es path

end Entries

end LayeredConfig.Toml
