import PrefixForth.Text.Bytes

/-!
# Nested text

A data format for settings: a value is a text, a list of values, or a dictionary that gives values to
keys. There are no numbers and no quotes; every leaf is a text.
-/

namespace PrefixForth

/-- A value of the format. The keys of a dictionary are in bytewise order. -/
inductive NestedText where
  | text (s : Bytes)
  | list (items : List NestedText)
  | dict (entries : List (Bytes × NestedText))
  deriving Repr

namespace NestedText

/-- Gives a value to a key in a list ordered by key, instead of the value that it has there. -/
def insert (key : Bytes) (value : NestedText) :
    List (Bytes × NestedText) → List (Bytes × NestedText)
  | [] => [(key, value)]
  | e :: es =>
    if key < e.1 then (key, value) :: e :: es
    else if key = e.1 then (key, value) :: es
    else e :: insert key value es

/-- The dictionary with the given entries; of two entries for one key the last one counts. -/
def ofEntries (entries : List (Bytes × NestedText)) : NestedText :=
  .dict (entries.foldl (fun es e => insert e.1 e.2 es) [])

/-- The value of a key, if this is a dictionary that has it. -/
def get? (v : NestedText) (key : Bytes) : Option NestedText :=
  match v with
  | dict entries => entries.lookup key
  | _ => none

mutual

/-- A value on one line: a text as it is, lists in brackets, dictionaries as maps. -/
def shown : NestedText → Bytes
  | .text s => s
  | .list items => utf8 "[" ++ spaced (shownItems items) ++ utf8 "]"
  | .dict entries => utf8 "map[" ++ spaced (shownEntries entries) ++ utf8 "]"

/-- The values of a list, each on one line. -/
def shownItems : List NestedText → List Bytes
  | [] => []
  | v :: vs => v.shown :: shownItems vs

/-- The entries of a dictionary, each on one line. -/
def shownEntries : List (Bytes × NestedText) → List Bytes
  | [] => []
  | (key, v) :: es => (key ++ utf8 ":" ++ v.shown) :: shownEntries es

end

end NestedText

end PrefixForth
