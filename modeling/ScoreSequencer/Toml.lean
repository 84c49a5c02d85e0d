import ScoreSequencer.Binary64.Arithmetic
/-!
# TOML

Documents in TOML are read by a library, and so are the records in them. A `Reader` is
such a library, as far as settings need one, and `Reader.Lawful` says what is known of
it: a key is defined once, a record takes its fields from a table by their names or from
an array in their order, and there are values that stand for a byte or for a number.
-/

namespace ScoreSequencer.Toml

/-- A value of a document. -/
inductive Value where
  | string (s : String)
  | integer (n : Int)
  | float (x : Binary64)
  | boolean (b : Bool)
  | dateTime (text : String)
  | array (items : List Value)
  | table (entries : List (String × Value))

structure Reader where
  /-- The table of a document, if the text is one. -/
  document? : String → Option (List (String × Value))
  /-- The values for the fields of a record, whose names are listed in their order. A value
  may be no such record, and a field may be missing from one. -/
  record? : List String → Value → Option (String → Option Value)
  byte? : Value → Option Nat
  number? : Value → Option Binary64

/-- No two entries have the same key. -/
def OneEach {α : Type} (entries : List (String × α)) : Prop := (entries.map Prod.fst).Nodup

instance {α : Type} (entries : List (String × α)) : Decidable (OneEach entries) :=
  inferInstanceAs (Decidable (entries.map Prod.fst).Nodup)

/-- Every table in the value has one entry for each of its keys. -/
inductive Value.Keyed : Value → Prop
  | string (s : String) : Keyed (.string s)
  | integer (n : Int) : Keyed (.integer n)
  | float (x : Binary64) : Keyed (.float x)
  | boolean (b : Bool) : Keyed (.boolean b)
  | dateTime (text : String) : Keyed (.dateTime text)
  | array {items : List Value} : (∀ v ∈ items, Keyed v) → Keyed (.array items)
  | table {entries : List (String × Value)} : OneEach entries → (∀ e ∈ entries, Keyed e.2) → Keyed (.table entries)

/-- What the library is known to do. -/
structure Reader.Lawful (reader : Reader) : Prop where
  /-- Defining a key again is an error. -/
  keyed : ∀ {text : String} {entries : List (String × Value)}, reader.document? text = some entries →
    (Value.table entries).Keyed
  /-- A table holds the fields by their names, and other keys do not matter. -/
  record_table : ∀ {names : List String} {entries : List (String × Value)}, names.Nodup → OneEach entries →
    ∃ given, reader.record? names (.table entries) = some given ∧ ∀ name ∈ names, given name = entries.lookup name
  /-- An array holds the first fields in their order. -/
  record_array : ∀ {names : List String} {items : List Value}, names.Nodup → items.length ≤ names.length →
    ∃ given, reader.record? names (.array items) = some given ∧
      ∀ (i : Nat) (name : String), names[i]? = some name → given name = items[i]?
  /-- A byte is an integer from 0 to 255. -/
  byte : ∀ {v : Value} {n : Nat}, reader.byte? v = some n ↔ v = .integer n ∧ n ≤ 255
  /-- A number is a float, or an integer that stands for the nearest one. -/
  number : ∀ {v : Value} {x : Binary64}, reader.number? v = some x ↔
    v = .float x ∨ ∃ n : Int, v = .integer n ∧ x = .ofInt n

end ScoreSequencer.Toml
