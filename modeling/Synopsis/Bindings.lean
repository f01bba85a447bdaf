import Synopsis.Value

/-!
# Bindings

The result of reading an invocation: names with their values, in the order in which the names were
first bound. Binding a name again replaces its value and keeps its place.
Main statements: the keys after a binding (`keys_insert`), and what is found afterwards
(`get?_insert_self`, `get?_insert_of_ne`).
-/

namespace Synopsis

open Text

/-- Names with their values, in the order of first binding. -/
structure Bindings where
  /-- The names and values, in order. -/
  entries : List (String × Value)
  deriving DecidableEq, Repr

namespace Bindings

/-- No name is bound. -/
def empty : Bindings := ⟨[]⟩

/-- Replace the value of a name in place, or put the name at the end. -/
def insertEntry (key : String) (value : Value) : List (String × Value) → List (String × Value)
  | [] => [(key, value)]
  | e :: es => if e.1 = key then (key, value) :: es else e :: insertEntry key value es

/-- Bind a name. -/
def insert (b : Bindings) (key : String) (value : Value) : Bindings :=
  ⟨insertEntry key value b.entries⟩

/-- Bind several names, one after the other. -/
def insertAll (b : Bindings) (es : List (String × Value)) : Bindings :=
  es.foldl (fun b e => b.insert e.1 e.2) b

/-- The names, in order. -/
def keys (b : Bindings) : List String := b.entries.map Prod.fst

/-- The value of a name. -/
def get? (b : Bindings) (key : String) : Option Value :=
  (b.entries.find? fun e => e.1 == key).map Prod.snd

/-- The name is bound. -/
def contains (b : Bindings) (key : String) : Bool := (b.get? key).isSome

/-- The number of names. -/
def size (b : Bindings) : Nat := b.entries.length

/-- No name is bound. -/
def isEmpty (b : Bindings) : Bool := b.entries.isEmpty

/-- The truth value of a name, false if it has none. -/
def getBool (b : Bindings) (key : String) : Bool := ((b.get? key).bind Value.bool?).getD false

/-- The text of a name, if it has one. -/
def getStr? (b : Bindings) (key : String) : Option String := (b.get? key).bind Value.str?

/-- The texts of a name, none if it has no list. -/
def getList (b : Bindings) (key : String) : List String := ((b.get? key).bind Value.list?).getD []

/-! ## What a binding does -/

theorem keys_insert (b : Bindings) (key : String) (value : Value) :
    (b.insert key value).keys = if key ∈ b.keys then b.keys else b.keys ++ [key] := by
  obtain ⟨es⟩ := b
  simp only [insert, keys]
  induction es with
  | nil => simp [insertEntry]
  | cons e es ih =>
    by_cases h : e.1 = key
    · simp [insertEntry, h]
    · have hk : key ≠ e.1 := fun hk => h hk.symm
      by_cases hm : key ∈ es.map Prod.fst <;> simp_all [insertEntry]

theorem get?_insert_self (b : Bindings) (key : String) (value : Value) :
    (b.insert key value).get? key = some value := by
  obtain ⟨es⟩ := b
  simp only [insert, get?]
  induction es with
  | nil => simp [insertEntry]
  | cons e es ih => by_cases h : e.1 = key <;> simp_all [insertEntry]

theorem get?_insert_of_ne (b : Bindings) {key other : String} (value : Value)
    (h : other ≠ key) : (b.insert key value).get? other = b.get? other := by
  obtain ⟨es⟩ := b
  have hne : key ≠ other := h.symm
  simp only [insert, get?]
  induction es with
  | nil => simp [insertEntry, hne]
  | cons e es ih =>
    by_cases he : e.1 = key
    · simp [insertEntry, he, hne]
    · by_cases ho : e.1 = other <;> simp_all [insertEntry]

/-! ## Written forms -/

/-- The bindings as shown to a reader, by name in the order of code points, one on a line. -/
def display (b : Bindings) : String :=
  let sorted := b.entries.mergeSort fun d e => d.1 ≤ e.1
  "\x7b" ++ String.intercalate ",\n " (sorted.map fun e => e.1 ++ ": " ++ e.2.display) ++ "\x7d"

/-- The bindings in compact JSON, in their own order. -/
def json (b : Bindings) : String := Json.object (b.entries.map fun e => (e.1, e.2.json))

end Bindings

end Synopsis
