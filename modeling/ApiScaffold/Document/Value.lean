import ApiScaffold.Document.Scalar

/-!
# Document values

A document is a tree of scalars, lists and mappings.  A mapping keeps its entries in the order in
which their keys first came; writing a key again keeps its place and its first spelling and changes
only its value.  Some formats also have sets of keys and pairs of values.

A document may contain itself.  It is unfolded then as far as anyone looks, and the values in it
that never end carry numbers, by which a value is known again inside itself.

* `Entries.find?` and `Entries.insert` look up and write a key;
* `Value.entries?` and `Value.items?` look into a mapping or a list, `Value.field?` looks up a text
  key of a mapping;
* `Value.isTruthy` says whether a value counts as present;
* `Value.written?` is the text of a value.
-/

namespace ApiScaffold

/-- A value of a document. -/
inductive Value where
  | scalar (s : Scalar)
  | list (items : List Value)
  | dict (entries : List (Scalar × Value))
  /-- A set of keys. -/
  | keys (ks : List Scalar)
  | pair (first second : Value)
  /-- A value that does not end; values of the same number are the same. -/
  | numbered (n : Nat) (body : Value)
  deriving Inhabited, Repr

/-- The entries of a mapping in order. -/
abbrev Entries := List (Scalar × Value)

namespace Entries

variable {α : Type}

/-- The value of a key. -/
def find? (key : Scalar) : List (Scalar × α) → Option α
  | [] => none
  | (k, v) :: es => if k.same key then some v else find? key es

/-- Writes a key: in its place if it is there, otherwise at the end. -/
def insert (key : Scalar) (value : α) : List (Scalar × α) → List (Scalar × α)
  | [] => [(key, value)]
  | (k, v) :: es => if k.same key then (k, value) :: es else (k, v) :: insert key value es

/-- A text key that is written is found, and the other text keys keep their values. -/
theorem find?_text_insert (k n : String) (v : α) (es : List (Scalar × α)) :
    find? (.text n) (insert (.text k) v es) = if k = n then some v else find? (.text n) es := by
  induction es with
  | nil => simp [insert, find?, Scalar.same_text_iff]
  | cons e es ih =>
    obtain ⟨a, w⟩ := e
    by_cases ha : a = .text k
    · by_cases hk : k = n <;> simp [insert, find?, Scalar.same_text_iff, ha, hk]
    · by_cases hn : a = .text n
      · have hk : k ≠ n := fun h => ha (h ▸ hn)
        simp [insert, find?, Scalar.same_text_iff, hn, hk.symm, hk]
      · simp [insert, find?, Scalar.same_text_iff, ha, hn, ih]

/-- The mapping that results from writing the given entries one after the other. -/
def ofList (es : List (Scalar × α)) : List (Scalar × α) :=
  es.foldl (fun acc e => insert e.1 e.2 acc) []

end Entries

namespace Value

/-- The null value. -/
@[match_pattern] abbrev null : Value := .scalar .null

/-- A truth value. -/
@[match_pattern] abbrev bool (b : Bool) : Value := .scalar (.bool b)

/-- An integer. -/
@[match_pattern] abbrev int (n : Int) : Value := .scalar (.int n)

/-- A text. -/
@[match_pattern] abbrev text (s : String) : Value := .scalar (.text s)

/-- A mapping with text keys, given in order without repetition. -/
def record (fields : List (String × Value)) : Value :=
  .dict (fields.map fun f => (.text f.1, f.2))

/-- The value without its number, if it has one. -/
def content : Value → Value
  | numbered _ v => v.content
  | v => v

/-- The entries of a mapping. -/
def entries? (v : Value) : Option Entries :=
  match v.content with
  | dict es => some es
  | _ => none

/-- The items of a list. -/
def items? (v : Value) : Option (List Value) :=
  match v.content with
  | list items => some items
  | _ => none

/-- The value of a text key, if the value is a mapping that has it. -/
def field? (name : String) (v : Value) : Option Value :=
  v.entries?.bind (Entries.find? (.text name))

/-- The fields of a record are looked up by name. -/
theorem field?_record (fields : List (String × Value)) (name : String) :
    (record fields).field? name = fields.lookup name := by
  induction fields with
  | nil => rfl
  | cons f fs ih =>
    obtain ⟨k, v⟩ := f
    simp only [record, field?, entries?, content, Option.bind_some, List.map_cons, Entries.find?,
      Scalar.same_text_iff, Scalar.text.injEq] at ih ⊢
    by_cases h : k = name
    · simp [h]
    · rw [if_neg h, ih, List.lookup_cons, beq_eq_false_iff_ne.2 (Ne.symm h)]

/-- Whether the value counts as present: neither null nor false nor zero nor empty. -/
def isTruthy : Value → Bool
  | scalar s => s.isTruthy
  | list items => !items.isEmpty
  | dict es => !es.isEmpty
  | keys ks => !ks.isEmpty
  | pair _ _ => true
  | numbered _ v => v.isTruthy

/-- The value if it is there and counts as present. -/
def present? : Option Value → Option Value
  | some v => if v.isTruthy then some v else none
  | none => none

/-- Whether the value may serve as a key: a scalar, or a pair of such values. -/
def isKey : Value → Bool
  | scalar _ => true
  | pair a b => a.isKey && b.isKey
  | _ => false

/-- Whether the value is bytes. -/
def isBytes : Value → Bool
  | scalar (.bytes _) => true
  | _ => false

/-- What stands for a value inside its own text. -/
def ellipsis (v : Value) : String :=
  match v.content with
  | list _ => "[...]"
  | pair _ _ => "(...)"
  | _ => "\x7b...\x7d"

mutual

/-- The text of a value inside the values of the given numbers. -/
def literal (around : List Nat) : Value → String
  | scalar s => s.literal
  | list items => "[" ++ ", ".intercalate (itemLiterals around items) ++ "]"
  | dict es => "\x7b" ++ ", ".intercalate (entryLiterals around es) ++ "\x7d"
  | keys ks =>
    if ks.isEmpty then "set()" else "\x7b" ++ ", ".intercalate (ks.map Scalar.literal) ++ "\x7d"
  | pair a b => "(" ++ a.literal around ++ ", " ++ b.literal around ++ ")"
  | numbered n v => if around.contains n then v.ellipsis else v.literal (n :: around)

/-- The texts of the items of a list. -/
def itemLiterals (around : List Nat) : List Value → List String
  | [] => []
  | v :: vs => v.literal around :: itemLiterals around vs

/-- The texts of the entries of a mapping. -/
def entryLiterals (around : List Nat) : List (Scalar × Value) → List String
  | [] => []
  | e :: es => entryLiteral around e :: entryLiterals around es

/-- The text of an entry of a mapping. -/
def entryLiteral (around : List Nat) : Scalar × Value → String
  | (k, v) => k.literal ++ ": " ++ v.literal around

end

mutual

/-- Whether every scalar that a value shows has a text; `around` holds the numbers of the values
around it. -/
def isWritable (around : List Nat) : Value → Bool
  | scalar s => s.isWritable
  | list items => areItemsWritable around items
  | dict es => areEntriesWritable around es
  | keys ks => ks.all Scalar.isWritable
  | pair a b => a.isWritable around && b.isWritable around
  | numbered n v => around.contains n || v.isWritable (n :: around)

/-- Whether the items of a list have texts. -/
def areItemsWritable (around : List Nat) : List Value → Bool
  | [] => true
  | v :: vs => v.isWritable around && areItemsWritable around vs

/-- Whether the entries of a mapping have texts. -/
def areEntriesWritable (around : List Nat) : List (Scalar × Value) → Bool
  | [] => true
  | e :: es => isEntryWritable around e && areEntriesWritable around es

/-- Whether an entry of a mapping has a text. -/
def isEntryWritable (around : List Nat) : Scalar × Value → Bool
  | (k, v) => k.isWritable && v.isWritable around

end

/-- The text of a value, whether it is short enough to be written or not. -/
def plain : Value → String
  | scalar s => s.plain
  | v => v.literal []

/-- The text of a value; `none` if it holds an integer of too many digits. -/
def written? (v : Value) : Option String := if v.isWritable [] then some v.plain else none

end Value

end ApiScaffold
