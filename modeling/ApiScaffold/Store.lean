import ApiScaffold.Resource.Basic

/-!
# Stores

A store keeps resources under their names, in the order in which the names first came.  Storing a
name again keeps its place (`names_insert`) and replaces the resource (`find?_insert`).
-/

namespace ApiScaffold

/-- Values under names, in the order of first insertion. -/
structure Store (α : Type) where
  entries : List (String × α)
  deriving Repr, DecidableEq

namespace Store

variable {α : Type}

/-- The store without entries. -/
def empty : Store α := ⟨[]⟩

/-- Replaces the value of a name in its place, or adds the name at the end. -/
def put (name : String) (a : α) : List (String × α) → List (String × α)
  | [] => [(name, a)]
  | (n, b) :: es => if n = name then (n, a) :: es else (n, b) :: put name a es

/-- Stores a value under a name. -/
def insert (s : Store α) (name : String) (a : α) : Store α := ⟨put name a s.entries⟩

/-- The value of a name. -/
def find? (s : Store α) (name : String) : Option α := s.entries.lookup name

theorem lookup_put (n m : String) (a : α) (es : List (String × α)) :
    (put n a es).lookup m = if m = n then some a else es.lookup m := by
  induction es with
  | nil => by_cases hm : m = n <;> simp [put, List.lookup_cons, hm, beq_eq_false_iff_ne.2]
  | cons e es ih =>
    obtain ⟨k, b⟩ := e
    by_cases hk : k = n
    · subst hk
      by_cases hm : m = k <;> simp [put, List.lookup_cons, hm, beq_eq_false_iff_ne.2]
    · rw [put, if_neg hk, List.lookup_cons, List.lookup_cons, ih]
      by_cases hm : m = k
      · simp [hm, hk]
      · simp [hm, beq_eq_false_iff_ne.2]

/-- A stored value is found under its name, and nothing else changes. -/
@[simp] theorem find?_insert (s : Store α) (n m : String) (a : α) :
    (s.insert n a).find? m = if m = n then some a else s.find? m := lookup_put n m a s.entries

/-- The names in the order of the store. -/
def names (s : Store α) : List String := s.entries.map (·.1)

theorem map_fst_put (n : String) (a : α) (es : List (String × α)) :
    (put n a es).map (·.1) =
      if n ∈ es.map (·.1) then es.map (·.1) else es.map (·.1) ++ [n] := by
  induction es with
  | nil => simp [put]
  | cons e es ih =>
    obtain ⟨k, b⟩ := e
    by_cases hk : k = n
    · simp [put, hk]
    · rw [put, if_neg hk, List.map_cons, ih]
      by_cases hm : n ∈ es.map (·.1)
      · simp_all
      · simp_all [Ne.symm hk]

/-- A known name keeps its place; a new one comes last. -/
theorem names_insert (s : Store α) (n : String) (a : α) :
    (s.insert n a).names = if n ∈ s.names then s.names else s.names ++ [n] :=
  map_fst_put n a s.entries

/-- Whether a name is in use. -/
def contains (s : Store α) (name : String) : Bool := (s.find? name).isSome

/-- The number of names. -/
def size (s : Store α) : Nat := s.entries.length

/-- The values in the order of the store. -/
def values (s : Store α) : List α := s.entries.map (·.2)

/-- Stores several values, each under its name. -/
def insertAll (name : α → String) (s : Store α) (as : List α) : Store α :=
  as.foldl (fun s a => s.insert (name a) a) s

end Store

/-- The stores of one run. -/
structure Stores where
  models : Store Model
  services : Store Service
  controllers : Store Controller
  deriving Repr, DecidableEq

/-- The stores before anything is compiled. -/
def Stores.empty : Stores := ⟨.empty, .empty, .empty⟩

end ApiScaffold
