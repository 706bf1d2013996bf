import ApiScaffold.Document.Value
import ApiScaffold.Fault
import ApiScaffold.Text.Blank

/-!
# References

A reference is a text that begins with `#/` and leads through the mappings of a document, one key
for each segment; in a segment `~1` stands for a slash and `~0` for a tilde.

* `Reference.resolve` follows one reference;
* `Reference.follow` follows a chain of references to the first value that is none, and refuses a
  chain that comes back to a reference it has passed.
-/

namespace ApiScaffold.Reference

/-- What a reference leads to by its last segment. -/
def target (ref : List Char) : List Char := Text.takeSuffixWhile (· != '/') ref

/-- The key that a segment denotes. -/
def unescape (segment : List Char) : List Char :=
  Text.replaceAll ['~', '0'] ['~'] (Text.replaceAll ['~', '1'] ['/'] segment)

/-- The value that keys lead to through nested mappings. -/
def descend : List String → Value → Option Value
  | [], v => some v
  | k :: ks, v =>
    match v.field? k with
    | some w => descend ks w
    | none => none

/-- The keys of a reference; `none` if it is not local. -/
def keys? (ref : String) : Option (List String) :=
  match ref.toList with
  | '#' :: '/' :: rest => some ((Text.splitOn '/' rest).map fun s => String.ofList (unescape s))
  | _ => none

/-- The value that a reference leads to. -/
def resolve (doc : Value) (ref : String) : Except Fault Value :=
  match keys? ref with
  | none => .error (.spec .remoteReference ref)
  | some ks =>
    match descend ks doc with
    | some v => .ok v
    | none => .error (.spec .unresolvableReference ref)

/-- What a value refers to. -/
inductive Link where
  /-- The value is no reference. -/
  | none
  /-- The value refers to the given place. -/
  | to (ref : String)
  /-- The value has a reference that is not a text. -/
  | broken (m : Misuse)
  deriving DecidableEq, Repr

/-- What a value refers to: the text of its key `$ref`. -/
def link (v : Value) : Link :=
  match v.field? "$ref" with
  | Option.none => .none
  | some (.text ref) => .to ref
  | some w => .broken (if w.isKey && !w.isBytes then .noSuchPart else .wrongKind)

/-- The text of the key `$ref`, if the entries have one. -/
def ownReference (es : Entries) : List String :=
  match Entries.find? (.text "$ref") es with
  | some (.text ref) => [ref]
  | _ => []

mutual

/-- The references that a value holds. -/
def references : Value → List String
  | .scalar _ => []
  | .list items => itemReferences items
  | .dict es => ownReference es ++ entryReferences es
  | .keys _ => []
  | .pair a b => references a ++ references b
  | .numbered _ v => references v

/-- The references in the items of a list. -/
def itemReferences : List Value → List String
  | [] => []
  | v :: vs => references v ++ itemReferences vs

/-- The references in the entries of a mapping. -/
def entryReferences : List (Scalar × Value) → List String
  | [] => []
  | e :: es => referencesOfEntry e ++ entryReferences es

/-- The references in an entry. -/
def referencesOfEntry : Scalar × Value → List String
  | (_, v) => references v

end

/-- A number adds no references. -/
theorem references_content (v : Value) : references v.content = references v := by
  fun_induction Value.content v with
  | case1 _ v ih => rw [ih, references]
  | case2 v h => rfl

/-- The references of an entry's value are among those of the entries. -/
theorem references_subset_of_find? {key : Scalar} {es : Entries} {w : Value}
    (h : Entries.find? key es = some w) : references w ⊆ entryReferences es := by
  induction es with
  | nil => simp [Entries.find?] at h
  | cons e es ih =>
    obtain ⟨k, v⟩ := e
    rw [Entries.find?] at h
    rw [entryReferences, referencesOfEntry]
    split at h
    · cases h
      exact List.subset_append_left _ _
    · exact List.subset_append_of_subset_right _ (ih h)

/-- The entries of a mapping hold no reference that the mapping does not hold. -/
theorem entryReferences_subset {v : Value} {es : Entries} (h : v.entries? = some es) :
    ownReference es ++ entryReferences es ⊆ references v := by
  rw [← references_content v]
  unfold Value.entries? at h
  split at h
  · rename_i es' hc
    cases h
    rw [hc, references]
    exact List.Subset.refl _
  · cases h

/-- A field holds no reference that the value does not hold. -/
theorem references_subset_of_field? {v w : Value} {name : String} (h : v.field? name = some w) :
    references w ⊆ references v := by
  obtain ⟨es, he, hf⟩ := Option.bind_eq_some_iff.1 h
  exact List.Subset.trans (references_subset_of_find? hf)
    (List.Subset.trans (List.subset_append_right _ _) (entryReferences_subset he))

/-- What keys lead to holds no reference that the value does not hold. -/
theorem references_subset_of_descend {ks : List String} {v w : Value}
    (h : descend ks v = some w) : references w ⊆ references v := by
  induction ks generalizing v with
  | nil =>
    cases h
    exact List.Subset.refl _
  | cons k ks ih =>
    rw [descend] at h
    split at h
    · rename_i u hu
      exact List.Subset.trans (ih h) (references_subset_of_field? hu)
    · cases h

/-- What a value refers to is among its references. -/
theorem mem_references_of_link {v : Value} {ref : String} (h : link v = .to ref) :
    ref ∈ references v := by
  unfold link at h
  split at h
  · cases h
  · rename_i r hr
    cases h
    obtain ⟨es, he, hf⟩ := Option.bind_eq_some_iff.1 hr
    apply entryReferences_subset he
    simp [ownReference, hf]
  · cases h

/-- A reference leads to a value whose references are those of the document. -/
theorem references_subset_of_resolve {doc w : Value} {ref : String}
    (h : resolve doc ref = .ok w) : references w ⊆ references doc := by
  unfold resolve at h
  split at h
  · cases h
  · split at h
    · rename_i hd
      cases h
      exact references_subset_of_descend hd
    · cases h

/-- Follows a chain of references that began at `start`. `seen` holds the references passed; each of
them is passed only once, and all are among those of `start` and the document. -/
def followFrom (doc start : Value) (seen : List String) (v : Value)
    (_known : references v ⊆ references start ++ references doc) : Except Fault Value :=
  match _linked : link v with
  | .none => .ok v
  | .broken m => .error (.misuse m)
  | .to ref =>
    if _fresh : ref ∈ seen then .error (.spec .circularReference ref)
    else
      match found : resolve doc ref with
      | .error e => .error e
      | .ok w =>
        followFrom doc start (ref :: seen) w
          (List.Subset.trans (references_subset_of_resolve found) (List.subset_append_right _ _))
termination_by ((references start ++ references doc).filter (· ∉ seen)).length
decreasing_by
  have mem : ref ∈ (references start ++ references doc).filter (· ∉ seen) := by
    simpa [_fresh] using _known (mem_references_of_link _linked)
  have split : (references start ++ references doc).filter (· ∉ ref :: seen) =
      ((references start ++ references doc).filter (· ∉ seen)).filter (· ≠ ref) := by
    simp [List.filter_filter, Bool.decide_and]
  rw [split]
  exact List.length_filter_lt_length_iff_exists.2 ⟨ref, mem, by simp⟩

/-- The first value of a chain of references that is no reference. -/
def follow (doc v : Value) : Except Fault Value :=
  followFrom doc v [] v (List.subset_append_left _ _)

/-- The class that the text of a reference names. -/
def className (v : Value) : Except Fault String :=
  match v with
  | .text ref => .ok (String.ofList (target ref.toList))
  | w => .error (.misuse (if w.isBytes then .wrongKind else .noSuchPart))

end ApiScaffold.Reference
