import ApiScaffold.Proofs.Reference
import ApiScaffold.Proofs.Text.Replace
import ApiScaffold.Proofs.Text.Split

/-!
# Pointers

Keys that lead through nested mappings are written as a reference, one segment for each key. In a
key every tilde is written `~0` and every slash `~1`, so that a key may hold slashes, and also what
looks like an escape.

* `Leads` says that keys lead from a value to a value through nested mappings;
* `unescape_escape`: a segment denotes the key that it was written for;
* `keys?_pointer`: a pointer is read as the keys that it was written for;
* `resolve_leads`: a pointer to a value resolves to that value, and whatever else a local reference
  is, it resolves to the value that its keys lead to, or is refused in its own name.
-/

namespace ApiScaffold.Reference

/-- Keys lead from the first value through nested mappings to the second, one mapping for each
key. -/
inductive Leads : Value → List String → Value → Prop
  | here (v : Value) : Leads v [] v
  | through {v w u : Value} {k : String} {ks : List String} (hk : v.field? k = some w)
      (rest : Leads w ks u) : Leads v (k :: ks) u

variable {doc v w u : Value} {k : String} {ks : List String}

theorem leads_nil : Leads v [] w ↔ w = v :=
  ⟨fun h => by cases h; rfl, fun h => h ▸ .here v⟩

theorem leads_cons : Leads v (k :: ks) u ↔ ∃ w, v.field? k = some w ∧ Leads w ks u := by
  constructor
  · rintro (_ | ⟨hk, rest⟩)
    exact ⟨_, hk, rest⟩
  · rintro ⟨w, hk, rest⟩
    exact .through hk rest

theorem descend_eq_some_iff : descend ks v = some w ↔ Leads v ks w := by
  induction ks generalizing v with
  | nil => rw [descend, leads_nil, Option.some.injEq, eq_comm]
  | cons k ks ih =>
    rw [descend, leads_cons]
    cases v.field? k <;> simp [ih]

/-! ### Keys and segments -/

/-- A key as the segment of a reference: its tildes are escaped, and then its slashes. -/
def escape (key : List Char) : List Char :=
  Text.replaceAll ['/'] ['~', '1'] (Text.replaceAll ['~'] ['~', '0'] key)

@[simp] theorem escape_nil : escape [] = [] := rfl

theorem escape_cons (c : Char) (key : List Char) :
    escape (c :: key) =
      (if c = '~' then ['~', '0'] else if c = '/' then ['~', '1'] else [c]) ++ escape key := by
  simp only [escape, Text.replaceAll_singleton, List.flatMap_cons, List.flatMap_append]
  congr 1
  split_ifs with htilde hslash
  · rfl
  · simp [hslash]
  · simp [hslash]

theorem slash_notMem_escape (key : List Char) : '/' ∉ escape key := by
  induction key with
  | nil => exact List.not_mem_nil
  | cons c key ih =>
    rw [escape_cons, List.mem_append, not_or]
    refine ⟨?_, ih⟩
    split_ifs with htilde hslash
    · decide
    · decide
    · simpa [eq_comm] using hslash

/-- The slashes come back first. No tilde of the key is touched: a zero follows each of them. -/
theorem replaceAll_escape (key : List Char) :
    Text.replaceAll ['~', '1'] ['/'] (escape key) = Text.replaceAll ['~'] ['~', '0'] key := by
  induction key with
  | nil => rfl
  | cons c key ih =>
    rw [Text.replaceAll_singleton] at ih ⊢
    rw [escape_cons, List.flatMap_cons, ← ih]
    split_ifs with htilde hslash
    · exact (Text.replaceAll_pair_of_other (by decide) _ _).trans
        (congrArg _ (Text.replaceAll_pair_of_ne (by decide) _ _))
    · rw [hslash]
      exact Text.replaceAll_pair _ _ _ _
    · exact Text.replaceAll_pair_of_ne htilde _ _

/-- Then the tildes come back. -/
theorem replaceAll_tildes (key : List Char) :
    Text.replaceAll ['~', '0'] ['~'] (Text.replaceAll ['~'] ['~', '0'] key) = key := by
  induction key with
  | nil => rfl
  | cons c key ih =>
    rw [Text.replaceAll_singleton] at ih ⊢
    rw [List.flatMap_cons]
    split_ifs with htilde
    · rw [htilde]
      exact (Text.replaceAll_pair _ _ _ _).trans (congrArg _ ih)
    · exact (Text.replaceAll_pair_of_ne htilde _ _).trans (congrArg _ ih)

/-- **A segment denotes the key that it was written for.** -/
theorem unescape_escape (key : List Char) : unescape (escape key) = key := by
  rw [unescape, replaceAll_escape, replaceAll_tildes]

/-- The key that a segment denotes. -/
def keyOf (segment : List Char) : String := String.ofList (unescape segment)

/-- The reference that keys are written as: a segment for each, with slashes between them. -/
def pointer (ks : List String) : String :=
  String.ofList ('#' :: '/' :: Text.joinWith ['/'] (ks.map fun k => escape k.toList))

theorem keys?_of_toList {ref : String} {rest : List Char} (h : ref.toList = '#' :: '/' :: rest) :
    keys? ref = some ((Text.splitOn '/' rest).map keyOf) := by
  rw [keys?, h]
  rfl

/-- **A pointer is read as the keys that it was written for.** -/
theorem keys?_pointer (hne : ks ≠ []) : keys? (pointer ks) = some ks := by
  have hsegments : ∀ s ∈ ks.map fun k => escape k.toList, '/' ∉ s := by
    intro s hs
    obtain ⟨k, -, rfl⟩ := List.mem_map.1 hs
    exact slash_notMem_escape k.toList
  have hkeys : (keyOf ∘ fun k : String => escape k.toList) = id := by
    funext k
    rw [Function.comp_apply, keyOf, unescape_escape, String.ofList_toList, id]
  rw [pointer, keys?_of_toList String.toList_ofList,
    Text.splitOn_joinWith hsegments (by simpa using hne),
    List.map_map, hkeys, List.map_id]

/-! ### References that are resolved -/

theorem resolve_eq_ok_iff {ref : String} :
    resolve doc ref = .ok v ↔ ∃ ks, keys? ref = some ks ∧ Leads doc ks v := by
  simp only [resolve_eq_ok, descend_eq_some_iff]

/-- A local reference that leads nowhere is refused in its own name. -/
theorem resolve_eq_error {ref : String} (hkeys : keys? ref = some ks)
    (hno : ∀ v, ¬ Leads doc ks v) :
    resolve doc ref = .error (.spec .unresolvableReference ref) := by
  have hnone : descend ks doc = none :=
    Option.eq_none_iff_forall_not_mem.2 fun v hv => hno v (descend_eq_some_iff.1 hv)
  rw [resolve, hkeys]
  simp only [hnone]

/-- **References and the keys that they are written for.** The pointer of any keys that lead to a
value resolves to that value. A reference that begins with `#/`, whatever follows, resolves to the
value that the keys of its segments lead to, and is refused in its own name if they lead to none. -/
theorem resolve_leads (doc : Value) :
    (∀ ks v, ks ≠ [] → Leads doc ks v → resolve doc (pointer ks) = .ok v) ∧
      ∀ ref rest, ref.toList = '#' :: '/' :: rest →
        (∃ v, resolve doc ref = .ok v ∧ Leads doc ((Text.splitOn '/' rest).map keyOf) v) ∨
          resolve doc ref = .error (.spec .unresolvableReference ref) ∧
            ∀ v, ¬ Leads doc ((Text.splitOn '/' rest).map keyOf) v := by
  refine ⟨fun ks v hne hleads => resolve_eq_ok_iff.2 ⟨ks, keys?_pointer hne, hleads⟩, ?_⟩
  intro ref rest href
  have hkeys := keys?_of_toList href
  by_cases hleads : ∃ v, Leads doc ((Text.splitOn '/' rest).map keyOf) v
  · obtain ⟨v, hv⟩ := hleads
    exact .inl ⟨v, resolve_eq_ok_iff.2 ⟨_, hkeys, hv⟩, hv⟩
  · have hno := not_exists.1 hleads
    exact .inr ⟨resolve_eq_error hkeys hno, hno⟩

/-- Keys that are empty, hold a slash, and look like an escape. -/
def knottedKeys : List String := ["", "a/b", "~01", "~1"]

/-- A document in which they lead to a number. -/
def knottedDocument : Value :=
  .record [("", .record [("a/b", .record [("~01", .record [("~1", .int 7)])]),
    ("a~1b", .int 8)])]

theorem resolve_leads_knotted :
    Leads knottedDocument knottedKeys (.int 7) ∧ pointer knottedKeys = "#//a~1b/~001/~01" ∧
      resolve knottedDocument "#//a~1b/~001/~01" = .ok (.int 7) ∧
      resolve knottedDocument "#//a~1b/~01" =
        .error (.spec .unresolvableReference "#//a~1b/~01") := by
  have hleads : Leads knottedDocument knottedKeys (.int 7) :=
    .through rfl (.through rfl (.through rfl (.through rfl (.here _))))
  have hpointer : pointer knottedKeys = "#//a~1b/~001/~01" := by decide +kernel
  obtain ⟨written, read⟩ := resolve_leads knottedDocument
  refine ⟨hleads, hpointer, hpointer ▸ written knottedKeys (.int 7) nofun hleads, ?_⟩
  rcases read "#//a~1b/~01" "/a~1b/~01".toList (by decide) with ⟨v, -, hv⟩ | ⟨herror, -⟩
  · have hkeys : (Text.splitOn '/' "/a~1b/~01".toList).map keyOf = ["", "a/b", "~1"] := by
      decide +kernel
    have hnone : descend ["", "a/b", "~1"] knottedDocument = none := by decide +kernel
    rw [hkeys, ← descend_eq_some_iff, hnone] at hv
    cases hv
  · exact herror

end ApiScaffold.Reference
