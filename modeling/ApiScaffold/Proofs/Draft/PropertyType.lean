import ApiScaffold.Proofs.Compile.ImportedModels
import ApiScaffold.Proofs.Draft.LiteralUnion

/-!
# Types of properties

The type of a property comes from its reference, its enumeration, its items or its declared type.
A shape that gives no type is meant to fall back to the declared type, and that to `unknown`.

* `WellTyped`: references are texts, declared types are texts, null or lists of these, and
  enumerations are lists;
* `expectedType` follows the fallback through every shape, and is never empty;
* `MissesFallback` lists the shapes in which the fallback is not taken: a reference that names no
  class, an enumeration without literals or with one that has no text, and a list of types in items;
* `fieldDraft_expectedType`: a well-typed property has the expected type exactly if it is none of
  these.
-/

namespace ApiScaffold

open Draft

/-! ### Properties that have a type -/

/-- The name of a type, or null. -/
def isTypeName : Value → Bool
  | .text _ => true
  | .null => true
  | _ => false

/-- The name of a type or a list of such names. -/
def declaresType (v : Value) : Bool :=
  match v.items? with
  | some types => types.all isTypeName
  | none => isTypeName v

/-- Reference, enumeration and declared type are of the right kinds, where they are there. -/
def hasTypeParts (v : Value) : Bool :=
  (v.field? "$ref").all Value.isText &&
    (v.field? "enum").all (fun values => values.items?.isSome) &&
    (v.field? "type").all declaresType

/-- A property of well-formed parts, with well-formed items if it has items. -/
structure WellTyped (prop : Value) : Prop where
  own : hasTypeParts prop = true
  items : ∀ items, prop.field? "items" = some items → hasTypeParts items = true

theorem text_of_hasTypeParts {v ref : Value} (h : hasTypeParts v = true)
    (href : v.field? "$ref" = some ref) : ∃ s, ref = .text s := by
  simp only [hasTypeParts, href, Option.all_some, Bool.and_eq_true] at h
  have htext := h.1.1
  unfold Value.isText at htext
  split at htext
  · exact ⟨_, rfl⟩
  · cases htext

theorem items?_of_hasTypeParts {v values : Value} (h : hasTypeParts v = true)
    (henum : v.field? "enum" = some values) : ∃ vs, values.items? = some vs := by
  simp only [hasTypeParts, henum, Option.all_some, Bool.and_eq_true] at h
  exact Option.isSome_iff_exists.1 h.1.2

theorem declaresType_of_hasTypeParts {v type : Value} (h : hasTypeParts v = true)
    (htype : v.field? "type" = some type) : declaresType type = true := by
  simp only [hasTypeParts, htype, Option.all_some, Bool.and_eq_true] at h
  exact h.2

/-- A declared type that counts as present is a list or a text. -/
theorem type_of_hasTypeParts {v type : Value} (h : hasTypeParts v = true)
    (htype : Value.present? (v.field? "type") = some type) :
    (∃ types, type.items? = some types) ∨ ∃ s, type = .text s := by
  have hpresent := isTruthy_of_present? htype
  have hdeclares : declaresType type = true := by
    cases hfield : v.field? "type" with
    | none =>
      rw [hfield] at htype
      cases htype
    | some w =>
      rw [hfield, Value.present?] at htype
      split_ifs at htype
      obtain rfl := Option.some.inj htype
      exact declaresType_of_hasTypeParts h hfield
  unfold declaresType at hdeclares
  split at hdeclares
  · next types htypes => exact .inl ⟨types, htypes⟩
  · unfold isTypeName at hdeclares
    split at hdeclares
    · exact .inr ⟨_, rfl⟩
    · cases hpresent
    · cases hdeclares

/-- The declared type of a well-typed property is a name or null, also if it declares a list. -/
theorem isTypeName_declaredType {prop : Value} (h : hasTypeParts prop = true) :
    isTypeName (declaredType prop) = true := by
  have hdeclares : declaresType ((prop.field? "type").getD .null) = true := by
    cases htype : prop.field? "type" with
    | none => rfl
    | some type => exact declaresType_of_hasTypeParts h htype
  unfold declaresType at hdeclares
  unfold declaredType
  dsimp only
  revert hdeclares
  cases ((prop.field? "type").getD .null).items? with
  | none => exact id
  | some types =>
    intro hall
    change isTypeName ((types.find? fun t => !isNullWord t).getD .null) = true
    cases hfind : types.find? fun t => !isNullWord t with
    | none => rfl
    | some t => exact List.all_eq_true.1 hall t (List.mem_of_find?_eq_some hfind)

/-! ### The expected type -/

/-- The text of a declared type: integers are numbers, and what names no type is unknown. -/
def declaredText : Value → String
  | .text s => if s = "" then fallbackType else if s = "integer" then "number" else s
  | _ => fallbackType

/-- The class that a reference names, if its last segment is not empty. -/
def classNamed? (ref : Value) : Option String :=
  (Reference.className ref).toOption.filter (· ≠ "")

/-- The union of literals, if there are any and all of them have a text. -/
def literalsOf? (values : Value) : Option String :=
  (literalUnion values).toOption.filter (· ≠ "")

/-- The type of an array by its items, if they give one. -/
def elementsType? (items : Value) : Option String :=
  match items.field? "$ref" with
  | some ref => (classNamed? ref).map (· ++ "[]")
  | none =>
    match items.field? "enum" with
    | some values => literalsOf? values
    | none =>
      match Value.present? (items.field? "type") with
      | some (.text s) => some (declaredText (.text s) ++ "[]")
      | _ => none

/-- The type of a property by its reference, its enumeration or its items, if they give one. -/
def resolvedType? (prop : Value) : Option String :=
  match prop.field? "$ref" with
  | some ref => classNamed? ref
  | none =>
    match prop.field? "enum" with
    | some values => literalsOf? values
    | none => (prop.field? "items").bind elementsType?

/-- The type of a property, which falls back to the declared type. -/
def expectedType (prop : Value) : String :=
  (resolvedType? prop).getD (declaredText (declaredType prop))

theorem declaredText_ne_empty (v : Value) : declaredText v ≠ "" := by
  unfold declaredText
  split
  · split_ifs with hempty
    · decide
    · decide
    · exact hempty
  · decide

theorem brackets_ne_empty (s : String) : s ++ "[]" ≠ "" := by
  intro h
  have := congrArg String.length h
  simp at this

theorem ne_empty_of_filter {x : Option String} {t : String} (h : x.filter (· ≠ "") = some t) :
    t ≠ "" := by
  simpa using (Option.filter_eq_some_iff.1 h).2

theorem ne_empty_of_elementsType? {items : Value} {t : String} (h : elementsType? items = some t) :
    t ≠ "" := by
  unfold elementsType? at h
  split at h
  · obtain ⟨n, -, rfl⟩ := Option.map_eq_some_iff.1 h
    exact brackets_ne_empty n
  · split at h
    · exact ne_empty_of_filter h
    · split at h
      · obtain rfl := Option.some.inj h
        exact brackets_ne_empty _
      · cases h

/-- **The expected type is never empty.** -/
theorem expectedType_ne_empty (prop : Value) : expectedType prop ≠ "" := by
  unfold expectedType
  cases hresolved : resolvedType? prop with
  | none => exact declaredText_ne_empty _
  | some t =>
    rw [Option.getD_some]
    unfold resolvedType? at hresolved
    split at hresolved
    · exact ne_empty_of_filter hresolved
    · split at hresolved
      · exact ne_empty_of_filter hresolved
      · obtain ⟨items, -, hitems⟩ := Option.bind_eq_some_iff.1 hresolved
        exact ne_empty_of_elementsType? hitems

/-! ### Where the fallback is not taken -/

/-- The list of an enumeration is empty, or one of its literals has no text. -/
@[mk_iff]
inductive Unlisted (values : Value) : Prop
  | empty (hvs : values.items? = some [])
  | member (vs : List Value) (hvs : values.items? = some vs) (v : Value) (hv : v ∈ vs)
      (no : v.written? = none)

/-- Items that give no type, and yet the declared type of the property, which is given as a text, is
not taken. -/
@[mk_iff]
inductive MissesInItems (items : Value) (declared : String) : Prop
  | reference (ref : String) (href : items.field? "$ref" = some (.text ref))
      (no : lastSegment ref = "") (other : declared ≠ "[]")
  | enumeration (hnone : items.field? "$ref" = none) (values : Value)
      (hvalues : items.field? "enum" = some values) (no : Unlisted values)
  | types (hnone : items.field? "$ref" = none) (hplain : items.field? "enum" = none) (t : Value)
      (ht : Value.present? (items.field? "type") = some t) (no : t.items?.isSome = true)

/-- A property that gives no type, and yet its declared type is not taken. -/
@[mk_iff]
inductive MissesFallback (prop : Value) : Prop
  | reference (ref : String) (href : prop.field? "$ref" = some (.text ref))
      (no : lastSegment ref = "")
  | enumeration (hnone : prop.field? "$ref" = none) (values : Value)
      (hvalues : prop.field? "enum" = some values) (no : Unlisted values)
  | items (hnone : prop.field? "$ref" = none) (hplain : prop.field? "enum" = none) (items : Value)
      (hitems : prop.field? "items" = some items)
      (no : MissesInItems items (declaredText (declaredType prop)))

/-- The shape was found and has the type. -/
def HasType (x : Except Fault Shape) (t : String) : Prop := ∃ s, x = .ok s ∧ s.type = .text t

theorem hasType_ok {s : Shape} {t : String} : HasType (.ok s) t ↔ s.type = .text t := by
  simp [HasType]

theorem not_hasType_error {e : Fault} {t : String} : ¬ HasType (.error e) t := by
  simp [HasType]

theorem hasType_map {x : Except Fault String} {f : String → Shape} {g : String → String}
    (hf : ∀ n, (f n).type = .text (g n)) {t : String} :
    HasType (x.map f) t ↔ ∃ n, x = .ok n ∧ g n = t := by
  cases x with
  | error e => simp [HasType, Except.map]
  | ok n => simp [HasType, Except.map, hf]

/-- The name of a type is taken over as its text. -/
theorem renameType_eq {declared : Value} (h : isTypeName declared = true) :
    renameType declared = .ok (.text (declaredText declared)) := by
  unfold isTypeName at h
  split at h
  · next s =>
    by_cases hempty : s = ""
    · subst hempty
      rfl
    · by_cases hint : s = "integer"
      · subst hint
        simp [renameType, declaredText, Value.isTruthy, Scalar.isTruthy, Value.isKey]
      · have hother : Value.text s ≠ .text "integer" := by simpa using hint
        have htruthy : (Value.text s).isTruthy = true := by
          simpa [Value.isTruthy, Scalar.isTruthy] using hempty
        rw [renameType, htruthy, if_neg (by simp), if_neg (by simp [Value.isKey]), declaredText,
          if_neg hempty, if_neg hint]
        exact hother
  · rfl
  · cases h

/-- The literals of a list give a type exactly if there are any and each has a text. -/
theorem literalsOf?_eq_none {values : Value} {vs : List Value} (h : values.items? = some vs) :
    literalsOf? values = none ↔ Unlisted values := by
  have hunlisted : Unlisted values ↔ vs = [] ∨ ∃ v ∈ vs, v.written? = none := by
    simp only [unlisted_iff, h, Option.some.injEq, exists_eq_left']
  rw [hunlisted, ← captions?_eq_some_nil, ← captions?_eq_none, literalsOf?, literalUnion_eq h]
  cases captions? vs with
  | none => simp [Except.toOption]
  | some ts => simp [Except.toOption, Option.filter_some, unionText_eq_empty]

/-- A text that gives the type, unless it is empty, gives the expected one exactly if it is there
and not empty; the fallback is told apart from the type of the empty text. -/
theorem hasType_map_getD {x : Except Fault String} {f : String → Shape} {g : String → String}
    (hf : ∀ n, (f n).type = .text (g n)) {fallback : String} (hne : fallback ≠ g "") :
    HasType (x.map f) (((x.toOption.filter (· ≠ "")).map g).getD fallback) ↔
      x.toOption.filter (· ≠ "") ≠ none := by
  rw [hasType_map hf]
  cases x with
  | error e => simp [Except.toOption]
  | ok n =>
    by_cases hn : n = ""
    · simp [Except.toOption, Option.filter_some, hn, hne.symm]
    · simp [Except.toOption, Option.filter_some, hn]

theorem hasType_union {values : Value} {fallback : String} (hne : fallback ≠ "") {vs : List Value}
    (hvs : values.items? = some vs) :
    HasType ((literalUnion values).map Shape.union) ((literalsOf? values).getD fallback) ↔
      ¬ Unlisted values := by
  have hmap := hasType_map_getD (x := literalUnion values) (f := Shape.union) (g := id)
    (fun _ => rfl) hne
  rw [Option.map_id_fun, id] at hmap
  rw [← literalsOf?_eq_none hvs]
  exact hmap

theorem classNamed?_eq_none {ref : String} :
    classNamed? (.text ref) = none ↔ lastSegment ref = "" := by
  simp [classNamed?, Reference.className, Except.toOption, Option.filter_some, lastSegment]

/-- A list is no name of a type and cannot be renamed as one. -/
theorem renameType_of_items? {t : Value} {types : List Value} (h : t.items? = some types)
    (ht : t.isTruthy = true) : renameType t = .error (.misuse .wrongKind) := by
  have hkey : t.isKey = false := by
    cases t with
    | list items => rfl
    | numbered n v => rfl
    | scalar s => cases h
    | dict es => cases h
    | keys ks => cases h
    | pair a b => cases h
  unfold renameType
  rw [ht, hkey]
  rfl

/-- The items of an array give the expected type, or the declared type stands in for them, unless
they are among those that miss it. -/
theorem hasType_arrayShape {items declared : Value} (hitems : hasTypeParts items = true)
    (hdeclared : isTypeName declared = true) :
    HasType (arrayShape items declared) ((elementsType? items).getD (declaredText declared)) ↔
      ¬ MissesInItems items (declaredText declared) := by
  rw [missesInItems_iff, arrayShape, elementsType?]
  cases href : items.field? "$ref" with
  | some w =>
    obtain ⟨ref, rfl⟩ := text_of_hasTypeParts hitems href
    have hname : Reference.className (.text ref) = .ok (lastSegment ref) := rfl
    dsimp only
    rw [hname]
    by_cases hempty : lastSegment ref = ""
    · rw [classNamed?_eq_none.2 hempty, hempty]
      have htype : HasType (.ok (Shape.references "")) (declaredText declared) ↔
          declaredText declared = "[]" := by
        rw [hasType_ok]
        exact ⟨fun h => (Scalar.text.inj (Value.scalar.inj h)).symm, fun h => by rw [h]; rfl⟩
      refine htype.trans ?_
      simp [hempty]
    · have hclass : classNamed? (.text ref) = some (lastSegment ref) := by
        simp [classNamed?, hname, Except.toOption, Option.filter_some, hempty]
      rw [hclass]
      simp [Except.map, hasType_ok, Shape.references, hempty]
  | none =>
    cases henum : items.field? "enum" with
    | some values =>
      obtain ⟨vs, hvs⟩ := items?_of_hasTypeParts hitems henum
      refine (hasType_union (declaredText_ne_empty declared) hvs).trans ?_
      simp
    | none =>
      cases htype : Value.present? (items.field? "type") with
      | none =>
        rw [renameType_eq hdeclared]
        simp [Except.map, hasType_ok, Shape.plain]
      | some t =>
        have hpresent := isTruthy_of_present? htype
        rcases type_of_hasTypeParts hitems htype with ⟨types, hlist⟩ | ⟨s, rfl⟩
        · simp [renameType_of_items? hlist hpresent, not_hasType_error, hlist]
        · have hlist : (Value.text s).items? = none := rfl
          have htext : textOf (.text (declaredText (.text s))) = .ok (declaredText (.text s)) := rfl
          simp [@renameType_eq (.text s) rfl, htext, hlist, Except.map, hasType_ok,
            Shape.plain]

/-! ### Properties -/

theorem hasType_shapeOf {prop : Value} (h : WellTyped prop) :
    HasType (shapeOf prop) (expectedType prop) ↔ ¬ MissesFallback prop := by
  have hdeclared := isTypeName_declaredType h.own
  have hfallback := declaredText_ne_empty (declaredType prop)
  rw [missesFallback_iff, shapeOf, expectedType, resolvedType?]
  cases href : prop.field? "$ref" with
  | some w =>
    obtain ⟨ref, rfl⟩ := text_of_hasTypeParts h.own href
    have hmap := hasType_map_getD (x := Reference.className (.text ref)) (f := Shape.reference)
      (g := id) (fun _ => rfl) hfallback
    rw [Option.map_id_fun, id] at hmap
    refine hmap.trans ((not_congr classNamed?_eq_none).trans ?_)
    simp
  | none =>
    cases henum : prop.field? "enum" with
    | some values =>
      obtain ⟨vs, hvs⟩ := items?_of_hasTypeParts h.own henum
      refine (hasType_union hfallback hvs).trans ?_
      simp
    | none =>
      cases hitems : prop.field? "items" with
      | some items =>
        refine (hasType_arrayShape (h.items items hitems) hdeclared).trans ?_
        simp
      | none =>
        rw [renameType_eq hdeclared]
        simp [Except.map, hasType_ok, Shape.plain]

/-- **Where a property gets a type.** The type that is expected of a well-typed property is never
empty, and the property is compiled with that type exactly if it is none of the shapes that miss the
fallback. -/
theorem fieldDraft_expectedType {prop : Value} (h : WellTyped prop) (name : String) :
    expectedType prop ≠ "" ∧
      ((∃ d, fieldDraft name prop = .ok d ∧ d.type = .text (expectedType prop)) ↔
        ¬ MissesFallback prop) := by
  refine ⟨expectedType_ne_empty prop, ?_⟩
  rw [← hasType_shapeOf h, fieldDraft]
  cases shapeOf prop with
  | error e => simp [Except.map, HasType]
  | ok s => simp [Except.map, HasType]

/-- An array of elements that may be of two sizes. -/
def sizesProperty : Value := .record
  [("type", .list [.text "null", .text "array"]),
    ("items", .record [("enum", .list [.text "small", .bool true])])]

theorem fieldDraft_expectedType_sizes :
    (WellTyped sizesProperty ∧ ¬ MissesFallback sizesProperty) ∧
      ∃ d, fieldDraft "sizes" sizesProperty = .ok d ∧
        d.type = .text "\x22small\x22 | \x22true\x22" := by
  have typed : WellTyped sizesProperty :=
    ⟨by decide +kernel, fun items hitems => by obtain rfl := Option.some.inj hitems; decide +kernel⟩
  have resolved : ¬ MissesFallback sizesProperty := by
    intro hmiss
    cases hmiss with
    | reference ref href => cases href
    | enumeration _ values hvalues => cases hvalues
    | items _ _ items hitems no =>
      obtain rfl := Option.some.inj hitems
      cases no with
      | reference ref href => cases href
      | types _ hplain => cases hplain
      | enumeration _ values hvalues no =>
        obtain rfl := Option.some.inj hvalues
        cases no with
        | empty hvs => cases hvs
        | member vs hvs v hv no =>
          obtain rfl := Option.some.inj hvs
          rcases List.mem_pair.1 hv with rfl | rfl
          · cases no
          · cases no
  have expected : expectedType sizesProperty = "\x22small\x22 | \x22true\x22" := by
    decide +kernel
  exact ⟨⟨typed, resolved⟩,
    expected ▸ (fieldDraft_expectedType typed "sizes").2.2 resolved⟩

/-- A property whose enumeration is empty. -/
def bareProperty : Value := .record [("type", .text "string"), ("enum", .list [])]

theorem bareProperty_empty :
    ¬ (∀ prop, WellTyped prop → ∀ name, ∃ d t, fieldDraft name prop = .ok d ∧ d.type = .text t ∧
        t ≠ "") ∧
      compileModel {} (.text "Pet") (.record [("properties", .record [("kind", bareProperty)])]) =
        .error (.invalidNode .model "Pet"
          [⟨.emptyText, [.key "fields", .index 0, .key "type"]⟩]) := by
  have typed : WellTyped bareProperty := ⟨by decide +kernel, nofun⟩
  refine ⟨fun h => ?_, by decide +kernel⟩
  obtain ⟨d, t, hd, ht, hne⟩ := h bareProperty typed "kind"
  obtain rfl := Except.ok.inj hd
  exact hne (Scalar.text.inj (Value.scalar.inj ht)).symm

end ApiScaffold
