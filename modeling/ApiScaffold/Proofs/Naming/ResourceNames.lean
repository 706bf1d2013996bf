import ApiScaffold.Proofs.Compile.Fresh
import ApiScaffold.Proofs.Naming.Singular
import ApiScaffold.Render.ControllerFile

/-!
# Resources, their classes and the fields that hold them

The resource of a path is named after the first segment of the path, and its classes and the field
in which a controller keeps its service are named after the resource.

* `resourceName_eq_nil_iff`: a resource has a name unless its segment has no letter or digit, and
  `casing_keeps_letters` says so together with what each step towards the name keeps;
* `find?_singular`: the singular begins in a letter exactly if the segment does;
* `declarable_iff_startsInLetter`: exactly then the names of the classes and of the field can be
  declared. Up to case, the field is always named as the class.
-/

namespace ApiScaffold

open Draft Naming

namespace Naming

/-! ### The singular of a segment -/

/-- A name stays as it is, or its last word becomes a word. -/
theorem singular_cases (cs : List Char) :
    singular cs = cs ∨ ∃ front w n x, cs = front ++ w ++ n ∧ singular cs = front ++ x ∧
      IsLetterWord w ∧ IsLetterWord x := by
  by_cases hnone : finalLetters cs = []
  · exact .inl (singular_of_no_letters hnone)
  · obtain ⟨front, w, n, h⟩ := exists_endsInWord hnone
    refine .inr ⟨front, w, n, _, h.eq, by rw [h.singular_eq, List.append_assoc], h.isLetterWord, ?_⟩
    refine .append (fun c hc => ?_) h.isLetterWord.singularWord
    split_ifs at hc
    · exact h.isLetterWord.2 c (List.mem_of_mem_take hc)
    · cases hc

theorem find?_of_isLetterWord {w : List Char} (hw : IsLetterWord w) (back : List Char) :
    ((w ++ back).find? Char.isAlphanum).map Char.isAlpha = some true := by
  obtain ⟨c, ds, rfl⟩ := List.exists_cons_of_ne_nil hw.1
  have hc : c.isAlpha = true := hw.2 c List.mem_cons_self
  rw [List.cons_append, List.find?_cons_of_pos (isAlphanum_of_isAlpha hc), Option.map_some, hc]

/-- **The first letter or digit of a name** is a letter exactly if that of its singular is one. -/
theorem find?_singular (cs : List Char) :
    ((singular cs).find? Char.isAlphanum).map Char.isAlpha =
      (cs.find? Char.isAlphanum).map Char.isAlpha := by
  obtain heq | ⟨front, w, n, x, hcs, hsingular, hw, hx⟩ := singular_cases cs
  · rw [heq]
  · have hback := find?_of_isLetterWord hx []
    rw [List.append_nil] at hback
    rw [hsingular, hcs, List.append_assoc, List.find?_append, List.find?_append]
    cases front.find? Char.isAlphanum with
    | none => rw [Option.none_or, Option.none_or, hback, find?_of_isLetterWord hw]
    | some c => rfl

/-! ### The name of a resource -/

/-- Texts that are the same up to case begin alike. -/
theorem head?_of_lower_eq {cs ds : List Char} (h : lower cs = lower ds) :
    cs.head?.map Char.isAlpha = ds.head?.map Char.isAlpha := by
  have hhead := congrArg (fun t => (List.head? t).map Char.isAlpha) h
  simpa [lower, Function.comp_def] using hhead

theorem head?_resourceName (path : List Char) :
    (resourceName path).head?.map Char.isAlpha =
      ((firstSegment path).find? Char.isAlphanum).map Char.isAlpha := by
  rw [resourceName, head?_of_lower_eq (lower_pascalCase _), List.head?_filter, find?_singular]

/-- **Which paths belong to no resource.** -/
theorem resourceName_eq_nil_iff (path : List Char) :
    resourceName path = [] ↔ ∀ c ∈ firstSegment path, c.isAlphanum = false := by
  have hhead := head?_resourceName path
  rw [← List.head?_eq_none_iff, ← Option.map_eq_none_iff (f := Char.isAlpha), hhead,
    Option.map_eq_none_iff, List.find?_eq_none]
  simp

end Naming

/-- Names are put in another case, and paths are given to resources, without losing a letter or a
digit. -/
theorem casing_keeps_letters :
    (∀ cs : List Char, (∀ w ∈ splitWords cs, w ≠ [] ∧ ∀ c ∈ w, c.isAlphanum = true) ∧
      (splitWords cs).flatten = cs.filter Char.isAlphanum ∧
      lower (pascalCase cs) = lower (cs.filter Char.isAlphanum) ∧
      lower (camelCase cs) = lower (cs.filter Char.isAlphanum)) ∧
    ∀ path : String, (∀ c ∈ resourceName path.toList, c.isAlphanum = true) ∧
      (∀ c, (resourceName path.toList).head? = some c → c.isLower = false) ∧
      (resourceName path.toList = [] ↔ ∀ c ∈ firstSegment path.toList, c.isAlphanum = false) ∧
      ∀ doc item, pathDraft doc path item =
        if (firstSegment path.toList).any Char.isAlphanum then
          (methodDrafts doc path item).map fun ms => (resourceOf path, ⟨path, ms⟩)
        else .error (.spec .rootPath path) := by
  refine ⟨fun cs => ⟨fun w hw => ⟨?_, fun c hc => isAlphanum_of_mem_splitWords hw hc⟩,
    flatten_splitWords cs, lower_pascalCase cs, lower_camelCase cs⟩, fun path =>
    ⟨fun c hc => isAlphanum_of_mem_resourceName hc, fun c hc => isLower_head_pascalCase hc,
      resourceName_eq_nil_iff _, fun doc item => ?_⟩⟩
  · rintro rfl
    exact nil_notMem_splitWords cs hw
  · have hempty : resourceOf path = "" ↔ ¬(firstSegment path.toList).any Char.isAlphanum := by
      rw [resourceOf, ← String.toList_inj, String.toList_ofList]
      simpa using resourceName_eq_nil_iff path.toList
    rw [pathDraft_eq]
    by_cases hroot : resourceOf path = ""
    · rw [if_pos hroot, if_neg (hempty.1 hroot)]
    · rw [if_neg hroot, if_pos (not_not.1 fun h => hroot (hempty.2 h))]

/-- A phrase of several words, a path whose resource begins in a digit, and one without a
resource. -/
theorem casing_keeps_letters_twoFactor :
    ("HTTP".toList ∈ splitWords "HTTPServer-v2".toList ∧ ∀ c ∈ "HTTP".toList, c.isAlphanum = true) ∧
      lower (camelCase "HTTPServer-v2".toList) = "httpserverv2".toList ∧
      ('2' ∈ resourceName "/2fa-codes".toList ∧ '2'.isAlphanum = true) ∧
      ((resourceName "/2fa-codes".toList).head? = some '2' ∧ '2'.isLower = false) ∧
      (∀ c ∈ firstSegment "/--/{id}".toList, c.isAlphanum = false) ∧
      resourceName "/--/{id}".toList = [] ∧
      pathDraft .null "/--/{id}" [] = .error (.spec .rootPath "/--/{id}") := by
  obtain ⟨hcasing, hpath⟩ := casing_keeps_letters
  obtain ⟨hwords, -, -, hcamel⟩ := hcasing "HTTPServer-v2".toList
  obtain ⟨hchars, hhead, -, -⟩ := hpath "/2fa-codes"
  obtain ⟨-, -, hnil, hdraft⟩ := hpath "/--/{id}"
  have hword : "HTTP".toList ∈ splitWords "HTTPServer-v2".toList := by decide
  have hmem : '2' ∈ resourceName "/2fa-codes".toList := by decide
  have hfirst : (resourceName "/2fa-codes".toList).head? = some '2' := by decide
  have hnone : ∀ c ∈ firstSegment "/--/{id}".toList, c.isAlphanum = false := by
    rw [show firstSegment "/--/{id}".toList = ['-', '-'] by decide]
    simp
  refine ⟨⟨hword, (hwords _ hword).2⟩, hcamel.trans (by decide), ⟨hmem, hchars _ hmem⟩,
    ⟨hfirst, hhead _ hfirst⟩, hnone, hnil.2 hnone, (hdraft _ _).trans ?_⟩
  rw [if_neg (by decide)]

/-! ### Names that can be declared -/

/-- The words that name neither a class nor a parameter: those of the language, those that strict
code reserves besides, and the types that are built in. -/
def reservedWords : List String := [
  "await", "break", "case", "catch", "class", "const", "continue", "debugger", "default", "delete",
  "do", "else", "enum", "export", "extends", "false", "finally", "for", "function", "if", "import",
  "in", "instanceof", "new", "null", "return", "super", "switch", "this", "throw", "true", "try",
  "typeof", "var", "void", "while", "with", "yield",
  "arguments", "eval", "implements", "interface", "let", "package", "private", "protected",
  "public", "static",
  "any", "bigint", "boolean", "never", "number", "object", "string", "symbol", "undefined",
  "unknown"]

/-- A text that can be declared as a name: an identifier that is none of the reserved words. -/
structure Declarable (cs : List Char) : Prop where
  identifier : Render.isIdentifier cs = true
  unreserved : ∀ w ∈ reservedWords, cs ≠ w.toList

/-- The first letter or digit of the first segment of a path is a letter. -/
def StartsInLetter (path : String) : Prop :=
  ∃ c, (firstSegment path.toList).find? Char.isAlphanum = some c ∧ c.isAlpha = true

/-- Letters and digits make an identifier exactly if the first of them is a letter. -/
theorem isIdentifier_iff {cs : List Char} (h : ∀ c ∈ cs, c.isAlphanum = true) :
    Render.isIdentifier cs = true ↔ cs.head?.map Char.isAlpha = some true := by
  cases cs with
  | nil => simp [Render.isIdentifier]
  | cons c ds =>
    obtain ⟨hc, hds⟩ := List.forall_mem_cons.1 h
    have hrest : ds.all Text.isIdentifierChar = true := List.all_eq_true.2 fun d hd => by
      rw [Text.isIdentifierChar, isWordChar_of_isAlphanum (hds d hd), Bool.true_or]
    have hsigns : c ≠ '_' ∧ c ≠ '$' := by
      constructor <;>
        · rintro rfl
          exact absurd hc (by decide)
    simp [Render.isIdentifier, Text.isIdentifierStart, hrest, hsigns]

/-- No reserved word ends like a class of a service or a controller. -/
theorem suffix_notMem_reserved : ∀ role ∈ [Role.service, .controller], ∀ w ∈ reservedWords,
    ¬lower role.suffix.toList <:+ lower w.toList := by decide

/-- Up to case a name is that of a class: it can be declared exactly if it begins in a letter. -/
theorem declarable_iff {cs : List Char} {name : String} {role : Role}
    (hrole : role ∈ [Role.service, .controller]) (hcs : ∀ c ∈ cs, c.isAlphanum = true)
    (hlower : lower cs = lower (className name role).toList) :
    Declarable cs ↔ (className name role).toList.head?.map Char.isAlpha = some true := by
  rw [← head?_of_lower_eq hlower, ← isIdentifier_iff hcs]
  refine ⟨fun h => h.identifier, fun h => ⟨h, ?_⟩⟩
  rintro w hw rfl
  refine suffix_notMem_reserved role hrole w hw ?_
  rw [hlower, className, String.toList_append, lower_append]
  exact List.suffix_append _ _

section Group

variable {doc : Value} {groups : List Group} {g : Group} {p : PathDraft}

/-- The class of a resource begins in a letter exactly if the path of the resource does. -/
theorem head?_className (h : groupOperations doc = .ok groups) (hg : g ∈ groups)
    (hp : p ∈ g.paths) (role : Role) :
    (className g.name role).toList.head?.map Char.isAlpha = some true ↔ StartsInLetter p.path := by
  have hresource : resourceName p.path.toList = g.name.toList := by
    rw [← ((mem_groupOperations h hg).2 p hp).2, resourceOf, String.toList_ofList]
  have hne : g.name.toList ≠ [] := fun hnil =>
    name_ne_of_mem_groupOperations h hg (String.toList_inj.1 (hnil.trans rfl))
  rw [className, String.toList_append, List.head?_append_of_ne_nil _ hne, ← hresource,
    head?_resourceName, Option.map_eq_some_iff, StartsInLetter]

theorem isAlphanum_of_mem_suffix (role : Role) :
    ∀ c ∈ role.suffix.toList, c.isAlphanum = true := by
  cases role <;> simp [Role.suffix]

theorem isAlphanum_of_mem_className (h : groupOperations doc = .ok groups) (hg : g ∈ groups)
    (role : Role) : ∀ c ∈ (className g.name role).toList, c.isAlphanum = true := by
  intro c hc
  rw [className, String.toList_append] at hc
  exact (List.mem_append.1 hc).elim (isAlphanum_of_mem_groupName h hg)
    (isAlphanum_of_mem_suffix role c)

/-- **Which resources have classes and a field that can be declared:** those of a path whose first
letter or digit is a letter. In any case the field is named as the class of the service is, up to
case. -/
theorem declarable_iff_startsInLetter (h : groupOperations doc = .ok groups) (hg : g ∈ groups)
    (hp : p ∈ g.paths) {c : Controller} (hc : c.name = g.name) :
    (Declarable (className g.name .service).toList ↔ StartsInLetter p.path) ∧
      (Declarable (className g.name .controller).toList ↔ StartsInLetter p.path) ∧
      (Declarable (Render.serviceField c) ↔ StartsInLetter p.path) ∧
      lower (Render.serviceField c) = lower (className g.name .service).toList := by
  have hchars := isAlphanum_of_mem_className h hg
  have hfield : Render.serviceField c = camelCase (className g.name .service).toList := by
    rw [Render.serviceField, Controller.serviceClass, hc]
    rfl
  have hlower : lower (Render.serviceField c) = lower (className g.name .service).toList := by
    rw [hfield, lower_camelCase, List.filter_eq_self.2 (hchars .service)]
  refine ⟨?_, ?_, ?_, hlower⟩
  · rw [declarable_iff (by simp) (hchars .service) rfl, head?_className h hg hp]
  · rw [declarable_iff (by simp) (hchars .controller) rfl, head?_className h hg hp]
  · rw [declarable_iff (by simp) (fun d hd => isAlphanum_of_mem_camelCase (hfield ▸ hd)) hlower,
      head?_className h hg hp]

end Group

/-- Operations on pets and on the second factor of a login. -/
def petsAndFactors : Value := .record [("paths", .record
  [("/pets", .record [("get", .record [("operationId", .text "listPets")])]),
    ("/2fa", .record [("post", .record [("operationId", .text "sendCode")])])])]

theorem exists_group_of_pets (name path : String)
    (h : ∃ g ∈ (groupOperations petsAndFactors).toOption.getD [],
      g.name = name ∧ ∃ p ∈ g.paths, p.path = path) :
    ∃ groups, groupOperations petsAndFactors = .ok groups ∧
      ∃ g ∈ groups, g.name = name ∧ ∃ p ∈ g.paths, p.path = path := by
  cases hgroups : groupOperations petsAndFactors with
  | error e =>
    rw [hgroups] at h
    obtain ⟨g, hg, -⟩ := h
    cases hg
  | ok groups =>
    rw [hgroups] at h
    exact ⟨groups, rfl, h⟩

/-- The classes of pets can be declared. -/
theorem declarable_iff_startsInLetter_pets :
    ∃ groups, groupOperations petsAndFactors = .ok groups ∧ ∃ g ∈ groups, g.name = "Pet" ∧
      ∃ p ∈ g.paths, p.path = "/pets" ∧ Declarable (className "Pet" .service).toList ∧
        Declarable (className "Pet" .controller).toList ∧
        Declarable (Render.serviceField ⟨"Pet", "", "/pets", [], []⟩) := by
  obtain ⟨groups, hgroups, g, hg, hname, p, hp, hpath⟩ :=
    exists_group_of_pets "Pet" "/pets" (by decide +kernel)
  have hall := declarable_iff_startsInLetter hgroups hg hp (c := ⟨"Pet", "", "/pets", [], []⟩)
    hname.symm
  have hletter : StartsInLetter p.path := hpath ▸ ⟨'p', by decide, by decide⟩
  rw [hname] at hall
  exact ⟨groups, hgroups, g, hg, hname, p, hp, hpath, hall.1.2 hletter, hall.2.1.2 hletter,
    hall.2.2.1.2 hletter⟩

/-- **A resource that begins in a digit** has classes and a field whose names are no identifiers. -/
theorem twoFactor_not_declarable :
    ∃ groups, groupOperations petsAndFactors = .ok groups ∧ ∃ g ∈ groups, g.name = "2fa" ∧
      ∃ p ∈ g.paths, p.path = "/2fa" ∧ ¬Declarable (className g.name .service).toList ∧
        ¬Declarable (className g.name .controller).toList ∧
        ¬Declarable (camelCase (className g.name .service).toList) := by
  obtain ⟨groups, hgroups, g, hg, hname, p, hp, hpath⟩ :=
    exists_group_of_pets "2fa" "/2fa" (by decide +kernel)
  refine ⟨groups, hgroups, g, hg, hname, p, hp, hpath, ?_, ?_, ?_⟩ <;> rw [hname]
  · exact fun h => absurd h.identifier (by decide)
  · exact fun h => absurd h.identifier (by decide)
  · exact fun h => absurd h.identifier (by decide)

end ApiScaffold
