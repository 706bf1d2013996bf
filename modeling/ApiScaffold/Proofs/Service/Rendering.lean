import ApiScaffold.Proofs.Render.Phrase
import ApiScaffold.Proofs.TypeScript.Layout
import ApiScaffold.Reconcile

/-!
# Rendered service files

* `Spelled` says of a service that its names and texts can stand in a source text as they are,
  `Renderable` that its operations can be told apart there as well;
* `stubOf`, `registration`, `importOf` are the parts of its file, each with the proof that it is
  what it should be;
* `serviceFile_eq`: the file of a service is the layout `newLayout`, which is sound.
-/

namespace ApiScaffold.ServiceFile

open TypeScript

/-! ### What can be rendered as it is -/

/-- The names of the service are words, and its texts hold nothing that ends a string literal. -/
structure Spelled (settings : Settings) (s : Service) : Prop where
  name : IsWord s.name.toList
  methods : ∀ m ∈ s.methods, Render.isIdentifier m.name.toList = true
  bodyTypes : ∀ m ∈ s.methods, ∀ t, m.bodyType? = some t → IsWord t.toList
  importNames : ∀ i ∈ s.imports, IsWord i.name.toList
  importPaths : ∀ i ∈ s.imports, i.path.toList.all isPlainText = true
  extension : settings.extension.toList.all isPlainText = true
  frameworkModule : settings.frameworkModule.toList.all isPlainText = true

/-- The service is spelled so, and its operations have names of their own that no file has for other
members. -/
structure Renderable (settings : Settings) (s : Service) : Prop where
  name : IsWord s.name.toList
  methods : ∀ m ∈ s.methods, Render.isIdentifier m.name.toList = true
  distinct : (s.methods.map (·.name)).Nodup
  unprotected : ∀ m ∈ s.methods, m.name ∉ Reconcile.protectedMembers
  bodyTypes : ∀ m ∈ s.methods, ∀ t, m.bodyType? = some t → IsWord t.toList
  importNames : ∀ i ∈ s.imports, IsWord i.name.toList
  importPaths : ∀ i ∈ s.imports, i.path.toList.all isPlainText = true
  extension : settings.extension.toList.all isPlainText = true
  frameworkModule : settings.frameworkModule.toList.all isPlainText = true

theorem Renderable.spelled {settings : Settings} {s : Service} (h : Renderable settings s) :
    Spelled settings s :=
  ⟨h.name, h.methods, h.bodyTypes, h.importNames, h.importPaths, h.extension, h.frameworkModule⟩

/-- The blanks in front of a method below another. -/
def below : List Char := ['\n', '\n', ' ', ' ']

theorem below_blank : ∀ c ∈ below, c = ' ' ∨ c = '\n' := List.all_iff_forall_prop.1 (by decide)

/-! ### Stubs -/

/-- The body of the stub of an operation. -/
def stubBody (name : String) : List Char :=
  "\n    throw new Error(".toList ++
    ('\x22' :: ((name.toList ++ " is not implemented".toList) ++ ['\x22']) ++ ");\n  ".toList)

/-- The stub of an operation. -/
def stubOf (m : Method) : MethodText :=
  ⟨below, m.name.toList, Render.methodParameters "unknown" m.bodyType?, [], stubBody m.name⟩

theorem fits_stubBody {name : String} (h : Render.isIdentifier name.toList = true) :
    Fits (stubBody name) := by
  obtain ⟨-, -, -, -, hname⟩ := exists_of_isIdentifier h
  have htext : ∀ c ∈ name.toList ++ " is not implemented".toList, isPlainText c = true := by
    have hrest : ∀ c ∈ " is not implemented".toList, isPlainText c = true :=
      List.all_eq_true.1 (by decide)
    intro c hc
    rcases List.mem_append.1 hc with hc | hc
    · exact isPlainText_of_isIdentifierChar (hname c hc)
    · exact hrest c hc
  have hfront : Piece "\n    throw new Error(".toList _ fun _ => True := .of_all (by decide)
  have hback : Piece ");\n  ".toList _ fun _ => True := .of_all (by decide)
  have hliteral : Piece ('\x22' :: ((name.toList ++ " is not implemented".toList) ++ ['\x22'])) _
      fun _ => True := Piece.literal htext
  have hpiece := hfront.append (hliteral.append hback fun _ _ => trivial) fun _ _ => trivial
  have hneutral : Neutral ("\n    throw new Error(".toList ++ ('\x22' ::
      (List.replicate (name.toList ++ " is not implemented".toList).length ' ' ++ ['\x22']) ++
        ");\n  ".toList)) := by
    have hshown : Neutral ('\x22' ::
        (List.replicate (name.toList ++ " is not implemented".toList).length ' ' ++ ['\x22'])) := by
      refine .of_plain fun c hc => ?_
      simp only [List.mem_cons, List.mem_append, List.not_mem_nil, or_false] at hc
      rcases hc with rfl | hc | rfl
      · decide
      · rw [List.eq_of_mem_replicate hc]
        decide
      · decide
    have hcall : Neutral "\n    throw new Error".toList := .of_all (by decide)
    have hend : Neutral ";\n  ".toList := .of_all (by decide)
    have hall := hcall.append (hshown.round.append hend)
    simpa using hall
  exact (Fits.of_piece hpiece trivial hneutral).1

/-- The parameters of a method are plain if its types are words. -/
theorem isHeaderChar_of_mem_methodParameters {context : String} (hcontext : IsWord context.toList)
    {type : Option String} (h : ∀ t, type = some t → IsWord t.toList) {c : Char}
    (hc : c ∈ Render.methodParameters context type) : isHeaderChar c = true := by
  have hconstant : ∀ c ∈ "context: ".toList ++ ", params: unknown".toList ++ ", body: ".toList,
      isHeaderChar c = true := List.all_eq_true.1 (by decide)
  simp only [List.mem_append] at hconstant
  unfold Render.methodParameters at hc
  simp only [List.mem_append] at hc
  rcases hc with ((hc | hc) | hc) | hc
  · exact hconstant c (.inl (.inl hc))
  · exact isHeaderChar_of_isWordChar (hcontext c hc)
  · exact hconstant c (.inl (.inr hc))
  · cases type with
    | none => cases hc
    | some t =>
      -- The parameter for a body is left out if the text of its type is empty.
      dsimp only at hc
      split_ifs at hc
      · cases hc
      · rcases List.mem_append.1 hc with hc | hc
        · exact hconstant c (.inr hc)
        · exact isHeaderChar_of_isWordChar (h t rfl c hc)

theorem sound_stubOf {settings : Settings} {s : Service} (h : Spelled settings s) {m : Method}
    (hm : m ∈ s.methods) : (stubOf m).Sound where
  lineBreak := rfl
  lead := below_blank
  name := h.methods m hm
  params := fun _ hc => isHeaderChar_of_mem_methodParameters (by decide) (h.bodyTypes m hm) hc
  result := fun c hc => by cases hc
  body := fits_stubBody (h.methods m hm)
  noReturn := by
    obtain ⟨-, -, -, -, hname⟩ := exists_of_isIdentifier (h.methods m hm)
    have hconstant : '\r' ∉ "\n    throw new Error(".toList ++ " is not implemented".toList ++
        ");\n  ".toList := by decide
    simp only [List.mem_append, not_or] at hconstant
    intro hmem
    unfold stubOf stubBody at hmem
    simp only [List.mem_append, List.mem_cons, List.not_mem_nil, or_false] at hmem
    rcases hmem with hc | (hc | (hc | hc) | hc) | hc
    · exact hconstant.1.1 hc
    · exact absurd hc (by decide)
    · exact absurd (hname _ hc) (by decide)
    · exact hconstant.1.2 hc
    · exact absurd hc (by decide)
    · exact hconstant.2 hc

/-- A character that belongs to no word and to no constant part is not among the parameters. -/
theorem notMem_methodParameters {d : Char} (hword : Text.isWordChar d = false)
    (hconstant : d ∉ "context: ".toList ++ ", params: unknown".toList ++ ", body: ".toList)
    {context : String} (hcontext : IsWord context.toList) {type : Option String}
    (h : ∀ t, type = some t → IsWord t.toList) : d ∉ Render.methodParameters context type := by
  simp only [List.mem_append, not_or] at hconstant
  unfold Render.methodParameters
  simp only [List.mem_append, not_or]
  refine ⟨⟨⟨hconstant.1.1, hcontext.notMem hword⟩, hconstant.1.2⟩, ?_⟩
  cases type with
  | none => exact List.not_mem_nil
  | some t =>
    dsimp only
    split_ifs
    · exact List.not_mem_nil
    · simp only [List.mem_append, not_or]
      exact ⟨hconstant.2, (h t rfl).notMem hword⟩

theorem lineBreak_notMem_identifier {name : List Char} (h : Render.isIdentifier name = true) :
    '\n' ∉ name := by
  obtain ⟨-, -, -, -, hname⟩ := exists_of_isIdentifier h
  exact fun hmem => absurd (hname _ hmem) (by decide)

/-- The stub as it is rendered. -/
theorem text_stubOf {m : Method} (h : Render.isIdentifier m.name.toList = true)
    (htype : ∀ t, m.bodyType? = some t → IsWord t.toList) :
    (stubOf m).text = '\n' :: '\n' :: Render.indent 1 (Render.serviceMethod m) := by
  have hname := lineBreak_notMem_identifier h
  have hunknown : IsWord "unknown".toList := by decide
  have hparams := notMem_methodParameters (d := '\n') (by decide) (by decide) hunknown htype
  unfold Render.serviceMethod
  rw [Render.indent_joinLines]
  · unfold MethodText.text MethodText.around MethodText.signature stubOf stubBody below
      Render.joinLines Render.indentation
    simp [Text.joinWith, List.intercalate]
  · intro l hl
    simp only [List.mem_cons, List.not_mem_nil, or_false] at hl
    rcases hl with rfl | rfl | rfl
    · simp [hname, hparams]
    · simp [hname]
    · simp
  · exact List.cons_ne_nil _ _

/-! ### Registration methods -/

/-- The text that names a dependency. -/
def dependency (name : String) : List Char := "\x7b class: ".toList ++ name.toList ++ " \x7d".toList

/-- The body of a registration method. -/
def registrationBody (names : List String) : List Char :=
  "\n    return \x7b dependencies: [".toList ++
    (Text.joinWith ", ".toList (names.map dependency) ++ "] \x7d;\n  ".toList)

/-- The registration method of a class with the given dependencies. -/
def registration (names : List String) : MethodText :=
  ⟨below, "register".toList, [], ": InjectableRegistration".toList, registrationBody names⟩

theorem neutral_joinWith {s : List Char} (hs : Neutral s) {ls : List (List Char)}
    (h : ∀ l ∈ ls, Neutral l) : Neutral (Text.joinWith s ls) :=
  Text.holds_joinWith Neutral.nil Neutral.append hs h

/-- What holds of the characters of names, and of those between them, holds in a list of
dependencies. -/
theorem forall_mem_dependencies {q : Char → Prop} {names : List String}
    (hconstant : ∀ c ∈ ", ".toList ++ "\x7b class: ".toList ++ " \x7d".toList, q c)
    (hnames : ∀ n ∈ names, ∀ c ∈ n.toList, q c) {c : Char}
    (hc : c ∈ Text.joinWith ", ".toList (names.map dependency)) : q c := by
  simp only [List.mem_append] at hconstant
  rcases Text.mem_joinWith hc with hc | ⟨l, hl, hc⟩
  · exact hconstant c (Or.inl (Or.inl hc))
  obtain ⟨n, hn, rfl⟩ := List.mem_map.1 hl
  unfold dependency at hc
  simp only [List.mem_append] at hc
  rcases hc with (hc | hc) | hc
  · exact hconstant c (Or.inl (Or.inr hc))
  · exact hnames n hn c hc
  · exact hconstant c (Or.inr hc)

theorem neutral_dependency {name : String} (h : IsWord name.toList) :
    Neutral (dependency name) := by
  have hname : Neutral name.toList :=
    .of_plain fun c hc => isBracket_of_isHeaderChar (isHeaderChar_of_isWordChar (h c hc))
  have hfront : Neutral " class: ".toList := .of_all (by decide)
  have hspace : Neutral [' '] := .of_all (by decide)
  have hall := (hfront.append (hname.append hspace)).braces
  unfold dependency
  simpa using hall

/-- Nothing in a registration method begins a literal or a comment. -/
theorem plain_registrationBody {names : List String} (h : ∀ n ∈ names, IsWord n.toList) :
    ∀ c ∈ registrationBody names, isPlainCode c = true := by
  have hfront : ∀ c ∈ "\n    return \x7b dependencies: [".toList, isPlainCode c = true :=
    List.all_eq_true.1 (by decide)
  have hback : ∀ c ∈ "] \x7d;\n  ".toList, isPlainCode c = true :=
    List.all_eq_true.1 (by decide)
  have hconstant : ∀ c ∈ ", ".toList ++ "\x7b class: ".toList ++ " \x7d".toList,
      isPlainCode c = true := List.all_eq_true.1 (by decide)
  have hnames : ∀ n ∈ names, ∀ c ∈ n.toList, isPlainCode c = true := fun n hn c hc =>
    isPlainCode_of_isHeaderChar (isHeaderChar_of_isWordChar (h n hn c hc))
  intro c hc
  rcases List.mem_append.1 hc with hc | hc
  · exact hfront c hc
  rcases List.mem_append.1 hc with hc | hc
  · exact forall_mem_dependencies hconstant hnames hc
  · exact hback c hc

theorem neutral_registrationBody {names : List String} (h : ∀ n ∈ names, IsWord n.toList) :
    Neutral (registrationBody names) := by
  have hdependencies : ∀ l ∈ names.map dependency, Neutral l := by
    intro l hl
    obtain ⟨n, hn, rfl⟩ := List.mem_map.1 hl
    exact neutral_dependency (h n hn)
  have hlist : Neutral (Text.joinWith ", ".toList (names.map dependency)) :=
    neutral_joinWith (.of_all (by decide)) hdependencies
  have hreturn : Neutral "\n    return ".toList := .of_all (by decide)
  have hkey : Neutral " dependencies: ".toList := .of_all (by decide)
  have hspace : Neutral [' '] := .of_all (by decide)
  have hend : Neutral ";\n  ".toList := .of_all (by decide)
  have hall := hreturn.append ((hkey.append (hlist.square.append hspace)).braces.append hend)
  unfold registrationBody
  simpa using hall

theorem fits_registrationBody {names : List String} (h : ∀ n ∈ names, IsWord n.toList) :
    Fits (registrationBody names) :=
  (Fits.of_piece (Piece.of_plain (P := fun _ => True) (plain_registrationBody h)) trivial
    (neutral_registrationBody h)).1

theorem notMem_dependencies {names : List String} (h : ∀ n ∈ names, IsWord n.toList) {d : Char}
    (hword : Text.isWordChar d = false)
    (hconstant : d ∉ ", ".toList ++ "\x7b class: ".toList ++ " \x7d".toList) :
    d ∉ Text.joinWith ", ".toList (names.map dependency) := by
  intro hmem
  refine forall_mem_dependencies (q := (· ≠ d)) (fun c hc heq => hconstant (heq ▸ hc)) ?_ hmem rfl
  exact fun n hn c hc heq => (h n hn).notMem hword (heq ▸ hc)

theorem sound_registration {names : List String} (h : ∀ n ∈ names, IsWord n.toList) :
    (registration names).Sound where
  lineBreak := rfl
  lead := below_blank
  name := show Render.isIdentifier "register".toList = true by decide
  params := fun c hc => by cases hc
  result := List.all_eq_true.1 (show ": InjectableRegistration".toList.all isHeaderChar = true by
    decide)
  body := fits_registrationBody h
  noReturn := by
    have hfront : '\r' ∉ "\n    return \x7b dependencies: [".toList := by decide
    have hback : '\r' ∉ "] \x7d;\n  ".toList := by decide
    have hlist := notMem_dependencies (d := '\r') h (by decide) (by decide)
    unfold registration registrationBody
    simp only [List.mem_append, not_or]
    exact ⟨hfront, hlist, hback⟩

theorem commaList_dependencies (names : List String) :
    Render.commaList (names.map fun n => "\x7b class: " ++ n ++ " \x7d") =
      Text.joinWith ", ".toList (names.map dependency) := by
  unfold Render.commaList Text.joinWith
  rw [String.toList_intercalate, List.map_map]
  congr 1
  refine List.map_congr_left fun n _ => ?_
  unfold dependency
  simp

/-- The registration method as it is rendered. -/
theorem text_registration {names : List String} (h : ∀ n ∈ names, IsWord n.toList) :
    (registration names).text = '\n' :: '\n' :: Render.indent 1 (Render.registerMethod names) := by
  have hlist := notMem_dependencies (d := '\n') h (by decide) (by decide)
  unfold Render.registerMethod
  rw [commaList_dependencies, Render.indent_joinLines]
  · unfold MethodText.text MethodText.around MethodText.signature registration registrationBody
      below Render.joinLines Render.indentation
    simp [Text.joinWith, List.intercalate]
  · intro l hl
    simp only [List.mem_cons, List.not_mem_nil, or_false] at hl
    rcases hl with rfl | rfl | rfl
    · simp
    · simpa using hlist
    · simp
  · exact List.cons_ne_nil _ _

/-! ### Import lines -/

/-- The import line of a class. -/
def importOf (settings : Settings) (i : Import) : ImportText :=
  ⟨i.name.toList, (Render.moduleOf settings i.path).toList⟩

/-- The import line of the framework. -/
def frameworkImport (settings : Settings) : ImportText :=
  ⟨frameworkClause, settings.frameworkModule.toList⟩

theorem text_importOf (settings : Settings) (i : Import) :
    (importOf settings i).text = Render.classImport settings i ++ ['\n'] := by
  unfold ImportText.text ImportText.lineOf importOf Render.classImport Render.valueImport
    Render.importLine Render.commaList
  simp

theorem text_frameworkImport (settings : Settings) :
    (frameworkImport settings).text =
      Render.valueImport ["Service", "type InjectableRegistration"] settings.frameworkModule ++
        ['\n'] := by
  unfold ImportText.text ImportText.lineOf frameworkImport frameworkClause Render.valueImport
    Render.importLine Render.commaList
  simp

theorem linesOf_map_importOf (settings : Settings) (is : List Import) :
    linesOf (is.map (importOf settings)) =
      (is.map (Render.classImport settings)).flatMap (· ++ ['\n']) := by
  unfold linesOf
  rw [List.flatMap_map, List.flatMap_map]
  exact List.flatMap_congr fun i _ => text_importOf settings i

theorem sound_importOf {settings : Settings} {s : Service} (h : Spelled settings s) {i : Import}
    (hi : i ∈ s.imports) : (importOf settings i).Sound where
  clause := Or.inl (h.importNames i hi)
  module := by
    intro c hc
    simp only [importOf, Render.moduleOf, String.toList_append, List.mem_append] at hc
    rcases hc with (hc | hc) | hc
    · exact List.all_eq_true.1 (h.importPaths i hi) c hc
    · have hpoint : ".".toList.all isPlainText = true := by decide
      exact List.all_eq_true.1 hpoint c hc
    · exact List.all_eq_true.1 h.extension c hc

theorem sound_frameworkImport {settings : Settings} {s : Service} (h : Spelled settings s) :
    (frameworkImport settings).Sound where
  clause := Or.inr rfl
  module := List.all_eq_true.1 h.frameworkModule

/-! ### Files -/

/-- Methods of which the first stands right below the opening brace. -/
def raised : List MethodText → List MethodText
  | [] => []
  | e :: es => { e with lead := e.lead.tail } :: es

/-- The methods of a new service file. -/
def membersOf (s : Service) : List MethodText :=
  s.methods.map stubOf ++ [registration (s.imports.map (·.name))]

/-- The class of a service. -/
def classOf (s : Service) : List Char := (Naming.className s.name .service).toList

/-- The layout of a new service file. -/
def newLayout (settings : Settings) (s : Service) : Layout :=
  { imports := s.imports.map (importOf settings) ++ [frameworkImport settings]
    className := classOf s
    methods := raised (membersOf s) }

theorem text_raised (es : List MethodText) (h : ∀ e ∈ es, e.lead ≠ []) :
    textOf (raised es) = (textOf es).tail := by
  cases es with
  | nil => rfl
  | cons e es =>
    have hlead := h e (List.mem_cons_self ..)
    rw [raised, textOf_cons, textOf_cons, MethodText.text, MethodText.text]
    cases he : e.lead with
    | nil => exact absurd he hlead
    | cons c cs => rfl

theorem sound_raised {es : List MethodText} (h : ∀ e ∈ es, e.Sound)
    (hlead : ∀ e ∈ es, e.lead = below) : ∀ e ∈ raised es, e.Sound := by
  cases es with
  | nil => exact h
  | cons e es =>
    intro e' he'
    rcases List.mem_cons.1 he' with rfl | he'
    · have he := h e (List.mem_cons_self ..)
      refine ⟨?_, fun c hc => he.lead c (List.mem_of_mem_tail hc), he.name, he.params, he.result,
        he.body, he.noReturn⟩
      rw [hlead e (List.mem_cons_self ..)]
      rfl
    · exact h e' (List.mem_cons_of_mem _ he')

variable {settings : Settings} {s : Service}

theorem Spelled.dependencies (h : Spelled settings s) :
    ∀ n ∈ s.imports.map (·.name), IsWord n.toList := by
  intro n hn
  obtain ⟨i, hi, rfl⟩ := List.mem_map.1 hn
  exact h.importNames i hi

theorem sound_membersOf (h : Spelled settings s) : ∀ e ∈ membersOf s, e.Sound := by
  intro e he
  rcases List.mem_append.1 he with he | he
  · obtain ⟨m, hm, rfl⟩ := List.mem_map.1 he
    exact sound_stubOf h hm
  · rw [List.mem_singleton.1 he]
    exact sound_registration h.dependencies

theorem lead_of_mem_membersOf {e : MethodText} (h : e ∈ membersOf s) : e.lead = below := by
  rcases List.mem_append.1 h with he | he
  · obtain ⟨m, -, rfl⟩ := List.mem_map.1 he
    rfl
  · rw [List.mem_singleton.1 he]
    rfl

/-- The members of a new file, each below an empty line. -/
theorem textOf_membersOf (h : Spelled settings s) :
    textOf (membersOf s) = ['\n', '\n'] ++ Render.memberBlock (Render.serviceMembers s) := by
  have hne : (Render.serviceMembers s).map (Render.indent 1) ≠ [] := by
    simp [Render.serviceMembers]
  have hstubs : textOf (s.methods.map stubOf) =
      (s.methods.map Render.serviceMethod).flatMap fun t => ['\n', '\n'] ++ Render.indent 1 t := by
    unfold textOf
    rw [List.flatMap_map, List.flatMap_map]
    exact List.flatMap_congr fun m hm => text_stubOf (h.methods m hm) (h.bodyTypes m hm)
  have hregistration : (registration (s.imports.map (·.name))).text = _ :=
    text_registration h.dependencies
  unfold Render.memberBlock
  rw [Text.append_joinWith _ hne, membersOf, textOf_append, hstubs, textOf_cons, textOf_nil,
    List.append_nil, hregistration, Render.serviceMembers]
  simp only [List.map_append, List.flatMap_append, List.flatMap_map, List.map_cons, List.map_nil,
    List.flatMap_cons, List.flatMap_nil, List.append_nil]
  rfl

theorem sound_newLayout (h : Spelled settings s) : (newLayout settings s).Sound where
  imports := by
    intro i hi
    rcases List.mem_append.1 hi with hi | hi
    · obtain ⟨j, hj, rfl⟩ := List.mem_map.1 hi
      exact sound_importOf h hj
    · rw [List.mem_singleton.1 hi]
      exact sound_frameworkImport h
  imports_ne := by simp [newLayout]
  className := by
    have hsuffix : IsWord "Service".toList := by decide
    intro c hc
    simp only [newLayout, classOf, Naming.className, String.toList_append, List.mem_append] at hc
    rcases hc with hc | hc
    · exact h.name c hc
    · exact hsuffix c hc
  className_ne := by simp [newLayout, classOf, Naming.className, Naming.Role.suffix]
  methods := sound_raised (sound_membersOf h) fun _ => lead_of_mem_membersOf

/-- **The file of a service is its layout.** -/
theorem serviceFile_eq (h : Spelled settings s) :
    Render.serviceFile settings s = (newLayout settings s).text := by
  have hmembers : '\n' :: Render.memberBlock (Render.serviceMembers s) =
      textOf (raised (membersOf s)) := by
    rw [text_raised, textOf_membersOf h]
    · rfl
    · intro e he
      rw [lead_of_mem_membersOf he]
      exact List.cons_ne_nil _ _
  unfold Layout.text Layout.frame Layout.header newLayout decoration fileEnd
  rw [linesOf_append, linesOf_map_importOf, linesOf_cons, linesOf_nil, List.append_nil,
    text_frameworkImport, ← hmembers]
  unfold Render.serviceFile Render.fileOfLines Render.joinLines classOf
  rw [Text.joinWith_append _ (by simp), List.flatMap_append]
  simp

end ApiScaffold.ServiceFile
