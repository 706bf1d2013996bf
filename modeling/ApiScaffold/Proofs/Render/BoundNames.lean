import ApiScaffold.Proofs.Compile.Origins
import ApiScaffold.Proofs.TypeScript.ImportGroups
import ApiScaffold.Render.ControllerFile

/-!
# The names that generated files bind

A file of a service or controller binds names that come from the document, those of the classes of
bodies and of operations, beside names that are the same in every file.

* `ClassFile` is a file of import lines and one class, taken apart into what it binds;
* `serviceFile_eq_text`, `controllerFile_eq_text`: the generated files are such files;
* `IdentifierNames` says of a document that it names operations and bodies by identifiers;
* `nodup_boundNames_iff`: exactly which names of a document make such a file bind a name twice.
-/

namespace ApiScaffold

open Draft Render TypeScript

/-! ### Files taken apart -/

/-- A member of a class as it is written: lines above it, its name, what follows the opening
parenthesis in the same line, and the lines below. -/
structure WrittenMember where
  above : List (List Char)
  name : String
  behind : List Char
  below : List (List Char)

/-- The text of a member. -/
def WrittenMember.text (m : WrittenMember) : List Char :=
  joinLines (m.above ++ (m.name.toList ++ '(' :: m.behind) :: m.below)

/-- The names that the items of an import clause bind. -/
def itemNames (items : List String) : List String := items.filterMap fun n => boundName? n.toList

/-- A file with import lines and one decorated class. -/
structure ClassFile where
  imports : List ImportGroup
  decorator : List Char
  className : String
  members : List WrittenMember

namespace ClassFile

/-- The text of a file. -/
def text (f : ClassFile) : List Char :=
  fileOfLines <|
    f.imports.map ImportGroup.line ++
    [[],
      f.decorator,
      "export class ".toList ++ f.className.toList ++ " \x7b".toList,
      memberBlock (f.members.map WrittenMember.text),
      ['}']]

/-- The names that a file binds at its top: those that its import lines bind, and its class. -/
def topNames (f : ClassFile) : List String :=
  (f.imports.flatMap fun g => itemNames g.names) ++ [f.className]

/-- The names of the members of the class. -/
def memberNames (f : ClassFile) : List String := f.members.map (·.name)

end ClassFile

/-- The line that imports a class. -/
def classGroup (settings : Settings) (i : Import) : ImportGroup :=
  ⟨false, [i.name], moduleOf settings i.path⟩

/-- The line that imports a class as a type. -/
def typeGroup (settings : Settings) (i : Import) : ImportGroup :=
  ⟨true, [i.name], moduleOf settings i.path⟩

/-- The registration method, with the classes that it names. -/
def writtenRegister (dependencies : List String) : WrittenMember where
  above := []
  name := "register"
  behind := "): InjectableRegistration \x7b".toList
  below := [
    "  return \x7b dependencies: [".toList ++
      commaList (dependencies.map fun n => "\x7b class: " ++ n ++ " \x7d") ++ "] \x7d;".toList,
    "\x7d".toList]

/-- The stub of an operation. -/
def writtenStub (m : Method) : WrittenMember where
  above := []
  name := m.name
  behind := methodParameters "unknown" m.bodyType? ++ ") \x7b".toList
  below := [
    "  throw new Error(\"".toList ++ m.name.toList ++ " is not implemented\");".toList,
    ['}']]

/-- The file of a service. -/
def serviceParts (settings : Settings) (s : Service) : ClassFile where
  imports := s.imports.map (classGroup settings) ++
    [⟨false, ["Service", "type InjectableRegistration"], settings.frameworkModule⟩]
  decorator := "@Service()".toList
  className := Naming.className s.name .service
  members := s.methods.map writtenStub ++ [writtenRegister (s.imports.map (·.name))]

/-- The constructor, to which the service is given. -/
def writtenConstructor (c : Controller) : WrittenMember where
  above := []
  name := "constructor"
  behind := "private readonly ".toList ++ serviceField c ++ ": ".toList ++ c.serviceClass.toList ++
    ") \x7b\x7d".toList
  below := []

/-- An operation, below its route. -/
def writtenOperation (c : Controller) (m : Method) : WrittenMember where
  above := ['@' :: m.verb.decorator.toList ++ "(\x7b description: \"\", path: \"".toList ++
    methodRoute m ++ "\" \x7d)".toList]
  name := m.name
  behind := methodParameters "Context" m.bodyType? ++ ") \x7b".toList
  below := ["  return this.".toList ++ serviceField c ++ ['.'] ++ m.name.toList ++ "(".toList ++
    callArguments m.bodyType? ++ ");".toList, ['}']]

/-- The file of a controller. -/
def controllerParts (settings : Settings) (c : Controller) : ClassFile where
  imports := c.serviceImports.map (classGroup settings) ++
    (c.imports.filter fun i => i.name != c.serviceClass).map (typeGroup settings) ++
    [⟨false, frameworkNames c, settings.frameworkModule⟩]
  decorator := "@Controller(\"".toList ++ (if c.path = "" then ['/'] else c.path.toList) ++
    "\")".toList
  className := Naming.className c.name .controller
  members := writtenConstructor c :: c.methods.map (writtenOperation c) ++
    [writtenRegister [c.serviceClass]]

theorem text_writtenRegister (dependencies : List String) :
    (writtenRegister dependencies).text = registerMethod dependencies := by
  simp [writtenRegister, WrittenMember.text, registerMethod]

theorem text_writtenStub (m : Method) : (writtenStub m).text = serviceMethod m := by
  simp [writtenStub, WrittenMember.text, serviceMethod]

theorem text_writtenConstructor (c : Controller) : (writtenConstructor c).text =
    "constructor(private readonly ".toList ++ serviceField c ++ ": ".toList ++
      c.serviceClass.toList ++ ") \x7b\x7d".toList := by
  simp [writtenConstructor, WrittenMember.text, joinLines, Text.joinWith]

theorem text_writtenOperation (c : Controller) (m : Method) :
    (writtenOperation c m).text = controllerMethod (serviceField c) m := by
  simp [writtenOperation, WrittenMember.text, controllerMethod]

/-- **The file of a service** is what its parts make up. -/
theorem serviceFile_eq_text (settings : Settings) (s : Service) :
    serviceFile settings s = (serviceParts settings s).text := by
  have himports : (serviceParts settings s).imports.map ImportGroup.line =
      s.imports.map (classImport settings) ++
        [valueImport ["Service", "type InjectableRegistration"] settings.frameworkModule] := by
    rw [serviceParts, List.map_append, List.map_map]
    rfl
  have hmembers : (serviceParts settings s).members.map WrittenMember.text = serviceMembers s := by
    rw [serviceParts, List.map_append, List.map_map, List.map_singleton, text_writtenRegister]
    exact congrArg (· ++ _) (List.map_congr_left fun m _ => text_writtenStub m)
  rw [ClassFile.text, himports, hmembers, List.append_assoc]
  rfl

/-- **The file of a controller** is what its parts make up. -/
theorem controllerFile_eq_text (settings : Settings) (c : Controller) :
    controllerFile settings c = (controllerParts settings c).text := by
  have himports : (controllerParts settings c).imports.map ImportGroup.line =
      controllerImportLines settings c := by
    rw [controllerParts, List.map_append, List.map_append, List.map_map, List.map_map]
    rfl
  have hmembers : (controllerParts settings c).members.map WrittenMember.text =
      controllerMembers c := by
    rw [controllerParts, List.map_append, List.map_cons, List.map_map, List.map_singleton,
      text_writtenRegister, text_writtenConstructor]
    exact congrArg (fun ms => _ :: ms ++ _)
      (List.map_congr_left fun m _ => text_writtenOperation c m)
  rw [ClassFile.text, himports, hmembers]
  rfl

/-! ### What the lines bind -/

theorem itemNames_eq_self {ns : List String} (h : ∀ n ∈ ns, boundName? n.toList = some n) :
    itemNames ns = ns := by
  conv_rhs => rw [← List.filterMap_some (l := ns)]
  exact List.filterMap_congr h

theorem boundName?_self {n : String} (h : IsName n.toList) : boundName? n.toList = some n := by
  have hname := boundName?_name (u := []) (v := []) (by simp) (by simp) h
  rwa [List.nil_append, List.append_nil, if_neg (by simp), String.ofList_toList] at hname

theorem boundName?_decorator (v : Verb) : boundName? v.decorator.toList = some v.decorator := by
  cases v <;> decide

/-- Lines that import one name each bind these names. -/
theorem itemNames_groups (line : Import → ImportGroup) (hline : ∀ i, (line i).names = [i.name])
    (is : List Import) (h : ∀ i ∈ is, IsName i.name.toList) :
    ((is.map line).flatMap fun g => itemNames g.names) = is.map (·.name) := by
  rw [List.flatMap_map, List.map_eq_flatMap]
  refine List.flatMap_congr fun i hi => ?_
  rw [hline, itemNames_eq_self]
  simpa using boundName?_self (h i hi)

/-- The names that are the same in every file of a service, and its class. -/
def Service.templateNames (s : Service) : List String :=
  ["Service", "InjectableRegistration", Naming.className s.name .service]

/-- The names that the file of a controller takes from the framework, and its class. -/
def Controller.templateNames (c : Controller) : List String :=
  "Controller" :: (c.methods.map fun m => m.verb.decorator).eraseDups ++
    ["Context", "InjectableRegistration", Naming.className c.name .controller]

theorem topNames_serviceParts (settings : Settings) {s : Service}
    (h : ∀ i ∈ s.imports, IsName i.name.toList) :
    (serviceParts settings s).topNames = s.imports.map (·.name) ++ s.templateNames := by
  have himports := itemNames_groups (classGroup settings) (fun _ => rfl) _ h
  have hframework : itemNames ["Service", "type InjectableRegistration"] =
      ["Service", "InjectableRegistration"] := by decide
  rw [ClassFile.topNames, serviceParts, List.flatMap_append, himports, List.flatMap_singleton,
    hframework, List.append_assoc]
  rfl

theorem itemNames_frameworkNames (c : Controller) :
    itemNames (frameworkNames c) =
      "Controller" :: (c.methods.map fun m => m.verb.decorator).eraseDups ++
        ["Context", "InjectableRegistration"] := by
  have hvalues : itemNames ("Controller" :: (c.methods.map fun m => m.verb.decorator).eraseDups) =
      "Controller" :: (c.methods.map fun m => m.verb.decorator).eraseDups := by
    refine itemNames_eq_self fun n hn => ?_
    rcases List.mem_cons.1 hn with rfl | hn
    · decide
    · obtain ⟨m, -, rfl⟩ := List.mem_map.1 (List.mem_eraseDups.1 hn)
      exact boundName?_decorator m.verb
  have htypes : itemNames ["type Context", "type InjectableRegistration"] =
      ["Context", "InjectableRegistration"] := by decide
  rw [frameworkNames, itemNames, List.filterMap_append, ← itemNames, ← itemNames, hvalues, htypes]

theorem topNames_controllerParts (settings : Settings) {c : Controller}
    (h : ∀ i ∈ c.imports, IsName i.name.toList) :
    (controllerParts settings c).topNames =
      (c.serviceImports ++ c.imports.filter fun i => i.name != c.serviceClass).map (·.name) ++
        c.templateNames := by
  have hservice := itemNames_groups (classGroup settings) (fun _ => rfl) c.serviceImports
    fun i hi => h i (List.mem_filter.1 hi).1
  have hothers := itemNames_groups (typeGroup settings) (fun _ => rfl)
    (c.imports.filter fun i => i.name != c.serviceClass) fun i hi => h i (List.mem_filter.1 hi).1
  rw [ClassFile.topNames, controllerParts, List.flatMap_append, List.flatMap_append, hservice,
    hothers, List.flatMap_singleton, itemNames_frameworkNames, ← List.map_append, List.append_assoc,
    Controller.templateNames, List.append_assoc]
  rfl

/-! ### Names that are the same in every file -/

/-- A class is named by a resource and a layer, so it is no name that does not end in the layer. -/
theorem className_notMem {name : String} {role : Naming.Role} {ws : List String} (hname : name ≠ "")
    (h : ∀ w ∈ ws, role.suffix.toList <:+ w.toList → w = role.suffix) :
    Naming.className name role ∉ ws := by
  intro hmem
  have hsuffix : role.suffix.toList <:+ (Naming.className name role).toList := by
    rw [Naming.className, String.toList_append]
    exact List.suffix_append _ _
  have heq := congrArg String.length (h _ hmem hsuffix)
  rw [Naming.className, String.length_append] at heq
  exact hname (String.length_eq_zero_iff.1 (by omega))

theorem nodup_templateNames_service {s : Service} (hname : s.name ≠ "") :
    s.templateNames.Nodup := by
  have hclass : Naming.className s.name .service ∉ ["Service", "InjectableRegistration"] :=
    className_notMem hname (by decide)
  have hfixed : ["Service", "InjectableRegistration"].Nodup := by decide
  exact hfixed.concat hclass

theorem nodup_templateNames_controller {c : Controller} (hname : c.name ≠ "") :
    c.templateNames.Nodup := by
  have hverb : ∀ v : Verb, v.decorator ∉ ["Controller", "Context", "InjectableRegistration"] ∧
      ¬ "Controller".toList <:+ v.decorator.toList := by
    rintro (_ | _ | _ | _ | _) <;> decide
  have hdecorator : ∀ d ∈ (c.methods.map fun m => m.verb.decorator).eraseDups,
      d ∉ ["Controller", "Context", "InjectableRegistration"] ∧
        ¬ "Controller".toList <:+ d.toList := fun d hd => by
    obtain ⟨m, -, rfl⟩ := List.mem_map.1 (List.mem_eraseDups.1 hd)
    exact hverb m.verb
  have hclass : Naming.className c.name .controller ∉
      "Controller" :: (c.methods.map fun m => m.verb.decorator).eraseDups ++
        ["Context", "InjectableRegistration"] := by
    refine className_notMem hname fun w hw hsuffix => ?_
    rcases List.mem_append.1 hw with hw | hw
    · rcases List.mem_cons.1 hw with rfl | hw
      · rfl
      · exact absurd hsuffix (hdecorator w hw).2
    · have hfixed : ∀ w ∈ ["Context", "InjectableRegistration"],
          ¬ "Controller".toList <:+ w.toList := by decide
      exact absurd hsuffix (hfixed w hw)
  have hvalues : ("Controller" :: (c.methods.map fun m => m.verb.decorator).eraseDups).Nodup :=
    List.nodup_cons.2 ⟨fun hmem => (hdecorator _ hmem).1 (by decide), nodup_eraseDups _⟩
  have hfront : ("Controller" :: (c.methods.map fun m => m.verb.decorator).eraseDups ++
      ["Context", "InjectableRegistration"]).Nodup := by
    refine List.nodup_append.2 ⟨hvalues, by decide, fun n hn k hk heq => ?_⟩
    subst heq
    rcases List.mem_cons.1 hn with rfl | hn
    · exact absurd hk (by decide)
    · exact (hdecorator n hn).1 (List.mem_cons_of_mem _ hk)
  have hall := hfront.concat hclass
  rwa [List.concat_eq_append, List.append_assoc] at hall

/-! ### Names of a document -/

/-- The operations of a document are named by texts, and the classes of their bodies by
identifiers. -/
structure IdentifierNames (doc : Value) : Prop where
  operations : ∀ o ∈ operationsOf doc, o.namedInBytes = false
  bodies : ∀ o ∈ operationsOf doc, ∀ ref ∈ o.bodyReference? doc,
    isIdentifier (lastSegment ref).toList = true

instance (doc : Value) : Decidable (IdentifierNames doc) :=
  decidable_of_iff ((∀ o ∈ operationsOf doc, o.namedInBytes = false) ∧
      ∀ o ∈ operationsOf doc, ∀ ref ∈ o.bodyReference? doc,
        isIdentifier (lastSegment ref).toList = true)
    ⟨fun ⟨hoperations, hbodies⟩ => ⟨hoperations, hbodies⟩, fun h => ⟨h.operations, h.bodies⟩⟩

section Stored

variable {run : List Compilation} {target : Target} {n : String} {s : Service} {c : Controller}

/-- The operations of a stored resource have different names. -/
theorem Branch.MadeBy.nodup_names {α : Type} {b : Branch α} {e : String × α} (h : b.MadeBy run e)
    (names : ∀ k ∈ run, IdentifierNames k.doc) : ((b.methods e.2).map (·.name)).Nodup := by
  obtain ⟨before, k, after, g, rfl, -, ⟨groups, hgroups, hg⟩, hmakes, -⟩ := h
  rw [← b.methods_scheme k.settings]
  refine hmakes.names_nodup_iff.2 ?_
  rintro ⟨t, bs, -, ⟨d, hd, hbs⟩, -⟩
  rcases List.mem_append.1 hd with hd | hd
  · obtain ⟨m, -, rfl⟩ := List.mem_map.1 hd
    cases hbs
  · have hbytes := namedInBytes_of_mem_group hgroups hg (names k (by simp)).operations d hd
    rw [MethodDraft.namedInBytes, hbs] at hbytes
    cases hbytes

/-- The classes of the bodies of stored operations are named by identifiers. -/
theorem isName_of_mem_importsOf {settings : Settings} {ms : List Method}
    (names : ∀ k ∈ run, IdentifierNames k.doc) (hms : ∀ m ∈ ms, StemsFrom run target n m)
    {i : Import} (hi : i ∈ importsOf settings ms) : IsName i.name.toList := by
  obtain ⟨m, hm, b, hb, rfl⟩ := mem_importsOf hi
  obtain ⟨k, hk, o, ho, ref, href, htype⟩ := (hms m hm).exists_bodyReference hb
  have hidentifier := (names k hk).bodies o ho ref href
  rw [← htype] at hidentifier
  obtain ⟨d, ds, hd, -, hchars⟩ := exists_of_isIdentifier hidentifier
  exact isName_of_identifierChars (by simp [modelImport, hd]) hchars

/-- What the file of a stored service binds at its top. -/
theorem topNames_of_service (settings : Settings) (names : ∀ k ∈ run, IdentifierNames k.doc)
    (h : (n, s) ∈ (runAll run).services.entries) :
    (serviceParts settings s).topNames = s.imports.map (·.name) ++ s.templateNames ∧
      (s.imports.map (·.name)).Nodup ∧ s.templateNames.Nodup := by
  obtain ⟨rfl, compiled, himports⟩ := imports_of_service h
  have hnames : ∀ i ∈ s.imports, IsName i.name.toList := fun i hi =>
    isName_of_mem_importsOf names (fun m => serviceBranch.stemsFrom h) (himports ▸ hi)
  refine ⟨topNames_serviceParts settings hnames, ?_,
    nodup_templateNames_service (serviceBranch.madeBy h).name_ne⟩
  rw [himports, map_name_importsOf]
  exact nodup_eraseDups _

/-- What the file of a stored controller binds at its top. -/
theorem topNames_of_controller (settings : Settings) (names : ∀ k ∈ run, IdentifierNames k.doc)
    (h : (n, c) ∈ (runAll run).controllers.entries) :
    (controllerParts settings c).topNames = c.imports.map (·.name) ++ c.templateNames ∧
      (c.imports.map (·.name)).Nodup ∧ c.templateNames.Nodup := by
  obtain ⟨rfl, compiled, himports, hservice⟩ := imports_of_controller h
  -- The service comes first, and no other import has its name.
  have hfirst : c.serviceImports = [serviceImport compiled c.name] := by
    rw [Controller.serviceImports, himports]
    exact filter_eq_singleton rfl hservice
  have hothers : (c.imports.filter fun i => i.name != c.serviceClass) =
      importsOf compiled c.methods := by
    have hdrop : ¬ ((serviceImport compiled c.name).name != c.serviceClass) = true := by
      rw [bne_iff_ne]
      exact fun hne => hne rfl
    rw [himports, List.filter_cons_of_neg (p := fun i : Import => i.name != c.serviceClass) hdrop,
      List.filter_eq_self]
    exact fun i hi => bne_iff_ne.2 fun heq => hservice (List.mem_map.2 ⟨i, hi, heq⟩)
  have hword : IsWord c.serviceClass.toList := by
    have hsuffix : IsWord "Service".toList := by decide
    intro d hd
    rw [Controller.serviceClass, String.toList_append] at hd
    rcases List.mem_append.1 hd with hd | hd
    · exact Naming.isWordChar_of_isAlphanum ((controllerBranch.madeBy h).isAlphanum_name hd)
    · exact hsuffix d hd
  have hnames : ∀ i ∈ c.imports, IsName i.name.toList := by
    rw [himports, List.forall_mem_cons]
    refine ⟨hword.isName (by simp [Controller.serviceClass]), fun i hi => ?_⟩
    exact isName_of_mem_importsOf names (fun m => controllerBranch.stemsFrom h) hi
  refine ⟨?_, ?_, nodup_templateNames_controller (controllerBranch.madeBy h).name_ne⟩
  · rw [topNames_controllerParts settings hnames, hfirst, hothers, himports, List.singleton_append]
  · rw [himports, List.map_cons, List.nodup_cons, map_name_importsOf]
    exact ⟨map_name_importsOf compiled c.methods ▸ hservice, nodup_eraseDups _⟩

end Stored

theorem nodup_append_iff_notMem {xs ys : List String} (hxs : xs.Nodup) (hys : ys.Nodup) :
    (xs ++ ys).Nodup ↔ ∀ x ∈ xs, x ∉ ys := by
  rw [List.nodup_append]
  exact ⟨fun h x hx hy => h.2.2 x hx x hy rfl,
    fun h => ⟨hxs, hys, fun x hx y hy heq => h x hx (heq ▸ hy)⟩⟩

/-- **What makes a generated file bind a name twice.** Whatever documents are compiled, one after
the other, that name operations and bodies by identifiers, the names at the top of a stored
service's or controller's file are different exactly if no import is named like the class or like
what the file takes from the framework, and the members of its class have different names exactly if
no operation is named like one of the others. -/
theorem nodup_boundNames_iff (calls : List (Settings × Value))
    (names : ∀ call ∈ calls, IdentifierNames call.2) (settings : Settings) :
    (∀ e ∈ (compileAll calls).services.entries,
      ((serviceParts settings e.2).topNames.Nodup ↔
        ∀ i ∈ e.2.imports, i.name ∉ e.2.templateNames) ∧
      ((serviceParts settings e.2).memberNames.Nodup ↔
        ∀ m ∈ e.2.methods, m.name ≠ "register")) ∧
    ∀ e ∈ (compileAll calls).controllers.entries,
      ((controllerParts settings e.2).topNames.Nodup ↔
        ∀ i ∈ e.2.imports, i.name ∉ e.2.templateNames) ∧
      ((controllerParts settings e.2).memberNames.Nodup ↔
        ∀ m ∈ e.2.methods, m.name ≠ "constructor" ∧ m.name ≠ "register") := by
  obtain ⟨run, hcalls, hservices, hcontrollers⟩ := exists_run_of_compileAll calls
  have hrun : ∀ k ∈ run, IdentifierNames k.doc := fun k hk => names _ (hcalls k hk)
  rw [← hservices, ← hcontrollers]
  constructor
  · rintro ⟨n, s⟩ hs
    obtain ⟨htop, himports, htemplate⟩ := topNames_of_service settings hrun hs
    have hmethods : (s.methods.map (·.name)).Nodup := (serviceBranch.madeBy hs).nodup_names hrun
    refine ⟨?_, ?_⟩
    · rw [htop, nodup_append_iff_notMem himports htemplate, List.forall_mem_map]
    · have hmembers : (serviceParts settings s).memberNames =
          s.methods.map (·.name) ++ ["register"] := by
        rw [ClassFile.memberNames, serviceParts, List.map_append, List.map_map]
        rfl
      rw [hmembers, nodup_append_iff_notMem hmethods (List.nodup_singleton _), List.forall_mem_map]
      simp
  · rintro ⟨n, c⟩ hc
    obtain ⟨htop, himports, htemplate⟩ := topNames_of_controller settings hrun hc
    have hmethods : (c.methods.map (·.name)).Nodup :=
      (controllerBranch.madeBy hc).nodup_names hrun
    refine ⟨?_, ?_⟩
    · rw [htop, nodup_append_iff_notMem himports htemplate, List.forall_mem_map]
    · have hmembers : (controllerParts settings c).memberNames =
          "constructor" :: (c.methods.map (·.name) ++ ["register"]) := by
        rw [ClassFile.memberNames, controllerParts, List.map_append, List.map_cons, List.map_map]
        rfl
      have hfirst : "constructor" ∉ c.methods.map (·.name) ++ ["register"] ↔
          ∀ m ∈ c.methods, m.name ≠ "constructor" := by
        simp [eq_comm]
      rw [hmembers, List.nodup_cons, hfirst,
        nodup_append_iff_notMem hmethods (List.nodup_singleton _), List.forall_mem_map,
        ← forall₂_and]
      simp

/-- The request for a body of a class. -/
def requestFor (name : String) : Value := .record [("content", .record [("application/json",
  .record [("schema", .record [("$ref", .text ("#/components/schemas/" ++ name))])])])]

/-- A document of pets that are added and listed. -/
def listedAndAdded : Value := .record
  [("openapi", .text "3.0.3"),
    ("components", .record [("schemas", .record [("Pet", .record [])])]),
    ("paths", .record [("/pets", .record
      [("get", .record [("operationId", .text "listPets")]),
        ("post", .record
          [("operationId", .text "addPet"), ("requestBody", requestFor "Pet")])])])]

theorem nodup_boundNames_listedAndAdded :
    (∀ call ∈ [(({} : Settings), listedAndAdded)], IdentifierNames call.2) ∧
      (∃ e ∈ (compileAll [({}, listedAndAdded)]).services.entries,
        (serviceParts {} e.2).topNames.Nodup ∧ (serviceParts {} e.2).memberNames.Nodup) ∧
      ∃ e ∈ (compileAll [({}, listedAndAdded)]).controllers.entries,
        (controllerParts {} e.2).topNames.Nodup ∧ (controllerParts {} e.2).memberNames.Nodup := by
  have names : ∀ call ∈ [(({} : Settings), listedAndAdded)], IdentifierNames call.2 := by
    decide +kernel
  have hservice : ∃ e ∈ (compileAll [({}, listedAndAdded)]).services.entries,
      (∀ i ∈ e.2.imports, i.name ∉ e.2.templateNames) ∧
        ∀ m ∈ e.2.methods, m.name ≠ "register" := by decide +kernel
  have hcontroller : ∃ e ∈ (compileAll [({}, listedAndAdded)]).controllers.entries,
      (∀ i ∈ e.2.imports, i.name ∉ e.2.templateNames) ∧
        ∀ m ∈ e.2.methods, m.name ≠ "constructor" ∧ m.name ≠ "register" := by decide +kernel
  obtain ⟨hservices, hcontrollers⟩ := nodup_boundNames_iff _ names {}
  obtain ⟨e, he, htop, hmembers⟩ := hservice
  obtain ⟨f, hf, htop', hmembers'⟩ := hcontroller
  exact ⟨names, ⟨e, he, (hservices e he).1.2 htop, (hservices e he).2.2 hmembers⟩,
    f, hf, (hcontrollers f hf).1.2 htop', (hcontrollers f hf).2.2 hmembers'⟩

/-- A document with an operation and with schemas that are named like what every file has. -/
def registeredPets : Value := .record
  [("openapi", .text "3.0.3"),
    ("components", .record [("schemas", .record
      [("Service", .record []), ("Context", .record [])])]),
    ("paths", .record [("/pets", .record
      [("get", .record [("operationId", .text "register")]),
        ("post", .record
          [("operationId", .text "addService"), ("requestBody", requestFor "Service")]),
        ("put", .record
          [("operationId", .text "setContext"), ("requestBody", requestFor "Context")])])])]

/-- **Its files bind names twice,** at the top and in the class. -/
theorem registeredPets_bound_twice :
    (compileDocument {} registeredPets .empty).fault = none ∧ IdentifierNames registeredPets ∧
      (∃ e ∈ (compileAll [({}, registeredPets)]).services.entries,
        ¬ (serviceParts {} e.2).topNames.Nodup ∧ ¬ (serviceParts {} e.2).memberNames.Nodup) ∧
      ∃ e ∈ (compileAll [({}, registeredPets)]).controllers.entries,
        ¬ (controllerParts {} e.2).topNames.Nodup ∧
          ¬ (controllerParts {} e.2).memberNames.Nodup := by
  decide +kernel

end ApiScaffold
