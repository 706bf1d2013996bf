import ApiScaffold.Proofs.Controller.Routes
import ApiScaffold.Proofs.TypeScript.StringLiteral

/-!
# Literals of routes

A controller file holds its routes in string literals, into which they are put as they are.

* `exists_indented`: the lines of a member are indented, and with them those of its literals;
* `LiteralFor` says of a literal in a file that it is read as what it was written for exactly if
  this is sealed;
* `literalFor_basePath`, `literalFor_methodRoute`: so it is for the route of a controller and for
  those of its operations;
* `exists_members_of_sealed`: routes that are sealed add nothing to the class;
* `routeLiterals_exact`: all of this for the controllers that documents leave in the store.
-/

namespace ApiScaffold

open Naming Render TypeScript ControllerFile

/-! ### Indented lines -/

section Lines

variable {w t u v : List Char}

namespace TypeScript.Indented

theorem refl (t : List Char) : Indented t t := by
  induction t with
  | nil => exact .nil
  | cons c t ih =>
    by_cases hc : c = '\n'
    · subst hc
      exact .line (n := 0) (by omega) ih
    · exact .char hc ih

theorem append (h : Indented w t) (h' : Indented v u) : Indented (w ++ v) (t ++ u) := by
  induction h with
  | nil => exact h'
  | char hc _ ih => exact .char hc ih
  | line hn _ ih =>
    rw [List.cons_append, List.append_assoc, List.cons_append]
    exact .line hn ih

/-- A character that is no line break stands as it is. -/
theorem exists_cons {c : Char} (hc : c ≠ '\n') (h : Indented w (c :: t)) :
    ∃ v, w = c :: v ∧ Indented v t := by
  cases h with
  | char _ h => exact ⟨_, rfl, h⟩
  | line => exact absurd rfl hc

end TypeScript.Indented

/-- Lines are indented by two blanks at most. -/
theorem exists_indented_joinLines {ls : List (List Char)} (h : ∀ l ∈ ls, '\n' ∉ l) :
    ∃ n ≤ 2, ∃ w, Indented w (joinLines ls) ∧
      joinLines (ls.map fun l => if l.isEmpty then [] else indentation 1 ++ l) =
        List.replicate n ' ' ++ w := by
  induction ls with
  | nil => exact ⟨0, by omega, [], .nil, rfl⟩
  | cons l ls ih =>
    obtain ⟨hl, hls⟩ := List.forall_mem_cons.1 h
    obtain ⟨n, hn, hline⟩ : ∃ n ≤ 2, (if l.isEmpty then [] else indentation 1 ++ l) =
        List.replicate n ' ' ++ l := by
      cases l with
      | nil => exact ⟨0, by omega, rfl⟩
      | cons c l => exact ⟨2, le_rfl, rfl⟩
    by_cases hempty : ls = []
    · subst hempty
      refine ⟨n, hn, l, ?_, ?_⟩
      · simpa [joinLines, Text.joinWith, List.intercalate] using Indented.refl l
      · simpa [joinLines, Text.joinWith, List.intercalate] using hline
    · obtain ⟨k, hk, w, hw, hjoin⟩ := ih hls
      refine ⟨n, hn, l ++ '\n' :: (List.replicate k ' ' ++ w), ?_, ?_⟩
      · rw [joinLines, Text.joinWith_cons _ _ hempty, List.append_assoc]
        exact (Indented.refl l).append (.line hk hw)
      · rw [joinLines] at hjoin ⊢
        rw [List.map_cons, Text.joinWith_cons _ _ (by simpa using hempty), hjoin, hline]
        simp

/-- **What is indented is the text,** but for blanks in front of its lines. -/
theorem exists_indented (t : List Char) :
    ∃ n ≤ 2, ∃ w, Indented w t ∧ indent 1 t = List.replicate n ' ' ++ w := by
  have hlines : ∀ l ∈ Text.splitOn '\n' t, '\n' ∉ l := fun l hl hmem => by
    simpa using Text.notMem_of_mem_splitWhere hl hmem
  have hjoin : joinLines (Text.splitOn '\n' t) = t := Text.intercalate_splitOn '\n' t
  have hindented := exists_indented_joinLines hlines
  rwa [hjoin] at hindented

end Lines

/-! ### Literals in a file -/

/-- The part stands in the source and begins, blanks apart, with `head` and a literal that was
written for `t`. This literal is read as `t`, and ends where it was written to end, exactly if `t`
is sealed. -/
def LiteralFor (source part head t : List Char) : Prop :=
  ∃ before after n written behind, source = before ++ part ++ after ∧
    part = List.replicate n ' ' ++ head ++ '\x22' :: (written ++ '\x22' :: behind) ∧
    ∀ rest, readLiteral .plain (written ++ '\x22' :: (behind ++ after)) =
      some (textUnits t, rest) ↔ Sealed t ∧ rest = behind ++ after

/-- The line of a controller's decorator. -/
def decoratorLine (c : Controller) : List Char :=
  "@Controller(\"".toList ++ (if c.path = "" then ['/'] else c.path.toList) ++ "\")".toList

/-- What stands in front of the literal that holds the route of an operation. -/
def routeHead (m : Method) : List Char :=
  '@' :: (m.verb.decorator.toList ++ "(\x7b description: \"\", path: ".toList)

section File

variable {settings : Settings} {c : Controller} {m : Method}

/-- A line of a file. -/
theorem exists_fileOfLines_eq {l : List Char} {ls : List (List Char)} (h : l ∈ ls) :
    ∃ before after, fileOfLines ls = before ++ l ++ '\n' :: after := by
  obtain ⟨xs, ys, rfl⟩ := List.append_of_mem h
  refine ⟨xs.flatMap (· ++ ['\n']), ys.flatMap (· ++ ['\n']), ?_⟩
  rw [fileOfLines, joinLines, Text.joinWith_append _ (by simp), List.flatMap_append,
    List.flatMap_cons]
  simp

/-- **The literal of a controller's route.** -/
theorem literalFor_basePath (settings : Settings) (hpath : c.path ≠ "") :
    LiteralFor (controllerFile settings c) (decoratorLine c) "@Controller(".toList
      c.path.toList := by
  obtain ⟨before, after, hfile⟩ : ∃ before after, controllerFile settings c =
      before ++ decoratorLine c ++ '\n' :: after :=
    exists_fileOfLines_eq (List.mem_append_right _ (List.mem_cons_of_mem _ List.mem_cons_self))
  have hback : readLiteral .plain ([')'] ++ '\n' :: after) = none :=
    readLiteral_line (by decide) (by decide) after
  refine ⟨before, '\n' :: after, 0, c.path.toList, [')'], hfile, ?_, fun rest => ?_⟩
  · have hopen : "@Controller(\"".toList = "@Controller(".toList ++ ['\x22'] := rfl
    have hclose : "\")".toList = ['\x22', ')'] := rfl
    have hbase : (if c.path = "" then ['/'] else c.path.toList) = c.path.toList := if_neg hpath
    unfold decoratorLine
    rw [hbase, hopen, hclose]
    simp only [List.replicate_zero, List.nil_append, List.append_assoc, List.cons_append]
  · exact readLiteral_indented_iff (.refl _) hback

/-- An operation stands in the file with its lines indented. -/
theorem infix_controllerFile (settings : Settings) (hm : m ∈ c.methods) :
    indent 1 (controllerMethod (serviceField c) m) <:+: controllerFile settings c := by
  have hmember : controllerMethod (serviceField c) m ∈ controllerMembers c :=
    List.mem_append_left _ (List.mem_cons_of_mem _ (List.mem_map_of_mem hm))
  have hblock : indent 1 (controllerMethod (serviceField c) m) <:+:
      memberBlock (controllerMembers c) := Text.infix_joinWith _ (List.mem_map_of_mem hmember)
  have hfile : memberBlock (controllerMembers c) <:+: controllerFile settings c :=
    (Text.infix_joinWith _ (List.mem_append_right _ (by simp))).trans
      (List.prefix_append _ _).isInfix
  exact hblock.trans hfile

/-- The literal of an operation's route, in its part of the file. -/
theorem exists_routeLiteral (field : List Char) (m : Method) :
    ∃ n written behind, indent 1 (controllerMethod field m) =
        List.replicate n ' ' ++ routeHead m ++ '\x22' :: (written ++ '\x22' :: behind) ∧
      Indented written (methodRoute m) ∧
        ∀ after, readLiteral .plain (behind ++ after) = none := by
  obtain ⟨n, -, w, hw, hindent⟩ := exists_indented (controllerMethod field m)
  obtain ⟨rest, hrest⟩ := exists_controllerMethod_eq field m
  have hsplit : controllerMethod field m = routeHead m ++ '\x22' :: (methodRoute m ++
      '\x22' :: (" \x7d)".toList ++ '\n' :: rest)) := by
    have hopen : "(\x7b description: \"\", path: \"".toList =
      "(\x7b description: \"\", path: ".toList ++ ['\x22'] := rfl
    have hclose : "\" \x7d)".toList = '\x22' :: " \x7d)".toList := rfl
    rw [hrest, routeDecorator, routeHead, hopen, hclose]
    simp only [List.append_assoc, List.cons_append, List.nil_append]
  have hline : '\n' ∉ routeHead m := by
    rw [routeHead]
    cases m.verb <;> decide
  rw [hsplit] at hw
  obtain ⟨head, v₁, rfl, hhead, hv₁⟩ := hw.exists_append
  obtain ⟨v₂, rfl, hv₂⟩ := hv₁.exists_cons (by decide)
  obtain ⟨written, v₃, rfl, hwritten, hv₃⟩ := hv₂.exists_append
  obtain ⟨v₄, rfl, hv₄⟩ := hv₃.exists_cons (by decide)
  obtain ⟨close, v₅, rfl, hclose, hv₅⟩ := hv₄.exists_append
  rw [hhead.eq_of_notMem hline, hclose.eq_of_notMem (by decide)] at hindent
  refine ⟨n, written, _, by rw [hindent, List.append_assoc], hwritten, fun after => ?_⟩
  cases hv₅ with
  | char hc => exact absurd rfl hc
  | line =>
    rw [List.append_assoc, List.cons_append]
    exact readLiteral_line (by decide) (by decide) _

/-- **The literal of an operation's route.** -/
theorem literalFor_methodRoute (settings : Settings) (hm : m ∈ c.methods) :
    LiteralFor (controllerFile settings c) (indent 1 (controllerMethod (serviceField c) m))
      (routeHead m) (methodRoute m) := by
  obtain ⟨before, after, hfile⟩ := infix_controllerFile settings hm
  obtain ⟨n, written, behind, hpart, hwritten, hbehind⟩ := exists_routeLiteral (serviceField c) m
  exact ⟨before, after, n, written, behind, hfile.symm, hpart,
    fun rest => readLiteral_indented_iff hwritten (hbehind after)⟩

end File

/-! ### Routes that are sealed -/

theorem TypeScript.Sealed.quotable {t : List Char} (h : Sealed t) : Quotable t :=
  ⟨fun hmem => (h _ hmem).1 rfl, fun hmem => (h _ hmem).2.1 rfl, fun hmem => (h _ hmem).2.2.1 rfl⟩

/-- A url with the same route whose first segment is plain. -/
def plainUrl (m : Method) : String :=
  match methodRoute m with
  | '/' :: t => String.ofList ('/' :: 'x' :: '/' :: t)
  | _ => m.url

/-- The operation with that url. -/
def reroute (m : Method) : Method := { m with url := plainUrl m }

section Reroute

variable {m : Method} {c : Controller}

theorem methodRoute_reroute (h : resourceOf m.url ≠ "") :
    methodRoute (reroute m) = methodRoute m := by
  rcases methodRoute_cases h with ⟨t, hroute, -⟩ | ⟨hroute, -, hne⟩
  · have hurl : (reroute m).url = String.ofList ('/' :: (['x'] ++ '/' :: t)) := by
      rw [reroute, plainUrl, hroute]
      rfl
    have hbehind : behindFirst? ('/' :: (['x'] ++ '/' :: t)) = some ('/' :: t) := rfl
    have hplain := route_of_slash (s := ['x']) (r := '/' :: t) (by decide) (by decide)
      (Or.inr ⟨t, rfl⟩)
    rw [hbehind] at hplain
    rw [hroute, methodRoute, hurl, String.toList_ofList]
    exact (Option.some.inj hplain).symm
  · have hurl : plainUrl m = m.url := by
      unfold plainUrl
      split
      · next t ht => exact absurd ht (hne t)
      · rfl
    rw [reroute, hurl]

theorem quotable_plainUrl (h : resourceOf m.url ≠ "") (hroute : Sealed (methodRoute m)) :
    Quotable (plainUrl m).toList := by
  have hquotable := hroute.quotable
  unfold plainUrl
  split
  · next t ht =>
    have hfront : Quotable ['/', 'x'] := by decide
    rw [ht] at hquotable
    rw [String.toList_ofList]
    exact hfront.append hquotable
  · next hne =>
    rcases methodRoute_cases h with ⟨t, ht, -⟩ | ⟨hurl, -⟩
    · exact absurd ht (hne t)
    · rwa [← hurl]

/-- The controller with such urls. -/
def Controller.reroute (c : Controller) : Controller :=
  { c with methods := c.methods.map ApiScaffold.reroute }

/-- A controller is rendered by its routes, whatever the urls. -/
theorem controllerFile_reroute (settings : Settings)
    (h : ∀ m ∈ c.methods, resourceOf m.url ≠ "") :
    controllerFile settings c.reroute = controllerFile settings c := by
  have hmethods : c.reroute.methods.map (controllerMethod (serviceField c)) =
      c.methods.map (controllerMethod (serviceField c)) := by
    rw [Controller.reroute, List.map_map]
    refine List.map_congr_left fun m hm => ?_
    rw [Function.comp_apply, controllerMethod, methodRoute_reroute (h m hm)]
    rfl
  have hverbs : c.reroute.methods.map (·.verb.decorator) = c.methods.map (·.verb.decorator) := by
    rw [Controller.reroute, List.map_map]
    rfl
  have hmembers : controllerMembers c.reroute = controllerMembers c := by
    rw [controllerMembers, controllerMembers, ← hmethods]
    rfl
  have hnames : frameworkNames c.reroute = frameworkNames c := by
    unfold frameworkNames
    rw [hverbs]
  have hlines : controllerImportLines settings c.reroute = controllerImportLines settings c := by
    rw [controllerImportLines, controllerImportLines, hnames]
    rfl
  rw [controllerFile, controllerFile, hlines, hmembers]
  rfl

theorem membersOf_reroute (h : ∀ m ∈ c.methods, resourceOf m.url ≠ "") :
    membersOf c.reroute = membersOf c := by
  have hmethods : c.reroute.methods.map (operationMethod c.reroute) =
      c.methods.map (operationMethod c) := by
    rw [Controller.reroute, List.map_map]
    refine List.map_congr_left fun m hm => ?_
    have hroute := methodRoute_reroute (h m hm)
    have hdecorator : routeDecorator (reroute m) = routeDecorator m := by
      unfold routeDecorator
      rw [hroute]
      rfl
    have hshown : shownArguments (reroute m) = shownArguments m := by
      unfold shownArguments
      rw [hroute]
    rw [Function.comp_apply, operationMethod, operationMethod, operationDecl, operationDecl,
      hdecorator, hshown]
    rfl
  rw [membersOf, membersOf, hmethods]
  rfl

end Reroute

/-- The names of a controller's operations are identifiers, the types of their bodies are words, and
nothing in the paths of its imports ends a string literal. -/
structure Named (settings : Settings) (c : Controller) : Prop where
  methods : ∀ m ∈ c.methods, isIdentifier m.name.toList = true
  bodyTypes : ∀ m ∈ c.methods, ∀ t ∈ m.bodyType?, IsWord t.toList
  importPaths : ∀ i ∈ c.imports, Quotable i.path.toList
  extension : Quotable settings.extension.toList
  frameworkModule : Quotable settings.frameworkModule.toList

section Stored

variable {run : List Compilation} {n : String} {c : Controller} {settings : Settings}

/-- A stored controller has a route. -/
theorem path_ne_of_stored (h : (n, c) ∈ (runAll run).controllers.entries) : c.path ≠ "" := by
  obtain ⟨before, k, after, g, -, -, hg, hmakes, -⟩ := controllerBranch.madeBy h
  rw [Controller.path_of_makes hmakes]
  exact groupRoute_ne hg.paths_ne

theorem resourceOf_url_ne (h : (n, c) ∈ (runAll run).controllers.entries) :
    ∀ m ∈ c.methods, resourceOf m.url ≠ "" := fun m hm => by
  have hname := (controllerBranch.madeBy h).name_ne
  rwa [(controllerBranch.stemsFrom h hm).resourceOf_url]

/-- With plain urls a stored controller can be rendered as it is if its routes are sealed. -/
theorem spelled_reroute (h : (n, c) ∈ (runAll run).controllers.entries) (hnamed : Named settings c)
    (hpath : Sealed c.path.toList) (hroutes : ∀ m ∈ c.methods, Sealed (methodRoute m)) :
    Spelled settings c.reroute := by
  obtain ⟨before, k, after, g, -, -, -, hmakes, -⟩ := controllerBranch.madeBy h
  have hcoherent : c.Coherent := Controller.coherent_of_makes hmakes
  have hname : IsWord c.name.toList := fun d hd =>
    isWordChar_of_isAlphanum ((controllerBranch.madeBy h).isAlphanum_name (by
      rwa [(imports_of_controller h).1] at hd))
  have hmethods : ∀ {P : Method → Prop}, (∀ m ∈ c.methods, P (reroute m)) →
      ∀ m ∈ c.reroute.methods, P m := fun hall => List.forall_mem_map.2 hall
  have hurls : ∀ m ∈ c.reroute.methods, Quotable m.url.toList :=
    hmethods fun m hm => quotable_plainUrl (resourceOf_url_ne h m hm) (hroutes m hm)
  refine ⟨hname, hmethods hnamed.methods, hmethods hnamed.bodyTypes, fun i hi => ?_,
    hpath.quotable, hurls, hnamed.importPaths, hnamed.extension, hnamed.frameworkModule⟩
  have hmem : i.name ∈ c.serviceClass :: (c.methods.filterMap Method.bodyType?).eraseDups :=
    hcoherent.2 ▸ List.mem_map_of_mem hi
  rcases List.mem_cons.1 hmem with hi | hi
  · have hsuffix : IsWord "Service".toList := by decide
    intro d hd
    rw [hi, Controller.serviceClass, String.toList_append] at hd
    exact (List.mem_append.1 hd).elim (hname d) (hsuffix d)
  · obtain ⟨m, hm, ht⟩ := List.mem_filterMap.1 (List.mem_eraseDups.1 hi)
    exact hnamed.bodyTypes m hm _ ht

/-- **Sealed routes add nothing to the class.** The file passes the check, and the members of the
class are those that were rendered, each with its text; of the literals in it the mask shows the
quotation marks alone. -/
theorem exists_members_of_sealed (h : (n, c) ∈ (runAll run).controllers.entries)
    (hnamed : Named settings c) (hpath : Sealed c.path.toList)
    (hroutes : ∀ m ∈ c.methods, Sealed (methodRoute m)) :
    sourceProblems (controllerFile settings c) (some (Naming.className c.name .controller)) = [] ∧
      ∃ body, findClass? (controllerFile settings c) (Naming.className c.name .controller) =
          some body ∧
        List.Forall₂ (WrittenMethod.ReadAs (controllerFile settings c)) (membersOf c)
          body.members := by
  have hurls := resourceOf_url_ne h
  obtain ⟨k, hk, htext, hname, hmembers⟩ :=
    exists_writtenClass (spelled_reroute h hnamed hpath hroutes)
  rw [controllerFile_reroute settings hurls] at htext
  rw [membersOf_reroute hurls] at hmembers
  obtain ⟨body, hbody, hall⟩ := hk.exists_findClass? hname
  rw [htext] at hbody hall
  exact ⟨htext ▸ hk.sourceProblems_eq hname, body, hbody, hmembers ▸ hall⟩

/-- **What the literals of a stored controller are read as.** By the rules of strict code, the
literal of its decorator and that of each operation give the route that they were written for, and
end where they were written to end, exactly if that route holds no quotation mark, backslash or line
break. If so it is for all of them, then none of them adds anything to the class. -/
theorem routeLiterals_exact (h : (n, c) ∈ (runAll run).controllers.entries) (settings : Settings) :
    LiteralFor (controllerFile settings c) (decoratorLine c) "@Controller(".toList
        c.path.toList ∧
      (∀ m ∈ c.methods, LiteralFor (controllerFile settings c)
        (indent 1 (controllerMethod (serviceField c) m)) (routeHead m) (methodRoute m)) ∧
      (Named settings c → Sealed c.path.toList → (∀ m ∈ c.methods, Sealed (methodRoute m)) →
        sourceProblems (controllerFile settings c)
            (some (Naming.className c.name .controller)) = [] ∧
          ∃ body, findClass? (controllerFile settings c) (Naming.className c.name .controller) =
              some body ∧
            List.Forall₂ (WrittenMethod.ReadAs (controllerFile settings c)) (membersOf c)
              body.members) :=
  ⟨literalFor_basePath settings (path_ne_of_stored h), fun _ => literalFor_methodRoute settings,
    exists_members_of_sealed h⟩

/-- Pets below a path with the signs of braces, decorators, comments and other quotation marks. -/
def signedRoute : Value := .record [("paths", .record
  [("/pets/\x7bid\x7d/*\x27\x60 \x7d) @Get(", .record
    [("get", .record [("operationId", .text "listPets")])])])]

/-- The controller of that document. -/
def signedController : Controller where
  name := "Pet"
  description := ""
  path := "/pets"
  methods := [⟨.get, "listPets", "/pets/\x7bid\x7d/*\x27\x60 \x7d) @Get(", none, none⟩]
  imports := [⟨"PetService", "@/services/PetService"⟩]

theorem routeLiterals_exact_signed :
    ("Pet", signedController) ∈ (runAll [⟨.controllers, {}, signedRoute⟩]).controllers.entries ∧
      (Named {} signedController ∧ Sealed signedController.path.toList ∧
        ∀ m ∈ signedController.methods, Sealed (methodRoute m)) ∧
      LiteralFor (controllerFile {} signedController) (decoratorLine signedController)
        "@Controller(".toList signedController.path.toList ∧
      sourceProblems (controllerFile {} signedController) (some "PetController") = [] := by
  have hstored : ("Pet", signedController) ∈
      (runAll [⟨.controllers, {}, signedRoute⟩]).controllers.entries := by decide +kernel
  have hnamed : Named {} signedController :=
    ⟨by decide, by decide, by decide, by decide, by decide⟩
  have hsealed : Sealed signedController.path.toList ∧
      ∀ m ∈ signedController.methods, Sealed (methodRoute m) := by decide +kernel
  obtain ⟨hbase, -, hmembers⟩ := routeLiterals_exact hstored {}
  exact ⟨hstored, ⟨hnamed, hsealed⟩, hbase, (hmembers hnamed hsealed.1 hsealed.2).1⟩

/-- Pets below a path that ends the literal of its route and goes on with a method. -/
def strayRoute : Value := .record [("paths", .record
  [("/pets/\x22 \x7d) evil() \x7b\x7d @Get(\x7b path: \x22", .record
    [("get", .record [("operationId", .text "listPets")])])])]

/-- The controller of that document. -/
def strayController : Controller where
  name := "Pet"
  description := ""
  path := "/pets"
  methods := [⟨.get, "listPets", "/pets/\x22 \x7d) evil() \x7b\x7d @Get(\x7b path: \x22",
    none, none⟩]
  imports := [⟨"PetService", "@/services/PetService"⟩]

/-- **A path adds a member to the class,** and the file passes the check: the literal of the route
is read as the root, and what follows it as code. -/
theorem strayRoute_adds_member :
    ("Pet", strayController) ∈ (runAll [⟨.controllers, {}, strayRoute⟩]).controllers.entries ∧
      sourceProblems (controllerFile {} strayController) (some "PetController") = [] ∧
      (∃ m ∈ strayController.methods, ∃ before after rest,
        controllerFile {} strayController = before ++ routeHead m ++ '\x22' :: after ∧
          readLiteral .plain after = some (textUnits ['/'], rest) ∧ methodRoute m ≠ ['/']) ∧
      strayController.methods.map (·.name) = ["listPets"] ∧
      (findClass? (controllerFile {} strayController) "PetController").map
        (fun body => body.members.map (·.name)) =
          some ["constructor", "evil", "listPets", "register"] := by
  refine ⟨by decide +kernel, by decide +kernel, ⟨_, List.mem_singleton_self _,
    (controllerFile {} strayController).take 256, (controllerFile {} strayController).drop 287,
    (controllerFile {} strayController).drop 289, ?_, ?_, ?_⟩, ?_, ?_⟩
  · decide +kernel
  · decide +kernel
  · decide +kernel
  · decide
  · decide +kernel

end Stored

end ApiScaffold
