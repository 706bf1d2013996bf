import ApiScaffold.Proofs.Controller.Rendering
import ApiScaffold.Proofs.Keyed

/-!
# Reading a controller file back

The members of a controller class are written with decorators whose literals hold routes, and the
search for members has to split them where they were joined.

* `OnlyDecorator` says that the span of a member holds a decorator, and in its code no other;
* `onlyDecorator_of_readAs`: so it is for an operation, whatever its route holds;
* `undecorated_constructor`, `undecorated_register`: the other members have no decorator;
* `controllerFile_readBack`: a rendered controller passes the check, and its class lists the
  constructor, the operations in order, and the registration method.
-/

namespace ApiScaffold

open TypeScript ControllerFile

/-! ### Decorators in the span of a member -/

/-- The text of the member holds the decorator `t`, and the sign of a decorator stands in its code
where `t` begins and nowhere else. -/
def OnlyDecorator (source t : List Char) (m : Member) : Prop :=
  ∃ lead rest, source.extract m.start m.stop = lead ++ (t ++ rest) ∧
    ∀ i, ((mask source).extract m.start m.stop)[i]? = some '@' ↔ i = lead.length

/-- A member that is read as a method without decorators. -/
structure Undecorated (source : List Char) (name : String) (m : Member) : Prop where
  name : m.name = name
  kind : m.kind = .method
  sign_notMem : '@' ∉ (mask source).extract m.start m.stop

/-- A member that is read as an operation with its own decorator alone. -/
structure ReadsAs (source : List Char) (o : Method) (m : Member) : Prop where
  name : m.name = o.name
  kind : m.kind = .method
  decorator : OnlyDecorator source (routeDecorator o) m

/-- What is not in the parts around it stands at one place of a list. -/
theorem getElem?_append_cons_iff {α : Type} {a : α} {u v : List α} (hu : a ∉ u) (hv : a ∉ v)
    (i : ℕ) : (u ++ a :: v)[i]? = some a ↔ i = u.length := by
  rcases lt_trichotomy i u.length with hlt | rfl | hlt
  · rw [List.getElem?_append_left hlt]
    exact ⟨fun h => absurd (List.mem_of_getElem? h) hu, fun h => absurd h hlt.ne⟩
  · simp
  · obtain ⟨n, rfl⟩ := Nat.exists_eq_add_of_lt hlt
    rw [List.getElem?_append_right (by omega),
      show u.length + n + 1 - u.length = n + 1 by omega, List.getElem?_cons_succ]
    exact ⟨fun h => absurd (List.mem_of_getElem? h) hv, fun h => absurd h hlt.ne'⟩

section Signs

variable {settings : Settings} {c : Controller} {o : Method} {m : Member} {source : List Char}

theorem sign_notMem_operationRest (h : Spelled settings c) (ho : o ∈ c.methods) :
    '@' ∉ operationRest c o := by
  obtain ⟨-, -, -, -, hchars⟩ := exists_of_isIdentifier (h.methods o ho)
  have hname : '@' ∉ o.name.toList := fun hmem => absurd (hchars _ hmem) (by decide)
  have hfield : '@' ∉ Render.serviceField c := (isWord_serviceField c).notMem (by decide)
  have hcontext : IsWord "Context".toList := by decide
  have hparams := ServiceFile.notMem_methodParameters (d := '@') (by decide) (by decide) hcontext
    (h.bodyTypes o ho)
  have hcall : '@' ∉ Render.callArguments o.bodyType? := fun hmem =>
    (mem_callArguments _ _ hmem).2 (by decide)
  unfold operationRest operationBody
  simp [hname, hfield, hparams, hcall]

theorem sign_notMem_shownArguments (o : Method) : '@' ∉ shownArguments o := by
  have hconstant : '@' ∉ "\x7b description: \"\", path: \"".toList ++ "\" \x7d".toList := by decide
  rw [List.mem_append, not_or] at hconstant
  unfold shownArguments
  rw [List.mem_append, List.mem_append]
  rintro ((hmem | hmem) | hmem)
  · exact hconstant.1 hmem
  · obtain ⟨d, -, hd⟩ := List.mem_map.1 hmem
    unfold blank at hd
    split_ifs at hd <;> exact absurd hd (by decide)
  · exact hconstant.2 hmem

/-- In the mask of an operation the sign stands in front of its decorator only. -/
theorem onlyDecorator_of_readAs (h : Spelled settings c) (ho : o ∈ c.methods)
    (hm : (operationMethod c o).ReadAs source m) : OnlyDecorator source (routeDecorator o) m := by
  refine ⟨ServiceFile.below, operationRest c o, hm.text, fun i => ?_⟩
  have hverb : '@' ∉ o.verb.decorator.toList := (isWord_decorator o.verb).notMem (by decide)
  have harguments := sign_notMem_shownArguments o
  have hrest := sign_notMem_operationRest h ho
  have hmasked : (operationMethod c o).masked = ServiceFile.below ++
      '@' :: (o.verb.decorator.toList ++
        '(' :: (shownArguments o ++ ')' :: operationRest c o)) := by
    rw [WrittenMethod.masked, text_operationDecl]
    simp [operationMethod]
  rw [hm.masked, hmasked]
  exact getElem?_append_cons_iff (by decide) (by simp [hverb, harguments, hrest]) i

theorem readsAs_of_readAs (h : Spelled settings c) (ho : o ∈ c.methods)
    (hm : (operationMethod c o).ReadAs source m) : ReadsAs source o m where
  name := by rw [hm.name, operationMethod, operationDecl, declOf, String.ofList_toList]
  kind := hm.kind
  decorator := onlyDecorator_of_readAs h ho hm

theorem notMem_plainMethod {d : Char} {lead name params result body : List Char}
    (hparts : d ∉ lead ++ (name ++ (params ++ (result ++ body))))
    (hbracket : d ∉ ['(', ')', '\x7b', '\x7d']) :
    d ∉ (plainMethod lead (declOf [] name params result body)).masked := by
  simp only [List.mem_append, List.mem_cons, not_or] at hparts hbracket
  simp [plainMethod, WrittenMethod.masked, declOf, MethodDecl.text, MethodDecl.front,
    MethodDecl.tail, MethodDecl.header, MethodDecl.typeText, hparts, hbracket]

theorem undecorated_constructor (h : Spelled settings c)
    (hm : (constructorMethod c).ReadAs source m) : Undecorated source "constructor" m where
  name := by rw [hm.name, constructorMethod, plainMethod, declOf, String.ofList_toList]
  kind := hm.kind
  sign_notMem := by
    have hfield : '@' ∉ Render.serviceField c := (isWord_serviceField c).notMem (by decide)
    have hclass : '@' ∉ c.serviceClass.toList := h.serviceClass.notMem (by decide)
    have hconstant : '@' ∉ ['\n', ' ', ' '] ++ "constructor".toList ++ "private readonly ".toList ++
        ": ".toList ++ [' '] := by decide
    simp only [List.mem_append, not_or] at hconstant
    rw [hm.masked]
    refine notMem_plainMethod ?_ (by decide)
    simp only [List.mem_append, not_or]
    exact ⟨hconstant.1.1.1.1, hconstant.1.1.1.2,
      ⟨⟨⟨hconstant.1.1.2, hfield⟩, hconstant.1.2⟩, hclass⟩, hconstant.2, List.not_mem_nil⟩

theorem undecorated_register (h : Spelled settings c)
    (hm : (registerMethod c).ReadAs source m) : Undecorated source "register" m where
  name := by rw [hm.name, registerMethod, plainMethod, declOf, String.ofList_toList]
  kind := hm.kind
  sign_notMem := by
    have hword : ∀ n ∈ [c.serviceClass], IsWord n.toList := by simpa using h.serviceClass
    have hlist := ServiceFile.notMem_dependencies (d := '@') hword (by decide) (by decide)
    rw [hm.masked]
    have hconstant : '@' ∉ ServiceFile.below ++ "register".toList ++
        ": InjectableRegistration ".toList ++ "\n    return \x7b dependencies: [".toList ++
        "] \x7d;\n  ".toList := by decide
    simp only [List.mem_append, not_or] at hconstant
    refine notMem_plainMethod ?_ (by decide)
    unfold ServiceFile.registrationBody
    simp only [List.mem_append, not_or]
    exact ⟨hconstant.1.1.1.1, hconstant.1.1.1.2, List.not_mem_nil, hconstant.1.1.2,
      hconstant.1.2, hlist, hconstant.2⟩

end Signs

/-! ### The file of a controller -/

/-- **A rendered controller is read back as it was written.** Its file passes the check, and its
class lists the constructor, the operations in order, each with its own route decorator alone, and
the registration method, whatever its paths and urls hold between their quotation marks. -/
theorem controllerFile_readBack {settings : Settings} {c : Controller} (h : Spelled settings c) :
    sourceProblems (Render.controllerFile settings c)
        (some (Naming.className c.name .controller)) = [] ∧
      ∃ body first inner last,
        findClass? (Render.controllerFile settings c) (Naming.className c.name .controller) =
            some body ∧
          body.members = first :: inner ++ [last] ∧
          Undecorated (Render.controllerFile settings c) "constructor" first ∧
          List.Forall₂ (ReadsAs (Render.controllerFile settings c)) c.methods inner ∧
          Undecorated (Render.controllerFile settings c) "register" last := by
  obtain ⟨k, hk, htext, hname, hmethods⟩ := exists_writtenClass h
  obtain ⟨body, hbody, hmembers⟩ := hk.exists_findClass? hname
  rw [htext] at hbody hmembers
  refine ⟨by rw [← htext]; exact hk.sourceProblems_eq hname, body, ?_⟩
  rw [hmethods, membersOf, List.cons_append] at hmembers
  obtain ⟨first, rest, hfirst, hrest, hall⟩ := List.forall₂_cons_left_iff.1 hmembers
  obtain ⟨inner, lasts, rfl, hinner, hlasts⟩ := forall₂_append_left hrest
  obtain ⟨last, nothing, hlast, hnothing, rfl⟩ := List.forall₂_cons_left_iff.1 hlasts
  obtain rfl := List.forall₂_nil_left_iff.1 hnothing
  rw [List.forall₂_map_left_iff] at hinner
  exact ⟨first, inner, last, hbody, hall, undecorated_constructor h hfirst,
    forall₂_imp_mem (fun o ho m hm => readsAs_of_readAs h ho hm) hinner,
    undecorated_register h hlast⟩

/-- A controller whose texts hold the signs of literals, comments, decorators and braces. -/
def hostileController : Controller where
  name := "Pet"
  description := ""
  path := "/pets\x7b\x27/*"
  methods := [
    ⟨.get, "find", "/pets/\x7bid\x7d/\x27\x60//* @Get(\x7d", none, none⟩,
    ⟨.post, "$make_1", "pets/*/)", none, some ⟨none, some [⟨"body", "class"⟩]⟩⟩]
  imports := [⟨"PetService", "@/services/Pet\x60Service"⟩, ⟨"class", "//\x27\x7b"⟩]

theorem spelled_hostileController : Spelled {} hostileController where
  name := by decide
  methods := by decide
  bodyTypes := fun m hm t ht => by
    have hwords : ∀ m ∈ hostileController.methods,
        m.bodyType?.all (·.toList.all Text.isWordChar) = true := by decide
    have hall := hwords m hm
    rw [ht] at hall
    exact List.all_eq_true.1 hall
  importNames := by decide
  path := by decide
  urls := by decide
  importPaths := by decide
  extension := by decide
  frameworkModule := by decide

theorem controllerFile_readBack_hostile :
    (Spelled {} hostileController ∧
        hostileController.methods.map (fun m => String.ofList (routeDecorator m)) =
          ["@Get(\x7b description: \"\", path: \"/\x7bid\x7d/\x27\x60//* @Get(\x7d\" \x7d)",
            "@Post(\x7b description: \"\", path: \"pets/*/)\" \x7d)"]) ∧
      sourceProblems (Render.controllerFile {} hostileController) (some "PetController") = [] ∧
      ∃ body first inner last,
        findClass? (Render.controllerFile {} hostileController) "PetController" = some body ∧
          body.members = first :: inner ++ [last] ∧
          Undecorated (Render.controllerFile {} hostileController) "constructor" first ∧
          List.Forall₂ (ReadsAs (Render.controllerFile {} hostileController))
            hostileController.methods inner ∧
          Undecorated (Render.controllerFile {} hostileController) "register" last :=
  ⟨⟨spelled_hostileController, by decide +kernel⟩,
    controllerFile_readBack spelled_hostileController⟩

end ApiScaffold
