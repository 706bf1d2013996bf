import ApiScaffold.Project
import ApiScaffold.Proofs.FileTree.Child
import ApiScaffold.Proofs.Render.BoundNames

/-!
# Module specifiers and the files that they name

A generated file names another one in its import lines, by a specifier that is put together apart
from the path of that file.

* `Task.importGroups` are the import lines of a generated file, `Task.source_eq` shows them in it;
* `ImportsClass` says which of them name a class of the project, and where the class is written;
* `lastName_child_iff`: which texts are named below a directory by their last segment;
* `lastSegment_iff`: a specifier and its file agree in the last segment exactly if the extension
  allows it.
-/

namespace ApiScaffold

open Draft Render TypeScript

/-! ### Import lines of generated files -/

/-- The line by which the main file imports a controller. -/
def controllerGroup (settings : Settings) (c : Controller) : ImportGroup :=
  ⟨false, [Naming.className c.name .controller],
    "./controllers/" ++ Naming.fileName c.name .controller settings.extension⟩

namespace Task

/-- The text that a task writes into a new file. -/
def source (settings : Settings) : Task → List Char
  | model m => modelFile settings m
  | service s => serviceFile settings s
  | controller c => controllerFile settings c
  | main cs => mainFile settings cs

/-- The import lines at its beginning. -/
def importGroups (settings : Settings) : Task → List ImportGroup
  | model m => m.imports.map (typeGroup settings)
  | service s => (serviceParts settings s).imports
  | controller c => (controllerParts settings c).imports
  | main cs =>
    ⟨false, ["Application"], settings.frameworkModule⟩ :: cs.map (controllerGroup settings)

/-- A new file begins with its import lines. -/
theorem source_eq (settings : Settings) (task : Task) :
    ∃ rest, task.source settings =
      fileOfLines ((task.importGroups settings).map ImportGroup.line ++ rest) := by
  cases task with
  | model m =>
    have hlines : modelImportLines settings m =
        (m.imports.map (typeGroup settings)).map ImportGroup.line ++
          if m.imports.isEmpty then [] else [[]] := by
      rw [modelImportLines, List.map_map]
      split_ifs with hnone
      · rw [List.isEmpty_iff.1 hnone]
        rfl
      · rfl
    rw [source, importGroups, modelFile, hlines]
    simp only [List.append_assoc]
    exact ⟨_, rfl⟩
  | service s => exact ⟨_, serviceFile_eq_text settings s⟩
  | controller c => exact ⟨_, controllerFile_eq_text settings c⟩
  | main cs =>
    rw [source, mainFile, importGroups, List.map_cons, List.map_map]
    exact ⟨_, rfl⟩

end Task

/-! ### Files of classes -/

/-- An import line of a generated file names a class of the project, which is written into a file. A
service that has a file already gets such a line for each class that it lacks. -/
inductive ImportsClass (settings : Settings) (stores : Stores) :
    Task → ImportGroup → DiskPath → Prop
  | model (m : Model) (i : Import) (hi : i ∈ m.imports) (t : Model) (ht : t ∈ stores.models.values)
      (hname : t.name = i.name) :
      ImportsClass settings stores (.model m) (typeGroup settings i) (modelPath settings t)
  | service (s : Service) (i : Import) (hi : i ∈ s.imports) (t : Model)
      (ht : t ∈ stores.models.values) (hname : t.name = i.name) :
      ImportsClass settings stores (.service s) (classGroup settings i) (modelPath settings t)
  | controller (c : Controller) (i : Import) (hi : i ∈ c.imports) (hother : i.name ≠ c.serviceClass)
      (t : Model) (ht : t ∈ stores.models.values) (hname : t.name = i.name) :
      ImportsClass settings stores (.controller c) (typeGroup settings i) (modelPath settings t)
  | injected (c : Controller) (i : Import) (hi : i ∈ c.serviceImports) (s : Service)
      (hs : s ∈ stores.services.values) (hname : s.name = c.name) :
      ImportsClass settings stores (.controller c) (classGroup settings i) (servicePath settings s)
  | main (cs : List Controller) (c : Controller) (hc : c ∈ cs) :
      ImportsClass settings stores (.main cs) (controllerGroup settings c)
        (controllerPath settings c)

/-- These lines are among the import lines of the file. -/
theorem ImportsClass.mem_importGroups {settings : Settings} {stores : Stores} {task : Task}
    {g : ImportGroup} {file : DiskPath} (h : ImportsClass settings stores task g file) :
    g ∈ task.importGroups settings := by
  cases h with
  | model m i hi => exact List.mem_map_of_mem hi
  | service s i hi => exact List.mem_append_left _ (List.mem_map_of_mem hi)
  | controller c i hi hother =>
    refine List.mem_append_left _ (List.mem_append_right _ (List.mem_map_of_mem ?_))
    exact List.mem_filter.2 ⟨hi, bne_iff_ne.2 hother⟩
  | injected c i hi =>
    exact List.mem_append_left _ (List.mem_append_left _ (List.mem_map_of_mem hi))
  | main cs c hc => exact List.mem_cons_of_mem _ (List.mem_map_of_mem hc)

/-! ### Last segments -/

section Segments

variable {s t : String}

theorem lastSegment_of_notMem (h : '/' ∉ s.toList) : lastSegment s = s := by
  have hall : s.toList.reverse.takeWhile (· != '/') = s.toList.reverse := by
    refine List.takeWhile_eq_self_iff.2 fun c hc => bne_iff_ne.2 ?_
    rintro rfl
    exact h (List.mem_reverse.1 hc)
  rw [lastSegment, Reference.target, Text.takeSuffixWhile, hall, List.reverse_reverse,
    String.ofList_toList]

theorem lastSegment_append (h : '/' ∈ t.toList) : lastSegment (s ++ t) = lastSegment t := by
  obtain ⟨u, v, huv, -⟩ := List.eq_append_cons_of_mem h
  have hall : (s ++ t).toList = (s.toList ++ u) ++ '/' :: v := by
    rw [String.toList_append, huv, List.append_assoc]
  rw [lastSegment, lastSegment, Reference.target, Reference.target, hall, huv,
    Text.takeSuffixWhile_append_of_not (by decide), Text.takeSuffixWhile_append_of_not (by decide)]

theorem lastSegment_slash (s t : String) : lastSegment (s ++ "/" ++ t) = lastSegment t := by
  have hall : (s ++ "/" ++ t).toList = s.toList ++ '/' :: t.toList := by
    simp [String.toList_append]
  rw [lastSegment, lastSegment, Reference.target, Reference.target, hall,
    Text.takeSuffixWhile_append_of_not (by decide)]

theorem slash_notMem_lastSegment (s : String) : '/' ∉ (lastSegment s).toList := by
  rw [lastSegment, String.toList_ofList]
  intro hmem
  have hall := List.all_eq_true.1 (Text.all_takeSuffixWhile (· != '/') s.toList) '/' hmem
  exact absurd hall (by decide)

theorem named_notMem {front : String} (hne : front ≠ "") (t : String) :
    front ++ "." ++ t ∉ ["", "."] := by
  obtain ⟨c, cs, hcs⟩ :=
    List.exists_cons_of_ne_nil fun hnil => hne (String.toList_eq_nil_iff.1 hnil)
  have hall : (front ++ "." ++ t).toList = c :: (cs ++ '.' :: t.toList) := by
    simp [String.toList_append, hcs]
  rw [List.mem_cons, List.mem_singleton, not_or]
  constructor <;> intro heq <;> rw [heq] at hall <;> simp at hall

/-- The first piece of a text that begins with a name and a point. -/
theorem exists_splitOn_name {front : String} (hfront : '/' ∉ front.toList) (t : String) :
    ∃ (u : String) (rest : List (List Char)),
      Text.splitOn '/' (front ++ "." ++ t).toList = (front ++ "." ++ u).toList :: rest := by
  have hall : ∀ u : String, (front ++ "." ++ u).toList = front.toList ++ '.' :: u.toList := by
    simp [String.toList_append]
  have hpoint : '/' ≠ '.' := by decide
  by_cases hslash : '/' ∈ t.toList
  · obtain ⟨u, v, huv, hu⟩ := List.eq_append_cons_of_mem hslash
    have hfirst : '/' ∉ front.toList ++ '.' :: u := by simp [hfront, hu]
    refine ⟨String.ofList u, Text.splitOn '/' v, ?_⟩
    rw [hall, hall, huv, String.toList_ofList, ← Text.splitOn_append hfirst, List.append_assoc,
      List.cons_append]
  · refine ⟨t, [], Text.splitOn_of_notMem ?_⟩
    simp [hfront, hslash]

theorem rootOf_of_ne {c : Char} {cs : List Char} (hc : c ≠ '/') :
    DiskPath.rootOf (c :: cs) = "" := by
  unfold DiskPath.rootOf
  split
  · next heq => exact absurd (List.cons.inj heq).1 hc
  · next heq => exact absurd (List.cons.inj heq).1 hc
  · next heq => exact absurd (List.cons.inj heq).1 hc
  · rfl

/-- The last name of a path is the last segment of its text, unless that is left out. -/
theorem lastName_ofString_iff {x : String} :
    (DiskPath.ofString x).names.getLast? = some (lastSegment x) ↔ lastSegment x ∉ ["", "."] := by
  constructor
  · intro hsome
    have hkept := (List.mem_filter.1 (List.mem_of_getLast? hsome)).2
    simpa using hkept
  · intro hnot
    have hkept : (lastSegment x != "" && lastSegment x != ".") = true := by simpa using hnot
    obtain ⟨front, hpieces⟩ := List.getLast?_eq_some_iff.1 (Text.getLast?_splitOn '/' x.toList)
    have hlast : ([Text.takeSuffixWhile (· != '/') x.toList].map String.ofList).filter
        (fun n => n != "" && n != ".") = [lastSegment x] := List.filter_cons_of_pos hkept
    have hnames : (DiskPath.ofString x).names =
        ((Text.splitOn '/' x.toList).map String.ofList).filter (fun n => n != "" && n != ".") := rfl
    rw [hnames, hpieces, List.map_append, List.filter_append, hlast, List.getLast?_concat]

/-- A text that begins with a name and a point is named below a directory by its last segment,
unless that is empty or a point. -/
theorem lastName_child_iff (p : DiskPath) {front : String} (hfront : '/' ∉ front.toList)
    (hne : front ≠ "") (t : String) :
    (p.child (front ++ "." ++ t)).names.getLast? = some (lastSegment (front ++ "." ++ t)) ↔
      lastSegment (front ++ "." ++ t) ∉ ["", "."] := by
  obtain ⟨c, cs, hcs⟩ :=
    List.exists_cons_of_ne_nil fun hnil => hne (String.toList_eq_nil_iff.1 hnil)
  obtain ⟨u, rest, hsplit⟩ := exists_splitOn_name hfront t
  have hroot : DiskPath.rootOf (front ++ "." ++ t).toList = "" := by
    have hc : c ≠ '/' := fun heq => hfront (hcs ▸ heq ▸ List.mem_cons_self)
    rw [String.toList_append, String.toList_append, hcs]
    exact rootOf_of_ne hc
  have hfirst : front ++ "." ++ u ∈ (DiskPath.ofString (front ++ "." ++ t)).names := by
    rw [DiskPath.ofString, hsplit, List.map_cons, String.ofList_toList]
    exact List.mem_filter.2 ⟨List.mem_cons_self, by simpa using named_notMem hne u⟩
  have hnames : (p.child (front ++ "." ++ t)).names =
      p.names ++ (DiskPath.ofString (front ++ "." ++ t)).names := by
    rw [DiskPath.child, DiskPath.append, DiskPath.ofString, if_pos hroot]
  rw [hnames, List.getLast?_append_of_ne_nil _ (List.ne_nil_of_mem hfirst), lastName_ofString_iff]

/-- An extension, with points in front of it or without, has one last segment. -/
theorem lastSegment_bareExtension {extension : String} (h : '/' ∈ extension.toList) :
    '/' ∈ (Naming.bareExtension extension).toList ∧
      lastSegment (Naming.bareExtension extension) = lastSegment extension := by
  obtain ⟨u, v, huv, -⟩ := List.eq_append_cons_of_mem h
  have hbare : (Naming.bareExtension extension).toList = u.dropWhile (· == '.') ++ '/' :: v := by
    rw [Naming.bareExtension, String.toList_ofList, huv, dropWhile_append_of_not (by decide)]
  refine ⟨by simp [hbare], ?_⟩
  rw [lastSegment, lastSegment, Reference.target, Reference.target, hbare, huv,
    Text.takeSuffixWhile_append_of_not (by decide), Text.takeSuffixWhile_append_of_not (by decide)]

/-- What the extension must be like for files to be named by the last segments of their texts: with
a slash in it, it must not end in one, nor in one and a point. -/
def EndsInName (extension : String) : Prop :=
  '/' ∈ extension.toList → lastSegment extension ∉ ["", "."]

/-- A file is named by the last segment of its text. -/
theorem lastName_file_iff (p : DiskPath) {front : String} (hfront : '/' ∉ front.toList)
    (hne : front ≠ "") (extension : String) :
    (p.child (front ++ "." ++ Naming.bareExtension extension)).names.getLast? =
        some (lastSegment (front ++ "." ++ Naming.bareExtension extension)) ↔
      EndsInName extension := by
  rw [lastName_child_iff p hfront hne, EndsInName]
  by_cases hslash : '/' ∈ extension.toList
  · obtain ⟨hbare, hlast⟩ := lastSegment_bareExtension hslash
    rw [lastSegment_append hbare, hlast]
    exact ⟨fun h _ => h, fun h => h hslash⟩
  · have hbare : '/' ∉ (front ++ "." ++ Naming.bareExtension extension).toList := by
      have hpoint : '/' ≠ '.' := by decide
      simp [hfront, hpoint, Naming.slash_notMem_bareExtension hslash]
    rw [lastSegment_of_notMem hbare]
    exact iff_of_true (named_notMem hne _) fun h => absurd h hslash

/-- A specifier that ends in the extension as it was given has the same last segment exactly if the
extension has a slash or begins with no point. -/
theorem lastSegment_extension_iff {front : String} (hfront : '/' ∉ front.toList)
    (extension : String) :
    lastSegment (front ++ "." ++ Naming.bareExtension extension) =
        lastSegment (front ++ "." ++ extension) ↔
      '/' ∈ extension.toList ∨ extension.toList.head? ≠ some '.' := by
  by_cases hslash : '/' ∈ extension.toList
  · obtain ⟨hbare, hlast⟩ := lastSegment_bareExtension hslash
    rw [lastSegment_append hbare, lastSegment_append hslash]
    exact iff_of_true hlast (Or.inl hslash)
  · have hnot : ∀ t : String, '/' ∉ t.toList → '/' ∉ (front ++ "." ++ t).toList := by
      have hpoint : '/' ≠ '.' := by decide
      intro t ht
      simp [hfront, hpoint, ht]
    rw [lastSegment_of_notMem (hnot _ (Naming.slash_notMem_bareExtension hslash)),
      lastSegment_of_notMem (hnot _ hslash), String.append_right_inj, Naming.bareExtension_eq_iff]
    simp [hslash]

end Segments

/-! ### Imports of stored resources -/

/-- An import whose path ends in its name, which is one segment. -/
structure Import.Placed (i : Import) : Prop where
  ne_nothing : i.name ≠ ""
  slash : '/' ∉ i.name.toList
  path : ∃ dir : String, i.path = dir ++ "/" ++ i.name

variable {calls : List (Settings × Value)} {run : List Compilation} {target : Target} {n : String}

/-- The imports of stored models are placed. -/
theorem placed_of_model {m : Model} (h : m ∈ (compileAll calls).models.values) {i : Import}
    (hi : i ∈ m.imports) : i.Placed := by
  obtain ⟨e, he, rfl⟩ := List.mem_map.1 h
  obtain ⟨call, -, schemas, -, schema, -, hmodel⟩ := exists_schema_of_compileAll he
  obtain ⟨ref, -, hname⟩ := exists_reference_of_compileModel hmodel hi
  obtain ⟨name, props, fields, -, -, -, hcheck⟩ := exists_draft_of_compileModel hmodel
  obtain ⟨hsound, himports⟩ := Model.imports_of_check_draft hcheck
  rw [himports] at hi
  refine ⟨(hsound.1 i hi).1, hname ▸ slash_notMem_lastSegment ref, call.1.modelsAlias, ?_⟩
  obtain ⟨k, -, rfl⟩ := List.mem_map.1 hi
  rfl

/-- The imports of the classes of bodies are placed. -/
theorem placed_of_mem_importsOf {settings : Settings} {ms : List Method}
    (hms : ∀ m ∈ ms, StemsFrom run target n m) {i : Import} (hi : i ∈ importsOf settings ms) :
    i.Placed := by
  obtain ⟨m, hm, b, hb, rfl⟩ := mem_importsOf hi
  obtain ⟨k, -, o, -, ref, -, htype⟩ := (hms m hm).exists_bodyReference hb
  have hsound := (Method.sound_bodies (hms m hm).sound).2 b hb
  exact ⟨hsound.2, htype ▸ slash_notMem_lastSegment ref, settings.modelsAlias, rfl⟩

/-- The imports of stored services are placed. -/
theorem placed_of_service {s : Service} (h : s ∈ (compileAll calls).services.values) {i : Import}
    (hi : i ∈ s.imports) : i.Placed := by
  obtain ⟨run, -, hservices, -⟩ := exists_run_of_compileAll calls
  rw [← hservices] at h
  obtain ⟨⟨n, s⟩, he, rfl⟩ := List.mem_map.1 h
  obtain ⟨-, settings, himports⟩ := imports_of_service he
  rw [himports] at hi
  exact placed_of_mem_importsOf (fun m => serviceBranch.stemsFrom he) hi

/-- A class of a stored resource is named by one segment. -/
theorem slash_notMem_className {α : Type} {b : Branch α} {e : String × α} (h : b.MadeBy run e)
    (role : Naming.Role) :
    '/' ∉ (Naming.className e.1 role).toList ∧ Naming.className e.1 role ≠ "" := by
  have hsuffix : '/' ∉ role.suffix.toList := by cases role <;> decide
  have hname : '/' ∉ e.1.toList := fun hmem => absurd (h.isAlphanum_name hmem) (by decide)
  rw [Naming.className, String.toList_append]
  refine ⟨by simp [hname, hsuffix], fun hnone => h.name_ne ?_⟩
  exact (String.append_eq_empty_iff.1 hnone).1

/-- The imports of stored controllers are placed. -/
theorem placed_of_controller {c : Controller} (h : c ∈ (compileAll calls).controllers.values)
    {i : Import} (hi : i ∈ c.imports) : i.Placed := by
  obtain ⟨run, -, -, hcontrollers⟩ := exists_run_of_compileAll calls
  rw [← hcontrollers] at h
  obtain ⟨⟨n, c⟩, he, rfl⟩ := List.mem_map.1 h
  obtain ⟨-, settings, himports, -⟩ := imports_of_controller he
  rw [himports] at hi
  rcases List.mem_cons.1 hi with rfl | hi
  · obtain ⟨hslash, hne⟩ := slash_notMem_className (controllerBranch.madeBy he) .service
    exact ⟨hne, hslash, settings.servicesAlias, rfl⟩
  · exact placed_of_mem_importsOf (fun m => controllerBranch.stemsFrom he) hi

/-! ### Agreement -/

/-- What the extension must be like for the specifiers in the file of a task to end in the names of
the files that are meant: it names files, and if it has no slash, it begins with no point. The main
file takes the points off. -/
def Task.Agrees (settings : Settings) : Task → Prop
  | .main _ => EndsInName settings.extension
  | _ => EndsInName settings.extension ∧
      ('/' ∈ settings.extension.toList ∨ settings.extension.toList.head? ≠ some '.')

/-- The specifier of a placed import ends in the name of the file of its class exactly if the
extension is as it must be. -/
theorem lastName_module_iff (settings : Settings) (p : DiskPath) {i : Import} (h : i.Placed) :
    (p.child (i.name ++ "." ++ Naming.bareExtension settings.extension)).names.getLast? =
        some (lastSegment (moduleOf settings i.path)) ↔
      EndsInName settings.extension ∧
        ('/' ∈ settings.extension.toList ∨ settings.extension.toList.head? ≠ some '.') := by
  obtain ⟨dir, hdir⟩ := h.path
  have hmodule : moduleOf settings i.path =
      dir ++ "/" ++ (i.name ++ "." ++ settings.extension) := by
    rw [moduleOf, hdir]
    simp only [String.append_assoc]
  have hfile := lastName_file_iff p h.slash h.ne_nothing settings.extension
  have hlast := lastSegment_extension_iff h.slash settings.extension
  rw [hmodule, lastSegment_slash]
  by_cases heq : '/' ∈ settings.extension.toList ∨ settings.extension.toList.head? ≠ some '.'
  · rw [← hlast.2 heq, hfile]
    exact ⟨fun hends => ⟨hends, heq⟩, And.left⟩
  · -- The file is named without the points that the specifier has.
    rw [not_or] at heq
    have hends : EndsInName settings.extension := fun hslash => absurd hslash heq.1
    refine iff_of_false (fun hboth => ?_) fun hboth => not_or.2 heq hboth.2
    exact not_or.2 heq (hlast.1 (Option.some.inj ((hfile.2 hends).symm.trans hboth)))

/-- **A specifier ends in the name of the file that is written** exactly if the extension is as it
must be, whatever documents were compiled under whatever settings, for every class of the project
that a generated file imports. -/
theorem lastSegment_iff (calls : List (Settings × Value)) (settings : Settings) {task : Task}
    (ht : task ∈ Task.ofStores (compileAll calls)) {g : ImportGroup} {file : DiskPath}
    (h : ImportsClass settings (compileAll calls) task g file) :
    file.names.getLast? = some (lastSegment g.module) ↔ task.Agrees settings := by
  have hmodel : ∀ {i : Import} {t : Model}, t.name = i.name → i.Placed →
      ((modelPath settings t).names.getLast? =
        some (lastSegment (moduleOf settings i.path)) ↔ EndsInName settings.extension ∧
          ('/' ∈ settings.extension.toList ∨ settings.extension.toList.head? ≠ some '.')) := by
    intro i t hname hi
    have hclass : Naming.className t.name .model = i.name := by
      rw [Naming.className, hname]
      exact String.append_empty
    rw [modelPath, Naming.fileName, hclass]
    exact lastName_module_iff settings _ hi
  cases h with
  | model m i hi t _ hname =>
    exact hmodel hname (placed_of_model (by simpa [Task.ofStores] using ht) hi)
  | service s i hi t _ hname =>
    exact hmodel hname (placed_of_service (by simpa [Task.ofStores] using ht) hi)
  | controller c i hi hother t _ hname =>
    exact hmodel hname (placed_of_controller (by simpa [Task.ofStores] using ht) hi)
  | injected c i hi s _ hname =>
    obtain ⟨hmem, hservice⟩ := List.mem_filter.1 hi
    have hclass : Naming.className s.name .service = i.name := by
      rw [hname, beq_iff_eq.1 hservice]
      rfl
    rw [servicePath, Naming.fileName, hclass]
    exact lastName_module_iff settings _
      (placed_of_controller (by simpa [Task.ofStores] using ht) hmem)
  | main cs c hc =>
    obtain rfl : cs = (compileAll calls).controllers.values := by simpa [Task.ofStores] using ht
    obtain ⟨run, -, -, hcontrollers⟩ := exists_run_of_compileAll calls
    rw [← hcontrollers] at hc
    obtain ⟨⟨n, c⟩, he, rfl⟩ := List.mem_map.1 hc
    obtain ⟨rfl, -⟩ := imports_of_controller he
    obtain ⟨hslash, hne⟩ := slash_notMem_className (controllerBranch.madeBy he) .controller
    have hdir : "./controllers/" = "./controllers" ++ "/" := rfl
    rw [controllerGroup, hdir, lastSegment_slash, controllerPath]
    exact lastName_file_iff _ hslash hne settings.extension

/-- With the usual extension the service of pets imports the file in which their class is. -/
theorem lastSegment_iff_listedAndAdded :
    ∃ task ∈ Task.ofStores (compileAll [({}, listedAndAdded)]), ∃ g file,
      ImportsClass {} (compileAll [({}, listedAndAdded)]) task g file ∧
        file.names.getLast? = some (lastSegment g.module) := by
  have hstored : ∃ s ∈ (compileAll [({}, listedAndAdded)]).services.values, ∃ i ∈ s.imports,
      ∃ t ∈ (compileAll [({}, listedAndAdded)]).models.values, t.name = i.name := by decide +kernel
  obtain ⟨s, hs, i, hi, t, ht, hname⟩ := hstored
  have htask : Task.service s ∈ Task.ofStores (compileAll [({}, listedAndAdded)]) := by
    simpa [Task.ofStores] using hs
  have himports : ImportsClass {} (compileAll [({}, listedAndAdded)]) (.service s)
      (classGroup {} i) (modelPath {} t) := .service s i hi t ht hname
  have hslash : '/' ∉ "ts".toList := by decide
  have hagrees : Task.Agrees {} (.service s) :=
    ⟨fun hmem => absurd hmem hslash, Or.inr (by decide)⟩
  exact ⟨_, htask, _, _, himports, (lastSegment_iff _ {} htask himports).2 hagrees⟩

/-- An extension with a point in front. -/
def dotted : Settings := { extension := ".ts" }

/-- **With a point in front of the extension** the service imports no file that is written. -/
theorem dotted_names_no_file :
    ∃ task ∈ Task.ofStores (compileAll [(dotted, listedAndAdded)]), ∃ g file,
      ImportsClass dotted (compileAll [(dotted, listedAndAdded)]) task g file ∧
        file.names.getLast? = some "Pet.ts" ∧ lastSegment g.module = "Pet..ts" := by
  have hstored : ∃ s ∈ (compileAll [(dotted, listedAndAdded)]).services.values, ∃ i ∈ s.imports,
      ∃ t ∈ (compileAll [(dotted, listedAndAdded)]).models.values, t.name = i.name ∧
        (modelPath dotted t).names.getLast? = some "Pet.ts" ∧
          lastSegment (moduleOf dotted i.path) = "Pet..ts" := by decide +kernel
  obtain ⟨s, hs, i, hi, t, ht, hname, hfile, hmodule⟩ := hstored
  have htask : Task.service s ∈ Task.ofStores (compileAll [(dotted, listedAndAdded)]) := by
    simpa [Task.ofStores] using hs
  exact ⟨_, htask, _, _, .service s i hi t ht hname, hfile, hmodule⟩

end ApiScaffold
