import ApiScaffold.Proofs.Project.Order
import ApiScaffold.Proofs.Service.Again

/-!
# Generating a project again

A project that was generated into a directory without files is found as it was left when it is
generated again: services are up to date, and all other files are written over with the text that
they hold.

* `Task.rendered`, `runTasks_rendered`: what a first run leaves behind;
* `Task.run_again`, `runTasks_again`: what a second run finds, and that it changes nothing;
* `generateDocument_again`: so it is for a whole document.
-/

namespace ApiScaffold

open FileTree DiskPath

variable {settings : Settings} {tree t t' : FileTree} {path : DiskPath} {task : Task}
  {tasks : List Task} {result : Except Fault BuildResult} {c : Content} {doc : Value}

/-! ### The first run -/

/-- The file of the task holds the text that is generated anew, and the text has no problems. -/
structure Task.Rendered (settings : Settings) (t : FileTree) (task : Task) : Prop where
  file : t.FileAt (task.path settings) (sourceContent (task.rendering settings))
  sound : TypeScript.sourceProblems (task.rendering settings) task.className? = []

/-- A result without a fault, for a file that passed its check. -/
def Succeeded (result : Except Fault BuildResult) : Prop :=
  ∃ r, result = .ok r ∧ r.outcome ≠ .validationFailed

/-- What is written anew without a fault is there. -/
theorem rendered_of_anew {outcome : Outcome}
    (h : (task.anew settings outcome).carryOut tree (task.path settings) = (t, result))
    (hsucceeded : Succeeded result) : task.Rendered settings t := by
  obtain ⟨r, rfl, hr⟩ := hsucceeded
  rcases Attempt.carryOut_ofSource h with ⟨-, e, he⟩ | ⟨-, errors, he⟩ | ⟨hsound, hwrite, -⟩
  · cases he
  · cases he
    exact absurd rfl hr
  · exact ⟨fileAt_of_write hwrite, hsound⟩

/-- A task whose file was not there leaves it as it is generated anew. -/
theorem Task.rendered (hnone : tree.file? (task.place settings) = none)
    (hsucceeded : Succeeded (task.run settings tree).result) :
    task.Rendered settings (task.run settings tree).tree := by
  have hrun := (task.run_eq settings tree).symm
  generalize (task.run settings tree).tree = after at hrun ⊢
  generalize (task.run settings tree).result = result at hrun hsucceeded
  cases task with
  | service s =>
    dsimp only [attempt] at hrun
    split at hrun
    · exact rendered_of_anew hrun hsucceeded
    · cases hrun
      obtain ⟨r, hr, -⟩ := hsucceeded
      cases hr
    · cases hrun
      obtain ⟨r, hr, -⟩ := hsucceeded
      cases hr
    · next source hfound =>
      have hfile := file?_eq_some_iff.2 (found?_eq_some_iff.1 hfound).2
      cases hnone.symm.trans hfile
  | model m => exact rendered_of_anew hrun hsucceeded
  | controller c => exact rendered_of_anew hrun hsucceeded
  | main cs => exact rendered_of_anew hrun hsucceeded

/-- A task leaves the files of others where they are. -/
theorem Task.Ended.fileAt_of_ne (h : task.Ended settings tree t result)
    (hfile : tree.FileAt path c) (hne : placeOf path ≠ task.place settings) : t.FileAt path c := by
  cases h with
  | faulted | rejected | upToDate => exact hfile
  | written source outcome after sound write accepted => exact hfile.of_write write hne

theorem fileAt_runTasks (hfile : tree.FileAt path c)
    (hne : placeOf path ∉ tasks.map (·.place settings)) :
    (runTasks settings tree tasks).1.FileAt path c := by
  induction tasks generalizing tree with
  | nil => exact hfile
  | cons task tasks ih =>
    rw [List.map_cons, List.mem_cons, not_or] at hne
    exact ih ((task.ended settings tree).fileAt_of_ne hfile hne.1) hne.2

/-- **What a first run leaves behind.** -/
theorem runTasks_rendered (distinct : (tasks.map (·.place settings)).Nodup)
    (hnone : ∀ task ∈ tasks, tree.file? (task.place settings) = none)
    (hsucceeded : ∀ result ∈ (runTasks settings tree tasks).2.2, Succeeded result) :
    ∀ task ∈ tasks, task.Rendered settings (runTasks settings tree tasks).1 := by
  induction tasks generalizing tree with
  | nil => simp
  | cons first tasks ih =>
    rw [List.map_cons, List.nodup_cons] at distinct
    rw [runTasks] at hsucceeded ⊢
    obtain ⟨hfirst, hrest⟩ := List.forall_mem_cons.1 hsucceeded
    have hended := first.ended settings tree
    intro task htask
    rcases List.mem_cons.1 htask with rfl | htask
    · have hrendered := Task.rendered (hnone task List.mem_cons_self) hfirst
      exact ⟨fileAt_runTasks hrendered.file distinct.1, hrendered.sound⟩
    · refine ih distinct.2 (fun other hother => ?_) hrest task htask
      rw [hended.file?_of_ne fun heq => distinct.1 (heq ▸ List.mem_map_of_mem hother)]
      exact hnone other (List.mem_cons_of_mem _ hother)

/-! ### The second run -/

/-- What becomes of the file of a task that is run again. -/
def Task.again : Task → Outcome
  | service _ => .reconciled
  | _ => .overwritten

theorem Task.again_ne (task : Task) : task.again ≠ .validationFailed := by
  cases task <;> simp [again]

/-- The file of a service, as it is generated anew, needs nothing more. -/
def Task.Lasting (settings : Settings) (task : Task) : Prop :=
  ∀ s, task = .service s →
    Attempt.ofReconciling settings (task.path settings) s
        (Text.normalizeLineEnds (task.rendering settings)) =
      .leave (.ok ⟨task.path settings, .reconciled, []⟩)

theorem Task.Rendered.congr (h : task.Rendered settings t) (hsame : ∀ q, t'.get? q = t.get? q) :
    task.Rendered settings t' := ⟨h.file.congr hsame, h.sound⟩

/-- A task that is run again changes nothing. -/
theorem Task.run_again (h : task.Rendered settings t) (hlasting : task.Lasting settings) :
    (task.run settings t).result = .ok ⟨task.path settings, task.again, []⟩ ∧
      ∀ q, (task.run settings t).tree.get? q = t.get? q := by
  have hrun := task.run_eq settings t
  have hfound : t.found? (task.path settings) =
      some (.file (sourceContent (task.rendering settings))) := by
    rw [FileTree.found?, fileAt_iff.1 h.file]
    rfl
  obtain ⟨t', hwrite, hsame⟩ := h.file.write_same
  have hanew : (task.anew settings .overwritten).carryOut t (task.path settings) =
      (t', .ok ⟨task.path settings, .overwritten, []⟩) := by
    rw [anew, Attempt.ofSource, h.sound]
    simp only [List.map_nil, List.isEmpty_nil, if_true, Attempt.carryOut, hwrite]
  rw [hfound] at hrun
  generalize (task.run settings t).tree = after at hrun ⊢
  generalize (task.run settings t).result = result at hrun ⊢
  cases task with
  | service s =>
    simp only [attempt, sourceContent, String.toList_ofList] at hrun
    rw [hlasting s rfl] at hrun
    cases hrun
    exact ⟨rfl, fun _ => rfl⟩
  | model m =>
    cases hrun.trans hanew
    exact ⟨rfl, hsame⟩
  | controller c =>
    cases hrun.trans hanew
    exact ⟨rfl, hsame⟩
  | main cs =>
    cases hrun.trans hanew
    exact ⟨rfl, hsame⟩

/-- **What a second run finds.** It is as it should be, and stays as it is. -/
theorem runTasks_again (h : ∀ task ∈ tasks, task.Rendered settings t)
    (hlasting : ∀ task ∈ tasks, task.Lasting settings) :
    (runTasks settings t tasks).2.2 =
        tasks.map (fun task => .ok ⟨task.path settings, task.again, []⟩) ∧
      ∀ q, (runTasks settings t tasks).1.get? q = t.get? q := by
  induction tasks generalizing t with
  | nil => exact ⟨rfl, fun _ => rfl⟩
  | cons first tasks ih =>
    obtain ⟨hresult, hsame⟩ :=
      Task.run_again (h first List.mem_cons_self) (hlasting first List.mem_cons_self)
    obtain ⟨hresults, hrest⟩ := ih
      (fun task htask => (h task (List.mem_cons_of_mem _ htask)).congr hsame)
      fun task htask => hlasting task (List.mem_cons_of_mem _ htask)
    rw [runTasks, List.map_cons, hresult, hresults]
    exact ⟨rfl, fun q => (hrest q).trans (hsame q)⟩

/-! ### Documents -/

/-- A project that was generated had all its files accepted. -/
theorem succeeded_of_generateDocument {rs : List BuildResult}
    (h : (generateDocument settings tree doc).result = .ok rs) :
    (compileDocument settings doc .empty).fault = none ∧
      ∀ result ∈ (runTasks settings tree
        (Task.ofStores (compileDocument settings doc .empty).store)).2.2, Succeeded result := by
  have hcompiled : (compileDocument settings doc .empty).fault = none := by
    cases hfault : (compileDocument settings doc .empty).fault with
    | none => rfl
    | some e =>
      have hresult : (generateDocument settings tree doc).result = .error e :=
        (generateDocument_of_fault hfault).1
      cases h.symm.trans hresult
  refine ⟨hcompiled, fun result hresult => ?_⟩
  rw [(generateDocument_of_compiled tree hcompiled).2] at h
  split at h
  · cases h
  · next results hcollect =>
    rw [collect_eq_ok_iff] at hcollect
    rw [hcollect] at hresult
    obtain ⟨r, hr, rfl⟩ := List.mem_map.1 hresult
    refine ⟨r, rfl, fun hfailed => ?_⟩
    obtain ⟨path, files, hsettle⟩ := settle_of_rejected hr hfailed
    cases hsettle.symm.trans h

/-- A file named by a word and an extension has one name. -/
theorem isName_of_word {n : String} (hword : TypeScript.IsWord n.toList) (hne : n ≠ "")
    (hextension : '/' ∉ settings.extension.toList) :
    IsName (Naming.fileName n .model settings.extension) := by
  have hslash := Naming.slash_notMem_bareExtension hextension
  obtain ⟨c, cs, hn⟩ := List.exists_cons_of_ne_nil (show n.toList ≠ [] by simpa using hne)
  have hpoint : c ≠ '.' := fun heq =>
    hword.notMem (show Text.isWordChar '.' = false by decide) (hn ▸ heq ▸ List.mem_cons_self)
  have hname : (Naming.fileName n .model settings.extension).toList =
      c :: (cs ++ '.' :: (Naming.bareExtension settings.extension).toList) := by
    simp [Naming.fileName, Naming.className, Naming.Role.suffix, hn]
  have hfirst : ∀ s : String, s.toList.head? ≠ some c →
      Naming.fileName n .model settings.extension ≠ s := by
    rintro s hs rfl
    simp [hname] at hs
  refine ⟨?_, hfirst _ (by simp), hfirst _ ?_, hfirst _ ?_⟩
  · have hrest := hword.notMem (show Text.isWordChar '/' = false by decide)
    simp [Naming.fileName, Naming.className, Naming.Role.suffix, hrest, hslash]
  · simpa using Ne.symm hpoint
  · simpa using Ne.symm hpoint

theorem isName_of_plainNames (compiled : (compileDocument settings doc .empty).fault = none)
    (names : PlainNames doc) (extension : '/' ∉ settings.extension.toList) :
    ∀ m ∈ (compileDocument settings doc .empty).store.models.values,
      IsName (Naming.fileName m.name .model settings.extension) := by
  intro m hm
  obtain ⟨hne, schemas, hschemas, e, he, hname⟩ := (fresh_models compiled).2 m hm
  have hmem : m.name ∈ schemaNames doc := by
    rw [schemaNames, hschemas]
    exact List.mem_filterMap.2 ⟨e, he, by rw [hname]; rfl⟩
  exact isName_of_word (names.schemas m.name hmem) hne extension

/-- The services of a document need nothing more once they are generated. -/
theorem lasting_of_plainNames (compiled : (compileDocument settings doc .empty).fault = none)
    (names : PlainNames doc) (plain : settings.Plain)
    (h : task ∈ Task.ofStores (compileDocument settings doc .empty).store) :
    task.Lasting settings := by
  rintro s rfl
  have hs : s ∈ (compileDocument settings doc .empty).store.services.values := by
    simpa [Task.ofStores] using h
  have hspelled := spelled_of_mem_services compiled names plain hs
  have hlayout := ServiceFile.sound_newLayout hspelled
  have hrendering : (Task.service s).rendering settings =
      (ServiceFile.newLayout settings s).text := ServiceFile.serviceFile_eq hspelled
  rw [hrendering, Text.normalizeLineEnds_of_notMem hlayout.return_notMem]
  exact reconciling_newLayout hspelled (fun i hi => plainName_of_mem_imports compiled names hs hi) _

/-- **Generating a project again.** A project that was generated into a directory without files is
generated again without a fault: its services are up to date, all other files are written over, and
every file is as it was. -/
theorem generateDocument_again (settings : Settings) (tree : FileTree) (doc : Value)
    (names : PlainNames doc) (plain : settings.Plain)
    (extension : '/' ∉ settings.extension.toList)
    (empty : ∀ q c, tree.get? (placeOf settings.outputDir ++ q) ≠ some (.file c))
    (succeeds : ∃ rs, (generateDocument settings tree doc).result = .ok rs) :
    let once := generateDocument settings tree doc
    let twice := generateDocument settings once.tree doc
    twice.result = .ok ((Task.ofStores (compileDocument settings doc .empty).store).map fun task =>
        ⟨task.path settings, task.again, []⟩) ∧
      ∀ q, twice.tree.get? q = once.tree.get? q := by
  intro once twice
  obtain ⟨rs, hrs⟩ := succeeds
  obtain ⟨hcompiled, hsucceeded⟩ := succeeded_of_generateDocument hrs
  have hmodels := isName_of_plainNames hcompiled names extension
  have hnone : ∀ task ∈ Task.ofStores (compileDocument settings doc .empty).store,
      tree.file? (task.place settings) = none := by
    intro task htask
    refine file?_eq_none fun c => ?_
    rw [Task.place_eq (isName_file hcompiled extension hmodels htask), Settings.libDir,
      placeOf_child _ isName_lib, List.append_assoc]
    exact empty _ c
  have hrendered := runTasks_rendered (nodup_place hcompiled extension hmodels) hnone hsucceeded
  have honce : once.tree = (runTasks settings tree
      (Task.ofStores (compileDocument settings doc .empty).store)).1 :=
    (generateDocument_of_compiled tree hcompiled).1
  rw [← honce] at hrendered
  obtain ⟨hresults, hsame⟩ := runTasks_again hrendered fun task htask =>
    lasting_of_plainNames hcompiled names plain htask
  obtain ⟨htree, hresult⟩ := generateDocument_of_compiled once.tree hcompiled
  refine ⟨?_, fun q => (congrArg (·.get? q) htree).trans (hsame q)⟩
  have hcollect : collect (runTasks settings once.tree
      (Task.ofStores (compileDocument settings doc .empty).store)).2.2 =
        .ok ((Task.ofStores (compileDocument settings doc .empty).store).map fun task =>
          ⟨task.path settings, task.again, []⟩) := by
    rw [collect_eq_ok_iff, hresults, List.map_map]
    rfl
  refine hresult.trans ?_
  rw [hcollect]
  refine settle_of_accepted fun r hr => ?_
  obtain ⟨task, -, rfl⟩ := List.mem_map.1 hr
  exact task.again_ne

/-- In a tree without entries there are no files. -/
theorem get?_empty_ne (p : Place) (c : Content) : FileTree.empty.get? p ≠ some (.file c) := by
  rw [FileTree.get?]
  split
  · rintro ⟨⟩
  · rintro ⟨⟩

theorem generateDocument_again_pets :
    let once := generateDocument {} .empty (petDocument firstPaths)
    let twice := generateDocument {} once.tree (petDocument firstPaths)
    (PlainNames (petDocument firstPaths) ∧ ({} : Settings).Plain ∧
      '/' ∉ ({} : Settings).extension.toList ∧
      (∀ q c, FileTree.empty.get? (placeOf ({} : Settings).outputDir ++ q) ≠ some (.file c)) ∧
      ∃ rs, once.result = .ok rs) ∧
    twice.result = .ok [⟨.ofString "lib/models/Pet.ts", .overwritten, []⟩,
        ⟨.ofString "lib/services/PetService.ts", .reconciled, []⟩,
        ⟨.ofString "lib/controllers/PetController.ts", .overwritten, []⟩,
        ⟨.ofString "lib/main.ts", .overwritten, []⟩] ∧
      ∀ q, twice.tree.get? q = once.tree.get? q := by
  intro once twice
  have hnames : PlainNames (petDocument firstPaths) := by decide +kernel
  have hplain : ({} : Settings).Plain := by constructor <;> decide
  have hextension : '/' ∉ ({} : Settings).extension.toList := by decide
  have hempty : ∀ q c,
      FileTree.empty.get? (placeOf ({} : Settings).outputDir ++ q) ≠ some (.file c) :=
    fun q c => get?_empty_ne _ c
  have hsucceeds : ∃ rs, once.result = .ok rs := exists_of_isOk (by decide +kernel)
  obtain ⟨hresult, hsame⟩ := generateDocument_again {} .empty (petDocument firstPaths) hnames hplain
    hextension hempty hsucceeds
  refine ⟨⟨hnames, hplain, hextension, hempty, hsucceeds⟩, hresult.trans ?_, hsame⟩
  decide +kernel

end ApiScaffold
