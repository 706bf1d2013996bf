import ApiScaffold.Proofs.Compile.Agreement
import ApiScaffold.Proofs.Keyed
import ApiScaffold.Proofs.Project.Attempts

/-!
# What generating a project leaves alone

Files are told apart by their places.  If no two tasks have the same, each file is touched by its
own task at most, so that what one task left behind is still there when all have run.

* `Task.Promised`: what the result of a task says about its file;
* `runTasks_files`: every result tells the truth, and all other files are as they were;
* `generateDocument_files`: so it is for a whole document, whose failed checks are its only fault
  unless an access fails.
-/

namespace ApiScaffold

variable {settings : Settings} {tree before after : FileTree} {task : Task} {tasks : List Task}
  {result : Except Fault BuildResult} {q : Place}

/-- The place of the file that a task generates. -/
def Task.place (settings : Settings) (task : Task) : Place :=
  FileTree.placeOf (task.path settings)

/-- What the result of a task says about its file: it is as it was if the task came to a fault or
the text failed its check; otherwise it is a service's file from before, or it has a text without
problems. -/
def Task.Promised (settings : Settings) (before after : FileTree) (task : Task) :
    Except Fault BuildResult → Prop
  | .error _ => after.file? (task.place settings) = before.file? (task.place settings)
  | .ok r =>
    if r.outcome = .validationFailed then
      after.file? (task.place settings) = before.file? (task.place settings)
    else
      (∃ s c, task = .service s ∧ before.file? (task.place settings) = some c ∧
        after.file? (task.place settings) = some c) ∨
      ∃ source, after.file? (task.place settings) = some (sourceContent source) ∧
        TypeScript.sourceProblems source task.className? = []

/-- The promise is about one file before and after. -/
theorem Task.Promised.congr {before' after' : FileTree}
    (h : task.Promised settings before after result)
    (hbefore : before'.file? (task.place settings) = before.file? (task.place settings))
    (hafter : after'.file? (task.place settings) = after.file? (task.place settings)) :
    task.Promised settings before' after' result := by
  cases result with
  | error e => rw [Promised, hbefore, hafter]; exact h
  | ok r => rw [Promised, hbefore, hafter]; exact h

/-- A task changes no file but its own. -/
theorem Task.Ended.file?_of_ne (h : task.Ended settings tree after result)
    (hq : q ≠ task.place settings) : after.file? q = tree.file? q := by
  cases h with
  | faulted | rejected | upToDate => rfl
  | written source outcome after sound write accepted =>
    rw [FileTree.file?_of_write write]
    exact if_neg hq

theorem Task.Ended.promised (h : task.Ended settings tree after result) :
    task.Promised settings tree after result := by
  cases h with
  | faulted => rfl
  | rejected =>
    rw [Promised, if_pos rfl]
  | upToDate s c service file =>
    obtain ⟨p, hlocate, hget⟩ := file
    obtain rfl := (FileTree.locate_eq_ok_iff.1 hlocate).2.2
    have hfile : tree.file? (task.place settings) = some c := FileTree.file?_eq_some_iff.2 hget
    rw [Promised, if_neg (by simp)]
    exact .inl ⟨s, c, service, hfile, hfile⟩
  | written source outcome after sound write accepted =>
    rw [Promised, if_neg accepted]
    refine .inr ⟨source, ?_, sound⟩
    rw [FileTree.file?_of_write write, Task.place, if_pos rfl]

/-- **What tasks leave behind.** Files that are no task's stay as they are, and every task keeps the
promise of its result. -/
theorem runTasks_files (settings : Settings) (tree : FileTree) (tasks : List Task)
    (distinct : (tasks.map (·.place settings)).Nodup) :
    (∀ q ∉ tasks.map (·.place settings),
      (runTasks settings tree tasks).1.file? q = tree.file? q) ∧
    List.Forall₂ (fun task result =>
      task.Promised settings tree (runTasks settings tree tasks).1 result)
      tasks (runTasks settings tree tasks).2.2 := by
  induction tasks generalizing tree with
  | nil => exact ⟨fun _ _ => rfl, .nil⟩
  | cons task tasks ih =>
    rw [List.map_cons, List.nodup_cons] at distinct
    have hended := task.ended settings tree
    obtain ⟨hothers, hpromised⟩ := ih (task.run settings tree).tree distinct.2
    rw [runTasks]
    refine ⟨fun q hq => ?_, .cons ?_ ?_⟩
    · rw [List.map_cons, List.mem_cons, not_or] at hq
      rw [hothers q hq.2, hended.file?_of_ne hq.1]
    · exact hended.promised.congr rfl (hothers _ distinct.1)
    · refine forall₂_imp_mem (fun other hmem r h => h.congr ?_ rfl) hpromised
      refine (hended.file?_of_ne fun heq => distinct.1 ?_).symm
      exact heq ▸ List.mem_map_of_mem hmem

/-! ### Results -/

theorem collect_eq_ok_iff {results : List (Except Fault BuildResult)} {rs : List BuildResult} :
    collect results = .ok rs ↔ results = rs.map .ok := by
  induction results generalizing rs with
  | nil => cases rs <;> simp [collect]
  | cons result results ih =>
    cases result with
    | error e =>
      rw [collect]
      cases rs <;> simp
    | ok r =>
      rw [collect]
      cases hrest : collect results with
      | error e =>
        refine ⟨by rintro ⟨⟩, fun h => ?_⟩
        cases rs with
        | nil => cases h
        | cons _ rs => cases hrest.symm.trans (ih.2 (List.cons.inj h).2)
      | ok rest => cases rs with
        | nil => simp [Except.map]
        | cons r' rs =>
          rw [ih.1 hrest]
          simp [Except.map, List.map_inj_right]

theorem exists_of_isOk {α : Type} {result : Except Fault α} (h : result.isOk = true) :
    ∃ r, result = .ok r := by
  cases result with
  | error e => cases h
  | ok r => exact ⟨r, rfl⟩

/-- All results, if no access failed. -/
theorem exists_collect_eq {results : List (Except Fault BuildResult)}
    (hall : ∀ result ∈ results, ∃ r, result = .ok r) :
    ∃ rs, results = rs.map .ok ∧ collect results = .ok rs := by
  have hmap : ∃ rs : List BuildResult, results = rs.map .ok := by
    induction results with
    | nil => exact ⟨[], rfl⟩
    | cons result results ih =>
      obtain ⟨r, rfl⟩ := hall _ List.mem_cons_self
      obtain ⟨rs, rfl⟩ := ih fun x hx => hall x (List.mem_cons_of_mem _ hx)
      exact ⟨r :: rs, rfl⟩
  obtain ⟨rs, hrs⟩ := hmap
  exact ⟨rs, hrs, collect_eq_ok_iff.2 hrs⟩

theorem settle_of_accepted {rs : List BuildResult}
    (hall : ∀ r ∈ rs, r.outcome ≠ .validationFailed) : settle rs = .ok rs := by
  have hfilter : (rs.filter fun r => !r.ok) = [] := by
    simpa [BuildResult.ok] using hall
  rw [settle, hfilter]

theorem settle_of_rejected {rs : List BuildResult} {r : BuildResult} (hr : r ∈ rs)
    (hfailed : r.outcome = .validationFailed) :
    ∃ path files, settle rs = .error (.emission path (.invalid files)) := by
  have hmem : r ∈ rs.filter fun r => !r.ok := by simp [BuildResult.ok, hr, hfailed]
  rw [settle]
  split
  · next hnil => simp [hnil] at hmem
  · exact ⟨_, _, rfl⟩

theorem generateDocument_of_fault {doc : Value} {e : Fault}
    (h : (compileDocument settings doc .empty).fault = some e) :
    (generateDocument settings tree doc).result = .error e ∧
      (generateDocument settings tree doc).tree = tree := by
  rw [generateDocument, generateCompiled, h]
  exact ⟨rfl, rfl⟩

/-- A document that compiles has the tasks of its stores run. -/
theorem generateDocument_of_compiled (tree : FileTree) {doc : Value}
    (h : (compileDocument settings doc .empty).fault = none) :
    let done := runTasks settings tree (Task.ofStores (compileDocument settings doc .empty).store)
    (generateDocument settings tree doc).tree = done.1 ∧
      (generateDocument settings tree doc).result =
        match collect done.2.2 with
        | .error e => .error e
        | .ok results => settle results := by
  rw [generateDocument, generateCompiled, h]
  exact ⟨rfl, rfl⟩

/-- **What generating a document leaves alone.** -/
theorem generateDocument_files (settings : Settings) (tree : FileTree) (doc : Value) :
    let compiled := compileDocument settings doc .empty
    let tasks := Task.ofStores compiled.store
    let results := (runTasks settings tree tasks).2.2
    let done := generateDocument settings tree doc
    (∀ e, compiled.fault = some e → done.result = .error e ∧ done.tree = tree) ∧
    (compiled.fault = none → (tasks.map (·.place settings)).Nodup →
      (∀ q ∉ tasks.map (·.place settings), done.tree.file? q = tree.file? q) ∧
      List.Forall₂ (Task.Promised settings tree done.tree) tasks results ∧
      ((∀ result ∈ results, ∃ r, result = .ok r) →
        ((∃ r, .ok r ∈ results ∧ r.outcome = .validationFailed) ↔
          ∃ path files, done.result = .error (.emission path (.invalid files))) ∧
        ((∀ r, .ok r ∈ results → r.outcome ≠ .validationFailed) ↔
          ∃ rs, results = rs.map .ok ∧ done.result = .ok rs))) := by
  intro compiled tasks results done
  refine ⟨fun e he => generateDocument_of_fault he, fun hcompiled distinct => ?_⟩
  obtain ⟨htree, hresult⟩ := generateDocument_of_compiled tree hcompiled
  obtain ⟨hothers, hpromised⟩ := runTasks_files settings tree tasks distinct
  rw [← htree] at hothers hpromised
  refine ⟨hothers, hpromised, fun hall => ?_⟩
  obtain ⟨rs, hrs, hcollect⟩ := exists_collect_eq hall
  have hmem : ∀ r, .ok r ∈ results ↔ r ∈ rs := by simp [hrs]
  have hdone : done.result = settle rs := by rw [hresult, hcollect]
  simp only [hmem, hdone]
  by_cases hfailed : ∃ r ∈ rs, r.outcome = .validationFailed
  · obtain ⟨r, hr, houtcome⟩ := hfailed
    obtain ⟨path, files, hsettle⟩ := settle_of_rejected hr houtcome
    refine ⟨⟨fun _ => ⟨path, files, hsettle⟩, fun _ => ⟨r, hr, houtcome⟩⟩,
      fun h => absurd houtcome (h r hr), ?_⟩
    rintro ⟨rs', -, hok⟩
    cases hsettle.symm.trans hok
  · have haccepted : ∀ r ∈ rs, r.outcome ≠ .validationFailed := fun r hr h => hfailed ⟨r, hr, h⟩
    have hsettle := settle_of_accepted haccepted
    refine ⟨⟨fun h => absurd h hfailed, ?_⟩, fun _ => ⟨rs, hrs, hsettle⟩, fun _ => haccepted⟩
    rintro ⟨path, files, herror⟩
    cases hsettle.symm.trans herror

/-- A document about pets, with a schema whose name opens a brace. -/
def bracePets : Value := .record
  [("components", .record
      [("schemas", .record [("Pet", .record []), ("Pet\x7b", .record [])])]),
    ("paths", .record firstPaths)]

/-- A file is there already under the name with a brace. -/
def braceTree : FileTree :=
  ⟨[(["lib"], .directory), (["lib", "models"], .directory),
    (["lib", "models", "Pet\x7b.ts"], .file (.text "// by hand"))]⟩

theorem generateDocument_files_bracePets :
    let done := generateDocument {} braceTree bracePets
    ((compileDocument {} bracePets .empty).fault = none ∧
      ((Task.ofStores (compileDocument {} bracePets .empty).store).map (·.place {})).Nodup) ∧
    (∃ path files, done.result = .error (.emission path (.invalid files))) ∧
      done.tree.file? ["lib", "models", "Pet\x7b.ts"] = some (.text "// by hand") := by
  intro done
  have hcompiled : (compileDocument {} bracePets .empty).fault = none := by decide +kernel
  have hdistinct :
      ((Task.ofStores (compileDocument {} bracePets .empty).store).map (·.place {})).Nodup := by
    decide +kernel
  obtain ⟨-, hfiles⟩ := generateDocument_files {} braceTree bracePets
  obtain ⟨-, hpromised, hresults⟩ := hfiles hcompiled hdistinct
  have hok : ((runTasks {} braceTree
      (Task.ofStores (compileDocument {} bracePets .empty).store)).2.2.all (·.isOk)) = true := by
    decide +kernel
  have hall := fun result hr => exists_of_isOk (List.all_eq_true.1 hok result hr)
  -- The second task is that of the name with a brace.
  have hrejected : (Task.model ⟨"Pet\x7b", "", [], []⟩,
      .ok ⟨.ofString "lib/models/Pet\x7b.ts", .validationFailed,
        ["line 1: '\x7b' is never closed", "class Pet\x7b is not declared"]⟩) ∈
      (Task.ofStores (compileDocument {} bracePets .empty).store).zip
        (runTasks {} braceTree
          (Task.ofStores (compileDocument {} bracePets .empty).store)).2.2 := by
    decide +kernel
  refine ⟨⟨hcompiled, hdistinct⟩, ?_, ?_⟩
  · exact (hresults hall).1.1 ⟨_, (List.of_mem_zip hrejected).2, rfl⟩
  · exact (List.forall₂_iff_zip.1 hpromised).2 hrejected

/-- A schema whose name opens a brace, and one whose name holds a character that no path can
hold. -/
def nullPets : Value := .record
  [("components", .record
      [("schemas", .record [("Pet\x7b", .record []), ("P\x00t", .record [])])])]

/-- A path that cannot be written hides a text that failed its check. -/
theorem nullPets_hide_rejection :
    let tasks := Task.ofStores (compileDocument {} nullPets .empty).store
    (compileDocument {} nullPets .empty).fault = none ∧
      (tasks.map (·.place {})).Nodup ∧
      (runTasks {} .empty tasks).2.2 =
        [.ok ⟨.ofString "lib/models/Pet\x7b.ts", .validationFailed,
            ["line 1: '\x7b' is never closed", "class Pet\x7b is not declared"]⟩,
          .error (.misuse .badText), .ok ⟨.ofString "lib/main.ts", .created, []⟩] ∧
      (generateDocument {} .empty nullPets).result = .error (.misuse .badText) := by
  decide +kernel

end ApiScaffold
