import ApiScaffold.Proofs.Compile.Fresh
import ApiScaffold.Proofs.FileTree.Child
import ApiScaffold.Proofs.Project.Frame

/-!
# Tasks in any order

Tasks whose files do not lie at each other's places, nor on the way to them, do not see each other:
each does what it would do alone, and the tree in the end has what each changed.

* `Task.Apart`: two tasks that do not see each other;
* `Gathered.step`, `runTasks_gathered`: a tree gathers what tasks do alone;
* `runTasks_perm`: so it does not matter in which order they run;
* `runTasks_in_any_order`: the tasks of a document are apart from each other if its schemas, the
  output directory and the extension are named without detours.
-/

namespace ApiScaffold

open FileTree DiskPath

variable {settings : Settings} {tree t t' : FileTree} {path : DiskPath} {task : Task}
  {done tasks order : List Task} {q : Place}

/-! ### What is on the way -/

/-- A tree has for a path what another one had, apart from directories on the way that were
missing. -/
structure Undisturbed (t₀ t : FileTree) (path : DiskPath) : Prop where
  place : t.get? (placeOf path) = t₀.get? (placeOf path)
  file? : ∀ r ∈ passed path, t.file? r = t₀.file? r
  directory : ∀ r ∈ passed path, t₀.get? r = some .directory → t.get? r = some .directory
  /-- What the path led to was reached by it. -/
  reached : t₀.get? (placeOf path) ≠ none → ∀ r ∈ passed path, t₀.get? r = some .directory

theorem Undisturbed.found?_eq (h : Undisturbed tree t path) : t.found? path = tree.found? path := by
  refine Option.ext fun e => ?_
  rw [found?_eq_some_iff, found?_eq_some_iff, locate_eq_ok_iff, locate_eq_ok_iff, h.place]
  constructor
  · rintro ⟨⟨hspelled, -, -⟩, hget⟩
    exact ⟨⟨hspelled, h.reached (by simp [hget]), rfl⟩, hget⟩
  · rintro ⟨⟨hspelled, hpassed, -⟩, hget⟩
    exact ⟨⟨hspelled, fun r hr => h.directory r hr (hpassed r hr), rfl⟩, hget⟩

theorem Undisturbed.writable_iff (h : Undisturbed tree t path) :
    t.Writable path ↔ tree.Writable path := by
  have hway : (∀ r ∈ passed path, ∀ c, t.get? r ≠ some (.file c)) ↔
      ∀ r ∈ passed path, ∀ c, tree.get? r ≠ some (.file c) := by
    refine forall₂_congr fun r hr => forall_congr' fun c => not_congr ?_
    rw [← file?_eq_some_iff, ← file?_eq_some_iff, h.file? r hr]
  exact ⟨
    fun ⟨hspelled, hfree, hapart, hplace⟩ => ⟨hspelled, hway.1 hfree, hapart, h.place ▸ hplace⟩,
    fun ⟨hspelled, hfree, hapart, hplace⟩ => ⟨hspelled, hway.2 hfree, hapart, h.place ▸ hplace⟩⟩

/-- An attempt in the one tree changes what it changes in the other. -/
theorem Undisturbed.carryOut (h : Undisturbed tree t path) (attempt : Attempt) :
    (attempt.carryOut t path).2.toOption = (attempt.carryOut tree path).2.toOption ∧
      ∀ q, (attempt.carryOut t path).1.get? q =
        if (attempt.carryOut tree path).1.get? q = tree.get? q then t.get? q
        else (attempt.carryOut tree path).1.get? q := by
  cases attempt with
  | leave result => exact ⟨rfl, fun q => (if_pos rfl).symm⟩
  | write source outcome =>
    rw [Attempt.carryOut, Attempt.carryOut]
    cases hwrite : t.write path (sourceContent source) with
    | error e =>
      cases hwrite' : tree.write path (sourceContent source) with
      | error e' => exact ⟨rfl, fun q => (if_pos rfl).symm⟩
      | ok after' =>
        obtain ⟨after, hafter⟩ :=
          (h.writable_iff.2 (writable_of_write hwrite')).write (sourceContent source)
        cases hwrite.symm.trans hafter
    | ok after =>
      obtain ⟨after', hwrite'⟩ :=
        (h.writable_iff.1 (writable_of_write hwrite)).write (sourceContent source)
      rw [hwrite']
      refine ⟨rfl, fun q => ?_⟩
      rw [get?_of_write hwrite, get?_of_write hwrite']
      by_cases hq : q = placeOf path
      · rw [if_pos hq, if_pos hq]
        split_ifs with hsame
        · rw [hq, h.place, ← hq, ← hsame]
        · rfl
      · rw [if_neg hq, if_neg hq]
        by_cases hpassed : q ∈ passed path
        · rw [if_pos hpassed, if_pos hpassed]
          split_ifs with hsame
          · exact (h.directory q hpassed hsame.symm).symm
          · rfl
        · rw [if_neg hpassed, if_neg hpassed, if_pos rfl]

/-- **A task does among others what it does alone.** -/
theorem Undisturbed.run (h : Undisturbed tree t (task.path settings)) :
    (task.run settings t).result.toOption = (task.run settings tree).result.toOption ∧
      ∀ q, (task.run settings t).tree.get? q =
        if (task.run settings tree).tree.get? q = tree.get? q then t.get? q
        else (task.run settings tree).tree.get? q := by
  have hrun := task.run_eq settings t
  rw [h.found?_eq, Prod.ext_iff] at hrun
  have halone := Prod.ext_iff.1 (task.run_eq settings tree)
  have hcarried := h.carryOut (task.attempt settings (tree.found? (task.path settings)))
  simp only at hrun halone
  rw [hrun.1, hrun.2, halone.1, halone.2]
  exact hcarried

/-- A task changes its own place, and makes directories where nothing was on the way to it. -/
theorem Task.changed (h : (task.run settings tree).tree.get? q ≠ tree.get? q) :
    q = task.place settings ∨ q ∈ passed (task.path settings) ∧ tree.get? q = none ∧
      (task.run settings tree).tree.get? q = some .directory := by
  have hended := task.ended settings tree
  generalize (task.run settings tree).tree = after at h hended ⊢
  generalize (task.run settings tree).result = result at hended
  cases hended with
  | faulted | rejected | upToDate => exact absurd rfl h
  | written source outcome after sound write accepted =>
    rw [get?_of_write write] at h ⊢
    by_cases hq : q = placeOf (task.path settings)
    · exact .inl hq
    · rw [if_neg hq] at h ⊢
      by_cases hpassed : q ∈ passed (task.path settings)
      · rw [if_pos hpassed] at h ⊢
        refine .inr ⟨hpassed, ?_, rfl⟩
        cases hget : tree.get? q with
        | none => rfl
        | some e =>
          cases e with
          | file c => exact absurd hget ((writable_of_write write).way q hpassed c)
          | directory => exact absurd hget.symm h
      · rw [if_neg hpassed] at h
        exact absurd rfl h

/-! ### Tasks that do not see each other -/

/-- No file of the two tasks lies at the place of the other or on the way to it. -/
structure Task.Apart (settings : Settings) (a b : Task) : Prop where
  place : a.place settings ≠ b.place settings
  left : a.place settings ∉ passed (b.path settings)
  right : b.place settings ∉ passed (a.path settings)

theorem Task.Apart.symm {a b : Task} (h : a.Apart settings b) : b.Apart settings a :=
  ⟨h.place.symm, h.right, h.left⟩

/-- The tree has what each of the tasks changes alone, and nothing else has changed. -/
structure Gathered (settings : Settings) (tree : FileTree) (done : List Task) (t : FileTree) :
    Prop where
  changed : ∀ a ∈ done, ∀ q, (a.run settings tree).tree.get? q ≠ tree.get? q →
    t.get? q = (a.run settings tree).tree.get? q
  kept : ∀ q, (∀ a ∈ done, (a.run settings tree).tree.get? q = tree.get? q) →
    t.get? q = tree.get? q

theorem Gathered.nil : Gathered settings tree [] tree := ⟨by simp, fun _ _ => rfl⟩

/-- Tasks leave the same behind in whatever order their changes were gathered. -/
theorem Gathered.unique (h : Gathered settings tree tasks t) (h' : Gathered settings tree order t')
    (hmem : ∀ a, a ∈ order ↔ a ∈ tasks) (q : Place) : t'.get? q = t.get? q := by
  by_cases hkept : ∀ a ∈ tasks, (a.run settings tree).tree.get? q = tree.get? q
  · rw [h.kept q hkept, h'.kept q fun a ha => hkept a ((hmem a).1 ha)]
  · push Not at hkept
    obtain ⟨a, ha, hchanged⟩ := hkept
    rw [h.changed a ha q hchanged, h'.changed a ((hmem a).2 ha) q hchanged]

/-- What other tasks gathered does not concern a task apart from them. -/
theorem Gathered.undisturbed (h : Gathered settings tree done t)
    (apart : ∀ a ∈ done, a.Apart settings task)
    (reached : tree.get? (task.place settings) ≠ none →
      ∀ r ∈ passed (task.path settings), tree.get? r = some .directory) :
    Undisturbed tree t (task.path settings) := by
  have hpassed : ∀ r ∈ passed (task.path settings),
      t.get? r = tree.get? r ∨ tree.get? r = none ∧ t.get? r = some .directory := by
    intro r hr
    by_cases hkept : ∀ a ∈ done, (a.run settings tree).tree.get? r = tree.get? r
    · exact .inl (h.kept r hkept)
    · push Not at hkept
      obtain ⟨a, ha, hchanged⟩ := hkept
      rcases Task.changed hchanged with rfl | ⟨-, hnone, hdir⟩
      · exact absurd hr (apart a ha).left
      · exact .inr ⟨hnone, (h.changed a ha r hchanged).trans hdir⟩
  refine ⟨h.kept _ fun a ha => ?_, fun r hr => ?_, fun r hr hdir => ?_, reached⟩
  · by_contra hchanged
    rcases Task.changed hchanged with hplace | ⟨hpassed, -, -⟩
    · exact (apart a ha).place hplace.symm
    · exact (apart a ha).right hpassed
  · rcases hpassed r hr with hsame | ⟨hnone, hdir⟩
    · rw [FileTree.file?, hsame, FileTree.file?]
    · rw [FileTree.file?, hdir, FileTree.file?, hnone]
  · rcases hpassed r hr with hsame | ⟨hnone, -⟩
    · rw [hsame, hdir]
    · cases hnone.symm.trans hdir

/-- One more task is gathered. -/
theorem Gathered.step (h : Gathered settings tree done t)
    (apart : ∀ a ∈ done, a.Apart settings task)
    (reached : tree.get? (task.place settings) ≠ none →
      ∀ r ∈ passed (task.path settings), tree.get? r = some .directory) :
    Gathered settings tree (task :: done) (task.run settings t).tree ∧
      (task.run settings t).result.toOption = (task.run settings tree).result.toOption := by
  obtain ⟨hresult, hget⟩ := (h.undisturbed apart reached).run
  refine ⟨⟨fun a ha q hchanged => ?_, fun q hkept => ?_⟩, hresult⟩
  · rw [hget]
    rcases List.mem_cons.1 ha with rfl | ha
    · rw [if_neg hchanged]
    · split_ifs with hsame
      · exact h.changed a ha q hchanged
      · -- Where both change something, both make a directory.
        rcases Task.changed hchanged with rfl | ⟨hpasses, -, hdir⟩
        · rcases Task.changed hsame with hplace | ⟨hpasses, -, -⟩
          · exact absurd hplace (apart a ha).place
          · exact absurd hpasses (apart a ha).left
        · rcases Task.changed hsame with rfl | ⟨-, -, hdir'⟩
          · exact absurd hpasses (apart a ha).right
          · rw [hdir, hdir']
  · rw [hget, if_pos (hkept task List.mem_cons_self)]
    exact h.kept q fun a ha => hkept a (List.mem_cons_of_mem _ ha)

/-- **What tasks that do not see each other leave behind.** -/
theorem runTasks_gathered (h : Gathered settings tree done t)
    (apart : tasks.Pairwise (Task.Apart settings))
    (others : ∀ a ∈ done, ∀ b ∈ tasks, a.Apart settings b)
    (reached : ∀ b ∈ tasks, tree.get? (b.place settings) ≠ none →
      ∀ r ∈ passed (b.path settings), tree.get? r = some .directory) :
    Gathered settings tree (tasks.reverse ++ done) (runTasks settings t tasks).1 ∧
      (runTasks settings t tasks).2.2.map Except.toOption =
        tasks.map fun b => (b.run settings tree).result.toOption := by
  induction tasks generalizing t done with
  | nil => exact ⟨h, rfl⟩
  | cons task tasks ih =>
    obtain ⟨hapart, hrest⟩ := List.pairwise_cons.1 apart
    obtain ⟨hstep, hresult⟩ := h.step (fun a ha => others a ha task List.mem_cons_self)
      (reached task List.mem_cons_self)
    obtain ⟨hgathered, hresults⟩ := ih hstep hrest
      (fun a ha b hb => by
        rcases List.mem_cons.1 ha with rfl | ha
        · exact hapart b hb
        · exact others a ha b (List.mem_cons_of_mem _ hb))
      fun b hb => reached b (List.mem_cons_of_mem _ hb)
    rw [runTasks, List.reverse_cons, List.append_assoc, List.map_cons, List.map_cons, hresult,
      hresults]
    exact ⟨hgathered, rfl⟩

/-- **The order of tasks does not matter** if they do not see each other. -/
theorem runTasks_perm (apart : tasks.Pairwise (Task.Apart settings))
    (reached : ∀ b ∈ tasks, tree.get? (b.place settings) ≠ none →
      ∀ r ∈ passed (b.path settings), tree.get? r = some .directory)
    (h : order.Perm tasks) :
    (∀ q, (runTasks settings tree order).1.get? q = (runTasks settings tree tasks).1.get? q) ∧
      (runTasks settings tree order).2.2.map Except.toOption =
        order.map fun b => (b.run settings tree).result.toOption := by
  have hapart : order.Pairwise (Task.Apart settings) :=
    (h.pairwise_iff fun h => h.symm).2 apart
  have hnil : Gathered settings tree [] tree := .nil
  obtain ⟨hgathered, -⟩ := runTasks_gathered hnil apart (by simp) reached
  obtain ⟨hgathered', hresults⟩ :=
    runTasks_gathered hnil hapart (by simp) fun b hb => reached b (h.mem_iff.1 hb)
  exact ⟨hgathered.unique hgathered' (by simp [h.mem_iff]), hresults⟩

/-! ### The tasks of a document -/

/-- The name of the file that a task generates. -/
def Task.file (settings : Settings) : Task → String
  | model m => Naming.fileName m.name .model settings.extension
  | service s => Naming.fileName s.name .service settings.extension
  | controller c => Naming.fileName c.name .controller settings.extension
  | main _ => "main." ++ settings.extension

/-- The names of the directories between the library directory and the file of a task. -/
def Task.directories : Task → List String
  | model _ => ["models"]
  | service _ => ["services"]
  | controller _ => ["controllers"]
  | main _ => []

/-- The names that lead from the library directory to the file of a task. -/
def Task.below (settings : Settings) (task : Task) : List String :=
  task.directories ++ [task.file settings]

theorem Task.path_eq (settings : Settings) (task : Task) :
    task.path settings =
      (task.directories.foldl DiskPath.child settings.libDir).child (task.file settings) := by
  cases task <;> rfl

theorem isName_lib : IsName "lib" := by constructor <;> decide

theorem Task.isName_directories (task : Task) {d : String} (h : d ∈ task.directories) :
    IsName d := by
  cases task with
  | model | service | controller =>
    obtain rfl := List.mem_singleton.1 h
    constructor <;> decide
  | main => cases h

theorem placeOf_descend {ds : List String} (h : ∀ d ∈ ds, IsName d) (path : DiskPath) :
    placeOf (ds.foldl DiskPath.child path) = placeOf path ++ ds := by
  induction ds generalizing path with
  | nil => exact (List.append_nil _).symm
  | cons d ds ih =>
    rw [List.foldl_cons, ih (fun x hx => h x (List.mem_cons_of_mem _ hx)),
      placeOf_child path (h d List.mem_cons_self), List.append_assoc, List.singleton_append]

theorem straight_descend {ds : List String} (h : ∀ d ∈ ds, IsName d) (hpath : Straight path) :
    Straight (ds.foldl DiskPath.child path) := by
  induction ds generalizing path with
  | nil => exact hpath
  | cons d ds ih =>
    exact ih (fun x hx => h x (List.mem_cons_of_mem _ hx)) (hpath.child (h d List.mem_cons_self))

/-- The files of tasks lie below the library directory. -/
theorem Task.place_eq (h : IsName (task.file settings)) :
    task.place settings = placeOf settings.libDir ++ task.below settings := by
  rw [place, path_eq, placeOf_child _ h, placeOf_descend fun d hd => task.isName_directories hd,
    List.append_assoc]
  rfl

theorem Task.straight (houtput : Straight settings.outputDir) (h : IsName (task.file settings)) :
    Straight (task.path settings) := by
  rw [path_eq]
  exact (straight_descend (fun d hd => task.isName_directories hd)
    (houtput.child isName_lib)).child h

theorem fileName_inj {m n : String} (role : Naming.Role) (extension : String) :
    Naming.fileName m role extension = Naming.fileName n role extension ↔ m = n := by
  simp [Naming.fileName, Naming.className]

/-- Tasks of resources with different names have different files. -/
theorem nodup_below {stores : Stores} (settings : Settings)
    (hmodels : (stores.models.values.map (·.name)).Nodup)
    (hservices : (stores.services.values.map (·.name)).Nodup)
    (hcontrollers : (stores.controllers.values.map (·.name)).Nodup) :
    ((Task.ofStores stores).map (·.below settings)).Nodup := by
  have hinj : ∀ {α : Type} {as : List α} {name : α → String} (role : Naming.Role) (d : String),
      (as.map name).Nodup →
      (as.map fun a => [d, Naming.fileName (name a) role settings.extension]).Nodup := by
    intro α as name role d h
    rw [List.nodup_map_iff_inj_on (List.Nodup.of_map _ h)]
    intro a ha b hb heq
    have hname := (fileName_inj role settings.extension).1 (List.cons.inj (List.cons.inj heq).2).1
    exact List.inj_on_of_nodup_map h ha hb hname
  have htasks : (Task.ofStores stores).map (·.below settings) =
      (stores.models.values.map fun m =>
          ["models", Naming.fileName m.name .model settings.extension]) ++
        (stores.services.values.map fun s =>
          ["services", Naming.fileName s.name .service settings.extension]) ++
        (stores.controllers.values.map fun c =>
          ["controllers", Naming.fileName c.name .controller settings.extension]) ++
        [["main." ++ settings.extension]] := by
    simp only [Task.ofStores, List.map_append, List.map_map]
    rfl
  rw [htasks]
  simp only [List.nodup_append, List.mem_append, List.mem_map, List.mem_singleton]
  refine ⟨⟨⟨hinj .model _ hmodels, hinj .service _ hservices, ?_⟩,
    hinj .controller _ hcontrollers, ?_⟩, List.nodup_singleton _, ?_⟩
  · rintro _ ⟨m, -, rfl⟩ _ ⟨s, -, rfl⟩
    simp
  · rintro _ (⟨m, -, rfl⟩ | ⟨s, -, rfl⟩) _ ⟨c, -, rfl⟩ <;> simp
  · rintro _ ((⟨m, -, rfl⟩ | ⟨s, -, rfl⟩) | ⟨c, -, rfl⟩) _ rfl <;> simp

theorem main_append_notMem (extension : String) :
    "main." ++ extension ∉ ["models", "services", "controllers"] := by
  intro hmem
  have hstart : "main.".toList <+: ("main." ++ extension).toList := by
    rw [String.toList_append]
    exact List.prefix_append _ _
  have hnone : ∀ d ∈ ["models", "services", "controllers"], ¬ "main.".toList <+: d.toList := by
    decide
  exact hnone _ hmem hstart

/-- The file of a task does not lie above that of another one. -/
theorem Task.not_above_below (settings : Settings) (a b : Task) :
    ¬ Above (a.below settings) (b.below settings) := by
  rintro ⟨hstart, hne⟩
  have hlt : (a.below settings).length < (b.below settings).length := by
    by_contra hle
    exact hne (hstart.eq_of_length_le (Nat.le_of_not_lt hle))
  cases a with
  | model | service | controller => cases b <;> simp [below, directories] at hlt
  | main cs =>
    -- A directory is not named like the main file.
    have hmain := main_append_notMem settings.extension
    cases b <;> simp_all [below, directories, file]

variable {doc : Value}

/-- Files of services and controllers are named if the extension does not make them paths. -/
theorem isName_fileName {name extension : String} {role : Naming.Role}
    (hname : '/' ∉ name.toList) (hrole : role ≠ .model) (hextension : '/' ∉ extension.toList) :
    IsName (Naming.fileName name role extension) := by
  have hsuffix : 6 < role.suffix.toList.length ∧ '/' ∉ role.suffix.toList := by
    cases role with
    | model => exact absurd rfl hrole
    | service | controller => decide
  have hbare := Naming.slash_notMem_bareExtension hextension
  rw [Naming.fileName, Naming.className]
  refine isName_of_length ?_ ?_
  · simp [hname, hsuffix.2, hbare]
  · simp only [String.toList_append, List.length_append]
    omega

theorem isName_main {extension : String} (h : '/' ∉ extension.toList) :
    IsName ("main." ++ extension) := by
  refine isName_of_length ?_ ?_
  · simp [h]
  · rw [String.toList_append, List.length_append]
    exact Nat.lt_of_lt_of_le (by decide) (Nat.le_add_right 5 _)

/-- **The files of a document's tasks are named** if those of its models are. -/
theorem isName_file (compiled : (compileDocument settings doc .empty).fault = none)
    (extension : '/' ∉ settings.extension.toList)
    (models : ∀ m ∈ (compileDocument settings doc .empty).store.models.values,
      IsName (Naming.fileName m.name .model settings.extension))
    (h : task ∈ Task.ofStores (compileDocument settings doc .empty).store) :
    IsName (task.file settings) := by
  have hgroup : ∀ {groups : List Draft.Group} {g : Draft.Group} {name : String},
      Draft.groupOperations doc = .ok groups → g ∈ groups → name = g.name →
      '/' ∉ name.toList := by
    rintro groups g _ hgroups hg rfl hslash
    exact absurd (isAlphanum_of_mem_groupName hgroups hg hslash) (by decide)
  simp only [Task.ofStores, List.mem_append, List.mem_map, List.mem_singleton] at h
  rcases h with ((⟨m, hm, rfl⟩ | ⟨s, hs, rfl⟩) | ⟨c, hc, rfl⟩) | rfl
  · exact models m hm
  · obtain ⟨groups, hgroups, g, hg, hmakes⟩ := (fresh_services compiled).2 s hs
    exact isName_fileName (hgroup hgroups hg hmakes.name_eq) (by decide) extension
  · obtain ⟨groups, hgroups, g, hg, hmakes⟩ := (fresh_controllers compiled).2 c hc
    exact isName_fileName (hgroup hgroups hg hmakes.name_eq) (by decide) extension
  · exact isName_main extension

/-- The tasks of a document have files at different places. -/
theorem nodup_place (compiled : (compileDocument settings doc .empty).fault = none)
    (extension : '/' ∉ settings.extension.toList)
    (models : ∀ m ∈ (compileDocument settings doc .empty).store.models.values,
      IsName (Naming.fileName m.name .model settings.extension)) :
    ((Task.ofStores (compileDocument settings doc .empty).store).map (·.place settings)).Nodup := by
  have hnodup := nodup_below settings (fresh_models compiled).1 (fresh_services compiled).1
    (fresh_controllers compiled).1
  refine List.pairwise_map.2 ((List.pairwise_map.1 hnodup).imp_of_mem fun {a b} ha hb hne => ?_)
  rw [Task.place_eq (isName_file compiled extension models ha),
    Task.place_eq (isName_file compiled extension models hb)]
  exact fun heq => hne (List.append_cancel_left heq)

/-- The tasks of a document do not see each other. -/
theorem pairwise_apart (compiled : (compileDocument settings doc .empty).fault = none)
    (output : Straight settings.outputDir) (extension : '/' ∉ settings.extension.toList)
    (models : ∀ m ∈ (compileDocument settings doc .empty).store.models.values,
      IsName (Naming.fileName m.name .model settings.extension)) :
    (Task.ofStores (compileDocument settings doc .empty).store).Pairwise
      (Task.Apart settings) := by
  have hname : ∀ task ∈ Task.ofStores (compileDocument settings doc .empty).store,
      IsName (task.file settings) :=
    fun task htask => isName_file compiled extension models htask
  have hpassed : ∀ a ∈ Task.ofStores (compileDocument settings doc .empty).store,
      ∀ b ∈ Task.ofStores (compileDocument settings doc .empty).store,
      a.place settings ∉ passed (b.path settings) := by
    intro a ha b hb hmem
    have habove : Above (a.place settings) (b.place settings) :=
      Task.straight output (hname b hb) _ hmem
    rw [Task.place_eq (hname a ha), Task.place_eq (hname b hb), above_append_iff] at habove
    exact Task.not_above_below settings a b habove
  have hdistinct := List.pairwise_map.1 (nodup_place compiled extension models)
  exact hdistinct.imp_of_mem fun {a b} ha hb hne =>
    ⟨hne, hpassed a ha b hb, hpassed b hb a ha⟩

/-- **The tasks of a document in any order.** Their files are different and lie below the library
directory, and in whatever order the tasks run, they leave the same tree and the same results. -/
theorem runTasks_in_any_order (settings : Settings) (tree : FileTree) (doc : Value)
    (compiled : (compileDocument settings doc .empty).fault = none)
    (grounded : tree.Grounded) (output : Straight settings.outputDir)
    (extension : '/' ∉ settings.extension.toList)
    (models : ∀ m ∈ (compileDocument settings doc .empty).store.models.values,
      IsName (Naming.fileName m.name .model settings.extension)) :
    let tasks := Task.ofStores (compileDocument settings doc .empty).store
    (tasks.map (·.place settings)).Nodup ∧
    (∀ task ∈ tasks, Above (placeOf settings.libDir) (task.place settings)) ∧
    ∀ order, order.Perm tasks →
      (∀ q, (runTasks settings tree order).1.get? q =
        (generateDocument settings tree doc).tree.get? q) ∧
      (runTasks settings tree order).2.2.map Except.toOption =
        order.map fun task => (task.run settings tree).result.toOption := by
  intro tasks
  have hname : ∀ task ∈ tasks, IsName (task.file settings) :=
    fun task htask => isName_file compiled extension models htask
  have hapart := pairwise_apart compiled output extension models
  have hreached : ∀ task ∈ tasks, tree.get? (task.place settings) ≠ none →
      ∀ r ∈ passed (task.path settings), tree.get? r = some .directory :=
    fun task htask hplace r hr =>
      grounded.above hplace (Task.straight output (hname task htask) r hr)
  refine ⟨nodup_place compiled extension models, fun task htask => ?_, fun order horder => ?_⟩
  · rw [Task.place_eq (hname task htask)]
    exact above_append _ (by simp [Task.below])
  · rw [(generateDocument_of_compiled tree compiled).1]
    exact runTasks_perm hapart hreached horder

theorem runTasks_in_any_order_bracePets :
    let tasks := Task.ofStores (compileDocument {} bracePets .empty).store
    ((compileDocument {} bracePets .empty).fault = none ∧ braceTree.Grounded ∧
      Straight ({} : Settings).outputDir ∧ '/' ∉ ({} : Settings).extension.toList ∧
      ∀ m ∈ (compileDocument {} bracePets .empty).store.models.values,
        IsName (Naming.fileName m.name .model ({} : Settings).extension)) ∧
    ∀ q, (runTasks {} braceTree tasks.reverse).1.get? q =
      (generateDocument {} braceTree bracePets).tree.get? q := by
  intro tasks
  have hcompiled : (compileDocument {} bracePets .empty).fault = none := by decide +kernel
  have hgrounded : braceTree.Grounded := by decide
  have houtput : Straight ({} : Settings).outputDir := by decide
  have hextension : '/' ∉ ({} : Settings).extension.toList := by decide
  have hmodels : ∀ m ∈ (compileDocument {} bracePets .empty).store.models.values,
      IsName (Naming.fileName m.name .model ({} : Settings).extension) := by decide +kernel
  obtain ⟨-, -, horder⟩ :=
    runTasks_in_any_order {} braceTree bracePets hcompiled hgrounded houtput hextension hmodels
  exact ⟨⟨hcompiled, hgrounded, houtput, hextension, hmodels⟩,
    (horder tasks.reverse tasks.reverse_perm).1⟩

/-- A schema that is named like a path to the main file. -/
def mainSchema : Value := .record
  [("components", .record [("schemas", .record [("../main", .record [])])])]

/-- Two tasks write the main file, and it holds what the last of them wrote. -/
theorem mainSchema_written_twice :
    let tasks := Task.ofStores (compileDocument {} mainSchema .empty).store
    (compileDocument {} mainSchema .empty).fault = none ∧
      tasks.map (·.place {}) = [["lib", "main.ts"], ["lib", "main.ts"]] ∧
      (runTasks {} .empty tasks).1.file? ["lib", "main.ts"] ≠
        (runTasks {} .empty tasks.reverse).1.file? ["lib", "main.ts"] := by
  decide +kernel

end ApiScaffold
