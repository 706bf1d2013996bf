import ApiScaffold.Project
import ApiScaffold.Proofs.FileTree.Frame

/-!
# What a task attempts

What a task does depends on what its path leads to, and on nothing else in the tree: it leaves
everything as it is, or it writes one text that passed its check.

* `Task.attempt` is that decision, `Attempt.carryOut` what becomes of it in a tree;
* `Task.run_eq`: a task carries out its attempt;
* `Task.ended`: the four ways in which a task can end.
-/

namespace ApiScaffold

/-- What a task does once it knows what its path leads to. -/
inductive Attempt where
  /-- Nothing is written. -/
  | leave (result : Except Fault BuildResult)
  /-- A text is written. -/
  | write (source : List Char) (outcome : Outcome)

namespace Attempt

/-- The attempt to write a source text, given up if the text has problems. -/
def ofSource (path : DiskPath) (source : List Char) (className : Option String)
    (outcome : Outcome) : Attempt :=
  let errors := (TypeScript.sourceProblems source className).map (·.message)
  if errors.isEmpty then write source outcome
  else leave (.ok ⟨path, .validationFailed, errors⟩)

/-- The attempt to bring the source text of a service up to date. -/
def ofReconciling (settings : Settings) (path : DiskPath) (s : Service) (source : List Char) :
    Attempt :=
  let name := Naming.className s.name .service
  match TypeScript.findClass? source name with
  | none =>
    leave (.ok ⟨path, .validationFailed, ["existing file does not declare class " ++ name]⟩)
  | some body =>
    let changes := Reconcile.changes settings s source body
    if changes.edits.isEmpty then leave (.ok ⟨path, .reconciled, []⟩)
    else ofSource path (Splice.apply source changes.edits) (some name) .reconciled

/-- The tree and the result that an attempt leaves behind. -/
def carryOut (tree : FileTree) (path : DiskPath) :
    Attempt → FileTree × Except Fault BuildResult
  | leave result => (tree, result)
  | write source outcome =>
    match tree.write path (sourceContent source) with
    | .error e => (tree, .error (writeFault path e))
    | .ok tree => (tree, .ok ⟨path, outcome, []⟩)

end Attempt

/-- What a path leads to. -/
def FileTree.found? (t : FileTree) (path : DiskPath) : Option Entry := (t.lookup path).toOption

namespace Task

/-- The text of a file that is generated anew. -/
def rendering (settings : Settings) : Task → List Char
  | model m => Render.modelFile settings m
  | service s => Render.serviceFile settings s
  | controller c => Render.controllerFile settings c
  | main cs => Render.mainFile settings cs

/-- The class that a generated file declares. -/
def className? : Task → Option String
  | model m => some (Naming.className m.name .model)
  | service s => some (Naming.className s.name .service)
  | controller c => some (Naming.className c.name .controller)
  | main _ => none

/-- The attempt to write a file anew. -/
def anew (settings : Settings) (task : Task) : Outcome → Attempt :=
  Attempt.ofSource (task.path settings) (task.rendering settings) task.className?

/-- What a task attempts when its path leads to the given entry. -/
def attempt (settings : Settings) (found : Option Entry) (task : Task) : Attempt :=
  match task with
  | service s =>
    match found with
    | none => task.anew settings .created
    | some .directory => .leave (.error (readFault .isDirectory))
    | some (.file (.bytes _)) => .leave (.error (.misuse .notText))
    | some (.file (.text source)) =>
      .ofReconciling settings (task.path settings) s (Text.normalizeLineEnds source.toList)
  | _ => task.anew settings (if found.isSome then .overwritten else .created)

end Task

variable {settings : Settings} {tree : FileTree}

theorem FileTree.holds_eq (t : FileTree) (path : DiskPath) :
    t.holds path = (t.found? path).isSome := by
  rw [holds, found?]
  cases t.lookup path <;> rfl

theorem FileTree.found?_eq_some_iff {t : FileTree} {path : DiskPath} {e : Entry} :
    t.found? path = some e ↔
      t.locate path = .ok (placeOf path) ∧ t.get? (placeOf path) = some e := by
  rw [← lookup_eq_ok_iff, found?]
  cases t.lookup path <;> simp [Except.toOption]

theorem writeSource_eq (tree : FileTree) (path : DiskPath) (source : List Char)
    (className : Option String) (outcome : Outcome) :
    ((writeSource tree path source className outcome).tree,
        (writeSource tree path source className outcome).result) =
      (Attempt.ofSource path source className outcome).carryOut tree path := by
  rw [writeSource, Attempt.ofSource]
  cases ((TypeScript.sourceProblems source className).map (·.message)).isEmpty with
  | false => rfl
  | true =>
    simp only [Bool.not_true, Bool.false_eq_true, if_false, if_true, Attempt.carryOut]
    cases tree.write path (sourceContent source) <;> rfl

theorem overwrite_eq (tree : FileTree) (path : DiskPath) (source : List Char)
    (className : Option String) :
    ((overwrite tree path source className).tree,
        (overwrite tree path source className).result) =
      (Attempt.ofSource path source className
        (if (tree.found? path).isSome then .overwritten else .created)).carryOut tree path := by
  rw [overwrite, writeSource_eq, FileTree.holds_eq]

theorem reconcileSource_eq_carryOut (settings : Settings) (tree : FileTree) (path : DiskPath)
    (s : Service) (source : List Char) :
    ((reconcileSource settings tree path s source).tree,
        (reconcileSource settings tree path s source).result) =
      (Attempt.ofReconciling settings path s source).carryOut tree path := by
  rw [reconcileSource, Attempt.ofReconciling]
  cases TypeScript.findClass? source (Naming.className s.name .service) with
  | none => rfl
  | some body =>
    dsimp only
    split
    · rfl
    · exact writeSource_eq ..

/-- **A task carries out its attempt.** -/
theorem Task.run_eq (settings : Settings) (tree : FileTree) (task : Task) :
    ((task.run settings tree).tree, (task.run settings tree).result) =
      (task.attempt settings (tree.found? (task.path settings))).carryOut tree
        (task.path settings) := by
  cases task with
  | service s =>
    change ((generateService settings tree s).tree, (generateService settings tree s).result) =
      ((service s).attempt settings (tree.found? (servicePath settings s))).carryOut tree
        (servicePath settings s)
    rw [generateService, FileTree.holds_eq, FileTree.read, FileTree.found?]
    cases tree.lookup (servicePath settings s) with
    | error e => exact writeSource_eq ..
    | ok e =>
      rcases e with ⟨_ | _⟩ | _
      · exact reconcileSource_eq_carryOut ..
      · rfl
      · rfl
  | model m => exact overwrite_eq ..
  | controller c => exact overwrite_eq ..
  | main cs => exact overwrite_eq ..

/-! ### How a task ends -/

/-- How a task ends: the tree and the result behind it. -/
inductive Task.Ended (settings : Settings) (tree : FileTree) (task : Task) :
    FileTree → Except Fault BuildResult → Prop where
  | faulted (e : Fault) : Ended settings tree task tree (.error e)
  | rejected (errors : List String) :
    Ended settings tree task tree (.ok ⟨task.path settings, .validationFailed, errors⟩)
  /-- The file of a service is as it should be. -/
  | upToDate (s : Service) (c : Content) (service : task = service s)
    (file : tree.FileAt (task.path settings) c) :
    Ended settings tree task tree (.ok ⟨task.path settings, .reconciled, []⟩)
  | written (source : List Char) (outcome : Outcome) (after : FileTree)
    (sound : TypeScript.sourceProblems source task.className? = [])
    (write : tree.write (task.path settings) (sourceContent source) = .ok after)
    (accepted : outcome ≠ .validationFailed) :
    Ended settings tree task after (.ok ⟨task.path settings, outcome, []⟩)

/-- What becomes of the attempt to write a text: the write fails, the text is rejected, or it has no
problems and is written. -/
theorem Attempt.carryOut_ofSource {path : DiskPath} {source : List Char}
    {className : Option String} {outcome : Outcome} {after : FileTree}
    {result : Except Fault BuildResult}
    (h : (ofSource path source className outcome).carryOut tree path = (after, result)) :
    (after = tree ∧ ∃ e, result = .error e) ∨
      (after = tree ∧ ∃ errors, result = .ok ⟨path, .validationFailed, errors⟩) ∨
      TypeScript.sourceProblems source className = [] ∧
        tree.write path (sourceContent source) = .ok after ∧ result = .ok ⟨path, outcome, []⟩ := by
  rw [ofSource] at h
  split at h
  · next hsound =>
    rw [List.isEmpty_iff, List.map_eq_nil_iff] at hsound
    rw [carryOut] at h
    split at h
    · cases h
      exact .inl ⟨rfl, _, rfl⟩
    · next hwrite =>
      cases h
      exact .inr (.inr ⟨hsound, hwrite, rfl⟩)
  · cases h
    exact .inr (.inl ⟨rfl, _, rfl⟩)

theorem Task.ended_ofSource {task : Task} {outcome : Outcome} (source : List Char)
    (accepted : outcome ≠ .validationFailed) {after : FileTree} {result : Except Fault BuildResult}
    (h : (Attempt.ofSource (task.path settings) source task.className? outcome).carryOut tree
      (task.path settings) = (after, result)) :
    task.Ended settings tree after result := by
  rcases Attempt.carryOut_ofSource h with ⟨rfl, e, rfl⟩ | ⟨rfl, errors, rfl⟩ | ⟨hsound, hwrite, rfl⟩
  · exact .faulted e
  · exact .rejected errors
  · exact .written source outcome after hsound hwrite accepted

/-- **The ways in which a task ends.** -/
theorem Task.ended (settings : Settings) (tree : FileTree) (task : Task) :
    task.Ended settings tree (task.run settings tree).tree (task.run settings tree).result := by
  have hrun := (task.run_eq settings tree).symm
  generalize (task.run settings tree).tree = after at hrun ⊢
  generalize (task.run settings tree).result = result at hrun ⊢
  have hanew : ∀ found : Option Entry,
      (if found.isSome then Outcome.overwritten else .created) ≠ .validationFailed := by
    intro found
    split <;> decide
  cases task with
  | service s =>
    dsimp only [attempt] at hrun
    split at hrun
    · exact ended_ofSource _ (by decide) hrun
    · cases hrun
      exact .faulted _
    · cases hrun
      exact .faulted _
    · next source hfound =>
      rw [Attempt.ofReconciling] at hrun
      dsimp only at hrun
      split at hrun
      · cases hrun
        exact .rejected _
      · split at hrun
        · cases hrun
          exact .upToDate s _ rfl ⟨_, FileTree.found?_eq_some_iff.1 hfound⟩
        · exact ended_ofSource _ (by decide) hrun
  | model m => exact ended_ofSource _ (hanew _) hrun
  | controller c => exact ended_ofSource _ (hanew _) hrun
  | main cs => exact ended_ofSource _ (hanew _) hrun

end ApiScaffold
