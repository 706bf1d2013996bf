import ApiScaffold.Proofs.Resource.Laws
import ApiScaffold.Proofs.Service.Again

/-!
# Reading a service file back

The stubs of a service are named after its operations as these are, and the members of a class are
found by their names.

* `isMemberName_of_findClass?`: in any source text the members of a class are named by identifiers,
  or have no name;
* `ListsOperations` and `NothingToChange` say of a source text that its class has the operations of
  a service as its methods; no text is such unless the operations are named by identifiers;
* `HandEdited` are the texts that hand edits make of the file of a service;
* `serviceFile_readBack`: if the operations are named by identifiers, and the other texts of the
  service can stand in a source text, all these texts list them, and a build leaves them alone.
-/

namespace ApiScaffold

open TypeScript ServiceFile

/-! ### The names of members -/

/-- An identifier, or no name at all. -/
def IsMemberName (n : String) : Prop := n = "" ∨ Render.isIdentifier n.toList = true

theorem isMemberName_nameOf (header : List Char) : IsMemberName (nameOf header) := by
  unfold nameOf trailingIdentifier
  generalize Text.trimRight (dropMarker (dropGeneric header)) = cs
  cases hname : (Text.takeSuffixWhile Text.isIdentifierChar cs).dropWhile
      fun c => !Text.isIdentifierStart c with
  | nil => exact Or.inl rfl
  | cons c w =>
    have hstart : Text.isIdentifierStart c = true := by
      have hhead := List.head?_dropWhile_not (fun c => !Text.isIdentifierStart c)
        (Text.takeSuffixWhile Text.isIdentifierChar cs)
      rw [hname] at hhead
      simpa using hhead
    have hchars : ∀ d ∈ c :: w, Text.isIdentifierChar d = true := by
      intro d hd
      rw [← hname] at hd
      have hmem : d ∈ Text.takeSuffixWhile Text.isIdentifierChar cs :=
        (List.dropWhile_suffix _).subset hd
      rw [Text.takeSuffixWhile, List.mem_reverse] at hmem
      exact List.mem_takeWhile_imp hmem
    refine Or.inr ?_
    rw [String.toList_ofList, Render.isIdentifier, hstart, Bool.true_and, List.all_eq_true]
    exact fun d hd => hchars d (List.mem_cons_of_mem c hd)

theorem isMemberName_outlineFrom (taken : List Char) (skip room : ℕ) (cs : List Char) :
    IsMemberName (outlineFrom taken skip room cs).name := by
  fun_induction outlineFrom taken skip room cs with
  | case1 | case2 | case4 | case6 | case9 | case10 | case11 => exact isMemberName_nameOf _
  | case3 | case5 | case7 | case8 | case12 => assumption

theorem isMemberName_of_mem_membersFrom {steps pos room : ℕ} {cs : List Char} {m : Member}
    (hm : m ∈ membersFrom steps pos room cs) : IsMemberName m.name := by
  induction steps generalizing pos room cs with
  | zero => cases hm
  | succ steps ih =>
    unfold membersFrom at hm
    dsimp only at hm
    split_ifs at hm
    · cases hm
    · exact ih hm
    · rcases List.mem_cons.1 hm with rfl | hm
      · exact isMemberName_outlineFrom ..
      · exact ih hm

/-- **The members of a class are named by identifiers,** if at all, whatever the source text. -/
theorem isMemberName_of_findClass? {source : List Char} {name : String} {body : ClassBody}
    (hfound : findClass? source name = some body) {m : Member} (hm : m ∈ body.members) :
    IsMemberName m.name := by
  obtain ⟨size, -, -, -, -, hmembers⟩ := findBody?_cases hfound
  rw [hmembers] at hm
  exact isMemberName_of_mem_membersFrom hm

/-! ### Texts that list the operations -/

/-- The class in a source text has the operations of the service as its members, all of them
methods, in order, and the registration method behind them. -/
def ListsOperations (s : Service) (source : List Char) : Prop :=
  ∃ body, findClass? source (Naming.className s.name .service) = some body ∧
    body.members.map (fun m => (m.name, m.kind)) =
      (operationNames s ++ ["register"]).map fun n => (n, .method)

/-- A build adds no method to the class in a source text, nor does it take one out. -/
def NothingToChange (s : Service) (source : List Char) : Prop :=
  ∃ body, findClass? source (Naming.className s.name .service) = some body ∧
    Reconcile.added s body = [] ∧ Reconcile.removed s body = []

/-- The operations are named by identifiers. -/
def Identified (s : Service) : Prop := ∀ m ∈ s.methods, Render.isIdentifier m.name.toList = true

variable {settings : Settings} {s : Service} {data : Value} {source : List Char}

/-- If the class in a source text has a member for each operation, these are named by
identifiers. -/
theorem identified_of_members {body : ClassBody} (accepted : Service.check data = .ok s)
    (hfound : findClass? source (Naming.className s.name .service) = some body)
    (hmembers : ∀ m ∈ s.methods, m.name ∈ body.members.map (·.name)) : Identified s := by
  intro m hm
  obtain ⟨member, hmember, hname⟩ := List.mem_map.1 (hmembers m hm)
  rcases isMemberName_of_findClass? hfound hmember with hnothing | hidentifier
  · exact absurd (hname ▸ hnothing) ((Service.sound_of_check accepted).1 m hm).name
  · exact hname ▸ hidentifier

theorem identified_of_listsOperations (accepted : Service.check data = .ok s)
    (h : ListsOperations s source) : Identified s := by
  obtain ⟨body, hfound, hlist⟩ := h
  refine identified_of_members accepted hfound fun m hm => ?_
  have hnames : body.members.map (·.name) = operationNames s ++ ["register"] := by
    have := congrArg (List.map Prod.fst) hlist
    simpa [Function.comp_def] using this
  rw [hnames]
  exact List.mem_append_left _ (List.mem_map_of_mem hm)

theorem identified_of_nothingToChange (accepted : Service.check data = .ok s)
    (h : NothingToChange s source) : Identified s := by
  obtain ⟨body, hfound, hadded, -⟩ := h
  refine identified_of_members accepted hfound fun m hm => ?_
  have hpresent := (List.filter_eq_nil_iff.1 hadded) m hm
  simp only [Bool.not_eq_true', Bool.not_eq_false, List.contains_iff_mem] at hpresent
  obtain ⟨member, hmember, hname⟩ := List.mem_map.1 hpresent
  exact hname ▸ List.mem_map_of_mem (List.mem_filter.1 hmember).1

/-! ### Files that are up to date -/

namespace UpToDate

variable {l : Layout}

theorem listsOperations (h : UpToDate settings s l) : ListsOperations s l.text := by
  refine ⟨l.classBody, h.findClass?_eq, ?_⟩
  have hkinds : l.classBody.members.map (fun m => (m.name, m.kind)) =
      (l.classBody.members.map (·.name)).map fun n => (n, .method) := by
    rw [List.map_map]
    exact List.map_congr_left fun m hm => congrArg _ (kind_of_mem_membersAt hm)
  rw [hkinds, ← h.names, namesOf, ← map_name_membersAt (l.opening + 1)]
  rfl

theorem nothingToChange (h : UpToDate settings s l) : NothingToChange s l.text :=
  ⟨l.classBody, h.findClass?_eq, h.added_eq, h.removed_eq⟩

/-- A build leaves the file tree as it is. -/
theorem generateService_eq (h : UpToDate settings s l)
    (himports : ∀ i ∈ s.imports, PlainName i.name) {tree : FileTree}
    (hfile : tree.FileAt (servicePath settings s) (sourceContent l.text)) :
    generateService settings tree s =
      ⟨tree, [.upToDate (servicePath settings s).toString],
        .ok ⟨servicePath settings s, .reconciled, []⟩⟩ := by
  rw [generateService_of_fileAt h.sound.return_notMem hfile]
  simp only [reconcileSource, h.findClass?_eq, h.edits_eq himports, List.isEmpty_nil, if_true]

/-- Another body keeps a file up to date. -/
theorem withBody (h : UpToDate settings s l) {before after : List MethodText} {e : MethodText}
    (hl : l.methods = before ++ e :: after) {t : List Char} (ht : Fits t) (hreturn : '\r' ∉ t) :
    UpToDate settings s { l with methods := before ++ { e with body := t } :: after } where
  sound := h.sound.withBody hl ht hreturn
  className := h.className
  imports := h.imports
  names := by
    rw [← h.names, hl]
    simp [namesOf]

end UpToDate

/-! ### Texts that hand edits make of a new file -/

/-- The texts that the service writes besides the names of its operations can stand in a source text
as they are. -/
structure PlainBesides (settings : Settings) (s : Service) : Prop where
  name : IsWord s.name.toList
  bodyTypes : ∀ m ∈ s.methods, ∀ t, m.bodyType? = some t → IsWord t.toList
  importNames : ∀ i ∈ s.imports, IsWord i.name.toList
  importPaths : ∀ i ∈ s.imports, i.path.toList.all isPlainText = true
  extension : settings.extension.toList.all isPlainText = true
  frameworkModule : settings.frameworkModule.toList.all isPlainText = true

theorem PlainBesides.spelled (h : PlainBesides settings s) (names : Identified s) :
    Spelled settings s :=
  ⟨h.name, names, h.bodyTypes, h.importNames, h.importPaths, h.extension, h.frameworkModule⟩

/-- The texts that hand edits make of the file of a service. An edit replaces the text between the
braces of a method by one that fits there. -/
inductive HandEdited (settings : Settings) (s : Service) : List Char → Prop
  | new : HandEdited settings s (Render.serviceFile settings s)
  | edit {source edited t : List Char} {body : ClassBody} {method : String}
      (h : HandEdited settings s source)
      (hfound : findClass? source (Naming.className s.name .service) = some body)
      (ht : Fits t) (hreturn : '\r' ∉ t)
      (hreplace : replaceBody? source body method t = some edited) : HandEdited settings s edited

/-- **However a new file is edited, it stays up to date.** -/
theorem HandEdited.upToDate (h : HandEdited settings s source) (spelled : Spelled settings s) :
    ∃ l, UpToDate settings s l ∧ source = l.text := by
  induction h with
  | new => exact ⟨newLayout settings s, upToDate_newLayout spelled, serviceFile_eq spelled⟩
  | edit _ hfound ht hreturn hreplace ih =>
    obtain ⟨l, hl, rfl⟩ := ih
    obtain rfl := Option.some.inj (hfound.symm.trans hl.findClass?_eq)
    obtain ⟨before, e, after, hmethods, -, rfl⟩ := hl.sound.exists_of_replaceBody? hreplace
    exact ⟨_, hl.withBody hmethods ht hreturn, rfl⟩

/-- **When the file of a service is read back as it was written.** A source text lists the
operations of an accepted service, or leaves a build nothing to change, only if they are named by
identifiers. If they are, and the other texts of the service are plain, its file passes the check,
and however it is edited by hand, it lists the operations and a build changes nothing. -/
theorem serviceFile_readBack (accepted : Service.check data = .ok s) (settings : Settings) :
    (∀ source, ListsOperations s source ∨ NothingToChange s source → Identified s) ∧
      (PlainBesides settings s → Identified s →
        sourceProblems (Render.serviceFile settings s)
            (some (Naming.className s.name .service)) = [] ∧
          ∀ source, HandEdited settings s source →
            ListsOperations s source ∧ NothingToChange s source ∧
              ((∀ i ∈ s.imports, i.name ≠ "type") → ∀ tree : FileTree,
                tree.FileAt (servicePath settings s) (sourceContent source) →
                  generateService settings tree s =
                    ⟨tree, [.upToDate (servicePath settings s).toString],
                      .ok ⟨servicePath settings s, .reconciled, []⟩⟩)) := by
  refine ⟨fun source h => ?_, fun plain names => ⟨?_, fun source hedited => ?_⟩⟩
  · rcases h with h | h
    · exact identified_of_listsOperations accepted h
    · exact identified_of_nothingToChange accepted h
  · have spelled := plain.spelled names
    rw [serviceFile_eq spelled]
    exact (sound_newLayout spelled).sourceProblems_eq_nil rfl
  · obtain ⟨l, hl, rfl⟩ := hedited.upToDate (plain.spelled names)
    refine ⟨hl.listsOperations, hl.nothingToChange, fun htype tree hfile => ?_⟩
    refine hl.generateService_eq (fun i hi => ?_) hfile
    exact ⟨plain.importNames i hi, ((Service.sound_of_check accepted).2 i hi).1, htype i hi⟩

theorem serviceFile_readBack_toy :
    Service.check Reconcile.toyService.data = .ok Reconcile.toyService ∧
      PlainBesides {} Reconcile.toyService ∧ Identified Reconcile.toyService ∧
      ∃ edited tree, HandEdited {} Reconcile.toyService edited ∧
        trickyBody <:+: edited ∧ tree.FileAt ServiceFile.toyPath (sourceContent edited) ∧
        ListsOperations Reconcile.toyService edited ∧
        generateService {} tree Reconcile.toyService =
          ⟨tree, [.upToDate ServiceFile.toyPath.toString],
            .ok ⟨ServiceFile.toyPath, .reconciled, []⟩⟩ := by
  have accepted : Service.check Reconcile.toyService.data = .ok Reconcile.toyService := by
    decide +kernel
  have renderable := renderable_toy (Or.inl rfl)
  have plain : PlainBesides {} Reconcile.toyService :=
    ⟨renderable.name, renderable.bodyTypes, renderable.importNames, renderable.importPaths,
      renderable.extension, renderable.frameworkModule⟩
  have names : Identified Reconcile.toyService := renderable.methods
  have readBack := (serviceFile_readBack accepted {}).2 plain names
  have fits : Fits trickyBody := ⟨by decide +kernel, by decide +kernel⟩
  -- The body of the first operation is filled in.
  have fresh := upToDate_newLayout renderable.spelled
  obtain ⟨e, after, hmethods⟩ :
      ∃ e after, (newLayout {} Reconcile.toyService).methods = [] ++ e :: after := ⟨_, _, rfl⟩
  have filled := fresh.sound.replaceBody?_eq hmethods (by simp) trickyBody
  have found := fresh.findClass?_eq
  rw [← serviceFile_eq renderable.spelled] at filled found
  have edited := HandEdited.edit .new found fits (by decide) filled
  obtain ⟨made, hmade⟩ := exists_write_toyPath
  obtain ⟨tree, hwrite⟩ := FileTree.write_of_write hmade (sourceContent _)
  have hfile := FileTree.fileAt_of_write hwrite
  have settled := readBack.2 _ edited
  obtain ⟨span, -, hspan⟩ := Option.map_eq_some_iff.1 filled
  exact ⟨accepted, plain, names, _, tree, edited, ⟨_, _, hspan⟩, hfile, settled.1,
    settled.2.2 (by decide) tree hfile⟩

/-! ### A name that is not read back -/

/-- A service with an operation whose name has a hyphen. -/
def hyphenatedPets : Service :=
  { name := "Pets"
    description := ""
    methods := [⟨.get, "list-pets", "/pets", none, none⟩]
    imports := [] }

/-- The scan of the file finds the end of the name only, and so the next build takes the stub out
and adds it again, whatever stands in it by then. -/
theorem hyphenatedPets_not_readBack :
    Service.check hyphenatedPets.data = .ok hyphenatedPets ∧
      (operationNames hyphenatedPets).Nodup ∧
      sourceProblems (Render.serviceFile {} hyphenatedPets) (some "PetsService") = [] ∧
      ¬ ListsOperations hyphenatedPets (Render.serviceFile {} hyphenatedPets) ∧
      ∃ body, findClass? (Render.serviceFile {} hyphenatedPets) "PetsService" = some body ∧
        body.members.map (·.name) = ["pets", "register"] ∧
        bodyText? (Render.serviceFile {} hyphenatedPets) body "pets" =
          some (stubBody "list-pets") ∧
        (Reconcile.removed hyphenatedPets body).map (·.name) = ["pets"] ∧
        (Reconcile.added hyphenatedPets body).map (·.name) = ["list-pets"] := by
  have accepted : Service.check hyphenatedPets.data = .ok hyphenatedPets := by decide +kernel
  have unidentified : ¬ Identified hyphenatedPets := by
    unfold Identified
    decide
  have scanned : (findClass? (Render.serviceFile {} hyphenatedPets) "PetsService").map
      (fun body => (body.members.map (·.name),
        bodyText? (Render.serviceFile {} hyphenatedPets) body "pets",
        (Reconcile.removed hyphenatedPets body).map (·.name),
        (Reconcile.added hyphenatedPets body).map (·.name))) =
      some (["pets", "register"], some (stubBody "list-pets"), ["pets"], ["list-pets"]) := by
    decide +kernel
  refine ⟨accepted, by decide, by decide +kernel,
    fun h => unidentified (identified_of_listsOperations accepted h), ?_⟩
  obtain ⟨body, hfound, hbody⟩ := Option.map_eq_some_iff.1 scanned
  simp only [Prod.mk.injEq] at hbody
  exact ⟨body, hfound, hbody⟩

end ApiScaffold
