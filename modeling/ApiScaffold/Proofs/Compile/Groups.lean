import ApiScaffold.Proofs.Compile.Merging
import ApiScaffold.Proofs.Document.Mapping

/-!
# Operations and their groups

The operations of a document in order, and what becomes of them when the document is grouped.

* `operationsOf` lists the operations of a document, each with its path and its verb;
* `gather_eq`: there is a group for each resource, in the order in which the resources first come,
  and it holds the paths of its resource in order;
* `pathDrafts_eq_ok`: the paths of a document compile exactly if each of them does;
* `forall₂_operations`: a group holds the drafts of the operations of its resource, in order.
-/

namespace ApiScaffold

open Draft

/-! ### The operations of a document -/

/-- An operation has a draft exactly if it has an identifier and its parts can be read. -/
theorem methodDraft_eq_ok {doc : Value} {path : String} {verb : Verb} {operation : Value}
    {d : MethodDraft} :
    methodDraft doc path verb operation = .ok d ↔
      ∃ name t ps, Value.present? (operation.field? "operationId") = some name ∧
        contentTypeDraft doc (operation.field? "responses") = .ok t ∧
        parametersDraft doc path operation = .ok ps ∧ d = ⟨verb, name, path, t, ps⟩ := by
  unfold methodDraft
  cases Value.present? (operation.field? "operationId") with
  | none => simp
  | some name =>
    cases contentTypeDraft doc (operation.field? "responses") with
    | error e => simp
    | ok t => cases parametersDraft doc path operation <;> simp [Except.map, eq_comm]

/-- The resource that a path belongs to. -/
def resourceOf (path : String) : String := String.ofList (Naming.resourceName path.toList)

/-- An operation of a document. -/
structure Operation where
  path : String
  verb : Verb
  data : Value

namespace Operation

/-- The resource that an operation belongs to. -/
def resource (o : Operation) : String := resourceOf o.path

/-- The draft of an operation. -/
def Compiles (doc : Value) (o : Operation) (d : MethodDraft) : Prop :=
  methodDraft doc o.path o.verb o.data = .ok d

/-- Whether the identifier of an operation is given in bytes. -/
def namedInBytes (o : Operation) : Bool := (o.data.field? "operationId").any Value.isBytes

/-- A draft has the verb and the path of its operation, and is named by its identifier. -/
theorem Compiles.of_operation {doc : Value} {o : Operation} {d : MethodDraft}
    (h : o.Compiles doc d) :
    d.verb = o.verb ∧ d.url = o.path ∧ o.data.field? "operationId" = some d.name := by
  obtain ⟨name, t, ps, hname, -, -, rfl⟩ := methodDraft_eq_ok.1 h
  exact ⟨rfl, rfl, of_present?_eq_some hname⟩

end Operation

/-- The operations of a path item. -/
def operationsIn (path : String) (item : Entries) : List Operation :=
  item.filterMap fun e => (verbOf? e.1).map fun v => ⟨path, v, e.2⟩

theorem operationsIn_cons (path : String) (k : Scalar) (operation : Value) (item : Entries) :
    operationsIn path ((k, operation) :: item) =
      ((verbOf? k).map fun v => (⟨path, v, operation⟩ : Operation)).toList ++
        operationsIn path item := by
  rw [operationsIn, List.filterMap_cons]
  cases verbOf? k <;> rfl

theorem mem_operationsIn {path : String} {item : Entries} {o : Operation} :
    o ∈ operationsIn path item ↔ ∃ e ∈ item, ∃ v, verbOf? e.1 = some v ∧ o = ⟨path, v, e.2⟩ := by
  simp [operationsIn, eq_comm]

/-- The operations under a key of the paths. -/
def operationsUnder (entry : Scalar × Value) : List Operation :=
  match textOf (.scalar entry.1), entry.2.entries? with
  | .ok path, some item => operationsIn path item
  | _, _ => []

/-- The operations of a document in order. -/
def operationsOf (doc : Value) : List Operation :=
  ((entriesOf? (doc.field? "paths")).getD []).flatMap operationsUnder

/-- A text under the paths of a document, as one of its keys. -/
def DocumentPath (doc : Value) (path : String) : Prop :=
  ∃ paths entry, entriesOf? (doc.field? "paths") = some paths ∧ entry ∈ paths ∧
    textOf (.scalar entry.1) = .ok path

/-! ### Groups of paths -/

/-- The paths of one resource. -/
def pathsOf (name : String) (ps : List (String × PathDraft)) : List PathDraft :=
  (ps.filter fun p => p.1 = name).map (·.2)

theorem pathsOf_append (name : String) (ps qs : List (String × PathDraft)) :
    pathsOf name (ps ++ qs) = pathsOf name ps ++ pathsOf name qs := by
  simp [pathsOf]

theorem mem_pathsOf {name : String} {ps : List (String × PathDraft)} {p : PathDraft} :
    p ∈ pathsOf name ps ↔ (name, p) ∈ ps := by
  simp [pathsOf]

theorem addToGroups_map {name : String} {p : PathDraft} {names : List String}
    (hnd : names.Nodup) (paths : String → List PathDraft) :
    addToGroups name p (names.map fun n => ⟨n, paths n⟩) =
      if name ∈ names then
        names.map fun n => ⟨n, if n = name then paths n ++ [p] else paths n⟩
      else (names.map fun n => ⟨n, paths n⟩) ++ [⟨name, [p]⟩] := by
  induction names with
  | nil => rfl
  | cons n names ih =>
    obtain ⟨hn, hnd⟩ := List.nodup_cons.1 hnd
    rw [List.map_cons, addToGroups]
    by_cases hname : n = name
    · -- The name comes once, so that the other groups stay as they are.
      have hrest : ∀ m ∈ names, m ≠ name := fun m hm hmn => hn (hname.trans hmn.symm ▸ hm)
      have hmap : (names.map fun m => (⟨m, if m = name then paths m ++ [p] else paths m⟩ : Group)) =
          names.map fun m => ⟨m, paths m⟩ :=
        List.map_congr_left fun m hm => by rw [if_neg (hrest m hm)]
      rw [if_pos hname, if_pos (by simp [hname]), List.map_cons, if_pos hname, hmap, hname]
    · rw [if_neg hname, ih hnd]
      by_cases hmem : name ∈ names
      · rw [if_pos hmem, if_pos (List.mem_cons_of_mem _ hmem), List.map_cons, if_neg hname]
      · have hmem' : name ∉ n :: names := by
          simpa [hmem] using Ne.symm hname
        rw [if_neg hmem, if_neg hmem', List.cons_append]

/-- There is one group for each resource, with the paths of the resource. -/
theorem gather_eq (ps : List (String × PathDraft)) :
    gather ps = (ps.map (·.1)).eraseDups.map fun n => ⟨n, pathsOf n ps⟩ := by
  induction ps using List.reverseRecOn with
  | nil => rfl
  | append_singleton ps p ih =>
    have hstep : gather (ps ++ [p]) = addToGroups p.1 p.2 (gather ps) := by simp [gather]
    rw [hstep, ih, addToGroups_map (nodup_eraseDups _), List.map_append, List.map_singleton,
      eraseDups_concat]
    simp only [List.mem_eraseDups]
    split_ifs with hmem
    · refine List.map_congr_left fun n _ => ?_
      rw [pathsOf_append]
      by_cases hn : n = p.1
      · simp [pathsOf, hn]
      · simp [pathsOf, hn, Ne.symm hn]
    · have hold : pathsOf p.1 ps = [] := by
        rw [pathsOf, List.map_eq_nil_iff, List.filter_eq_nil_iff]
        rintro q hq hqp
        exact hmem (List.mem_map.2 ⟨q, hq, by simpa using hqp⟩)
      rw [List.map_append, List.map_singleton, pathsOf_append, hold]
      refine congrArg₂ _ (List.map_congr_left fun n hn => ?_) (by simp [pathsOf])
      have hne : p.1 ≠ n := fun hpn => hmem (hpn ▸ List.mem_eraseDups.1 hn)
      simp [pathsOf, hne]

theorem map_name_gather (ps : List (String × PathDraft)) :
    (gather ps).map (·.name) = (ps.map (·.1)).eraseDups := by
  simp [gather_eq, Function.comp_def]

/-- The groups are told by their names. -/
theorem mem_gather_iff {ps : List (String × PathDraft)} {g : Group} :
    g ∈ gather ps ↔ g.name ∈ ps.map (·.1) ∧ g.paths = pathsOf g.name ps := by
  rw [gather_eq, List.mem_map]
  constructor
  · rintro ⟨n, hn, rfl⟩
    exact ⟨List.mem_eraseDups.1 hn, rfl⟩
  · rintro ⟨hname, hpaths⟩
    exact ⟨g.name, List.mem_eraseDups.2 hname, by rw [← hpaths]⟩

/-- A group has a path, and its paths are those of its resource. -/
theorem mem_gather {ps : List (String × PathDraft)} {g : Group} (hg : g ∈ gather ps) :
    g.paths = pathsOf g.name ps ∧ g.paths ≠ [] := by
  obtain ⟨hname, hpaths⟩ := mem_gather_iff.1 hg
  obtain ⟨⟨n, p⟩, hp, rfl⟩ := List.mem_map.1 hname
  exact ⟨hpaths, hpaths ▸ List.ne_nil_of_mem (mem_pathsOf.2 hp)⟩

theorem pathsOf_eq_nil {name : String} {ps : List (String × PathDraft)}
    (h : name ∉ ps.map (·.1)) : pathsOf name ps = [] := by
  rw [pathsOf, List.map_eq_nil_iff, List.filter_eq_nil_iff]
  intro p hp hname
  exact h (List.mem_map.2 ⟨p, hp, of_decide_eq_true hname⟩)

/-! ### Compiling operations and paths -/

theorem methodDrafts_eq_ok {doc : Value} {path : String} {item : Entries} {ms : List MethodDraft} :
    methodDrafts doc path item = .ok ms ↔
      List.Forall₂ (Operation.Compiles doc) (operationsIn path item) ms := by
  induction item generalizing ms with
  | nil => cases ms <;> simp [methodDrafts, operationsIn]
  | cons e item ih =>
    obtain ⟨k, operation⟩ := e
    rw [methodDrafts, operationsIn_cons]
    cases verbOf? k with
    | none => exact ih
    | some v =>
      rw [Option.map_some, Option.toList_some, List.singleton_append, List.forall₂_cons_left_iff]
      simp only [Operation.Compiles]
      cases methodDraft doc path v operation with
      | error e => simp
      | ok d =>
        simp only [← ih, Except.ok.injEq]
        cases methodDrafts doc path item with
        | error e => simp [Except.map]
        | ok ds => simp [Except.map, eq_comm]

theorem pathDraft_eq (doc : Value) (path : String) (item : Entries) :
    pathDraft doc path item =
      if resourceOf path = "" then .error (.spec .rootPath path)
      else (methodDrafts doc path item).map fun ms => (resourceOf path, ⟨path, ms⟩) := rfl

theorem pathDraft_eq_ok {doc : Value} {path : String} {item : Entries} {r : String × PathDraft} :
    pathDraft doc path item = .ok r ↔
      resourceOf path ≠ "" ∧
        ∃ ms, List.Forall₂ (Operation.Compiles doc) (operationsIn path item) ms ∧
          r = (resourceOf path, ⟨path, ms⟩) := by
  rw [pathDraft_eq]
  simp only [← methodDrafts_eq_ok]
  split_ifs with hroot
  · simp [hroot]
  · cases methodDrafts doc path item with
    | error e => simp [Except.map]
    | ok ms => simp [Except.map, hroot, eq_comm]

theorem pathStep_eq_ok {doc : Value} {entry : Scalar × Value} {r : Option (String × PathDraft)} :
    pathStep doc entry = .ok r ↔
      (entry.2.isTruthy = false ∧ r = none) ∨
        entry.2.isTruthy = true ∧ ∃ path item p, textOf (.scalar entry.1) = .ok path ∧
          entry.2.entries? = some item ∧ pathDraft doc path item = .ok p ∧ r = some p := by
  rw [pathStep]
  cases entry.2.isTruthy with
  | false => simp [eq_comm]
  | true =>
    cases textOf (.scalar entry.1) with
    | error e => simp
    | ok path =>
      cases entry.2.entries? with
      | none => simp
      | some item =>
        cases hd : pathDraft doc path item with
        | error e => simp [hd, Except.map]
        | ok p => simp only [hd, Except.map]; grind

/-- The path drafted under a key belongs to its resource, which has a name. -/
theorem path_of_pathStep {doc : Value} {entry : Scalar × Value} {name : String} {p : PathDraft}
    (h : pathStep doc entry = .ok (some (name, p))) :
    textOf (.scalar entry.1) = .ok p.path ∧ resourceOf p.path = name ∧ name ≠ "" := by
  obtain ⟨-, hnone⟩ | ⟨-, path, item, q, hkey, -, hq, hsome⟩ := pathStep_eq_ok.1 h
  · cases hnone
  · obtain ⟨hne, ms, -, rfl⟩ := pathDraft_eq_ok.1 hq
    obtain ⟨rfl, rfl⟩ := Prod.mk.inj (Option.some.inj hsome)
    exact ⟨hkey, rfl, hne⟩

/-- The paths of a document compile exactly if each of them does. -/
theorem pathDrafts_eq_ok {doc : Value} {paths : Entries} {ps : List (String × PathDraft)} :
    pathDrafts doc paths = .ok ps ↔
      ∃ rs, List.Forall₂ (fun e r => pathStep doc e = .ok r) paths rs ∧
        ps = rs.flatMap Option.toList := by
  induction paths generalizing ps with
  | nil => simp [pathDrafts, eq_comm]
  | cons e paths ih =>
    rw [pathDrafts_cons]
    simp only [List.forall₂_cons_left_iff]
    cases hstep : pathStep doc e with
    | error f => simp [Except.bind]
    | ok r =>
      cases hrest : pathDrafts doc paths with
      | error f =>
        have hnot : ∀ rs, ¬ List.Forall₂ (fun e r => pathStep doc e = .ok r) paths rs := by
          intro rs hrs
          cases hrest.symm.trans (ih.2 ⟨rs, hrs, rfl⟩)
        simp [Except.bind, Except.map, hnot]
      | ok qs =>
        constructor
        · intro h
          obtain ⟨rs, hrs, rfl⟩ := ih.1 hrest
          exact ⟨r :: rs, ⟨r, rs, rfl, hrs, rfl⟩, (Except.ok.inj h).symm⟩
        · rintro ⟨-, ⟨r', rs, hr, hrs, rfl⟩, rfl⟩
          rw [Except.ok.inj (hrest.symm.trans (ih.2 ⟨rs, hrs, rfl⟩)), Except.ok.inj hr]
          rfl

theorem groupOperations_eq_ok {doc : Value} {groups : List Group} :
    groupOperations doc = .ok groups ↔
      doc.entries?.isSome = true ∧ ∃ paths ps, entriesOf? (doc.field? "paths") = some paths ∧
        pathDrafts doc paths = .ok ps ∧ groups = gather ps := by
  rw [groupOperations]
  cases doc.entries? with
  | none => simp
  | some es =>
    cases entriesOf? (doc.field? "paths") with
    | none => simp
    | some paths =>
      cases hps : pathDrafts doc paths <;> simp [Except.map, hps, eq_comm]

theorem mem_pathDrafts {doc : Value} {paths : Entries} {ps : List (String × PathDraft)}
    (h : pathDrafts doc paths = .ok ps) {name : String} {p : PathDraft} (hp : (name, p) ∈ ps) :
    ∃ entry ∈ paths, textOf (.scalar entry.1) = .ok p.path ∧ resourceOf p.path = name ∧
      name ≠ "" := by
  obtain ⟨rs, hrs, rfl⟩ := pathDrafts_eq_ok.1 h
  obtain ⟨r, hr, hpr⟩ := List.mem_flatMap.1 hp
  obtain ⟨entry, hentry, hstep⟩ := exists_of_forall₂_right hrs hr
  rw [Option.mem_toList.1 hpr] at hstep
  exact ⟨entry, hentry, path_of_pathStep hstep⟩

/-- A group of a document has a path, and its paths are paths of the document that belong to its
resource. -/
theorem mem_groupOperations {doc : Value} {groups : List Group}
    (h : groupOperations doc = .ok groups) {g : Group} (hg : g ∈ groups) :
    g.paths ≠ [] ∧ ∀ p ∈ g.paths, DocumentPath doc p.path ∧ resourceOf p.path = g.name := by
  obtain ⟨-, paths, ps, hpaths, hps, rfl⟩ := groupOperations_eq_ok.1 h
  obtain ⟨heq, hne⟩ := mem_gather hg
  refine ⟨hne, fun p hp => ?_⟩
  rw [heq, mem_pathsOf] at hp
  obtain ⟨entry, hentry, hkey, hresource, -⟩ := mem_pathDrafts hps hp
  exact ⟨⟨paths, entry, hpaths, hentry, hkey⟩, hresource⟩

/-- Groups have names: a path of no resource is not grouped. -/
theorem name_ne_of_mem_groupOperations {doc : Value} {groups : List Group}
    (h : groupOperations doc = .ok groups) {g : Group} (hg : g ∈ groups) : g.name ≠ "" := by
  obtain ⟨-, paths, ps, -, hps, rfl⟩ := groupOperations_eq_ok.1 h
  obtain ⟨hname, -⟩ := mem_gather_iff.1 hg
  obtain ⟨⟨n, p⟩, hp, rfl⟩ := List.mem_map.1 hname
  obtain ⟨-, -, -, -, hne⟩ := mem_pathDrafts hps hp
  exact hne

theorem nodup_groupOperations {doc : Value} {groups : List Group}
    (h : groupOperations doc = .ok groups) : (groups.map (·.name)).Nodup := by
  obtain ⟨-, paths, ps, -, -, rfl⟩ := groupOperations_eq_ok.1 h
  rw [map_name_gather]
  exact nodup_eraseDups _

/-! ### The operations of a group -/

/-- The operations of a resource among drafted paths, in order. -/
def draftsOf (name : String) (ps : List (String × PathDraft)) : List MethodDraft :=
  (pathsOf name ps).flatMap (·.methods)

theorem draftsOf_append (name : String) (ps qs : List (String × PathDraft)) :
    draftsOf name (ps ++ qs) = draftsOf name ps ++ draftsOf name qs := by
  rw [draftsOf, pathsOf_append, List.flatMap_append]
  rfl

theorem operations_of_mem_gather {ps : List (String × PathDraft)} {g : Group}
    (hg : g ∈ gather ps) : g.operations = draftsOf g.name ps := by
  rw [Group.operations, (mem_gather hg).1]
  rfl

/-- An item that is passed over has no operations. -/
theorem operationsUnder_of_absent {entry : Scalar × Value} (h : entry.2.isTruthy = false) :
    operationsUnder entry = [] := by
  unfold operationsUnder
  split
  · next path item hkey hitem =>
    have hempty : item.isEmpty = true := by simpa [isTruthy_of_entries? hitem] using h
    rw [List.isEmpty_iff.1 hempty]
    rfl
  · rfl

theorem forall₂_operationsUnder {doc : Value} {entry : Scalar × Value}
    {r : Option (String × PathDraft)} (h : pathStep doc entry = .ok r) (name : String) :
    List.Forall₂ (Operation.Compiles doc)
      ((operationsUnder entry).filter fun o => o.resource = name) (draftsOf name r.toList) := by
  obtain ⟨ht, rfl⟩ | ⟨-, path, item, p, hkey, hitem, hp, rfl⟩ := pathStep_eq_ok.1 h
  · rw [operationsUnder_of_absent ht]
    exact .nil
  · have hunder : operationsUnder entry = operationsIn path item := by
      unfold operationsUnder
      rw [hkey, hitem]
    have hpath : ∀ o ∈ operationsIn path item, o.resource = resourceOf path := by
      intro o ho
      obtain ⟨e, -, v, -, rfl⟩ := mem_operationsIn.1 ho
      rfl
    obtain ⟨-, ms, hms, rfl⟩ := pathDraft_eq_ok.1 hp
    rw [hunder]
    by_cases hname : resourceOf path = name
    · rw [List.filter_eq_self.2 fun o ho => by simpa [hname] using hpath o ho]
      simpa [draftsOf, pathsOf, hname] using hms
    · rw [List.filter_eq_nil_iff.2 fun o ho => by simpa [hpath o ho] using hname]
      simp [draftsOf, pathsOf, hname]

/-- The drafts of a resource are those of its operations, in order. -/
theorem forall₂_draftsOf {doc : Value} {paths : Entries} {ps : List (String × PathDraft)}
    (h : pathDrafts doc paths = .ok ps) (name : String) :
    List.Forall₂ (Operation.Compiles doc)
      ((paths.flatMap operationsUnder).filter fun o => o.resource = name) (draftsOf name ps) := by
  obtain ⟨rs, hrs, rfl⟩ := pathDrafts_eq_ok.1 h
  induction hrs with
  | nil => exact .nil
  | cons hstep hrest ih =>
    rw [List.flatMap_cons, List.flatMap_cons, List.filter_append, draftsOf_append]
    exact List.rel_append (forall₂_operationsUnder hstep name)
      (ih (pathDrafts_eq_ok.2 ⟨_, hrest, rfl⟩))

/-- A group holds the drafts of the operations of its resource, in order. -/
theorem forall₂_operations {doc : Value} {groups : List Group}
    (h : groupOperations doc = .ok groups) {g : Group} (hg : g ∈ groups) :
    List.Forall₂ (Operation.Compiles doc)
      ((operationsOf doc).filter fun o => o.resource = g.name) g.operations := by
  obtain ⟨-, paths, ps, hpaths, hps, rfl⟩ := groupOperations_eq_ok.1 h
  rw [operationsOf, hpaths, operations_of_mem_gather hg]
  exact forall₂_draftsOf hps g.name

/-- A draft of a group has the name of an operation of the document, in the resource of the
group. -/
theorem exists_operation_of_mem_group {doc : Value} {groups : List Group}
    (h : groupOperations doc = .ok groups) {g : Group} (hg : g ∈ groups) {d : MethodDraft}
    (hd : d ∈ g.operations) : ∃ o ∈ operationsOf doc, o.resource = g.name ∧
      o.data.field? "operationId" = some d.name := by
  obtain ⟨o, ho, hod⟩ := exists_of_forall₂_right (forall₂_operations h hg) hd
  obtain ⟨hmem, hresource⟩ := List.mem_filter.1 ho
  exact ⟨o, hmem, of_decide_eq_true hresource, hod.of_operation.2.2⟩

/-- An operation of a document that compiles belongs to one of its groups. -/
theorem exists_group_of_operation {doc : Value} {groups : List Group}
    (hgroups : groupOperations doc = .ok groups) {o : Operation} (ho : o ∈ operationsOf doc) :
    ∃ g ∈ groups, g.name = o.resource := by
  obtain ⟨-, paths, ps, hpaths, hps, rfl⟩ := groupOperations_eq_ok.1 hgroups
  have ho' : o ∈ (paths.flatMap operationsUnder).filter fun p => p.resource = o.resource := by
    rw [operationsOf, hpaths] at ho
    exact List.mem_filter.2 ⟨ho, decide_eq_true rfl⟩
  obtain ⟨d, hd, -⟩ := exists_of_forall₂_left (forall₂_draftsOf hps o.resource) ho'
  refine ⟨⟨o.resource, pathsOf o.resource ps⟩, mem_gather_iff.2 ⟨?_, rfl⟩, rfl⟩
  by_contra hnot
  rw [draftsOf, pathsOf_eq_nil hnot] at hd
  cases hd

/-- No operation of a group is named in bytes if none of the document is. -/
theorem namedInBytes_of_mem_group {doc : Value} {groups : List Group}
    (h : groupOperations doc = .ok groups) {g : Group} (hg : g ∈ groups)
    (hdoc : ∀ o ∈ operationsOf doc, o.namedInBytes = false) :
    ∀ d ∈ g.operations, d.namedInBytes = false := by
  intro d hd
  obtain ⟨o, ho, -, hname⟩ := exists_operation_of_mem_group h hg hd
  have hnot := hdoc o ho
  rwa [Operation.namedInBytes, hname, Option.any_some] at hnot

end ApiScaffold
