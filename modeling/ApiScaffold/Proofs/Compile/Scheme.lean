import ApiScaffold.Proofs.Compile.Groups
import ApiScaffold.Proofs.Store

/-!
# One scheme for services and controllers

Services and controllers are compiled alike: the operations of a group are merged into those that
are stored, and the rest of the resource follows from the operations, from the group and from what
was stored.

* `Scheme` says what is particular to one kind of resource, with the laws that the two kinds share;
* `Scheme.Makes`, `Scheme.Runs`: what a group makes, and what a document makes of a store;
* `compileServices_iff`, `compileControllers_iff`: a compilation succeeds exactly if the scheme of
  its kind runs.
-/

namespace ApiScaffold

open Draft

/-- How operations become a resource of one kind. -/
structure Scheme (α : Type) where
  name : α → String
  methods : α → List Method
  /-- Whether a resource of the name may have the operations. -/
  Allows : String → List Method → Prop
  /-- The resource that a group and its operations make of the one that is stored. -/
  build : Option α → Group → List Method → α
  name_build : ∀ e g ms, name (build e g ms) = g.name
  methods_build : ∀ e g ms, methods (build e g ms) = ms
  /-- Operations may be left out. -/
  allows_of_subset : ∀ {n ms ms'}, Allows n ms → ms' ⊆ ms → Allows n ms'
  /-- Once a resource is built, it keeps everything but its operations and what they need. -/
  build_again : ∀ {e g h ms ms'}, g.paths ≠ [] → h.name = g.name →
    build (some (build e g ms)) h ms' = build e g ms'
  /-- Only the first path of a group counts. -/
  build_append : ∀ {e n ps qs ms}, ps ≠ [] → build e ⟨n, ps ++ qs⟩ ms = build e ⟨n, ps⟩ ms

namespace Scheme

variable {α : Type} (k : Scheme α)

/-- The operations of a resource that may be there. -/
def known (e : Option α) : List Method := (e.map k.methods).getD []

/-- A group makes a resource of what is stored. -/
def Makes (store : Store α) (g : Group) (a : α) : Prop :=
  g.name ≠ "" ∧ ∃ ms, MergesTo (k.known (store.find? g.name)) g ms ∧ k.Allows g.name ms ∧
    a = k.build (store.find? g.name) g ms

/-- A document makes a new store of a store. -/
def Runs (store : Store α) (doc : Value) (after : Store α) : Prop :=
  ∃ groups as, groupOperations doc = .ok groups ∧ List.Forall₂ (k.Makes store) groups as ∧
    after = store.insertAll k.name as

variable {k} {store : Store α} {g : Group} {a b : α}

theorem Makes.name_eq (h : k.Makes store g a) : k.name a = g.name := by
  obtain ⟨-, ms, -, -, rfl⟩ := h
  exact k.name_build _ _ _

theorem Makes.unique (ha : k.Makes store g a) (hb : k.Makes store g b) : a = b := by
  obtain ⟨-, ms, hms, -, rfl⟩ := ha
  obtain ⟨-, ns, hns, -, rfl⟩ := hb
  rw [hms.unique hns]

theorem map_name_of_makes {groups : List Group} {as : List α}
    (h : List.Forall₂ (k.Makes store) groups as) : as.map k.name = groups.map (·.name) :=
  (map_eq_of_forall₂ (h.imp fun _ _ ha => ha.name_eq.symm)).symm

/-- What a group makes is found in the new store. -/
theorem find?_of_makes {groups : List Group} {as : List α}
    (hnd : (groups.map (·.name)).Nodup) (has : List.Forall₂ (k.Makes store) groups as)
    (hg : g ∈ groups) (ha : k.Makes store g a) :
    (store.insertAll k.name as).find? g.name = some a := by
  obtain ⟨b, hb, hgb⟩ := exists_of_forall₂_left has hg
  rw [← ha.name_eq, ha.unique hgb]
  exact store.find?_insertAll_of_mem (map_name_of_makes has ▸ hnd) hb

/-- What a group makes depends on no more than what is stored under its name. -/
theorem Makes.of_find?_eq {after : Store α} (h : k.Makes store g a)
    (hfind : after.find? g.name = store.find? g.name) : k.Makes after g a := by
  unfold Makes
  rwa [hfind]

end Scheme

/-! ### The two kinds -/

/-- The scheme of services. -/
def serviceScheme (settings : Settings) : Scheme Service where
  name := (·.name)
  methods := (·.methods)
  Allows _ _ := True
  build e g ms := ⟨g.name, (e.map (·.description)).getD "", ms, importsOf settings ms⟩
  name_build _ _ _ := rfl
  methods_build _ _ _ := rfl
  allows_of_subset _ _ := trivial
  build_again _ hname := by simp [hname]
  build_append _ := rfl

/-- A route of a group with a path is not empty. -/
theorem groupRoute_ne {existing : Option Controller} {g : Group} (hg : g.paths ≠ []) :
    groupRoute existing g ≠ "" := by
  obtain ⟨p, ps, hps⟩ := List.exists_cons_of_ne_nil hg
  have hfirst : groupRoute.firstRoute g ≠ "" := by
    rw [groupRoute.firstRoute, hps]
    simp [Naming.baseRoute]
  cases existing with
  | none => exact hfirst
  | some c =>
    rw [groupRoute]
    split_ifs with hc
    · exact hc
    · exact hfirst

theorem groupRoute_some {c : Controller} {g : Group} (hc : c.path ≠ "") :
    groupRoute (some c) g = c.path := if_pos hc

/-- The scheme of controllers: the class of the service must not be that of a body. -/
def controllerScheme (settings : Settings) : Scheme Controller where
  name := (·.name)
  methods := (·.methods)
  Allows n ms := Naming.className n .service ∉ (importsOf settings ms).map (·.name)
  build e g ms := ⟨g.name, (e.map (·.description)).getD "", groupRoute e g, ms,
    serviceImport settings g.name :: importsOf settings ms⟩
  name_build _ _ _ := rfl
  methods_build _ _ _ := rfl
  allows_of_subset h hsub hin := by
    rw [map_name_importsOf, List.mem_eraseDups, List.mem_map] at h hin
    obtain ⟨b, hb, hbn⟩ := hin
    obtain ⟨m, hm, hbm⟩ := List.mem_flatMap.1 hb
    exact h ⟨b, List.mem_flatMap.2 ⟨m, hsub hm, hbm⟩, hbn⟩
  build_again hg hname := by
    simp only [hname]
    congr 1
    exact groupRoute_some (groupRoute_ne hg)
  build_append hps := by
    obtain ⟨p, ps, rfl⟩ := List.exists_cons_of_ne_nil hps
    rfl

theorem serviceScheme_makes {settings : Settings} {store : Store Service} {g : Group} {s : Service}
    (hg : g.paths ≠ []) :
    (compileService settings store g).result = .ok s ↔
      (serviceScheme settings).Makes store g s := by
  rw [compileService_eq_ok hg]
  constructor
  · rintro ⟨hname, hms, hs⟩
    exact ⟨hname, s.methods, hms, trivial, hs⟩
  · rintro ⟨hname, ms, hms, -, rfl⟩
    exact ⟨hname, hms, rfl⟩

theorem controllerScheme_makes {settings : Settings} {store : Store Controller} {g : Group}
    {c : Controller} (hg : g.paths ≠ []) :
    (compileController settings store g).result = .ok c ↔
      (controllerScheme settings).Makes store g c := by
  rw [compileController_eq_ok hg]
  constructor
  · rintro ⟨hname, hms, hservice, hc⟩
    exact ⟨hname, c.methods, hms, hservice, hc⟩
  · rintro ⟨hname, ms, hms, hservice, rfl⟩
    exact ⟨hname, hms, hservice, rfl⟩

theorem storeAll_iff {α : Type} {name : α → String} {stored : α → Event} {store after : Store α}
    {made : Traced (List α)} :
    ((storeAll name stored store made).fault = none ∧
      (storeAll name stored store made).store = after) ↔
        ∃ as, made.result = .ok as ∧ after = store.insertAll name as := by
  cases hmade : made.result with
  | error e => simp [storeAll_of_error hmade]
  | ok as => simp [storeAll_of_ok hmade, eq_comm]

/-- A compilation of groups succeeds exactly if the scheme runs by which each group is compiled. -/
theorem compileGroups_iff {α : Type} {k : Scheme α} {stored : α → Event}
    {compile : Group → Traced α} {doc : Value} {store after : Store α}
    (hcompile : ∀ g a, g.paths ≠ [] → ((compile g).result = .ok a ↔ k.Makes store g a)) :
    ((compileGroups k.name stored compile doc store).fault = none ∧
      (compileGroups k.name stored compile doc store).store = after) ↔ k.Runs store doc after := by
  rw [compileGroups, storeAll_iff]
  simp only [Traced.result_bind, Traced.result_liftM]
  cases hgs : groupOperations doc with
  | error e => simp [Except.bind, Scheme.Runs, hgs]
  | ok groups =>
    have hgroups : ∀ as, List.Forall₂ (fun g a => (compile g).result = .ok a) groups as ↔
        List.Forall₂ (k.Makes store) groups as := fun as =>
      forall₂_congr_mem fun g hg a => hcompile g a (mem_groupOperations hgs hg).1
    simp [Except.bind, Scheme.Runs, hgs, traceEach_ok_iff, hgroups]

/-- A compilation of services succeeds exactly if their scheme runs. -/
theorem compileServices_iff {settings : Settings} {doc : Value} {store after : Store Service} :
    ((compileServices settings doc store).fault = none ∧
      (compileServices settings doc store).store = after) ↔
        (serviceScheme settings).Runs store doc after :=
  compileGroups_iff fun _ _ => serviceScheme_makes

/-- A compilation of controllers succeeds exactly if their scheme runs. -/
theorem compileControllers_iff {settings : Settings} {doc : Value}
    {store after : Store Controller} :
    ((compileControllers settings doc store).fault = none ∧
      (compileControllers settings doc store).store = after) ↔
        (controllerScheme settings).Runs store doc after :=
  compileGroups_iff fun _ _ => controllerScheme_makes

theorem compileServices_succeeds_iff {settings : Settings} {doc : Value} {store : Store Service} :
    (compileServices settings doc store).fault = none ↔
      ∃ after, (serviceScheme settings).Runs store doc after := by
  simp [← compileServices_iff]

theorem compileControllers_succeeds_iff {settings : Settings} {doc : Value}
    {store : Store Controller} :
    (compileControllers settings doc store).fault = none ↔
      ∃ after, (controllerScheme settings).Runs store doc after := by
  simp [← compileControllers_iff]

end ApiScaffold
