import ApiScaffold.Proofs.Compile.Coherence
import ApiScaffold.Proofs.Compile.Scheme

/-!
# Services and controllers agree

A document is compiled into the services and then, on their own, into the controllers.  As long as
both succeed, the two stores stay in step: they have the same resources in the same order, with the
same operations, and a controller imports its service and then what the service imports.

* `Agrees` relates a service and its controller; `agrees_of_makes` is the step for one group;
* `Reached` are the stores after calls that all succeeded;
* `reached_agree`: such stores agree.
-/

namespace ApiScaffold

open Draft

/-- A controller has the operations of the service, and imports the service first and then what the
service imports, under the settings of one of the calls. -/
def Agrees (calls : List (Settings × Value)) (s : Service) (c : Controller) : Prop :=
  c.name = s.name ∧ c.methods = s.methods ∧
    ∃ call ∈ calls, c.imports = serviceImport call.1 c.name :: s.imports

/-- Stores that calls can reach, each of which compiles a document under its settings into what the
calls before it left. -/
inductive Reached : List (Settings × Value) → Stores → Prop
  | start : Reached [] .empty
  | next {calls : List (Settings × Value)} {stores : Stores} {settings : Settings} {doc : Value}
      (before : Reached calls stores)
      (succeeds : (compileDocument settings doc stores).fault = none) :
      Reached (calls ++ [(settings, doc)]) (compileDocument settings doc stores).store

/-- A document that compiles has compiled into the services and into the controllers. -/
theorem runs_of_compileDocument {settings : Settings} {doc : Value} {stores : Stores}
    (h : (compileDocument settings doc stores).fault = none) :
    (serviceScheme settings).Runs stores.services doc
        (compileDocument settings doc stores).store.services ∧
      (controllerScheme settings).Runs stores.controllers doc
        (compileDocument settings doc stores).store.controllers := by
  obtain ⟨-, hs, hc, hstore⟩ := stages_of_compileDocument h
  rw [← compileServices_iff, ← compileControllers_iff, hstore]
  exact ⟨⟨hs, rfl⟩, hc, rfl⟩

/-- What a group makes of a service and of its controller agrees if they agreed before. -/
theorem agrees_of_makes {calls : List (Settings × Value)} {settings : Settings} {doc : Value}
    {services : Store Service} {controllers : Store Controller} {g : Group} {s : Service}
    {c : Controller} (hstores : Store.Corresponds (Agrees calls) services controllers)
    (hs : (serviceScheme settings).Makes services g s)
    (hc : (controllerScheme settings).Makes controllers g c) :
    Agrees (calls ++ [(settings, doc)]) s c := by
  obtain ⟨-, ms, hms, -, rfl⟩ := hs
  obtain ⟨-, ns, hns, -, rfl⟩ := hc
  have hknown : (controllerScheme settings).known (controllers.find? g.name) =
      (serviceScheme settings).known (services.find? g.name) := by
    rcases hstores.find? g.name with ⟨hs, hc⟩ | ⟨s, c, hs, hc, hsc⟩
    · rw [hs, hc]
      rfl
    · rw [hs, hc]
      exact hsc.2.1
  rw [hknown] at hns
  obtain rfl : ms = ns := Settles.unique hms hns
  exact ⟨rfl, rfl, (settings, doc), by simp, rfl⟩

/-- Agreement is kept by a document that is compiled into both stores. -/
theorem agree_of_runs {calls : List (Settings × Value)} {settings : Settings} {doc : Value}
    {services services' : Store Service} {controllers controllers' : Store Controller}
    (h : Store.Corresponds (Agrees calls) services controllers)
    (hs : (serviceScheme settings).Runs services doc services')
    (hc : (controllerScheme settings).Runs controllers doc controllers') :
    Store.Corresponds (Agrees (calls ++ [(settings, doc)])) services' controllers' := by
  obtain ⟨groups, ss, hgroups, hss, rfl⟩ := hs
  obtain ⟨groups', cs, hgroups', hcs, rfl⟩ := hc
  obtain rfl := Except.ok.inj (hgroups.symm.trans hgroups')
  have hold : Store.Corresponds (Agrees (calls ++ [(settings, doc)])) services controllers := by
    refine h.mono fun s c => ?_
    rintro ⟨hname, hmethods, call, hcall, himports⟩
    exact ⟨hname, hmethods, call, List.mem_append_left _ hcall, himports⟩
  refine hold.insertAll ?_
  -- Both kinds are made of the same groups, one after the other.
  clear hgroups hgroups'
  induction hss generalizing cs with
  | nil =>
    obtain rfl := List.forall₂_nil_left_iff.1 hcs
    exact .nil
  | cons hgs _ ih =>
    obtain ⟨c, cs, hgc, hrest, rfl⟩ := List.forall₂_cons_left_iff.1 hcs
    exact .cons ⟨hgs.name_eq.trans hgc.name_eq.symm, agrees_of_makes h hgs hgc⟩ (ih cs hrest)

theorem Reached.corresponds {calls : List (Settings × Value)} {stores : Stores}
    (h : Reached calls stores) :
    Store.Corresponds (Agrees calls) stores.services stores.controllers := by
  induction h with
  | start => exact .nil
  | next _ hok ih =>
    obtain ⟨hs, hc⟩ := runs_of_compileDocument hok
    exact agree_of_runs ih hs hc

/-- **Services and controllers agree**, whatever documents were compiled under whatever settings,
as long as each compilation succeeded: the resources are the same in the same order, and each
controller has the operations of its service, and its imports after that of the service. -/
theorem reached_agree {calls : List (Settings × Value)} {stores : Stores}
    (h : Reached calls stores) :
    stores.services.names = stores.controllers.names ∧
      ∀ n c, stores.controllers.find? n = some c →
        ∃ s, stores.services.find? n = some s ∧ c.methods = s.methods ∧
          ∃ call ∈ calls, c.imports = serviceImport call.1 c.name :: s.imports := by
  have hstores := h.corresponds
  refine ⟨hstores.names_eq, fun n c hc => ?_⟩
  rcases hstores.find? n with ⟨-, hnone⟩ | ⟨s, c', hs, hc', -, hmethods, himports⟩
  · rw [hnone] at hc
    cases hc
  · obtain rfl := Option.some.inj (hc'.symm.trans hc)
    exact ⟨s, hs, hmethods, himports⟩

/-- A document about pets with the given paths. -/
def petDocument (paths : List (String × Value)) : Value := .record
  [("components", .record [("schemas", .record [("Pet", .record [])])]), ("paths", .record paths)]

/-- Pets are listed and added. -/
def firstPaths : List (String × Value) :=
  [("/pets", .record
    [("get", .record [("operationId", .text "listPets")]),
      ("post", .record [("operationId", .text "addPet"), ("requestBody", petRequest)])])]

/-- Toys are listed, and pets are now listed with a body and added without one. -/
def laterPaths : List (String × Value) :=
  [("/toys", .record [("get", .record [("operationId", .text "listToys")])]),
    ("/pets/{id}", .record
      [("put", .record [("operationId", .text "listPets"), ("requestBody", petRequest)]),
        ("post", .record [("operationId", .text "addPet")])])]

/-- The settings of a project that keeps its models and services elsewhere. -/
def movedSettings : Settings := { modelsAlias := "@/api/models", servicesAlias := "@/api/services" }

theorem reached_agree_pets :
    let first := (compileDocument {} (petDocument firstPaths) .empty).store
    let stores := (compileDocument movedSettings (petDocument laterPaths) first).store
    Reached [({}, petDocument firstPaths), (movedSettings, petDocument laterPaths)] stores ∧
      stores.services.names = stores.controllers.names ∧
        ∃ s c, stores.services.find? "Pet" = some s ∧ stores.controllers.find? "Pet" = some c ∧
          c.methods = s.methods := by
  intro first stores
  have hfirst : (compileDocument {} (petDocument firstPaths) .empty).fault = none := by
    decide +kernel
  have hlater : (compileDocument movedSettings (petDocument laterPaths) first).fault = none := by
    decide +kernel
  have hreached := Reached.next (Reached.next .start hfirst) hlater
  obtain ⟨hnames, hagree⟩ := reached_agree hreached
  have hpet : (stores.controllers.find? "Pet").isSome = true := by decide +kernel
  obtain ⟨c, hc⟩ := Option.isSome_iff_exists.1 hpet
  obtain ⟨s, hs, hmethods, -⟩ := hagree "Pet" c hc
  exact ⟨hreached, hnames, s, c, hs, hc, hmethods⟩

end ApiScaffold
