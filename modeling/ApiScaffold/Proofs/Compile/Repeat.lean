import ApiScaffold.Proofs.Compile.Coherence
import ApiScaffold.Proofs.Compile.Scheme

/-!
# Compiling a document again

A document that was compiled may be compiled again: its operations take the places of those that it
stored before.  Nothing changes then, unless an operation is named in bytes, which the store keeps
under the text that they spell.

* `Scheme.Runs.exists_again`, `Scheme.Runs.again`: what a second run makes of one group after the
  other, and of the store;
* `compile_again`: services and controllers that are compiled again.
-/

namespace ApiScaffold

open Draft

namespace Scheme

variable {α : Type} {k : Scheme α} {store after : Store α} {doc : Value}

/-- A group makes something of what it has made before. -/
theorem Makes.exists_again {g : Group} {a : α} (ha : k.Makes store g a)
    (hfind : after.find? g.name = some a) : ∃ b, k.Makes after g b := by
  obtain ⟨hname, ms, hms, hallows, rfl⟩ := ha
  obtain ⟨ns, hns, hsub⟩ := Settles.exists_again hms
  refine ⟨_, hname, ns, ?_, k.allows_of_subset hallows hsub, rfl⟩
  rw [hfind, known, Option.map_some, Option.getD_some, k.methods_build]
  exact hns

/-- A group makes the same again if its operations are not named in bytes. -/
theorem Makes.again {g : Group} {a : α} (hg : g.paths ≠ [])
    (hbytes : ∀ d ∈ g.operations, d.namedInBytes = false) (ha : k.Makes store g a)
    (hfind : after.find? g.name = some a) : k.Makes after g a := by
  obtain ⟨hname, ms, hms, hallows, rfl⟩ := ha
  refine ⟨hname, ms, ?_, hallows, ?_⟩
  · rw [hfind, known, Option.map_some, Option.getD_some, k.methods_build]
    refine (settles_resume hms (not_spelledAgain (fun d hd => ?_) _) ms).2
      (Settles.append_self hms)
    rcases List.mem_append.1 hd with hstored | hnew
    · obtain ⟨m, -, rfl⟩ := List.mem_map.1 hstored
      rfl
    · exact hbytes d hnew
  · rw [hfind, k.build_again hg rfl]

/-- A document runs again. -/
theorem Runs.exists_again (h : k.Runs store doc after) : ∃ last, k.Runs after doc last := by
  obtain ⟨groups, as, hgroups, has, rfl⟩ := h
  have hall : ∀ g ∈ groups, ∃ b, k.Makes (store.insertAll k.name as) g b := by
    intro g hg
    obtain ⟨a, -, ha⟩ := exists_of_forall₂_left has hg
    exact ha.exists_again (find?_of_makes (nodup_groupOperations hgroups) has hg ha)
  obtain ⟨bs, hbs⟩ := exists_forall₂ hall
  exact ⟨_, groups, bs, hgroups, hbs, rfl⟩

/-- A document without names in bytes changes nothing when it runs again. -/
theorem Runs.again (h : k.Runs store doc after)
    (hbytes : ∀ o ∈ operationsOf doc, o.namedInBytes = false) : k.Runs after doc after := by
  obtain ⟨groups, as, hgroups, has, rfl⟩ := h
  have hnd : (as.map k.name).Nodup := map_name_of_makes has ▸ nodup_groupOperations hgroups
  refine ⟨groups, as, hgroups, ?_, (store.insertAll_insertAll_self hnd).symm⟩
  refine forall₂_imp_mem (fun g hg a ha => ?_) has
  exact ha.again (mem_groupOperations hgroups hg).1 (namedInBytes_of_mem_group hgroups hg hbytes)
    (find?_of_makes (nodup_groupOperations hgroups) has hg ha)

end Scheme

/-- **A document that was compiled may be compiled again**, into whatever it was compiled at first:
the second time succeeds and leaves the store as it is, repeated names or not, provided that no
operation is named in bytes. -/
theorem compile_again (settings : Settings) (doc : Value) (services : Store Service)
    (controllers : Store Controller) :
    ((compileServices settings doc services).fault = none →
      let once := (compileServices settings doc services).store
      (compileServices settings doc once).fault = none ∧
        ((∀ o ∈ operationsOf doc, o.namedInBytes = false) →
          (compileServices settings doc once).store = once)) ∧
    ((compileControllers settings doc controllers).fault = none →
      let once := (compileControllers settings doc controllers).store
      (compileControllers settings doc once).fault = none ∧
        ((∀ o ∈ operationsOf doc, o.namedInBytes = false) →
          (compileControllers settings doc once).store = once)) := by
  constructor
  · intro h
    have hruns := compileServices_iff.1 ⟨h, rfl⟩
    obtain ⟨last, hlast⟩ := hruns.exists_again
    exact ⟨(compileServices_iff.2 hlast).1, fun hbytes =>
      (compileServices_iff.2 (hruns.again hbytes)).2⟩
  · intro h
    have hruns := compileControllers_iff.1 ⟨h, rfl⟩
    obtain ⟨last, hlast⟩ := hruns.exists_again
    exact ⟨(compileControllers_iff.2 hlast).1, fun hbytes =>
      (compileControllers_iff.2 (hruns.again hbytes)).2⟩

/-- Two operations of the same name, which a document of pets has as well. -/
def repeatedPets : Value := .record [("paths", .record
  [("/pets/new", .record
      [("post", .record [("operationId", .text "addPet"), ("requestBody", petRequest)])]),
    ("/pets/old", .record [("put", .record [("operationId", .text "addPet")])])])]

theorem compile_again_repeatedPets :
    let services := (compileServices {} repeatedPets (runAll petRun).services).store
    let controllers := (compileControllers {} repeatedPets (runAll petRun).controllers).store
    ((compileServices {} repeatedPets services).fault = none ∧
      (compileServices {} repeatedPets services).store = services) ∧
    (compileControllers {} repeatedPets controllers).fault = none ∧
      (compileControllers {} repeatedPets controllers).store = controllers := by
  have hs : (compileServices {} repeatedPets (runAll petRun).services).fault = none := by
    decide +kernel
  have hc : (compileControllers {} repeatedPets (runAll petRun).controllers).fault = none := by
    decide +kernel
  have hbytes : ∀ o ∈ operationsOf repeatedPets, o.namedInBytes = false := by decide +kernel
  obtain ⟨hservices, hcontrollers⟩ :=
    compile_again {} repeatedPets (runAll petRun).services (runAll petRun).controllers
  exact ⟨⟨(hservices hs).1, (hservices hs).2 hbytes⟩, (hcontrollers hc).1,
    (hcontrollers hc).2 hbytes⟩

/-- Compiled again, an operation that is named in bytes is stored once more. -/
theorem bytesPath_grows :
    let once := (compileServices {} bytesPath .empty).store
    (compileServices {} bytesPath .empty).fault = none ∧
      (compileServices {} bytesPath once).fault = none ∧
        (compileServices {} bytesPath once).store ≠ once := by
  decide +kernel

end ApiScaffold
