import ApiScaffold.Proofs.Compile.Agreement
import ApiScaffold.Proofs.Compile.Transfer

/-!
# One document instead of two

Two documents that differ in their paths only are compiled one after the other, or a document is
compiled that has the paths of both.  The two ways differ half way: the first stores what the first
document makes and takes it up again, the second has never stored anything.

* `Scheme.Makes.join`: what a resource becomes in two goes it becomes in one;
* `Scheme.exists_joined`: so do the groups of two lists of paths;
* `Joins` says what the single document has of the two, `pathDrafts_of_extended` that its paths are
  drafted as theirs are;
* `NameSpelledAgain` says which names are told apart in one way only;
* `compile_joined`: the stores after both ways are the same.
-/

namespace ApiScaffold

open Draft Reference

namespace Scheme

variable {α : Type} {k : Scheme α} {store after : Store α}

/-- A resource that two groups make one after the other is made at once by a group of all their
paths. -/
theorem Makes.join {g h : Group} {a b : α} (hg : g.paths ≠ []) (hname : h.name = g.name)
    (hnot : ¬ SpelledAgain (givenOperations ((store.find? g.name).map k.methods) g) h.operations)
    (ha : k.Makes store g a) (hfind : after.find? g.name = some a) (hb : k.Makes after h b) :
    k.Makes store ⟨g.name, g.paths ++ h.paths⟩ b := by
  obtain ⟨hne, ms, hms, -, rfl⟩ := ha
  obtain ⟨-, ns, hns, hallows, rfl⟩ := hb
  rw [hname, hfind] at hns ⊢
  rw [hname] at hallows
  refine ⟨hne, ns, ?_, hallows, ?_⟩
  · rw [known, Option.map_some, Option.getD_some, k.methods_build] at hns
    have hboth := (settles_resume hms hnot ns).1 hns
    rw [List.append_assoc] at hboth
    unfold MergesTo
    rw [Group.operations, List.flatMap_append]
    exact hboth
  · rw [k.build_again hg hname, k.build_append hg]

section Joined

variable {psA psB : List (String × PathDraft)} {as bs : List α}
  (has : List.Forall₂ (k.Makes store) (gather psA) as)
  (hbs : List.Forall₂ (k.Makes (store.insertAll k.name as)) (gather psB) bs)
  (hnot : ∀ g ∈ gather psA, ∀ h ∈ gather psB, h.name = g.name →
    ¬ SpelledAgain (givenOperations ((store.find? g.name).map k.methods) g) h.operations)
include has hbs hnot

/-- A resource that the second list of paths makes is made of the paths of both lists. -/
theorem makes_of_mem_last {c : α} (hc : c ∈ bs) :
    k.Makes store ⟨k.name c, pathsOf (k.name c) psA ++ pathsOf (k.name c) psB⟩ c := by
  obtain ⟨gB, hgB, hmade⟩ := exists_of_forall₂_right hbs hc
  obtain ⟨-, hpaths⟩ := mem_gather_iff.1 hgB
  rw [← hmade.name_eq] at hpaths
  rw [← hpaths]
  by_cases hboth : k.name c ∈ psA.map (·.1)
  · have hgA : (⟨k.name c, pathsOf (k.name c) psA⟩ : Group) ∈ gather psA :=
      mem_gather_iff.2 ⟨hboth, rfl⟩
    obtain ⟨a, -, ha⟩ := exists_of_forall₂_left has hgA
    have hfind := find?_of_makes (map_name_gather psA ▸ nodup_eraseDups _) has hgA ha
    exact ha.join (mem_gather hgA).2 hmade.name_eq.symm
      (hnot _ hgA _ hgB hmade.name_eq.symm) hfind hmade
  · have hfind : (store.insertAll k.name as).find? (k.name c) = store.find? (k.name c) := by
      refine store.find?_insertAll_of_notMem ?_
      rwa [map_name_of_makes has, map_name_gather, List.mem_eraseDups]
    rw [pathsOf_eq_nil hboth, List.nil_append, hmade.name_eq]
    exact hmade.of_find?_eq (by rw [← hmade.name_eq, hfind])

/-- Resources that are made of two lists of paths, one after the other, are made of both at once,
and are stored in the same order. -/
theorem exists_joined :
    ∃ cs, List.Forall₂ (k.Makes store) (gather (psA ++ psB)) cs ∧
      store.insertAll k.name cs = (store.insertAll k.name as).insertAll k.name bs := by
  have hasNames : as.map k.name = (psA.map (·.1)).eraseDups :=
    (map_name_of_makes has).trans (map_name_gather psA)
  have hbsNames : bs.map k.name = (psB.map (·.1)).eraseDups :=
    (map_name_of_makes hbs).trans (map_name_gather psB)
  have htells := Store.tells_named k.name (as ++ bs)
  refine ⟨writeAll (Store.named k.name) (as ++ bs), ?_, ?_⟩
  · refine forall₂_of_map_eq (f := Group.name) (g := k.name) ?_ fun g hg c hc hname => ?_
    · rw [map_writeAll htells, map_name_gather, List.map_append, List.map_append, hasNames,
        hbsNames, eraseDups_append_eraseDups]
    · obtain ⟨n, paths⟩ := g
      obtain ⟨-, hpaths⟩ := mem_gather_iff.1 hg
      obtain rfl : paths = pathsOf n psA ++ pathsOf n psB := hpaths.trans (pathsOf_append _ _ _)
      obtain rfl : n = k.name c := hname
      -- Of a resource that both lists make, the one that was made last is stored.
      rcases mem_of_mem_writeAll_append htells hc with hlast | ⟨hfirst, hnew⟩
      · exact makes_of_mem_last has hbs hnot hlast
      · obtain ⟨gA, hgA, hmade⟩ := exists_of_forall₂_right has hfirst
        obtain ⟨-, hpathsA⟩ := mem_gather_iff.1 hgA
        rw [hbsNames, List.mem_eraseDups] at hnew
        rw [pathsOf_eq_nil hnew, List.append_nil, hmade.name_eq, ← hpathsA]
        exact hmade
  · rw [Store.insertAll_writeAll, Store.insertAll_append]

end Joined

end Scheme

/-! ### The documents -/

/-- A document has the paths of two others, one after the other, and is as they are apart from the
paths. No path of the first is one of the second. -/
structure Joins (first second both : Value) : Prop where
  isMapping : both.entries?.isSome = true
  first_rest : SameApartFromPaths first both
  second_rest : SameApartFromPaths second both
  paths : ∃ es fs, entriesOf? (first.field? "paths") = some es ∧
    entriesOf? (second.field? "paths") = some fs ∧
    entriesOf? (both.field? "paths") = some (es ++ fs) ∧ ∀ e ∈ es, ∀ f ∈ fs, e.1.same f.1 = false

/-- A document refers to its paths as a whole. -/
def RefersToPaths (doc : Value) : Prop := ∃ ref ∈ references doc, keys? ref = some ["paths"]

/-- A document has the key of references among its paths. -/
def HasReferencePath (doc : Value) : Prop :=
  ∃ es, entriesOf? (doc.field? "paths") = some es ∧ Entries.find? (.text "$ref") es ≠ none

/-- Paths are drafted in a document that has more of them as in the one that they come from. -/
theorem pathDrafts_of_extended {doc doc' : Value} {es es' : Entries}
    {ps : List (String × PathDraft)} (hrest : SameApartFromPaths doc doc')
    (hes : entriesOf? (doc.field? "paths") = some es)
    (hes' : entriesOf? (doc'.field? "paths") = some es')
    (hsub : ∀ k v, Entries.find? (.text k) es = some v → Entries.find? (.text k) es' = some v)
    (hlink : RefersToPaths doc →
      Entries.find? (.text "$ref") es = Entries.find? (.text "$ref") es')
    (habsent : ∀ k, resourceOf k = "" → Value.present? (Entries.find? (.text k) es') = none)
    (hne' : es ≠ [] → es' ≠ []) (hps : pathDrafts doc es = .ok ps) :
    pathDrafts doc' es = .ok ps := by
  by_cases hne : es = []
  · subst hne
    exact hps
  obtain ⟨v, hv, hentries⟩ := entries?_of_entriesOf? hes hne
  obtain ⟨v', hv', hentries'⟩ := entries?_of_entriesOf? hes' (hne' hne)
  have hfield : ∀ k, v.field? k = Entries.find? (.text k) es := fun k => by
    rw [Value.field?, hentries, Option.bind_some]
  have hfield' : ∀ k, v'.field? k = Entries.find? (.text k) es' := fun k => by
    rw [Value.field?, hentries', Option.bind_some]
  have hcontent : resourceOf "content" = "" := by decide
  have hname : resourceOf "name" = "" := by decide
  have hsame : SameTargets doc doc' := by
    refine sameTargets_of_paths hrest fun w hw => ?_
    obtain rfl := Option.some.inj (hv.symm.trans hw)
    refine ⟨v', hv', fun ref href hkeys => ⟨?_, ?_, ?_, fun hpresent => ?_⟩, fun k u hu => ?_⟩
    · rw [link, link, hfield, hfield', hlink ⟨ref, href, hkeys⟩]
    · rw [hfield, hfield', habsent _ hcontent, present?_find?_of_pathDrafts hps hcontent]
    · rw [hfield, hfield', habsent _ hname, present?_find?_of_pathDrafts hps hname]
    · rw [hfield, present?_find?_of_pathDrafts hps hname] at hpresent
      exact (hpresent rfl).elim
    · rw [hfield] at hu
      exact ⟨u, (hfield' k).trans (hsub k u hu), fun _ => rfl⟩
  obtain ⟨rs, hrs, rfl⟩ := pathDrafts_eq_ok.1 hps
  refine pathDrafts_eq_ok.2 ⟨rs, forall₂_imp_mem (fun e he r hr => ?_) hrs, rfl⟩
  exact pathStep_of_sameTargets hsame (List.Subset.trans
    (references_subset_of_mem_entries hentries he) (references_subset_of_field? hv)) hr

theorem pathDrafts_append {doc : Value} {es fs : Entries} {ps qs : List (String × PathDraft)}
    (hps : pathDrafts doc es = .ok ps) (hqs : pathDrafts doc fs = .ok qs) :
    pathDrafts doc (es ++ fs) = .ok (ps ++ qs) := by
  obtain ⟨rs, hrs, rfl⟩ := pathDrafts_eq_ok.1 hps
  obtain ⟨ts, hts, rfl⟩ := pathDrafts_eq_ok.1 hqs
  exact pathDrafts_eq_ok.2 ⟨rs ++ ts, List.rel_append hrs hts, List.flatMap_append.symm⟩

/-- The paths of both documents are drafted in the single one as in the two. -/
theorem pathDrafts_of_joins {first second both : Value} {es fs : Entries}
    {ps qs : List (String × PathDraft)} (h : Joins first second both)
    (hfirst : RefersToPaths first → ¬ HasReferencePath second)
    (hsecond : RefersToPaths second → ¬ HasReferencePath first)
    (hes : entriesOf? (first.field? "paths") = some es)
    (hfs : entriesOf? (second.field? "paths") = some fs)
    (hps : pathDrafts first es = .ok ps) (hqs : pathDrafts second fs = .ok qs) :
    entriesOf? (both.field? "paths") = some (es ++ fs) ∧
      pathDrafts both (es ++ fs) = .ok (ps ++ qs) := by
  obtain ⟨-, hrest, hrest', es', fs', hes', hfs', hboth, hdisjoint⟩ := h
  obtain rfl := Option.some.inj (hes.symm.trans hes')
  obtain rfl := Option.some.inj (hfs.symm.trans hfs')
  have habsent : ∀ k, resourceOf k = "" →
      Value.present? (Entries.find? (.text k) (es ++ fs)) = none := by
    intro k hk
    rw [find?_append]
    exact present?_or (present?_find?_of_pathDrafts hps hk) (present?_find?_of_pathDrafts hqs hk)
  have hnone : ∀ {doc} {gs : Entries}, ¬ HasReferencePath doc →
      entriesOf? (doc.field? "paths") = some gs → Entries.find? (.text "$ref") gs = none :=
    fun hnot hgs => Option.eq_none_iff_forall_ne_some.2 fun v hv =>
      hnot ⟨_, hgs, by simp [hv]⟩
  refine ⟨hboth, pathDrafts_append ?_ ?_⟩
  · refine pathDrafts_of_extended hrest hes hboth ?_ ?_ habsent ?_ hps
    · intro k v hv
      rw [find?_append, hv]
      rfl
    · intro href
      rw [find?_append, hnone (hfirst href) hfs, Option.or_none]
    · simp +contextual
  · refine pathDrafts_of_extended hrest' hfs hboth ?_ ?_ habsent ?_ hqs
    · -- A key of the second document is none of the first.
      intro k v hv
      have hnot : Entries.find? (.text k) es = none := by
        refine Option.eq_none_iff_forall_ne_some.2 fun w hw => ?_
        obtain ⟨f, hf, hfk, -⟩ := exists_of_find? hv
        obtain ⟨e, he, hek, -⟩ := exists_of_find? hw
        have hne := hdisjoint e he f hf
        rw [Scalar.same_text_iff] at hfk hek
        rw [hfk, hek, Bool.eq_false_iff] at hne
        exact hne (Scalar.same_text_iff.2 rfl)
      rw [find?_append, hnot, hv]
      rfl
    · intro href
      rw [find?_append, hnone (hsecond href) hes, Option.none_or]
    · simp +contextual

/-- A name that the first document gives in bytes is spelled again, in a resource that the second
document has as well: by a stored operation, by an operation of the first document that is named by
a text, or by an operation of the second document. -/
def NameSpelledAgain (stored : String → List Method) (first second : Value) : Prop :=
  ∃ o ∈ operationsOf first, ∃ bs s, String.fromUTF8? ⟨bs.toArray⟩ = some s ∧
    o.data.field? "operationId" = some (.scalar (.bytes bs)) ∧
    (∃ groups, groupOperations second = .ok groups ∧ o.resource ∈ groups.map (·.name)) ∧
    ((∃ m ∈ stored o.resource, m.name = s) ∨
      (∃ p ∈ operationsOf first, p.resource = o.resource ∧
        p.data.field? "operationId" = some (.text s)) ∨
      ∃ p ∈ operationsOf second, p.resource = o.resource ∧
        ∃ v, p.data.field? "operationId" = some v ∧ Check.anyText v = .ok s)

theorem nameSpelledAgain_of_groups {α : Type} {k : Scheme α} {store : Store α}
    {first second : Value} {groups groups' : List Group}
    (hgroups : groupOperations first = .ok groups)
    (hgroups' : groupOperations second = .ok groups') {g h : Group} (hg : g ∈ groups)
    (hh : h ∈ groups') (hname : h.name = g.name)
    (hagain : SpelledAgain (givenOperations ((store.find? g.name).map k.methods) g) h.operations) :
    NameSpelledAgain (fun n => k.known (store.find? n)) first second := by
  obtain ⟨bs, s, hspells, ⟨d, hd, hbytes⟩, hagain⟩ := hagain
  -- A stored operation is not named in bytes.
  have hnew : d ∈ g.operations := by
    refine (List.mem_append.1 hd).resolve_left fun hstored => ?_
    obtain ⟨m, -, rfl⟩ := List.mem_map.1 hstored
    cases hbytes
  obtain ⟨o, ho, hresource, hid⟩ := exists_operation_of_mem_group hgroups hg hnew
  refine ⟨o, ho, bs, s, hspells, hid.trans (congrArg some hbytes),
    ⟨groups', hgroups', List.mem_map.2 ⟨h, hh, hname.trans hresource.symm⟩⟩, ?_⟩
  rw [hresource]
  rcases hagain with ⟨e, he, htext⟩ | ⟨e, he, hspelled⟩
  · rcases List.mem_append.1 he with hstored | hnew'
    · obtain ⟨m, hm, rfl⟩ := List.mem_map.1 hstored
      exact Or.inl ⟨m, hm, Scalar.text.inj (Value.scalar.inj htext)⟩
    · obtain ⟨p, hp, hpresource, hpid⟩ := exists_operation_of_mem_group hgroups hg hnew'
      exact Or.inr (Or.inl ⟨p, hp, hpresource, hpid.trans (congrArg some htext)⟩)
  · obtain ⟨p, hp, hpresource, hpid⟩ := exists_operation_of_mem_group hgroups' hh he
    exact Or.inr (Or.inr ⟨p, hp, hpresource.trans hname, e.name, hpid, hspelled⟩)

theorem Scheme.Runs.join {α : Type} {k : Scheme α} {store middle after : Store α}
    {first second both : Value} (h : Joins first second both)
    (hfirst : RefersToPaths first → ¬ HasReferencePath second)
    (hsecond : RefersToPaths second → ¬ HasReferencePath first)
    (hnot : ¬ NameSpelledAgain (fun n => k.known (store.find? n)) first second)
    (hruns : k.Runs store first middle) (hruns' : k.Runs middle second after) :
    k.Runs store both after := by
  obtain ⟨groups, as, hgroups, has, rfl⟩ := hruns
  obtain ⟨groups', bs, hgroups', hbs, rfl⟩ := hruns'
  have hgiven := fun g hg h hh hname hagain =>
    hnot (nameSpelledAgain_of_groups (g := g) (h := h) hgroups hgroups' hg hh hname hagain)
  obtain ⟨-, es, ps, hes, hps, rfl⟩ := groupOperations_eq_ok.1 hgroups
  obtain ⟨-, fs, qs, hfs, hqs, rfl⟩ := groupOperations_eq_ok.1 hgroups'
  obtain ⟨hpaths, hboth⟩ := pathDrafts_of_joins h hfirst hsecond hes hfs hps hqs
  obtain ⟨cs, hcs, hstore⟩ := Scheme.exists_joined has hbs hgiven
  exact ⟨_, cs, groupOperations_eq_ok.2 ⟨h.isMapping, _, _, hpaths, hboth, rfl⟩, hcs, hstore.symm⟩

/-- **One document does what two documents do one after the other**, if it has the paths of both and
they are the same apart from their paths. Two things can tell the ways apart: a path that is a
reference, if the other document refers to its paths as a whole, and a name that is given in bytes
and spelled again, since it comes out of the store as a text. -/
theorem compile_joined (settings : Settings) {first second both : Value}
    (services : Store Service) (controllers : Store Controller) (h : Joins first second both)
    (hfirst : RefersToPaths first → ¬ HasReferencePath second)
    (hsecond : RefersToPaths second → ¬ HasReferencePath first) :
    (let once := compileServices settings first services
      let twice := compileServices settings second once.store
      ¬ NameSpelledAgain (fun n => Service.known (services.find? n)) first second →
        once.fault = none → twice.fault = none →
          (compileServices settings both services).fault = none ∧
            (compileServices settings both services).store = twice.store) ∧
    (let once := compileControllers settings first controllers
      let twice := compileControllers settings second once.store
      ¬ NameSpelledAgain (fun n => Controller.known (controllers.find? n)) first second →
        once.fault = none → twice.fault = none →
          (compileControllers settings both controllers).fault = none ∧
            (compileControllers settings both controllers).store = twice.store) := by
  constructor
  · intro once twice hnot honce htwice
    exact compileServices_iff.2 ((compileServices_iff.1 ⟨honce, rfl⟩).join h hfirst hsecond hnot
      (compileServices_iff.1 ⟨htwice, rfl⟩))
  · intro once twice hnot honce htwice
    exact compileControllers_iff.2 ((compileControllers_iff.1 ⟨honce, rfl⟩).join h hfirst hsecond
      hnot (compileControllers_iff.1 ⟨htwice, rfl⟩))

theorem paths_petDocument (ps : List (String × Value)) :
    entriesOf? ((petDocument ps).field? "paths") = some (ps.map fun p => (.text p.1, p.2)) := by
  have hfield : (petDocument ps).field? "paths" = some (.record ps) := by
    rw [petDocument, Value.field?_record]
    rfl
  rw [hfield]
  cases ps <;> rfl

theorem sameApartFromPaths_petDocument (ps qs : List (String × Value)) :
    SameApartFromPaths (petDocument ps) (petDocument qs) := by
  intro k hk
  rw [petDocument, petDocument, Value.field?_record, Value.field?_record]
  simp [List.lookup_cons, beq_eq_false_iff_ne.2 hk]

theorem joins_petDocument {ps qs : List (String × Value)}
    (h : ∀ p ∈ ps, ∀ q ∈ qs, p.1 ≠ q.1) :
    Joins (petDocument ps) (petDocument qs) (petDocument (ps ++ qs)) := by
  refine ⟨rfl, sameApartFromPaths_petDocument _ _, sameApartFromPaths_petDocument _ _, _, _,
    paths_petDocument ps, paths_petDocument qs, ?_, ?_⟩
  · rw [paths_petDocument, List.map_append]
  · intro e he f hf
    obtain ⟨p, hp, rfl⟩ := List.mem_map.1 he
    obtain ⟨q, hq, rfl⟩ := List.mem_map.1 hf
    rw [Bool.eq_false_iff, Ne, Scalar.same_text_iff, Scalar.text.injEq]
    exact h p hp q hq

theorem compile_joined_pets :
    let services := (runAll petRun).services
    let once := (compileServices {} (petDocument firstPaths) services).store
    let twice := (compileServices {} (petDocument laterPaths) once).store
    (compileServices {} (petDocument (firstPaths ++ laterPaths)) services).fault = none ∧
      (compileServices {} (petDocument (firstPaths ++ laterPaths)) services).store = twice := by
  have hnot : ∀ ps, Entries.find? (.text "$ref") (ps.map fun p => (.text p.1, p.2)) = none →
      ¬ HasReferencePath (petDocument ps) := by
    rintro ps hnone ⟨es, hes, hfind⟩
    obtain rfl := Option.some.inj (hes.symm.trans (paths_petDocument ps))
    exact hfind hnone
  have hjoins : Joins (petDocument firstPaths) (petDocument laterPaths)
      (petDocument (firstPaths ++ laterPaths)) := joins_petDocument (by decide)
  refine (compile_joined {} (runAll petRun).services .empty hjoins (fun _ => hnot _ rfl)
    (fun _ => hnot _ rfl)).1 ?_ ?_ ?_
  · rintro ⟨o, ho, bs, s, -, hid, -⟩
    have hbytes : ∀ o ∈ operationsOf (petDocument firstPaths), o.namedInBytes = false := by
      decide +kernel
    have hnone := hbytes o ho
    rw [Operation.namedInBytes, hid] at hnone
    cases hnone
  · decide +kernel
  · decide +kernel

/-- A path whose operation requests what the paths as a whole hold. -/
def selfReferringPaths : List (String × Value) :=
  [("/pets", .record [("post", .record
    [("operationId", .text "addPet"), ("requestBody", .record [("$ref", .text "#/paths")])])])]

/-- A path that is passed over, but makes a reference of the paths. -/
def referencePaths : List (String × Value) := [("$ref", .text "")]

/-- Both documents compile, one after the other; the one with both paths does not. -/
theorem referencePaths_not_joined :
    Joins (petDocument selfReferringPaths) (petDocument referencePaths)
        (petDocument (selfReferringPaths ++ referencePaths)) ∧
      (compileServices {} (petDocument selfReferringPaths) .empty).fault = none ∧
        (compileServices {} (petDocument referencePaths)
          (compileServices {} (petDocument selfReferringPaths) .empty).store).fault = none ∧
          (compileServices {} (petDocument (selfReferringPaths ++ referencePaths)) .empty).fault =
            some (.spec .remoteReference "") :=
  ⟨joins_petDocument (by decide), by decide +kernel, by decide +kernel, by decide +kernel⟩

end ApiScaffold
