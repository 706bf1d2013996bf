import ApiScaffold.Proofs.Compile.Joined

/-!
# The order of paths and operations

A document lists its paths in some order, and each path its operations.  Where the operations of a
resource have different names, the order shows only in the order of what is stored.

* `Reordered` relates documents that differ in this order only;
* `exists_pathDrafts_reordered`: their paths are drafted alike, or neither's are;
* `Scheme.Makes.exists_reordered`: so are the resources that are made of them;
* `Operation.Becomes`, `HousesEach`: each operation is a method of the resource of its path only;
* `compile_reordered`: what is stored of two such documents.
-/

namespace ApiScaffold

open Draft Reference

/-- Documents that differ only in the order of their paths and of what each path holds. -/
structure Reordered (doc doc' : Value) : Prop where
  isMapping : doc.entries?.isSome = true ∧ doc'.entries?.isSome = true
  rest : SameApartFromPaths doc doc'
  paths : (doc.field? "paths" = none ∧ doc'.field? "paths" = none) ∨
    ∃ v v', doc.field? "paths" = some v ∧ doc'.field? "paths" = some v' ∧
      Rearranged (Rearranged Eq) v v'

theorem Reordered.symm {doc doc' : Value} (h : Reordered doc doc') : Reordered doc' doc where
  isMapping := h.isMapping.symm
  rest k hk := (h.rest k hk).symm
  paths := by
    obtain ⟨hnone, hnone'⟩ | ⟨v, v', hv, hv', hvv⟩ := h.paths
    · exact Or.inl ⟨hnone', hnone⟩
    · exact Or.inr ⟨v', v, hv', hv, hvv.symm fun h => h.symm Eq.symm⟩

/-! ### References -/

/-- Values that differ in the order of their entries refer to the same. -/
theorem link_of_rearranged {v w : Value} (h : Rearranged (Rearranged Eq) v w) :
    link v = link w := by
  have hrefl : ∀ u, Rearranged Eq u u := fun u => Or.inl rfl
  cases hv : v.field? "$ref" with
  | none =>
    have hw : w.field? "$ref" = none := by
      refine Option.eq_none_iff_forall_ne_some.2 fun u hu => ?_
      obtain ⟨u', hu', -⟩ := (h.symm fun h => h.symm Eq.symm).exists_field hrefl hu
      rw [hv] at hu'
      cases hu'
    rw [link, link, hv, hw]
  | some u =>
    obtain ⟨u', hw, huu⟩ := h.exists_field hrefl hv
    obtain rfl | ⟨es, fs, -, hu, hu', -, -⟩ := huu
    · rw [link, link, hv, hw]
    · -- A mapping is no text, in whatever order its entries come.
      have hbroken : ∀ {x y : Value} {gs : Entries}, x.field? "$ref" = some y →
          y.entries? = some gs → link x = .broken .wrongKind := by
        intro x y gs hx hy
        rw [link, hx]
        cases y with
        | dict _ => rfl
        | numbered _ _ => rfl
        | _ => cases hy
      rw [hbroken hv hu, hbroken hw hu']

theorem sameTargets_of_reordered {doc doc' : Value} {paths : Entries}
    {ps : List (String × PathDraft)} (h : Reordered doc doc')
    (hpaths : entriesOf? (doc.field? "paths") = some paths)
    (hps : pathDrafts doc paths = .ok ps) : SameTargets doc doc' := by
  have hrefl : ∀ u, Rearranged Eq u u := fun u => Or.inl rfl
  refine sameTargets_of_paths h.rest fun v hv => ?_
  obtain ⟨hnone, -⟩ | ⟨w, v', hw, hv', hvv⟩ := h.paths
  · rw [hv] at hnone
    cases hnone
  obtain rfl := Option.some.inj (hv.symm.trans hw)
  have habsent : ∀ k, resourceOf k = "" → Value.present? (v.field? k) = none ∧
      Value.present? (v'.field? k) = none := by
    intro k hk
    have hnone : Value.present? (v.field? k) = none := by
      rw [field?_of_entriesOf? (hv ▸ hpaths)]
      exact present?_find?_of_pathDrafts hps hk
    refine ⟨hnone, ?_⟩
    cases hu' : v'.field? k with
    | none => rfl
    | some u' =>
      obtain ⟨u, hu, huu⟩ := (hvv.symm fun h => h.symm Eq.symm).exists_field hrefl hu'
      rw [hu, present?_eq_none_iff] at hnone
      rw [present?_eq_none_iff, huu.isTruthy_eq, hnone]
  have hcontent := habsent "content" (by decide)
  have hname := habsent "name" (by decide)
  refine ⟨v', hv', fun _ _ _ => ⟨link_of_rearranged hvv, ?_, ?_, fun hpresent => ?_⟩,
    fun k u hu => ?_⟩
  · rw [hcontent.1, hcontent.2]
  · rw [hname.1, hname.2]
  · exact (hpresent hname.1).elim
  · obtain ⟨u', hu', huu⟩ := hvv.exists_field hrefl hu
    exact ⟨u', hu', huu.field?_eq⟩

/-! ### Drafts -/

/-- The same path with the same operations in any order. -/
def SamePath (p q : String × PathDraft) : Prop :=
  p.1 = q.1 ∧ p.2.path = q.2.path ∧ p.2.methods.Perm q.2.methods

/-- A path whose operations come in another order has the same drafts in that order. -/
theorem exists_pathStep_reordered {doc doc' : Value} (h : SameTargets doc doc') {key : Scalar}
    {v v' : Value} (hv : references v ⊆ references doc) (hvv : Rearranged Eq v v')
    {r : Option (String × PathDraft)} (hr : pathStep doc (key, v) = .ok r) :
    ∃ r', pathStep doc' (key, v') = .ok r' ∧
      List.Forall₂ SamePath r.toList r'.toList := by
  obtain ⟨ht, rfl⟩ | ⟨ht, path, item, p, hkey, hitem, hp, rfl⟩ :=
    pathStep_eq_ok.1 (pathStep_of_sameTargets h hv hr)
  · exact ⟨none, pathStep_eq_ok.2 (Or.inl ⟨hvv.isTruthy_eq ▸ ht, rfl⟩), .nil⟩
  · obtain ⟨gs, item', hitem', hgs, hperm⟩ := hvv.exists_entries (fun _ => rfl) hitem
    obtain rfl : item = gs := by
      rw [← List.forall₂_eq_eq_eq]
      exact hgs.imp fun e g heg => Prod.ext heg.1 heg.2
    obtain ⟨hroot, ms, hms, rfl⟩ := pathDraft_eq_ok.1 hp
    obtain ⟨ms', hms', hperm'⟩ := exists_forall₂_of_perm hms (hperm.filterMap _)
    refine ⟨_, pathStep_eq_ok.2 (Or.inr ⟨hvv.isTruthy_eq ▸ ht, path, item', _, hkey, hitem',
      pathDraft_eq_ok.2 ⟨hroot, ms', hms', rfl⟩, rfl⟩), ?_⟩
    exact .cons ⟨rfl, rfl, hperm'⟩ .nil

theorem exists_pathSteps_reordered {doc doc' : Value} (h : SameTargets doc doc')
    {paths gs : Entries} {rs : List (Option (String × PathDraft))}
    (hpaths : ∀ e ∈ paths, references e.2 ⊆ references doc)
    (hgs : List.Forall₂ (fun e g => e.1 = g.1 ∧ Rearranged Eq e.2 g.2) paths gs)
    (hrs : List.Forall₂ (fun e r => pathStep doc e = .ok r) paths rs) :
    ∃ rs', List.Forall₂ (fun e r => pathStep doc' e = .ok r) gs rs' ∧
      List.Forall₂ SamePath (rs.flatMap Option.toList) (rs'.flatMap Option.toList) := by
  induction hrs generalizing gs with
  | nil =>
    obtain rfl := List.forall₂_nil_left_iff.1 hgs
    exact ⟨[], .nil, .nil⟩
  | @cons e r paths rs hr _ ih =>
    obtain ⟨g, gs, ⟨hkey, hvalue⟩, hgs', rfl⟩ := List.forall₂_cons_left_iff.1 hgs
    obtain ⟨key, v⟩ := e
    obtain ⟨key', v'⟩ := g
    obtain rfl : key = key' := hkey
    obtain ⟨r', hr', hsame⟩ :=
      exists_pathStep_reordered h (hpaths _ (List.mem_cons_self ..)) hvalue hr
    obtain ⟨rs', hrs', hrest⟩ := ih (fun e he => hpaths e (List.mem_cons_of_mem _ he)) hgs'
    exact ⟨r' :: rs', .cons hr' hrs', List.rel_append hsame hrest⟩

/-- The paths of a document that differs in their order are drafted alike. -/
theorem exists_pathDrafts_reordered {doc doc' : Value} {paths : Entries}
    {ps : List (String × PathDraft)} (h : Reordered doc doc')
    (hpaths : entriesOf? (doc.field? "paths") = some paths)
    (hps : pathDrafts doc paths = .ok ps) :
    ∃ paths' ps' qs, entriesOf? (doc'.field? "paths") = some paths' ∧
      pathDrafts doc' paths' = .ok qs ∧ List.Forall₂ SamePath ps ps' ∧ ps'.Perm qs := by
  have hsame := sameTargets_of_reordered h hpaths hps
  obtain ⟨hnone, hnone'⟩ | ⟨v, v', hv, hv', hvv⟩ := h.paths
  · rw [hnone] at hpaths
    obtain rfl : [] = paths := Option.some.inj hpaths
    obtain rfl := Except.ok.inj hps
    exact ⟨[], [], [], by rw [hnone']; rfl, rfl, .nil, .refl _⟩
  · rw [hv] at hpaths
    obtain ⟨gs, fs, hfs, hgs, hperm⟩ := hvv.exists_entriesOf? (fun _ => Or.inl rfl) hpaths
    have hsub : ∀ e ∈ paths, references e.2 ⊆ references doc := by
      intro e he
      obtain ⟨w, hw, hentries⟩ := entries?_of_entriesOf? hpaths (List.ne_nil_of_mem he)
      obtain rfl := Option.some.inj hw
      exact List.Subset.trans (references_subset_of_mem_entries hentries he)
        (references_subset_of_field? hv)
    obtain ⟨rs, hrs, rfl⟩ := pathDrafts_eq_ok.1 hps
    obtain ⟨rs', hrs', hpaired⟩ := exists_pathSteps_reordered hsame hsub hgs hrs
    obtain ⟨rs'', hrs'', hperm'⟩ := exists_forall₂_of_perm hrs' hperm
    exact ⟨fs, _, _, hv' ▸ hfs, pathDrafts_eq_ok.2 ⟨rs'', hrs'', rfl⟩, hpaired,
      hperm'.flatMap_right _⟩

/-- Drafts of paths in any order, with operations in any order. -/
def SamePaths (ps qs : List (String × PathDraft)) : Prop :=
  (ps.map (·.1)).Perm (qs.map (·.1)) ∧ ∀ n, (draftsOf n ps).Perm (draftsOf n qs)

theorem draftsOf_eq_flatMap (n : String) (ps : List (String × PathDraft)) :
    draftsOf n ps = ps.flatMap fun p => if p.1 = n then p.2.methods else [] := by
  induction ps with
  | nil => rfl
  | cons p ps ih =>
    rw [List.flatMap_cons, ← ih, ← List.singleton_append, draftsOf_append]
    by_cases hp : p.1 = n <;> simp [draftsOf, pathsOf, hp]

theorem SamePaths.of_forall₂ {ps ps' qs : List (String × PathDraft)}
    (h : List.Forall₂ SamePath ps ps') (hperm : ps'.Perm qs) : SamePaths ps qs := by
  constructor
  · have hnames : ps.map (·.1) = ps'.map (·.1) :=
      map_eq_of_forall₂ (h.imp fun _ _ hpq => hpq.1)
    rw [hnames]
    exact hperm.map _
  · intro n
    refine List.Perm.trans ?_ (draftsOf_eq_flatMap n qs ▸ hperm.flatMap_right _)
    rw [draftsOf_eq_flatMap]
    clear hperm
    induction h with
    | nil => exact .refl _
    | cons hpq _ ih =>
      obtain ⟨hname, -, hmethods⟩ := hpq
      rw [List.flatMap_cons, List.flatMap_cons, hname]
      refine List.Perm.append ?_ ih
      split_ifs
      · exact hmethods
      · exact .refl _

/-! ### Names -/

/-- Whether two operations have the same identifier, as a key of a mapping. -/
def Operation.sameName (o p : Operation) : Bool :=
  match o.data.field? "operationId", p.data.field? "operationId" with
  | some (.scalar s), some (.scalar t) => s.same t
  | _, _ => false

/-- Within each resource the operations have different identifiers. -/
def DistinctNames (doc : Value) : Prop :=
  (operationsOf doc).Pairwise fun o p => o.resource = p.resource → o.sameName p = false

/-- Within each resource the drafts have different keys, if they can be told apart at all. -/
def DistinctKeys (ps : List (String × PathDraft)) : Prop :=
  ∀ n, (draftsOf n ps).all hasScalarName = true → ((draftsOf n ps).map nameKey).Nodup

theorem DistinctKeys.of_samePaths {ps qs : List (String × PathDraft)} (h : DistinctKeys ps)
    (hsame : SamePaths ps qs) : DistinctKeys qs := by
  intro n hall
  have hperm := hsame.2 n
  rw [← (hperm.map nameKey).nodup_iff]
  exact h n (hperm.all_eq ▸ hall)

theorem sameName_of_compiles {doc : Value} {o p : Operation} {d e : MethodDraft}
    (hod : o.Compiles doc d) (hpe : p.Compiles doc e) : o.sameName p = sameName d e := by
  rw [Operation.sameName, hod.of_operation.2.2, hpe.of_operation.2.2, sameName]
  cases d.name <;> cases e.name <;> rfl

theorem nodup_nameKey {doc : Value} {os : List Operation} {ds : List MethodDraft}
    (h : List.Forall₂ (Operation.Compiles doc) os ds)
    (hos : os.Pairwise fun o p => o.sameName p = false) (hall : ds.all hasScalarName = true) :
    (ds.map nameKey).Nodup := by
  induction h with
  | nil => exact List.nodup_nil
  | @cons o d os ds hod hrest ih =>
    rw [List.all_cons, Bool.and_eq_true] at hall
    obtain ⟨ho, hos⟩ := List.pairwise_cons.1 hos
    refine List.nodup_cons.2 ⟨fun hmem => ?_, ih hos hall.2⟩
    obtain ⟨e, he, hkey⟩ := List.mem_map.1 hmem
    obtain ⟨p, hp, hpe⟩ := exists_of_forall₂_right hrest he
    have hdiffer := ho p hp
    rw [sameName_of_compiles hod hpe, Bool.eq_false_iff] at hdiffer
    exact hdiffer ((sameName_iff (List.all_eq_true.1 hall.2 e he)).2 hkey.symm)

theorem distinctKeys_of_document {doc : Value} {paths : Entries} {ps : List (String × PathDraft)}
    (h : DistinctNames doc) (hpaths : entriesOf? (doc.field? "paths") = some paths)
    (hps : pathDrafts doc paths = .ok ps) : DistinctKeys ps := by
  intro n hall
  have hoperations : operationsOf doc = paths.flatMap operationsUnder := by
    rw [operationsOf, hpaths]
    rfl
  refine nodup_nameKey (forall₂_draftsOf hps n) ?_ hall
  rw [← hoperations]
  refine (h.filter _).imp_of_mem fun {o p} ho hp hop => hop ?_
  have hon := of_decide_eq_true (List.mem_filter.1 ho).2
  have hpn := of_decide_eq_true (List.mem_filter.1 hp).2
  exact hon.trans hpn.symm

/-! ### Resources -/

namespace Scheme

variable {α : Type} {k : Scheme α}

/-- Two resources are made of groups of one name, with the same operations in any order. -/
def Alike (k : Scheme α) (a b : α) : Prop :=
  ∃ g h ms ns, g.name = h.name ∧ ms.Perm ns ∧ a = k.build none g ms ∧ b = k.build none h ns

theorem makes_empty {g : Group} {a : α} :
    k.Makes .empty g a ↔ g.name ≠ "" ∧ ∃ ms, Settles g.operations ms ∧ k.Allows g.name ms ∧
      a = k.build none g ms := Iff.rfl

/-- A group with the same operations in another order makes the same resource, up to this order. -/
theorem Makes.exists_reordered {g h : Group} {a : α} (hname : g.name = h.name)
    (hkeys : g.operations.all hasScalarName = true → (g.operations.map nameKey).Nodup)
    (hperm : g.operations.Perm h.operations) (ha : k.Makes .empty g a) :
    ∃ b, k.Makes .empty h b ∧ k.Alike a b := by
  obtain ⟨hne, ms, hms, hallows, rfl⟩ := makes_empty.1 ha
  obtain ⟨ns, hns, hmsns⟩ := hms.exists_reordered (hkeys hms.1) hperm
  refine ⟨_, makes_empty.2 ⟨hname ▸ hne, ns, hns, ?_, rfl⟩, g, h, ms, ns, hname, hmsns, rfl, rfl⟩
  exact hname ▸ k.allows_of_subset hallows hmsns.symm.subset

/-- What is found in a store that was empty before is made of a group of its name. -/
theorem exists_group_of_find? {groups : List Group} {as : List α}
    (has : List.Forall₂ (k.Makes .empty) groups as) {n : String} {a : α}
    (hfind : (Store.empty.insertAll k.name as).find? n = some a) :
    ∃ g ∈ groups, g.name = n ∧ k.Makes .empty g a := by
  obtain ⟨hmem, hname⟩ := Store.mem_of_find?_insertAll_empty hfind
  obtain ⟨g, hg, hga⟩ := exists_of_forall₂_right has hmem
  exact ⟨g, hg, hga.name_eq.symm.trans hname, hga⟩

/-- Paths in another order make the same resources, up to the order. -/
theorem exists_makes_reordered {ps qs : List (String × PathDraft)} {as : List α}
    (h : SamePaths ps qs) (hkeys : DistinctKeys ps)
    (has : List.Forall₂ (k.Makes .empty) (gather ps) as) :
    ∃ bs, List.Forall₂ (k.Makes .empty) (gather qs) bs ∧
      (as.map k.name).Perm (bs.map k.name) ∧
      ∀ a ∈ as, ∀ b ∈ bs, k.name a = k.name b → k.Alike a b := by
  -- A group of the one is a group of the other, with the same operations in another order.
  have hgroup : ∀ {g a}, g ∈ gather ps → k.Makes .empty g a → ∀ {g'}, g' ∈ gather qs →
      g.name = g'.name → ∃ b, k.Makes .empty g' b ∧ k.Alike a b := by
    intro g a hg ha g' hg' hname
    have hoperations := operations_of_mem_gather hg
    refine ha.exists_reordered hname (hoperations ▸ hkeys g.name) ?_
    rw [hoperations, operations_of_mem_gather hg', ← hname]
    exact h.2 g.name
  have hmade : ∀ g' ∈ gather qs, ∃ b, k.Makes .empty g' b := by
    intro g' hg'
    have hg : (⟨g'.name, pathsOf g'.name ps⟩ : Group) ∈ gather ps :=
      mem_gather_iff.2 ⟨h.1.mem_iff.2 (mem_gather_iff.1 hg').1, rfl⟩
    obtain ⟨a, -, ha⟩ := exists_of_forall₂_left has hg
    obtain ⟨b, hb, -⟩ := hgroup hg ha hg' rfl
    exact ⟨b, hb⟩
  obtain ⟨bs, hbs⟩ := exists_forall₂ hmade
  refine ⟨bs, hbs, ?_, fun a ha b hb hab => ?_⟩
  · rw [map_name_of_makes has, map_name_of_makes hbs, map_name_gather, map_name_gather]
    exact perm_eraseDups h.1
  · obtain ⟨g, hg, hga⟩ := exists_of_forall₂_right has ha
    obtain ⟨g', hg', hgb⟩ := exists_of_forall₂_right hbs hb
    obtain ⟨b', hgb', halike⟩ :=
      hgroup hg hga hg' (hga.name_eq.symm.trans (hab.trans hgb.name_eq))
    rwa [hgb.unique hgb']

/-- Stores of the same resources with the same operations, in any order. -/
def SameResources (k : Scheme α) (s t : Store α) : Prop :=
  s.names.Perm t.names ∧
    ∀ n a b, s.find? n = some a → t.find? n = some b → k.Alike a b

/-- A document in another order makes the same of an empty store, up to the order. -/
theorem Runs.exists_reordered {doc doc' : Value} {s : Store α} (h : Reordered doc doc')
    (hkeys : ∀ {paths ps}, entriesOf? (doc.field? "paths") = some paths →
      pathDrafts doc paths = .ok ps → DistinctKeys ps)
    (hruns : k.Runs .empty doc s) : ∃ t, k.Runs .empty doc' t ∧ k.SameResources s t := by
  obtain ⟨groups, as, hgroups, has, rfl⟩ := hruns
  obtain ⟨-, paths, ps, hpaths, hps, rfl⟩ := groupOperations_eq_ok.1 hgroups
  obtain ⟨paths', ps', qs, hpaths', hqs, hpaired, hperm⟩ := exists_pathDrafts_reordered h hpaths hps
  obtain ⟨bs, hbs, hnames, halike⟩ :=
    exists_makes_reordered (.of_forall₂ hpaired hperm) (hkeys hpaths hps) has
  refine ⟨_, ⟨_, bs, groupOperations_eq_ok.2 ⟨h.isMapping.2, paths', qs, hpaths', hqs, rfl⟩, hbs,
    rfl⟩, ?_, fun n a b ha hb => ?_⟩
  · rw [Store.names_insertAll_empty, Store.names_insertAll_empty]
    exact perm_eraseDups hnames
  · obtain ⟨ha, hna⟩ := Store.mem_of_find?_insertAll_empty ha
    obtain ⟨hb, hnb⟩ := Store.mem_of_find?_insertAll_empty hb
    exact halike a ha b hb (hna.trans hnb.symm)

end Scheme

/-- Different identifiers in one document make different keys in both. -/
theorem distinctKeys_of_reordered {doc doc' : Value} (h : Reordered doc doc')
    (hnames : DistinctNames doc) {paths : Entries} {qs : List (String × PathDraft)}
    (hpaths : entriesOf? (doc'.field? "paths") = some paths)
    (hqs : pathDrafts doc' paths = .ok qs) : DistinctKeys qs := by
  obtain ⟨paths', ps', ps, hpaths', hps, hpaired, hperm⟩ :=
    exists_pathDrafts_reordered h.symm hpaths hqs
  obtain ⟨hnames', hdrafts⟩ := SamePaths.of_forall₂ hpaired hperm
  exact (distinctKeys_of_document hnames hpaths' hps).of_samePaths
    ⟨hnames'.symm, fun n => (hdrafts n).symm⟩

/-- A document compiles in one order exactly if it compiles in the other. -/
theorem Scheme.runs_iff_of_reordered {α : Type} {k : Scheme α} {doc doc' : Value}
    (h : Reordered doc doc') (hnames : DistinctNames doc) :
    (∃ s, k.Runs .empty doc s) ↔ ∃ t, k.Runs .empty doc' t := by
  constructor
  · rintro ⟨s, hs⟩
    obtain ⟨t, ht, -⟩ := hs.exists_reordered h (distinctKeys_of_document hnames)
    exact ⟨t, ht⟩
  · rintro ⟨t, ht⟩
    obtain ⟨s, hs, -⟩ := ht.exists_reordered h.symm (distinctKeys_of_reordered h hnames)
    exact ⟨s, hs⟩

/-! ### Where an operation ends up -/

/-- The method that an operation becomes. -/
def Operation.Becomes (doc : Value) (o : Operation) (m : Method) : Prop :=
  ∃ d, o.Compiles doc d ∧ Method.check d.data = .ok m

/-- A method has the verb and the path of its operation, and its identifier as a text. -/
theorem Operation.Becomes.of_operation {doc : Value} {o : Operation} {m : Method}
    (h : o.Becomes doc m) :
    m.verb = o.verb ∧ m.url = o.path ∧
      ∃ name, o.data.field? "operationId" = some name ∧ Check.anyText name = .ok m.name := by
  obtain ⟨d, hod, hdm⟩ := h
  obtain ⟨hverb, hurl, hname⟩ := hod.of_operation
  obtain ⟨hverb', -, ⟨-, hurl'⟩, -⟩ := Method.check_draft.1 hdm
  exact ⟨hverb'.trans hverb, hurl'.trans hurl, d.name, hname, Method.name_of_check_draft hdm⟩

theorem forall₂_becomes {doc : Value} {os : List Operation} {ds : List MethodDraft}
    {ms : List Method} (h : List.Forall₂ (Operation.Compiles doc) os ds) (hms : Accepted ds ms) :
    List.Forall₂ (Operation.Becomes doc) os ms := by
  induction h generalizing ms with
  | nil =>
    obtain rfl := List.forall₂_nil_left_iff.1 hms
    exact .nil
  | cons hod _ ih =>
    obtain ⟨m, ms, hdm, hrest, rfl⟩ := List.forall₂_cons_left_iff.1 hms
    exact .cons ⟨_, hod, hdm⟩ (ih hrest)

/-- The methods of a resource that is made of one document are the operations of its paths. -/
theorem Scheme.Makes.forall₂_becomes {α : Type} {k : Scheme α} {doc : Value} {groups : List Group}
    (hnames : DistinctNames doc) (hgroups : groupOperations doc = .ok groups) {g : Group} {a : α}
    (hg : g ∈ groups) (ha : k.Makes .empty g a) :
    List.Forall₂ (Operation.Becomes doc) ((operationsOf doc).filter fun o => o.resource = g.name)
      (k.methods a) := by
  have hcompiles := forall₂_operations hgroups hg
  obtain ⟨-, paths, ps, hpaths, hps, rfl⟩ := groupOperations_eq_ok.1 hgroups
  obtain ⟨-, ms, ⟨hall, hms⟩, -, rfl⟩ := makes_empty.1 ha
  have hkeys : (g.operations.map nameKey).Nodup := by
    rw [operations_of_mem_gather hg] at hall ⊢
    exact distinctKeys_of_document hnames hpaths hps g.name hall
  rw [writeAll_of_nodup (tells_sameName hall) hkeys] at hms
  rw [k.methods_build]
  exact ApiScaffold.forall₂_becomes hcompiles hms

/-- Each operation of a document is a method of the resource of its path, and of no other. -/
def HousesEach {α : Type} (methods : α → List Method) (doc : Value) (store : Store α) : Prop :=
  ∀ o ∈ operationsOf doc, ∃ m, o.Becomes doc m ∧
    ∃ a, store.find? o.resource = some a ∧ m ∈ methods a ∧
      ∀ n b, store.find? n = some b → m ∈ methods b → n = o.resource

theorem Scheme.Runs.housesEach {α : Type} {k : Scheme α} {doc : Value} {s : Store α}
    (hnames : DistinctNames doc) (hruns : k.Runs .empty doc s) : HousesEach k.methods doc s := by
  intro o ho
  obtain ⟨groups, as, hgroups, has, rfl⟩ := hruns
  obtain ⟨g, hg, hname⟩ := exists_group_of_operation hgroups ho
  obtain ⟨a, -, ha⟩ := exists_of_forall₂_left has hg
  have ho' : o ∈ (operationsOf doc).filter fun p => p.resource = g.name :=
    List.mem_filter.2 ⟨ho, decide_eq_true hname.symm⟩
  obtain ⟨m, hm, hom⟩ := exists_of_forall₂_left (ha.forall₂_becomes hnames hgroups hg) ho'
  refine ⟨m, hom, a, ?_, hm, fun n b hb hmb => ?_⟩
  · rw [← hname]
    exact find?_of_makes (nodup_groupOperations hgroups) has hg ha
  · -- A method keeps its path, and the path belongs to one resource.
    obtain ⟨g', hg', hname', hb'⟩ := exists_group_of_find? has hb
    obtain ⟨o', ho', hom'⟩ :=
      exists_of_forall₂_right (hb'.forall₂_becomes hnames hgroups hg') hmb
    have hpath : o'.path = o.path := hom'.of_operation.2.1.symm.trans hom.of_operation.2.1
    have hresource : o'.resource = g'.name := of_decide_eq_true (List.mem_filter.1 ho').2
    rw [← hname', ← hresource, Operation.resource, Operation.resource, hpath]

/-! ### The stores -/

theorem perm_importsOf (settings : Settings) {ms ns : List Method} (h : ms.Perm ns) :
    (importsOf settings ms).Perm (importsOf settings ns) :=
  (perm_eraseDups ((h.flatMap_right _).map _)).map _

/-- Stores of the same resources, each with the same methods and the same imports, in any order. -/
def SameContent {α : Type} (methods : α → List Method) (imports : α → List Import)
    (s t : Store α) : Prop :=
  s.names.Perm t.names ∧ ∀ n a b, s.find? n = some a → t.find? n = some b →
    (methods a).Perm (methods b) ∧ (imports a).Perm (imports b)

theorem Scheme.SameResources.sameContent {α : Type} {k : Scheme α} {imports : α → List Import}
    (himports : ∀ e g h ms ns, g.name = h.name → ms.Perm ns →
      (imports (k.build e g ms)).Perm (imports (k.build e h ns)))
    {s t : Store α} (h : k.SameResources s t) : SameContent k.methods imports s t := by
  refine ⟨h.1, fun n a b ha hb => ?_⟩
  obtain ⟨g, g', ms, ns, hname, hperm, rfl, rfl⟩ := h.2 n a b ha hb
  rw [k.methods_build, k.methods_build]
  exact ⟨hperm, himports none g g' ms ns hname hperm⟩

/-- **The order of a document shows only in the order of what is stored**, where the operations of a
resource have different identifiers. If one order compiles then the other does; the resources are
the same, with the same methods and imports, and each operation is a method of the resource of its
path and of no other. -/
theorem compile_reordered (settings : Settings) {doc doc' : Value} (h : Reordered doc doc')
    (hnames : DistinctNames doc) :
    (let s := compileServices settings doc .empty
      let t := compileServices settings doc' .empty
      (s.fault = none ↔ t.fault = none) ∧
        (s.fault = none → SameContent (·.methods) (·.imports) s.store t.store ∧
          HousesEach (·.methods) doc s.store)) ∧
    (let s := compileControllers settings doc .empty
      let t := compileControllers settings doc' .empty
      (s.fault = none ↔ t.fault = none) ∧
        (s.fault = none → SameContent (·.methods) (·.imports) s.store t.store ∧
          HousesEach (·.methods) doc s.store)) := by
  constructor
  · refine ⟨?_, fun hs => ?_⟩
    · rw [compileServices_succeeds_iff, compileServices_succeeds_iff]
      exact Scheme.runs_iff_of_reordered h hnames
    · have hruns := compileServices_iff.1 ⟨hs, rfl⟩
      obtain ⟨t, ht, hsame⟩ := hruns.exists_reordered h (distinctKeys_of_document hnames)
      obtain rfl := (compileServices_iff.2 ht).2
      refine ⟨hsame.sameContent fun e g g' ms ns _ hperm => ?_, hruns.housesEach hnames⟩
      exact perm_importsOf settings hperm
  · refine ⟨?_, fun hs => ?_⟩
    · rw [compileControllers_succeeds_iff, compileControllers_succeeds_iff]
      exact Scheme.runs_iff_of_reordered h hnames
    · have hruns := compileControllers_iff.1 ⟨hs, rfl⟩
      obtain ⟨t, ht, hsame⟩ := hruns.exists_reordered h (distinctKeys_of_document hnames)
      obtain rfl := (compileControllers_iff.2 ht).2
      refine ⟨hsame.sameContent fun e g g' ms ns hname hperm => ?_, hruns.housesEach hnames⟩
      show (serviceImport settings g.name :: importsOf settings ms).Perm
        (serviceImport settings g'.name :: importsOf settings ns)
      rw [hname]
      exact (perm_importsOf settings hperm).cons _

/-- Two operations on pets. -/
def petOperations : List (String × Value) :=
  [("get", .record [("operationId", .text "listPets")]),
    ("post", .record [("operationId", .text "addPet"), ("requestBody", petRequest)])]

/-- A path of toys. -/
def toyPath : String × Value :=
  ("/toys", .record [("get", .record [("operationId", .text "listToys")])])

/-- Pets and toys. -/
def petsAndToys : Value := petDocument [("/pets", .record petOperations), toyPath]

/-- Toys and pets, which are added and listed. -/
def toysAndPets : Value := petDocument [toyPath, ("/pets", .record petOperations.reverse)]

theorem reordered_toysAndPets : Reordered petsAndToys toysAndPets := by
  have hpets : Rearranged Eq (.record petOperations) (.record petOperations.reverse) :=
    Rearranged.record (by decide) (List.forall₂_same.2 fun _ _ => ⟨rfl, rfl⟩)
      (List.reverse_perm _).symm
  have hpaths : List.Forall₂ (fun f g => f.1 = g.1 ∧ Rearranged Eq f.2 g.2)
      [("/pets", .record petOperations), toyPath]
      [("/pets", .record petOperations.reverse), toyPath] :=
    .cons ⟨rfl, hpets⟩ (.cons ⟨rfl, Or.inl rfl⟩ .nil)
  exact ⟨⟨rfl, rfl⟩, sameApartFromPaths_petDocument _ _,
    Or.inr ⟨_, _, rfl, rfl, Rearranged.record (by decide) hpaths (.swap _ _ _)⟩⟩

theorem compile_reordered_petsAndToys :
    (compileServices {} toysAndPets .empty).fault = none ∧
      SameContent (·.methods) (·.imports) (compileServices {} petsAndToys .empty).store
        (compileServices {} toysAndPets .empty).store ∧
      HousesEach (·.methods) petsAndToys (compileServices {} petsAndToys .empty).store := by
  have hnames : DistinctNames petsAndToys := by
    unfold DistinctNames
    decide +kernel
  have hfault : (compileServices {} petsAndToys .empty).fault = none := by decide +kernel
  obtain ⟨⟨hiff, hsame⟩, -⟩ := compile_reordered {} reordered_toysAndPets hnames
  exact ⟨hiff.1 hfault, hsame hfault⟩

end ApiScaffold
