import ApiScaffold.Proofs.Compile.Groups
import ApiScaffold.Proofs.Reference

/-!
# Operations of one document in another

An operation is compiled in the document that its references lead through.  In another document,
where the references lead to the same targets, it is compiled to the same draft.

* `compiles_of_sameTargets`: the draft of one operation;
* `pathStep_of_sameTargets`: the drafts under a key of the paths.
-/

namespace ApiScaffold

open Draft Reference

theorem entriesOf?_congr {v w : Option Value} (h : Value.present? v = Value.present? w) :
    entriesOf? v = entriesOf? w := by
  rw [entriesOf?, h]
  rfl

theorem partsOf_congr {v w : Option Value} (h : Value.present? v = Value.present? w) :
    partsOf v = partsOf w := by
  rw [partsOf, h]
  rfl

/-! ### What a draft is made of -/

/-- The draft of a parameter of the given name. -/
def parameterOf (param : Value) (name : String) : ParameterDraft where
  location := (param.field? "in").getD (.text "query")
  name := parameterName name
  required := match param.field? "required" with
    | some (.bool true) => true
    | _ => false

theorem parameterDraft_eq_ok {doc : Value} {path : String} {raw : Value} {p : ParameterDraft} :
    parameterDraft doc path raw = .ok p ↔
      ∃ param name s, follow doc raw = .ok param ∧
        Value.present? (param.field? "name") = some name ∧ textOf name = .ok s ∧
        p = parameterOf param s := by
  unfold parameterDraft
  cases follow doc raw with
  | error e => simp
  | ok param =>
    cases hname : Value.present? (param.field? "name") with
    | none => simp [hname]
    | some name =>
      cases hs : textOf name with
      | error e => simp [Except.map, hname, hs]
      | ok s =>
        simp only [Except.map, Except.ok.injEq, hname, hs]
        constructor
        · rintro rfl
          exact ⟨param, name, s, rfl, hname, hs, rfl⟩
        · rintro ⟨_, name', s', rfl, hname', hs', rfl⟩
          obtain rfl := Option.some.inj (hname.symm.trans hname')
          rw [Except.ok.inj (hs.symm.trans hs')]
          rfl

theorem parameterDrafts_eq_ok {doc : Value} {path : String} {raws : List Value}
    {ps : List ParameterDraft} :
    parameterDrafts doc path raws = .ok ps ↔
      List.Forall₂ (fun raw p => parameterDraft doc path raw = .ok p) raws ps := by
  induction raws generalizing ps with
  | nil => cases ps <;> simp [parameterDrafts]
  | cons raw raws ih =>
    rw [parameterDrafts, List.forall₂_cons_left_iff]
    cases parameterDraft doc path raw with
    | error e => simp
    | ok p =>
      simp only [← ih, Except.ok.injEq]
      cases parameterDrafts doc path raws <;> simp [Except.map, eq_comm]

theorem bodyDraft_eq_ok {doc request : Value} {bs : List BodyParam} :
    bodyDraft doc request = .ok bs ↔
      ∃ r content, follow doc request = .ok r ∧ entriesOf? (r.field? "content") = some content ∧
        bodyOfContent content = .ok bs := by
  unfold bodyDraft
  cases follow doc request with
  | error e => simp
  | ok r => cases hc : entriesOf? (r.field? "content") <;> simp [hc]

theorem parametersDraft_eq_ok {doc : Value} {path : String} {operation : Value}
    {p : Option ParametersDraft} :
    parametersDraft doc path operation = .ok p ↔
      ∃ raws params body, partsOf (operation.field? "parameters") = .ok raws ∧
        parameterDrafts doc path raws = .ok params ∧
        bodyDraft doc ((operation.field? "requestBody").getD .null) = .ok body ∧
        p = if params.isEmpty && body.isEmpty then none
          else some ⟨nonEmpty? params, nonEmpty? body⟩ := by
  unfold parametersDraft
  cases partsOf (operation.field? "parameters") with
  | error e => simp
  | ok raws =>
    cases hps : parameterDrafts doc path raws with
    | error e => simp [hps]
    | ok params =>
      cases bodyDraft doc ((operation.field? "requestBody").getD .null) with
      | error e => simp [Except.map, hps]
      | ok body =>
        simp only [Except.map, Except.ok.injEq, hps]
        constructor
        · rintro rfl
          exact ⟨raws, params, body, rfl, hps, rfl, rfl⟩
        · rintro ⟨_, params', _, rfl, hps', rfl, rfl⟩
          rw [Except.ok.inj (hps.symm.trans hps')]

/-- The first successful response that is there. -/
def successResponse? (responses : Option Value) : Option Value :=
  (responses.bind Value.entries?).bind fun es => successStatuses.findSome? (response? es)

theorem contentTypeDraft_eq_ok {doc : Value} {responses : Option Value} {t : Value} :
    contentTypeDraft doc responses = .ok t ↔
      (successResponse? responses = none ∧ t = .null) ∨
        ∃ response r ps, successResponse? responses = some response ∧
          follow doc response = .ok r ∧ partsOf (r.field? "content") = .ok ps ∧
          t = ps.head?.getD .null := by
  unfold contentTypeDraft
  rw [← successResponse?]
  cases successResponse? responses with
  | none => simp [eq_comm]
  | some response =>
    cases hf : follow doc response with
    | error e => simp [hf]
    | ok r => cases hps : partsOf (r.field? "content") <;> simp [Except.map, hf, hps, eq_comm]

/-! ### References of the parts of an operation -/

theorem references_subset_of_partsOf {v : Option Value} {vs : List Value} (h : partsOf v = .ok vs)
    {w : Value} (hw : w ∈ vs) : ∃ u, v = some u ∧ references w ⊆ references u := by
  unfold partsOf at h
  cases hv : Value.present? v with
  | none =>
    rw [hv] at h
    rw [← Except.ok.inj h] at hw
    cases hw
  | some u =>
    cases hus : parts? u with
    | none => simp [hv, hus] at h
    | some us =>
      simp only [hv, hus, Except.ok.injEq] at h
      subst h
      exact ⟨u, of_present?_eq_some hv, references_subset_of_parts hus hw⟩

theorem references_subset_of_successResponse {responses : Option Value} {r : Value}
    (h : successResponse? responses = some r) :
    ∃ u, responses = some u ∧ references r ⊆ references u := by
  obtain ⟨es, hes, hstatus⟩ := Option.bind_eq_some_iff.1 h
  obtain ⟨u, hu, hentries⟩ := Option.bind_eq_some_iff.1 hes
  obtain ⟨status, -, hs⟩ := List.exists_of_findSome?_eq_some hstatus
  have hfind : ∃ key, Entries.find? key es = some r := by
    unfold response? at hs
    split at hs
    · rename_i r' hr'
      obtain rfl := Option.some.inj hs
      exact ⟨_, of_present?_eq_some hr'⟩
    · exact ⟨_, of_present?_eq_some hs⟩
  obtain ⟨key, hkey⟩ := hfind
  exact ⟨u, hu, List.Subset.trans (references_subset_of_find? hkey)
    (List.Subset.trans (List.subset_append_right _ _) (entryReferences_subset hentries))⟩

/-! ### Drafts in another document -/

section Transfer

variable {doc doc' : Value} {path : String} (h : SameTargets doc doc')
include h

theorem parameterDraft_of_sameTargets {raw : Value} {p : ParameterDraft}
    (hraw : references raw ⊆ references doc) (hp : parameterDraft doc path raw = .ok p) :
    parameterDraft doc' path raw = .ok p := by
  obtain ⟨param, name, s, hf, hname, hs, rfl⟩ := parameterDraft_eq_ok.1 hp
  obtain ⟨param', hf', hsame⟩ := follow_of_sameTargets h hraw hf
  obtain ⟨hin, hrequired⟩ := hsame.parameter_eq (by simp [hname])
  refine parameterDraft_eq_ok.2 ⟨param', name, s, hf', hsame.name_eq ▸ hname, hs, ?_⟩
  rw [parameterOf, parameterOf, hin, hrequired]

theorem bodyDraft_of_sameTargets {request : Value} {bs : List BodyParam}
    (hrequest : references request ⊆ references doc) (hbs : bodyDraft doc request = .ok bs) :
    bodyDraft doc' request = .ok bs := by
  obtain ⟨r, content, hf, hcontent, hbody⟩ := bodyDraft_eq_ok.1 hbs
  obtain ⟨r', hf', hsame⟩ := follow_of_sameTargets h hrequest hf
  exact bodyDraft_eq_ok.2 ⟨r', content, hf', entriesOf?_congr hsame.content_eq ▸ hcontent, hbody⟩

theorem parametersDraft_of_sameTargets {operation : Value} {p : Option ParametersDraft}
    (hoperation : references operation ⊆ references doc)
    (hp : parametersDraft doc path operation = .ok p) :
    parametersDraft doc' path operation = .ok p := by
  obtain ⟨raws, params, body, hraws, hparams, hbody, rfl⟩ := parametersDraft_eq_ok.1 hp
  have hrequest : references ((operation.field? "requestBody").getD .null) ⊆ references doc := by
    cases hr : operation.field? "requestBody" with
    | none => exact List.nil_subset _
    | some r => exact List.Subset.trans (references_subset_of_field? hr) hoperation
  refine parametersDraft_eq_ok.2 ⟨raws, params, body, hraws, parameterDrafts_eq_ok.2 ?_,
    bodyDraft_of_sameTargets h hrequest hbody, rfl⟩
  refine forall₂_imp_mem (fun raw hraw p hp => ?_) (parameterDrafts_eq_ok.1 hparams)
  obtain ⟨u, hu, hsub⟩ := references_subset_of_partsOf hraws hraw
  exact parameterDraft_of_sameTargets h
    (List.Subset.trans hsub (List.Subset.trans (references_subset_of_field? hu) hoperation)) hp

theorem contentTypeDraft_of_sameTargets {responses : Option Value} {t : Value}
    (hresponses : ∀ r, responses = some r → references r ⊆ references doc)
    (ht : contentTypeDraft doc responses = .ok t) : contentTypeDraft doc' responses = .ok t := by
  obtain ⟨hnone, rfl⟩ | ⟨response, r, ps, hsome, hf, hps, rfl⟩ := contentTypeDraft_eq_ok.1 ht
  · exact contentTypeDraft_eq_ok.2 (Or.inl ⟨hnone, rfl⟩)
  · obtain ⟨u, hu, hsub⟩ := references_subset_of_successResponse hsome
    obtain ⟨r', hf', hsame⟩ :=
      follow_of_sameTargets h (List.Subset.trans hsub (hresponses u hu)) hf
    exact contentTypeDraft_eq_ok.2 (Or.inr
      ⟨response, r', ps, hsome, hf', partsOf_congr hsame.content_eq ▸ hps, rfl⟩)

/-- An operation whose references lead to the same targets has the same draft. -/
theorem compiles_of_sameTargets {o : Operation} {d : MethodDraft}
    (ho : references o.data ⊆ references doc) (hd : o.Compiles doc d) : o.Compiles doc' d := by
  obtain ⟨name, t, ps, hname, ht, hps, rfl⟩ := methodDraft_eq_ok.1 hd
  refine methodDraft_eq_ok.2 ⟨name, t, ps, hname, ?_, parametersDraft_of_sameTargets h ho hps, rfl⟩
  exact contentTypeDraft_of_sameTargets h
    (fun r hr => List.Subset.trans (references_subset_of_field? hr) ho) ht

/-- A key of the paths whose references lead to the same targets has the same drafts. -/
theorem pathStep_of_sameTargets {entry : Scalar × Value} {r : Option (String × PathDraft)}
    (hentry : references entry.2 ⊆ references doc) (hr : pathStep doc entry = .ok r) :
    pathStep doc' entry = .ok r := by
  obtain ⟨ht, rfl⟩ | ⟨ht, path, item, p, hkey, hitem, hp, rfl⟩ := pathStep_eq_ok.1 hr
  · exact pathStep_eq_ok.2 (Or.inl ⟨ht, rfl⟩)
  · obtain ⟨hroot, ms, hms, rfl⟩ := pathDraft_eq_ok.1 hp
    refine pathStep_eq_ok.2 (Or.inr ⟨ht, path, item, _, hkey, hitem, pathDraft_eq_ok.2
      ⟨hroot, ms, forall₂_imp_mem (fun o ho d hd => ?_) hms, rfl⟩, rfl⟩)
    obtain ⟨e, he, v, -, rfl⟩ := mem_operationsIn.1 ho
    exact compiles_of_sameTargets h
      (List.Subset.trans (references_subset_of_mem_entries hitem he) hentry) hd

end Transfer

/-! ### Documents that differ in their paths -/

/-- Documents with the same fields apart from their paths. -/
def SameApartFromPaths (doc doc' : Value) : Prop :=
  ∀ k, k ≠ "paths" → doc.field? k = doc'.field? k

/-- The references of a document lead to the same targets in another one that differs in its paths,
if each item of the paths is in the other one with the same fields, and if the paths as a whole are
interchangeable where a reference leads to them. -/
theorem sameTargets_of_paths {doc doc' : Value} (hrest : SameApartFromPaths doc doc')
    (hpaths : ∀ v, doc.field? "paths" = some v → ∃ v', doc'.field? "paths" = some v' ∧
      (∀ ref ∈ references doc, keys? ref = some ["paths"] → Interchangeable v v') ∧
      ∀ k u, v.field? k = some u → ∃ u', v'.field? k = some u' ∧ ∀ j, u.field? j = u'.field? j) :
    SameTargets doc doc' := by
  intro ref href w hw
  obtain ⟨ks, hks, hd⟩ := resolve_eq_ok.1 hw
  suffices h : ∃ w', descend ks doc' = some w' ∧ Interchangeable w w' by
    obtain ⟨w', hw', hsame⟩ := h
    exact ⟨w', resolve_eq_ok.2 ⟨ks, hks, hw'⟩, hsame⟩
  cases ks with
  | nil =>
    obtain rfl := Option.some.inj hd
    refine ⟨doc', rfl, ?_, ?_, ?_, fun _ => ⟨?_, ?_⟩⟩
    · rw [link, link, hrest _ (by decide)]
    all_goals rw [hrest _ (by decide)]
  | cons k ks =>
    by_cases hk : k = "paths"
    · subst hk
      cases hv : doc.field? "paths" with
      | none => simp [descend, hv] at hd
      | some v =>
        obtain ⟨v', hv', hwhole, hitem⟩ := hpaths v hv
        simp only [descend, hv] at hd
        simp only [descend, hv']
        -- A reference leads to the paths as a whole, to an item, or further down.
        cases ks with
        | nil =>
          obtain rfl := Option.some.inj hd
          exact ⟨v', rfl, hwhole ref href hks⟩
        | cons j ks =>
          cases hu : v.field? j with
          | none => simp [descend, hu] at hd
          | some u =>
            obtain ⟨u', hu', hfields⟩ := hitem j u hu
            simp only [descend, hu] at hd
            simp only [descend, hu']
            exact descend_of_fields hfields hd
    · rw [descend, hrest k hk] at hd
      exact ⟨w, hd, .refl w⟩

/-- A path that belongs to no resource is not a key of paths that compile, unless its item is passed
over. -/
theorem present?_find?_of_pathDrafts {doc : Value} {paths : Entries}
    {ps : List (String × PathDraft)} (h : pathDrafts doc paths = .ok ps) {name : String}
    (hname : resourceOf name = "") : Value.present? (Entries.find? (.text name) paths) = none := by
  obtain ⟨rs, hrs, rfl⟩ := pathDrafts_eq_ok.1 h
  induction hrs with
  | nil => rfl
  | @cons e r paths rs hstep hrest ih =>
    obtain ⟨k, v⟩ := e
    rw [Entries.find?]
    split_ifs with hk
    · obtain rfl := Scalar.same_text_iff.1 hk
      obtain ⟨ht, -⟩ | ⟨-, path, item, p, hkey, -, hp, -⟩ := pathStep_eq_ok.1 hstep
      · have ht : v.isTruthy = false := ht
        simp [Value.present?, ht]
      · obtain rfl := Except.ok.inj hkey
        exact ((pathDraft_eq_ok.1 hp).1 hname).elim
    · exact ih (pathDrafts_eq_ok.2 ⟨rs, hrest, rfl⟩)

end ApiScaffold
