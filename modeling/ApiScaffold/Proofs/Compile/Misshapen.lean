import ApiScaffold.Proofs.Compile.Transfer

/-!
# Misshapen parts of a document

A part of a document that has the wrong shape is refused with a wording, or it is used as if its
shape were right, which is a misuse.

* `Fault.Announced`: the faults that have a wording;
* `FailsOn hazard r`: the computation `r` does not succeed where the hazard is there, and where it
  is not, `r` comes to announced faults only;
* `Reference.Breaks`, `MisshapenSchema`, `MisshapenOperation`: the parts that are misused;
* `failsOn_modelDraft`, `failsOn_methodDraft`: schemas and operations are drafted, and fail, so.
-/

namespace ApiScaffold

open Draft Reference

/-! ### Announced faults -/

/-- The faults that are meant for a document that cannot be compiled. -/
inductive Fault.Announced : Fault → Prop
  | spec (cause : SpecCause) (location : String) : Announced (.spec cause location)
  | operation (path : String) (verb : Verb) : Announced (.missingOperationId path verb)
  | resource (kind : Kind) (name : String) (problems : List Problem) :
      Announced (.invalidNode kind name problems)

theorem append_ne_empty {s t : String} (h : s ≠ "" ∨ t ≠ "") : s ++ t ≠ "" := by
  rw [Ne, String.append_eq_empty_iff]
  exact fun hst => h.elim (· hst.1) (· hst.2)

theorem SpecCause.message_ne_empty (cause : SpecCause) : cause.message ≠ "" := by
  cases cause with
  | unreadable reason => exact append_ne_empty (Or.inr (by decide))
  | unparsable detail =>
    cases detail with
    | none => decide
    | some detail => exact append_ne_empty (Or.inl (by decide))
  | otherVersion found => exact append_ne_empty (Or.inl (by decide))
  | _ => decide

theorem Fault.located_ne_empty {message : String} (h : message ≠ "") (location : String) :
    located location message ≠ "" := by
  unfold located
  split_ifs
  · exact h
  · exact append_ne_empty (Or.inr h)

/-- An announced fault says something. -/
theorem Fault.Announced.message_ne_empty {e : Fault} (h : e.Announced) : e.message ≠ "" := by
  cases h with
  | spec cause location => exact located_ne_empty cause.message_ne_empty location
  | operation path verb =>
    exact located_ne_empty (append_ne_empty (Or.inr (by decide))) path
  | resource kind name problems => exact append_ne_empty (Or.inr (by decide))

/-- A computation does not succeed where the hazard is there; where it is not, its faults are
announced. -/
inductive FailsOn {α : Type} (hazard : Prop) : Except Fault α → Prop
  | ok {a : α} (safe : ¬ hazard) : FailsOn hazard (.ok a)
  | announced {e : Fault} (h : e.Announced) : FailsOn hazard (.error e)
  | misused {e : Fault} (h : hazard) : FailsOn hazard (.error e)

namespace FailsOn

variable {α β γ : Type} {p q : Prop} {r : Except Fault α}

theorem congr (hr : FailsOn p r) (h : p ↔ q) : FailsOn q r := propext h ▸ hr

theorem map (hr : FailsOn p r) (f : α → β) : FailsOn p (r.map f) := by
  cases hr with
  | ok safe => exact .ok safe
  | announced h => exact .announced h
  | misused h => exact .misused h

/-- A computation that passes on the faults of another one, and goes on where that one succeeds,
fails on the hazards of both. -/
theorem after {x : Except Fault β} (hr : FailsOn p r) (herror : ∀ e, r = .error e → x = .error e)
    (hok : ∀ a, r = .ok a → FailsOn q x) : FailsOn (p ∨ q) x := by
  cases hr with
  | ok safe => exact (hok _ rfl).congr (or_iff_right safe).symm
  | announced h => exact herror _ rfl ▸ .announced h
  | misused h => exact herror _ rfl ▸ .misused (Or.inl h)

/-- A loop that gives up at the first fault fails on the hazards of its steps. -/
theorem loop {run : α → Except Fault β} {hazard : α → Prop} (loop : List α → Except Fault γ)
    {glue : β → γ → γ} {c : γ} (hnil : loop [] = .ok c)
    (hcons : ∀ a as, loop (a :: as) = (run a).bind fun b => (loop as).map (glue b))
    (hrun : ∀ a, FailsOn (hazard a) (run a)) (as : List α) :
    FailsOn (∃ a ∈ as, hazard a) (loop as) := by
  induction as with
  | nil => exact hnil ▸ .ok (by simp)
  | cons a as ih =>
    rw [hcons, List.exists_mem_cons_iff]
    refine (hrun a).after (fun e he => by rw [he]; rfl) fun b hb => ?_
    rw [hb]
    exact ih.map (glue b)

end FailsOn

/-! ### Values -/

/-- Whether the value is a text. -/
def Value.isText : Value → Bool
  | .text _ => true
  | _ => false

theorem failsOn_textOf (v : Value) : FailsOn (v.written? = none) (textOf v) := by
  unfold textOf
  cases hv : v.written? with
  | some s => exact .ok (Option.some_ne_none s)
  | none => exact .misused rfl

theorem failsOn_className (v : Value) : FailsOn (v.isText = false) (className v) := by
  unfold className
  split
  · exact .ok (by simp [Value.isText])
  · next hv =>
    refine .misused ?_
    unfold Value.isText
    split
    · exact (hv _ rfl).elim
    · rfl

/-- A value that is there has no parts. -/
def Partless (v : Option Value) : Prop := ∃ w, Value.present? v = some w ∧ parts? w = none

theorem failsOn_partsOf (v : Option Value) : FailsOn (Partless v) (partsOf v) := by
  unfold partsOf Partless
  cases Value.present? v with
  | none => exact .ok (by simp)
  | some w =>
    dsimp only
    cases hw : parts? w with
    | none => exact .misused ⟨w, rfl, hw⟩
    | some ws => exact .ok (by simp [hw])

/-! ### References -/

/-- A chain of references comes to a reference that is not a text. -/
@[mk_iff]
inductive Reference.Breaks (doc : Value) : Value → Prop
  | here (v : Value) (m : Misuse) (hlink : link v = .broken m) : Breaks doc v
  | there (v w : Value) (ref : String) (hlink : link v = .to ref) (hw : resolve doc ref = .ok w)
      (rest : Breaks doc w) : Breaks doc v

theorem announced_of_resolve {doc : Value} {ref : String} {e : Fault}
    (h : resolve doc ref = .error e) : e.Announced := by
  unfold resolve at h
  split at h
  · exact Except.error.inj h ▸ .spec _ _
  · split at h
    · cases h
    · exact Except.error.inj h ▸ .spec _ _

theorem failsOn_followFrom (doc start : Value) (seen : List String) (v : Value) (known) :
    FailsOn (Breaks doc v) (followFrom doc start seen v known) := by
  fun_induction followFrom doc start seen v known with
  | case1 seen v known hlink =>
    refine .ok ?_
    rw [breaks_iff]
    simp [hlink]
  | case2 seen v known m hlink => exact .misused (.here v m hlink)
  | case3 seen v known ref hlink hseen => exact .announced (.spec _ _)
  | case4 seen v known ref hlink hfresh e hfound => exact .announced (announced_of_resolve hfound)
  | case5 seen v known ref hlink hfresh w hfound ih =>
    refine ih.congr ?_
    rw [breaks_iff doc v]
    simp [hlink, hfound]

theorem failsOn_follow (doc v : Value) : FailsOn (Breaks doc v) (follow doc v) :=
  failsOn_followFrom ..

/-! ### Schemas -/

/-- The values of an enumeration cannot be listed, or one of them has no text. -/
@[mk_iff]
inductive Unlistable (values : Value) : Prop
  | whole (no : parts? values = none)
  | member (vs : List Value) (hvs : parts? values = some vs) (v : Value) (hv : v ∈ vs)
      (no : v.written? = none)

/-- A declared type that is there cannot be a key. -/
def Unkeyed (declared : Value) : Prop := declared.isTruthy = true ∧ declared.isKey = false

/-- What a property has under its items is misused. -/
@[mk_iff]
inductive MisshapenItems (items declared : Value) : Prop
  | reference (ref : Value) (href : items.field? "$ref" = some ref) (no : ref.isText = false)
  | enumeration (hnone : items.field? "$ref" = none) (values : Value)
      (hvalues : items.field? "enum" = some values) (no : Unlistable values)
  | type (hnone : items.field? "$ref" = none) (hplain : items.field? "enum" = none) (t : Value)
      (ht : Value.present? (items.field? "type") = some t) (no : Unkeyed t ∨ t.written? = none)
  | declared (hnone : items.field? "$ref" = none) (hplain : items.field? "enum" = none)
      (ht : Value.present? (items.field? "type") = none) (no : Unkeyed declared)

/-- A property is misused: only what its type is taken from counts. -/
@[mk_iff]
inductive MisshapenProperty (prop : Value) : Prop
  | reference (ref : Value) (href : prop.field? "$ref" = some ref) (no : ref.isText = false)
  | enumeration (hnone : prop.field? "$ref" = none) (values : Value)
      (hvalues : prop.field? "enum" = some values) (no : Unlistable values)
  | items (hnone : prop.field? "$ref" = none) (hplain : prop.field? "enum" = none) (items : Value)
      (hitems : prop.field? "items" = some items) (no : MisshapenItems items (declaredType prop))
  | type (hnone : prop.field? "$ref" = none) (hplain : prop.field? "enum" = none)
      (hsingle : prop.field? "items" = none) (no : Unkeyed (declaredType prop))

/-- A schema is misused: a key of it or of its properties has no text, or a property is misused. -/
@[mk_iff]
inductive MisshapenSchema (entry : Scalar × Value) : Prop
  | key (no : (Value.scalar entry.1).written? = none)
  | property (props : Entries) (hprops : entriesOf? (entry.2.field? "properties") = some props)
      (p : Scalar × Value) (hp : p ∈ props)
      (no : (Value.scalar p.1).written? = none ∨ MisshapenProperty p.2)

theorem failsOn_literalText (v : Value) : FailsOn (v.written? = none) (literalText v) := by
  unfold literalText
  split
  · exact .ok (by rintro ⟨⟩)
  · exact failsOn_textOf _

theorem failsOn_literalUnion (values : Value) :
    FailsOn (Unlistable values) (literalUnion values) := by
  rw [unlistable_iff]
  unfold literalUnion
  cases hvs : parts? values with
  | none => exact .misused (Or.inl rfl)
  | some vs =>
    have htexts : FailsOn (∃ v ∈ vs, v.written? = none) (literalTexts vs) :=
      FailsOn.loop literalTexts rfl
        (fun v vs => by rw [literalTexts]; cases literalText v <;> rfl) failsOn_literalText vs
    exact (htexts.map unionText).congr (by simp)

theorem failsOn_renameType (declared : Value) :
    FailsOn (Unkeyed declared) (renameType declared) := by
  unfold renameType Unkeyed
  split_ifs with ht hk
  · exact .ok (by simp_all)
  · exact .misused (by simpa using And.intro ht hk)
  · split
    all_goals exact .ok (by simp_all)

theorem written?_renameType {t r : Value} (ht : t.isTruthy = true) (h : renameType t = .ok r) :
    r.written? = none ↔ t.written? = none := by
  unfold renameType at h
  rw [ht] at h
  split_ifs at h
  · simp_all
  · split at h
    · rw [← Except.ok.inj h]
      decide
    · rw [← Except.ok.inj h]

theorem failsOn_arrayShape (items declared : Value) :
    FailsOn (MisshapenItems items declared) (arrayShape items declared) := by
  rw [misshapenItems_iff, arrayShape]
  cases href : items.field? "$ref" with
  | some ref => exact ((failsOn_className ref).map _).congr (by simp)
  | none =>
    cases henum : items.field? "enum" with
    | some values => exact ((failsOn_literalUnion values).map _).congr (by simp)
    | none =>
      cases ht : Value.present? (items.field? "type") with
      | none => exact ((failsOn_renameType declared).map _).congr (by simp)
      | some t =>
        dsimp only
        suffices h : FailsOn (Unkeyed t ∨ t.written? = none) _ from h.congr (by simp)
        refine (failsOn_renameType t).after (fun e he => by rw [he]) fun r hr => ?_
        rw [hr]
        exact ((failsOn_textOf r).map _).congr (written?_renameType (isTruthy_of_present? ht) hr)

theorem failsOn_shapeOf (prop : Value) : FailsOn (MisshapenProperty prop) (shapeOf prop) := by
  rw [misshapenProperty_iff]
  unfold shapeOf
  cases href : prop.field? "$ref" with
  | some ref => exact ((failsOn_className ref).map _).congr (by simp)
  | none =>
    cases henum : prop.field? "enum" with
    | some values => exact ((failsOn_literalUnion values).map _).congr (by simp)
    | none =>
      cases hitems : prop.field? "items" with
      | some items => exact (failsOn_arrayShape items _).congr (by simp)
      | none => exact ((failsOn_renameType _).map _).congr (by simp)

/-- The property under a key. -/
def propertyStep (location : String) (entry : Scalar × Value) : Except Fault FieldDraft :=
  (textOf (.scalar entry.1)).bind fun name =>
    if entry.2.entries?.isNone then .error (.spec .propertyNotMapping (location ++ "." ++ name))
    else fieldDraft name entry.2

theorem fieldDrafts_cons (location : String) (entry : Scalar × Value)
    (rest : List (Scalar × Value)) :
    fieldDrafts location (entry :: rest) =
      (propertyStep location entry).bind fun f => (fieldDrafts location rest).map (f :: ·) := by
  obtain ⟨k, prop⟩ := entry
  rw [fieldDrafts, propertyStep]
  cases textOf (.scalar k) with
  | error e => rfl
  | ok name =>
    simp only [Except.bind]
    split_ifs
    · rfl
    · cases fieldDraft name prop <;> rfl

theorem failsOn_propertyStep (location : String) (entry : Scalar × Value) :
    FailsOn ((Value.scalar entry.1).written? = none ∨ MisshapenProperty entry.2)
      (propertyStep location entry) := by
  refine (failsOn_textOf (.scalar entry.1)).after (fun e he => by rw [propertyStep, he]; rfl)
    fun name hname => ?_
  rw [propertyStep, hname, Except.bind]
  split_ifs
  · exact .announced (.spec _ _)
  · exact (failsOn_shapeOf entry.2).map _

theorem failsOn_modelDraft (settings : Settings) (name : String) (schema : Value) :
    FailsOn (∃ props, entriesOf? (schema.field? "properties") = some props ∧
        ∃ p ∈ props, (Value.scalar p.1).written? = none ∨ MisshapenProperty p.2)
      (modelDraft settings name schema) := by
  unfold modelDraft
  split_ifs
  · exact .announced (.spec _ _)
  · exact .announced (.spec _ _)
  · dsimp only
    cases hprops : entriesOf? (schema.field? "properties") with
    | none => exact .announced (.spec _ _)
    | some props =>
      have hfields := FailsOn.loop (fieldDrafts ("components.schemas." ++ name)) rfl
        (fieldDrafts_cons _) (failsOn_propertyStep _) props
      exact (hfields.map _).congr (by simp)

/-! ### Operations -/

/-- A parameter is misused. -/
@[mk_iff]
inductive MisshapenParameter (doc raw : Value) : Prop
  | reference (no : Breaks doc raw)
  | name (param : Value) (hparam : follow doc raw = .ok param) (name : Value)
      (hname : Value.present? (param.field? "name") = some name) (no : name.written? = none)

/-- The reference of the schema of the first content. -/
def schemaReference? (content : Entries) : Option Value :=
  content.head?.bind fun e => (e.2.field? "schema").bind (·.field? "$ref")

/-- The request of an operation is misused. -/
@[mk_iff]
inductive MisshapenRequest (doc request : Value) : Prop
  | reference (no : Breaks doc request)
  | content (r : Value) (hr : follow doc request = .ok r)
      (no : entriesOf? (r.field? "content") = none)
  | schema (r : Value) (hr : follow doc request = .ok r) (content : Entries)
      (hcontent : entriesOf? (r.field? "content") = some content) (ref : Value)
      (href : schemaReference? content = some ref) (no : ref.isText = false)

/-- A response of an operation is misused. -/
@[mk_iff]
inductive MisshapenResponse (doc response : Value) : Prop
  | reference (no : Breaks doc response)
  | content (r : Value) (hr : follow doc response = .ok r) (no : Partless (r.field? "content"))

/-- A part of an operation is misused. -/
@[mk_iff]
inductive MisshapenOperation (doc operation : Value) : Prop
  | response (response : Value)
      (hresponse : successResponse? (operation.field? "responses") = some response)
      (no : MisshapenResponse doc response)
  | parameters (no : Partless (operation.field? "parameters"))
  | parameter (raws : List Value) (hraws : partsOf (operation.field? "parameters") = .ok raws)
      (raw : Value) (hraw : raw ∈ raws) (no : MisshapenParameter doc raw)
  | request (no : MisshapenRequest doc ((operation.field? "requestBody").getD .null))

theorem failsOn_parameterDraft (doc : Value) (path : String) (raw : Value) :
    FailsOn (MisshapenParameter doc raw) (parameterDraft doc path raw) := by
  rw [misshapenParameter_iff]
  refine (failsOn_follow doc raw).after (fun e he => by rw [parameterDraft, he])
    fun param hparam => ?_
  rw [parameterDraft, hparam]
  dsimp only
  cases hname : Value.present? (param.field? "name") with
  | none => exact .announced (.spec _ _)
  | some name => exact ((failsOn_textOf name).map _).congr (by simp [hname])

theorem failsOn_bodyOfContent (content : Entries) :
    FailsOn (∃ ref, schemaReference? content = some ref ∧ ref.isText = false)
      (bodyOfContent content) := by
  unfold bodyOfContent schemaReference?
  cases content with
  | nil => exact .ok (by simp)
  | cons entry rest =>
    obtain ⟨key, media⟩ := entry
    dsimp only [List.head?_cons, Option.bind_some]
    cases (media.field? "schema").bind (·.field? "$ref") with
    | none => exact .ok (by simp)
    | some ref => exact ((failsOn_className ref).map _).congr (by simp)

theorem failsOn_bodyDraft (doc request : Value) :
    FailsOn (MisshapenRequest doc request) (bodyDraft doc request) := by
  rw [misshapenRequest_iff]
  refine (failsOn_follow doc request).after (fun e he => by rw [bodyDraft, he]) fun r hr => ?_
  rw [bodyDraft, hr]
  dsimp only
  cases hcontent : entriesOf? (r.field? "content") with
  | none => exact .misused (Or.inl ⟨r, rfl, hcontent⟩)
  | some content => exact (failsOn_bodyOfContent content).congr (by simp [hcontent])

theorem failsOn_contentTypeDraft (doc : Value) (responses : Option Value) :
    FailsOn (∃ response, successResponse? responses = some response ∧
        MisshapenResponse doc response)
      (contentTypeDraft doc responses) := by
  unfold contentTypeDraft
  rw [← successResponse?]
  cases successResponse? responses with
  | none => exact .ok (by simp)
  | some response =>
    dsimp only
    suffices h : FailsOn (MisshapenResponse doc response) _ from h.congr (by simp)
    rw [misshapenResponse_iff]
    refine (failsOn_follow doc response).after (fun e he => by rw [he]) fun r hr => ?_
    rw [hr]
    exact ((failsOn_partsOf _).map _).congr (by simp)

theorem parameterDrafts_cons (doc : Value) (path : String) (raw : Value) (raws : List Value) :
    parameterDrafts doc path (raw :: raws) =
      (parameterDraft doc path raw).bind fun p => (parameterDrafts doc path raws).map (p :: ·) := by
  rw [parameterDrafts]
  cases parameterDraft doc path raw <;> rfl

theorem failsOn_parametersDraft (doc : Value) (path : String) (operation : Value) :
    FailsOn (Partless (operation.field? "parameters") ∨
        (∃ raws, partsOf (operation.field? "parameters") = .ok raws ∧
          ∃ raw ∈ raws, MisshapenParameter doc raw) ∨
        MisshapenRequest doc ((operation.field? "requestBody").getD .null))
      (parametersDraft doc path operation) := by
  refine (failsOn_partsOf _).after (fun e he => by rw [parametersDraft, he]) fun raws hraws => ?_
  have hparams := FailsOn.loop (parameterDrafts doc path) rfl (parameterDrafts_cons doc path)
    (failsOn_parameterDraft doc path) raws
  simp only [hraws, Except.ok.injEq, exists_eq_left']
  rw [parametersDraft, hraws]
  dsimp only
  refine hparams.after (fun e he => by rw [he]) fun params hparams => ?_
  rw [hparams]
  exact (failsOn_bodyDraft doc _).map _

theorem failsOn_methodDraft (doc : Value) (path : String) (verb : Verb) (operation : Value) :
    FailsOn (MisshapenOperation doc operation) (methodDraft doc path verb operation) := by
  rw [misshapenOperation_iff]
  unfold methodDraft
  cases Value.present? (operation.field? "operationId") with
  | none => exact .announced (.operation _ _)
  | some name =>
    refine (failsOn_contentTypeDraft doc _).after (fun e he => by rw [he]) fun t ht => ?_
    rw [ht]
    exact ((failsOn_parametersDraft doc path operation).map _).congr (by simp)

end ApiScaffold
