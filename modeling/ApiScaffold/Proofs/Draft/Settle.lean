import ApiScaffold.Proofs.Draft.Merge

/-!
# Operations that were merged and accepted are merged again

Operations settle: written one after the other, each name once, and accepted.  What has settled is
stored, and merged again with whatever comes next.  An operation that is named by a text comes back
from the store as it was; one that is named in bytes comes back under the text that the bytes spell,
which is a different key.

* `settles_resume`: operations may settle before more are merged, unless a name in bytes comes again
  in another spelling, which `SpelledAgain` says;
* `Settles.exists_again`: what has settled may be merged again with the operations that came last.
-/

namespace ApiScaffold.Draft

/-- Operations settle: each name once, with the operation that was given last, and all accepted. -/
def Settles (given : List MethodDraft) (ms : List Method) : Prop :=
  given.all hasScalarName = true ∧ Accepted (writeAll sameName given) ms

/-- Whether an operation is named in bytes. -/
def MethodDraft.namedInBytes (d : MethodDraft) : Bool := d.name.isBytes

theorem accepted_unique {ds : List MethodDraft} {ms ns : List Method} (h : Accepted ds ms)
    (h' : Accepted ds ns) : ms = ns := by
  induction h generalizing ns with
  | nil => exact (List.forall₂_nil_left_iff.1 h').symm
  | cons hdm _ ih =>
    obtain ⟨n, ns, hdn, hrest, rfl⟩ := List.forall₂_cons_left_iff.1 h'
    rw [ih hrest, Except.ok.inj (hdm.symm.trans hdn)]

theorem all_hasScalarName_ofMethod (ms : List Method) :
    (ms.map MethodDraft.ofMethod).all hasScalarName = true := by
  rw [List.all_map, List.all_eq_true]
  exact fun _ _ => rfl

/-! ### Drafts that settle alike -/

theorem all_hasScalarName_congr {r : MethodDraft → MethodDraft → Prop}
    (hscalar : ∀ {d e}, r d e → hasScalarName d = hasScalarName e) {ds es : List MethodDraft}
    (h : List.Forall₂ r ds es) : ds.all hasScalarName = es.all hasScalarName := by
  induction h with
  | nil => rfl
  | cons hde _ ih => rw [List.all_cons, List.all_cons, hscalar hde, ih]

theorem accepted_congr {r : MethodDraft → MethodDraft → Prop}
    (hcheck : ∀ {d e}, r d e → Method.check d.data = Method.check e.data)
    {ds es : List MethodDraft} (h : List.Forall₂ r ds es) (ms : List Method) :
    Accepted ds ms ↔ Accepted es ms := by
  induction h generalizing ms with
  | nil => exact Iff.rfl
  | cons hde _ ih => simp only [Accepted, List.forall₂_cons_left_iff, hcheck hde, ih]

/-- Drafts may be replaced, one by one, by drafts that are told apart and accepted as they are. -/
theorem settles_congr {r : MethodDraft → MethodDraft → Prop}
    (hscalar : ∀ {d e}, r d e → hasScalarName d = hasScalarName e)
    (hkey : ∀ {d e d' e'}, r d e → r d' e' → (nameKey d' = nameKey d ↔ nameKey e' = nameKey e))
    (hcheck : ∀ {d e}, r d e → Method.check d.data = Method.check e.data)
    {ds es : List MethodDraft} (h : List.Forall₂ r ds es) (ms : List Method) :
    Settles ds ms ↔ Settles es ms := by
  have hall := all_hasScalarName_congr hscalar h
  rw [Settles, Settles, hall]
  refine and_congr_right fun hes => accepted_congr hcheck ?_ ms
  exact forall₂_writeAll (fun _ _ _ _ => hkey) (tells_sameName (hall.trans hes))
    (tells_sameName hes) h

/-! ### Settling half way -/

/-- A name that is given in bytes is spelled again, once its operation is stored: in a text by one
of the same operations, or in any way by one of those to come. -/
def SpelledAgain (ds es : List MethodDraft) : Prop :=
  ∃ bs s, String.fromUTF8? ⟨bs.toArray⟩ = some s ∧ (∃ d ∈ ds, d.name = .scalar (.bytes bs)) ∧
    ((∃ d ∈ ds, d.name = .text s) ∨ ∃ e ∈ es, Check.anyText e.name = .ok s)

theorem not_spelledAgain {ds : List MethodDraft} (hds : ∀ d ∈ ds, d.namedInBytes = false)
    (es : List MethodDraft) : ¬ SpelledAgain ds es := by
  rintro ⟨bs, s, -, ⟨d, hd, hname⟩, -⟩
  have hnot := hds d hd
  rw [MethodDraft.namedInBytes, hname] at hnot
  cases hnot

/-- A draft of the operations to come, or a stored operation in the place of the draft that was
accepted as it. -/
def Resumes (ds es : List MethodDraft) (d e : MethodDraft) : Prop :=
  (d = e ∧ e ∈ es) ∨ e ∈ ds ∧ ∃ m, d = .ofMethod m ∧ Method.check e.data = .ok m

/-- A stored operation and a draft to come are told apart as before. -/
theorem nameKey_ofMethod_iff {ds es : List MethodDraft} (hnot : ¬ SpelledAgain ds es)
    {d e : MethodDraft} {m : Method} (hd : d ∈ ds) (hdm : Method.check d.data = .ok m)
    (he : e ∈ es) : nameKey e = nameKey (.ofMethod m) ↔ nameKey e = nameKey d := by
  have hname := Method.name_of_check_draft hdm
  rcases anyText_eq_ok hname with htext | ⟨bs, hbytes, hspells⟩
  · rw [nameKey, nameKey, nameKey, htext]
    rfl
  · -- Neither the text nor the bytes come again.
    have hfresh : Check.anyText e.name ≠ .ok m.name := fun hspelled =>
      hnot ⟨bs, m.name, hspells, ⟨d, hd, hbytes⟩, Or.inr ⟨e, he, hspelled⟩⟩
    constructor
    · intro hkey
      rw [nameKey_of_text rfl hkey] at hfresh
      exact (hfresh rfl).elim
    · intro hkey
      rw [name_eq_of_nameKey hname hkey] at hfresh
      exact (hfresh hname).elim

/-- Stored operations are told apart as their drafts were. -/
theorem nameKey_ofMethod_iff_ofMethod {ds es : List MethodDraft} (hnot : ¬ SpelledAgain ds es)
    {d e : MethodDraft} {m n : Method} (hd : d ∈ ds) (he : e ∈ ds)
    (hdm : Method.check d.data = .ok m) (hen : Method.check e.data = .ok n) :
    nameKey (.ofMethod n) = nameKey (.ofMethod m) ↔ nameKey e = nameKey d := by
  have hdname := Method.name_of_check_draft hdm
  have hename := Method.name_of_check_draft hen
  constructor
  · intro hkey
    have hnm : n.name = m.name := Scalar.text.inj (Value.scalar.inj (nameKey_of_text rfl hkey))
    rw [hnm] at hename
    refine (nameKey_eq_or_spelled hename hdname).resolve_right fun hspelled => hnot ?_
    obtain ⟨s, bs, ht, hb, hspells⟩ := hspelled.mono (List.cons_subset.2
      ⟨he, List.cons_subset.2 ⟨hd, List.nil_subset _⟩⟩)
    exact ⟨bs, s, hspells, hb, Or.inl ht⟩
  · intro hkey
    have hnm : m.name = n.name := by
      rw [name_eq_of_nameKey hdname hkey, hdname] at hename
      exact Except.ok.inj hename
    rw [nameKey, nameKey]
    simp [MethodDraft.ofMethod, hnm]

/-- **Operations may settle before more operations are merged**, unless a name that is given in
bytes is spelled again. -/
theorem settles_resume {ds es : List MethodDraft} {ms : List Method} (h : Settles ds ms)
    (hnot : ¬ SpelledAgain ds es) (ns : List Method) :
    Settles (ms.map MethodDraft.ofMethod ++ es) ns ↔ Settles (ds ++ es) ns := by
  obtain ⟨hall, hms⟩ := h
  have hresumes : List.Forall₂ (Resumes ds es) (ms.map MethodDraft.ofMethod ++ es)
      (writeAll sameName ds ++ es) := by
    refine List.rel_append ?_ (List.forall₂_same.2 fun e he => Or.inl ⟨rfl, he⟩)
    rw [List.forall₂_map_left_iff]
    refine (forall₂_imp_mem (fun d hd m hdm => ?_) hms).flip
    exact Or.inr ⟨mem_of_mem_writeAll hd, m, rfl, hdm⟩
  have hsettled : Settles (ms.map MethodDraft.ofMethod ++ es) ns ↔
      Settles (writeAll sameName ds ++ es) ns := by
    refine settles_congr ?_ ?_ ?_ hresumes ns
    · rintro d e (⟨rfl, -⟩ | ⟨he, m, rfl, -⟩)
      · rfl
      · exact (List.all_eq_true.1 hall e he).symm
    · rintro d e d' e' (⟨rfl, hd⟩ | ⟨he, m, rfl, hem⟩) (⟨rfl, hd'⟩ | ⟨he', m', rfl, hem'⟩)
      · exact Iff.rfl
      · rw [eq_comm, nameKey_ofMethod_iff hnot he' hem' hd, eq_comm]
      · exact nameKey_ofMethod_iff hnot he hem hd'
      · exact nameKey_ofMethod_iff_ofMethod hnot he he' hem hem'
    · rintro d e (⟨rfl, -⟩ | ⟨-, m, rfl, hem⟩)
      · rfl
      · rw [MethodDraft.data_ofMethod, hem, Method.check_data_of_check hem]
  rw [hsettled, Settles, Settles, List.all_append, List.all_append,
    all_hasScalarName_writeAll hall, hall,
    writeAll_writeAll_append (tells_sameName hall)]

/-! ### Settling again -/

theorem Settles.unique {ds : List MethodDraft} {ms ns : List Method} (h : Settles ds ms)
    (h' : Settles ds ns) : ms = ns := accepted_unique h.2 h'.2

theorem Settles.sound {ds : List MethodDraft} {ms : List Method} (h : Settles ds ms) :
    ∀ m ∈ ms, m.Sound := sound_of_accepted h.2

/-- Operations that were merged last may be merged once more. -/
theorem Settles.append_self {ds es : List MethodDraft} {ms : List Method}
    (h : Settles (ds ++ es) ms) : Settles (ds ++ es ++ es) ms := by
  obtain ⟨hall, hms⟩ := h
  have hparts := hall
  rw [List.all_append, Bool.and_eq_true] at hparts
  constructor
  · rw [List.all_append, hall, hparts.2]
    rfl
  · rwa [writeAll_append_self (tells_sameName hparts.1) (tells_sameName hparts.2)]

/-- What has settled settles again with the operations that came last, however they are named, and
nothing new comes of it. -/
theorem Settles.exists_again {ds es : List MethodDraft} {ms : List Method}
    (h : Settles (ds ++ es) ms) :
    ∃ ns, Settles (ms.map MethodDraft.ofMethod ++ es) ns ∧ ns ⊆ ms := by
  obtain ⟨hall, hms⟩ := h
  have hes : es.all hasScalarName = true := by
    rw [List.all_append, Bool.and_eq_true] at hall
    exact hall.2
  have hagain : (ms.map MethodDraft.ofMethod ++ es).all hasScalarName = true := by
    rw [List.all_append, all_hasScalarName_ofMethod, hes]
    rfl
  have haccepted : ∀ d ∈ writeAll sameName (ms.map MethodDraft.ofMethod ++ es),
      ∃ m, Method.check d.data = .ok m ∧ m ∈ ms := by
    intro d hd
    rcases mem_writeAll_append (tells_sameName hagain) hd with hstored | hlast
    · -- A stored operation is accepted as itself.
      obtain ⟨m, hm, rfl⟩ := List.mem_map.1 hstored
      refine ⟨m, ?_, hm⟩
      rw [MethodDraft.data_ofMethod]
      exact Method.check_data.2 ⟨sound_of_accepted hms m hm, rfl⟩
    · obtain ⟨m, hm, hdm⟩ := exists_of_forall₂_left hms (hlast ds (tells_sameName hall))
      exact ⟨m, hdm, hm⟩
  obtain ⟨ns, hns⟩ := exists_forall₂ haccepted
  refine ⟨ns, ⟨hagain, hns.imp fun _ _ h => h.1⟩, fun n hn => ?_⟩
  obtain ⟨d, -, -, hmem⟩ := exists_of_forall₂_right hns hn
  exact hmem

/-- Operations of different names settle in any order. -/
theorem Settles.exists_reordered {ds es : List MethodDraft} {ms : List Method} (h : Settles ds ms)
    (hnd : (ds.map nameKey).Nodup) (hperm : ds.Perm es) : ∃ ns, Settles es ns ∧ ms.Perm ns := by
  obtain ⟨hall, hms⟩ := h
  rw [writeAll_of_nodup (tells_sameName hall) hnd] at hms
  obtain ⟨ns, hns, hmsns⟩ := exists_forall₂_of_perm hms hperm
  have hall' : es.all hasScalarName = true := hperm.all_eq ▸ hall
  refine ⟨ns, ⟨hall', ?_⟩, hmsns⟩
  rwa [writeAll_of_nodup (tells_sameName hall') ((hperm.map nameKey).nodup_iff.1 hnd)]

end ApiScaffold.Draft
