import ApiScaffold.Proofs.Document.Mapping
import ApiScaffold.Proofs.Reference.Pointer
import Mathlib.Logic.Relation
import Mathlib.Order.WellFounded

/-!
# Chains of references

A reference leads to any place of a document, and what stands there may be a reference again. A
chain is given up when a reference is spelled as an earlier one of the chain was; a place may have
several spellings.

* `RefersTo` is one step of a chain, `Endless` says that the steps never end;
* `reached_of_followFrom`, `stuck_of_followFrom`, `endless_of_followFrom`: where a chain is when it
  is given up, for each way in which it may be;
* `follow_outcome`: a chain is followed to its first value that is no reference, or is refused, and
  it is refused as circular exactly if it never ends.
-/

namespace ApiScaffold.Reference

open Relation

/-- One step of a chain: the first value has a `$ref` that leads to the second. -/
def RefersTo (doc v w : Value) : Prop :=
  ∃ ref, v.field? "$ref" = some (.text ref) ∧ resolve doc ref = .ok w

/-- The chain that begins at the value never ends. -/
def Endless (doc v : Value) : Prop :=
  ∃ chain : ℕ → Value, chain 0 = v ∧ ∀ n, RefersTo doc (chain n) (chain (n + 1))

/-- The value does not refer to anything. -/
def Stuck (doc v : Value) : Prop := ∀ w, ¬ RefersTo doc v w

/-- If the value has a `$ref`, it is a text. -/
def Textual (v : Value) : Prop := ∀ ref, v.field? "$ref" = some ref → ∃ s, ref = .text s

/-- Wherever keys lead in the document, a `$ref` is a text. -/
def TextualReferences (doc : Value) : Prop := ∀ ks v, Leads doc ks v → Textual v

variable {doc start u v w : Value} {ref : String} {seen : List String} {e : Fault}

/-! ### Steps -/

theorem link_eq_none : link v = .none ↔ v.field? "$ref" = none := by
  unfold link
  split <;> simp_all

theorem link_eq_to : link v = .to ref ↔ v.field? "$ref" = some (.text ref) := by
  unfold link
  split <;> simp_all

theorem refersTo_iff (h : link v = .to ref) : RefersTo doc v w ↔ resolve doc ref = .ok w := by
  simp [RefersTo, link_eq_to.1 h]

/-- A value refers to one value at most. -/
theorem rightUnique_refersTo : Relator.RightUnique (RefersTo doc) := by
  rintro v w u ⟨ref, href, hw⟩ ⟨ref', href', hu⟩
  obtain rfl : ref = ref' := by simpa [href] using href'
  exact Except.ok.inj (hw.symm.trans hu)

theorem stuck_of_field?_eq_none (h : v.field? "$ref" = none) : Stuck doc v := by
  rintro w ⟨ref, href, -⟩
  rw [h] at href
  cases href

/-- A chain gets stuck at one place only. -/
theorem eq_of_stuck (hw : ReflTransGen (RefersTo doc) v w) (hu : ReflTransGen (RefersTo doc) v u)
    (hsw : Stuck doc w) (hsu : Stuck doc u) : w = u := by
  rcases hw.total_of_right_unique rightUnique_refersTo hu with h | h
  · rcases h.cases_head with rfl | ⟨x, hx, -⟩
    · rfl
    · exact absurd hx (hsw x)
  · rcases h.cases_head with rfl | ⟨x, hx, -⟩
    · rfl
    · exact absurd hx (hsu x)

/-! ### Chains that never end -/

theorem endless_iff_not_acc : Endless doc v ↔ ¬ Acc (fun w v => RefersTo doc v w) v :=
  (not_acc_iff_exists_descending_chain (r := fun w v => RefersTo doc v w)).symm

/-- A chain that gets stuck ends. -/
theorem not_endless_of_stuck (h : ReflTransGen (RefersTo doc) v w) (hw : Stuck doc w) :
    ¬ Endless doc v := by
  rw [endless_iff_not_acc, not_not]
  induction h using ReflTransGen.head_induction_on with
  | refl => exact ⟨_, fun u hu => absurd hu (hw u)⟩
  | head hstep _ ih => exact ⟨_, fun u hu => rightUnique_refersTo hstep hu ▸ ih⟩

/-- A chain that ends does not come back to where it began. -/
theorem not_transGen_of_acc (h : Acc (fun w v => RefersTo doc v w) v) :
    ¬ TransGen (RefersTo doc) v v := by
  induction h with
  | intro v _ ih =>
    intro hcycle
    obtain ⟨w, hstep, hback⟩ := TransGen.head'_iff.1 hcycle
    exact ih w hstep (TransGen.tail' hback hstep)

theorem endless_of_cycle (h : TransGen (RefersTo doc) v v) : Endless doc v :=
  endless_iff_not_acc.2 fun hacc => not_transGen_of_acc hacc h

/-- A value that refers to one whose chain never ends has such a chain itself. -/
theorem Endless.head (h : RefersTo doc v w) (hw : Endless doc w) : Endless doc v := by
  rw [endless_iff_not_acc] at hw ⊢
  exact fun hacc => hw (hacc.inv h)

/-! ### What following a chain comes to -/

theorem resolve_eq_error_cases (h : resolve doc ref = .error e) :
    e = .spec .remoteReference ref ∨ e = .spec .unresolvableReference ref := by
  unfold resolve at h
  split at h
  · exact .inl (Except.error.inj h).symm
  · split at h
    · cases h
    · exact .inr (Except.error.inj h).symm

/-- What is returned ends the chain. -/
theorem reached_of_followFrom {known} (h : followFrom doc start seen v known = .ok w) :
    ReflTransGen (RefersTo doc) v w ∧ w.field? "$ref" = none := by
  fun_induction followFrom doc start seen v known with
  | case1 seen v known hlink =>
    obtain rfl := Except.ok.inj h
    exact ⟨.refl, link_eq_none.1 hlink⟩
  | case2 => cases h
  | case3 => cases h
  | case4 => cases h
  | case5 seen v known ref hlink hfresh u hfound ih =>
    obtain ⟨hreached, hplain⟩ := ih h
    exact ⟨.head ((refersTo_iff hlink).2 hfound) hreached, hplain⟩

/-- A chain that is refused otherwise than as circular is stuck at a reference. -/
theorem stuck_of_followFrom {known} (h : followFrom doc start seen v known = .error e)
    (hother : ∀ ref, e ≠ .spec .circularReference ref) :
    ∃ w, ReflTransGen (RefersTo doc) v w ∧ Stuck doc w ∧ w.field? "$ref" ≠ none := by
  fun_induction followFrom doc start seen v known with
  | case1 => cases h
  | case2 seen v known m hlink =>
    refine ⟨v, .refl, ?_, fun hnone => ?_⟩
    · rintro w ⟨ref, href, -⟩
      rw [link_eq_to.2 href] at hlink
      cases hlink
    · rw [link_eq_none.2 hnone] at hlink
      cases hlink
  | case3 seen v known ref => exact absurd (Except.error.inj h).symm (hother ref)
  | case4 seen v known ref hlink hfresh e' hfound =>
    refine ⟨v, .refl, fun w hw => ?_, ?_⟩
    · rw [refersTo_iff hlink, hfound] at hw
      cases hw
    · rw [link_eq_to.1 hlink]
      exact Option.some_ne_none _
  | case5 seen v known ref hlink hfresh u hfound ih =>
    obtain ⟨w, hreached, hstuck, href⟩ := ih h
    exact ⟨w, .head ((refersTo_iff hlink).2 hfound) hreached, hstuck, href⟩

/-- The references that were passed lead to values from which the chain came to where it is. -/
def Passed (doc : Value) (seen : List String) (v : Value) : Prop :=
  ∀ ref ∈ seen, ∃ u, resolve doc ref = .ok u ∧ ReflTransGen (RefersTo doc) u v

theorem Passed.step (h : Passed doc seen v) (hlink : link v = .to ref)
    (hfound : resolve doc ref = .ok w) : Passed doc (ref :: seen) w := by
  intro r hr
  rcases List.mem_cons.1 hr with rfl | hr
  · exact ⟨w, hfound, .refl⟩
  · obtain ⟨u, hu, hreached⟩ := h r hr
    exact ⟨u, hu, hreached.tail ((refersTo_iff hlink).2 hfound)⟩

/-- A chain that is refused as circular never ends: a reference that was passed leads back. -/
theorem endless_of_followFrom {known} (hpassed : Passed doc seen v)
    (h : followFrom doc start seen v known = .error (.spec .circularReference ref)) :
    Endless doc v := by
  fun_induction followFrom doc start seen v known with
  | case1 => cases h
  | case2 => cases h
  | case3 seen v known r hlink hseen =>
    obtain ⟨u, hu, hback⟩ := hpassed r hseen
    exact endless_of_cycle (TransGen.head' ((refersTo_iff hlink).2 hu) hback)
  | case4 seen v known r hlink hfresh e hfound =>
    obtain rfl := Except.error.inj h
    rcases resolve_eq_error_cases hfound with h | h <;> cases h
  | case5 seen v known r hlink hfresh w hfound ih =>
    exact (ih (hpassed.step hlink hfound) h).head ((refersTo_iff hlink).2 hfound)

/-- Where every `$ref` is a text, a chain is refused in the words for a document. -/
theorem spec_of_followFrom {known} (hdoc : TextualReferences doc) (hv : Textual v)
    (h : followFrom doc start seen v known = .error e) : ∃ cause ref, e = .spec cause ref := by
  fun_induction followFrom doc start seen v known with
  | case1 => cases h
  | case2 seen v known m hlink =>
    unfold link at hlink
    split at hlink
    · cases hlink
    · cases hlink
    · next w hother hfield =>
      obtain ⟨s, rfl⟩ := hv w hfield
      exact absurd rfl (hother s)
  | case3 seen v known ref => exact ⟨_, _, (Except.error.inj h).symm⟩
  | case4 seen v known ref hlink hfresh e' hfound =>
    obtain rfl := Except.error.inj h
    rcases resolve_eq_error_cases hfound with h | h
    · exact ⟨_, _, h⟩
    · exact ⟨_, _, h⟩
  | case5 seen v known ref hlink hfresh w hfound ih =>
    obtain ⟨ks, -, hleads⟩ := resolve_eq_ok_iff.1 hfound
    exact ih (hdoc ks w hleads) h

/-- A chain is refused as circular exactly if it never ends. -/
theorem follow_circular_iff :
    (∃ ref, follow doc v = .error (.spec .circularReference ref)) ↔ Endless doc v := by
  constructor
  · rintro ⟨ref, h⟩
    exact endless_of_followFrom (fun _ hr => absurd hr List.not_mem_nil) h
  · intro hendless
    cases hfollow : follow doc v with
    | ok w =>
      obtain ⟨hreached, hplain⟩ := reached_of_followFrom hfollow
      exact absurd hendless (not_endless_of_stuck hreached (stuck_of_field?_eq_none hplain))
    | error e =>
      by_contra hother
      have hne : ∀ ref, e ≠ .spec .circularReference ref := fun ref he => hother ⟨ref, by rw [he]⟩
      obtain ⟨w, hreached, hstuck, -⟩ := stuck_of_followFrom hfollow hne
      exact not_endless_of_stuck hreached hstuck hendless

/-- What is returned is the first value of the chain that has no `$ref`. -/
theorem follow_eq_ok_iff :
    follow doc v = .ok w ↔ ReflTransGen (RefersTo doc) v w ∧ w.field? "$ref" = none := by
  refine ⟨reached_of_followFrom, ?_⟩
  rintro ⟨hreached, hplain⟩
  have hstuck : Stuck doc w := stuck_of_field?_eq_none hplain
  cases hfollow : follow doc v with
  | ok u =>
    obtain ⟨hreached', hplain'⟩ := reached_of_followFrom hfollow
    rw [eq_of_stuck hreached hreached' hstuck (stuck_of_field?_eq_none hplain')]
  | error e =>
    by_cases hcircular : ∃ ref, e = .spec .circularReference ref
    · obtain ⟨ref, rfl⟩ := hcircular
      exact absurd (follow_circular_iff.1 ⟨ref, hfollow⟩) (not_endless_of_stuck hreached hstuck)
    · obtain ⟨u, hreached', hstuck', hne⟩ := stuck_of_followFrom hfollow (not_exists.1 hcircular)
      rw [eq_of_stuck hreached hreached' hstuck hstuck'] at hplain
      exact absurd hplain hne

/-- **A chain of references is followed to its end, or refused.** What is returned is the first
value of the chain that has no `$ref`; everything else is refused in the words for a document; and
it is refused as circular exactly if the chain never ends, however its places are spelled. -/
theorem follow_outcome (hdoc : TextualReferences doc) (hv : Textual v) :
    ((∃ w, follow doc v = .ok w) ∨ ∃ cause ref, follow doc v = .error (.spec cause ref)) ∧
      (∀ w, follow doc v = .ok w ↔
        ReflTransGen (RefersTo doc) v w ∧ w.field? "$ref" = none) ∧
      ((∃ ref, follow doc v = .error (.spec .circularReference ref)) ↔
        ∃ chain : ℕ → Value, chain 0 = v ∧ ∀ n, RefersTo doc (chain n) (chain (n + 1))) := by
  refine ⟨?_, fun w => follow_eq_ok_iff, follow_circular_iff⟩
  cases hfollow : follow doc v with
  | ok w => exact .inl ⟨w, rfl⟩
  | error e =>
    obtain ⟨cause, ref, rfl⟩ := spec_of_followFrom hdoc hv hfollow
    exact .inr ⟨cause, ref, rfl⟩

/-! ### An example -/

/-- A mapping with a `$ref` that is a text. -/
def reference (ref : String) : Value := .record [("$ref", .text ref)]

theorem textual_reference (ref : String) : Textual (reference ref) := by
  intro w hw
  obtain rfl := Option.some.inj hw
  exact ⟨ref, rfl⟩

/-- Every `$ref` is a text if that of the value is and those in its entries are. -/
theorem textualReferences_of_entries (hv : Textual v)
    (hentries : ∀ es, v.entries? = some es → ∀ e ∈ es, TextualReferences e.2) :
    TextualReferences v := by
  rintro ks w (_ | ⟨hk, rest⟩)
  · exact hv
  · obtain ⟨es, hes, hfind⟩ := Option.bind_eq_some_iff.1 hk
    obtain ⟨e, he, -, rfl⟩ := exists_of_find? hfind
    exact hentries es hes e he _ _ rest

theorem textualReferences_scalar (s : Scalar) : TextualReferences (.scalar s) :=
  textualReferences_of_entries nofun nofun

theorem textualReferences_reference (ref : String) : TextualReferences (reference ref) := by
  refine textualReferences_of_entries (textual_reference ref) fun es hes e he => ?_
  obtain rfl := Option.some.inj hes
  rw [List.mem_singleton.1 he]
  exact textualReferences_scalar _

/-- Two entries that refer to each other, one of them under two spellings, and one that refers to a
number. -/
def tangledDocument : Value :=
  .record [("a~b", reference "#/c"), ("c", reference "#/a~0b"), ("d", reference "#/e"),
    ("e", .int 7)]

theorem textualReferences_tangledDocument : TextualReferences tangledDocument := by
  refine textualReferences_of_entries nofun fun es hes e he => ?_
  obtain rfl := Option.some.inj hes
  simp only [List.map_cons, List.map_nil, List.mem_cons, List.not_mem_nil, or_false] at he
  rcases he with rfl | rfl | rfl | rfl
  · exact textualReferences_reference _
  · exact textualReferences_reference _
  · exact textualReferences_reference _
  · exact textualReferences_scalar _

theorem follow_outcome_tangled :
    (TextualReferences tangledDocument ∧ Textual (reference "#/a~b") ∧
        Textual (reference "#/d")) ∧
      (∃ ref, follow tangledDocument (reference "#/a~b") =
        .error (.spec .circularReference ref)) ∧
      follow tangledDocument (reference "#/d") = .ok (.int 7) := by
  refine ⟨⟨textualReferences_tangledDocument, textual_reference _, textual_reference _⟩, ?_, ?_⟩
  · obtain ⟨-, -, hcircular⟩ :=
      follow_outcome textualReferences_tangledDocument (textual_reference "#/a~b")
    -- The chain comes to the two entries in turn.
    refine hcircular.2 ⟨fun n => if n = 0 then reference "#/a~b"
      else if n % 2 = 1 then reference "#/c" else reference "#/a~0b", rfl, fun n => ?_⟩
    have first : RefersTo tangledDocument (reference "#/a~b") (reference "#/c") :=
      ⟨_, rfl, rfl⟩
    have back : RefersTo tangledDocument (reference "#/c") (reference "#/a~0b") :=
      ⟨_, rfl, rfl⟩
    have again : RefersTo tangledDocument (reference "#/a~0b") (reference "#/c") :=
      ⟨_, rfl, rfl⟩
    by_cases hzero : n = 0
    · simpa [hzero] using first
    · rcases Nat.mod_two_eq_zero_or_one n with hn | hn
      · simpa [hzero, hn, Nat.add_mod] using again
      · simpa [hzero, hn, Nat.add_mod] using back
  · obtain ⟨-, hreturned, -⟩ :=
      follow_outcome textualReferences_tangledDocument (textual_reference "#/d")
    have toEntry : RefersTo tangledDocument (reference "#/d") (reference "#/e") :=
      ⟨_, rfl, rfl⟩
    have toNumber : RefersTo tangledDocument (reference "#/e") (.int 7) := ⟨_, rfl, rfl⟩
    exact (hreturned _).2 ⟨.head toEntry (.single toNumber), rfl⟩

end ApiScaffold.Reference
