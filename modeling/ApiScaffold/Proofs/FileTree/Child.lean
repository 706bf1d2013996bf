import ApiScaffold.Proofs.FileTree.Frame
import ApiScaffold.Proofs.Text.Split

/-!
# Names below a directory

A text that is one name of a path leads from the place of a directory to the place of that name
below it, past the directory.

* `Straight`: no step of a path leads back, so that all places passed lie above its own;
* `Grounded`: whatever is in a tree lies in directories of it.
-/

namespace ApiScaffold

/-- A text that stands for one name of a path. -/
structure DiskPath.IsName (s : String) : Prop where
  slash : '/' ∉ s.toList
  ne_nothing : s ≠ ""
  ne_here : s ≠ "."
  ne_outer : s ≠ ".."

instance (s : String) : Decidable (DiskPath.IsName s) :=
  decidable_of_iff ('/' ∉ s.toList ∧ s ≠ "" ∧ s ≠ "." ∧ s ≠ "..")
    ⟨fun ⟨hslash, hnothing, hhere, houter⟩ => ⟨hslash, hnothing, hhere, houter⟩,
      fun h => ⟨h.slash, h.ne_nothing, h.ne_here, h.ne_outer⟩⟩

/-- A text of more than two characters is a name if it has no slash. -/
theorem DiskPath.isName_of_length {s : String} (hslash : '/' ∉ s.toList)
    (hlength : 2 < s.toList.length) : IsName s := by
  refine ⟨hslash, ?_, ?_, ?_⟩ <;> rintro rfl <;> exact absurd hlength (by decide)

theorem DiskPath.ofString_name {s : String} (h : IsName s) : ofString s = ⟨"", [s]⟩ := by
  have hroot : rootOf s.toList = "" := by
    unfold rootOf
    split
    · next hs => exact absurd (hs ▸ List.mem_cons_self) h.slash
    · next hs => exact absurd (hs ▸ List.mem_cons_self) h.slash
    · next hs => exact absurd (hs ▸ List.mem_cons_self) h.slash
    · rfl
  rw [ofString, hroot, Text.splitOn_of_notMem h.slash]
  simp [h.ne_nothing, h.ne_here]

theorem DiskPath.child_name (p : DiskPath) {s : String} (h : IsName s) :
    p.child s = ⟨p.root, p.names ++ [s]⟩ := by
  rw [child, ofString_name h, append, if_pos rfl]

namespace FileTree

variable {t : FileTree} {path : DiskPath} {p q : Place} {s : String}

theorem placeOf_child (path : DiskPath) (h : DiskPath.IsName s) :
    placeOf (path.child s) = placeOf path ++ [s] := by
  rw [DiskPath.child_name path h, placeOf, List.foldl_append, List.foldl_cons, List.foldl_nil, step,
    if_neg h.ne_outer]
  rfl

theorem passed_child (path : DiskPath) (h : DiskPath.IsName s) :
    passed (path.child s) = passed path ++ [placeOf path] := by
  rw [DiskPath.child_name path h]
  exact passedFrom_concat _ _ _

/-! ### Places above a place -/

/-- The place lies above the other. -/
def Above (p q : Place) : Prop := p <+: q ∧ p ≠ q

instance (p q : Place) : Decidable (Above p q) := inferInstanceAs (Decidable (_ ∧ _))

theorem above_append {ns : List String} (p : Place) (h : ns ≠ []) : Above p (p ++ ns) :=
  ⟨List.prefix_append p ns, fun heq => h (List.self_eq_append_right.1 heq)⟩

theorem Above.trans {r : Place} (h : Above p q) (h' : Above q r) : Above p r := by
  refine ⟨h.1.trans h'.1, ?_⟩
  rintro rfl
  exact h.2 (h.1.eq_of_length_le h'.1.length_le)

theorem above_append_iff {ns ms : List String} : Above (p ++ ns) (p ++ ms) ↔ Above ns ms := by
  rw [Above, Above, List.prefix_append_right_inj, ne_eq, List.append_cancel_left_eq]

/-- No step of the path leads back: the places that it passes lie above its own. -/
def Straight (path : DiskPath) : Prop := ∀ q ∈ passed path, Above q (placeOf path)

instance (path : DiskPath) : Decidable (Straight path) :=
  inferInstanceAs (Decidable (∀ q ∈ passed path, _))

theorem Straight.child (h : Straight path) (hs : DiskPath.IsName s) : Straight (path.child s) := by
  have hplace : Above (placeOf path) (placeOf path ++ [s]) := above_append _ (by simp)
  intro q hq
  rw [passed_child path hs, List.mem_append, List.mem_singleton] at hq
  rw [placeOf_child path hs]
  rcases hq with hq | rfl
  · exact (h q hq).trans hplace
  · exact hplace

/-- Every entry of the tree lies in a directory. -/
def Grounded (t : FileTree) : Prop := ∀ e ∈ t.entries, t.get? e.1.dropLast = some .directory

instance (t : FileTree) : Decidable t.Grounded :=
  inferInstanceAs (Decidable (∀ e ∈ t.entries, _))

theorem Grounded.parent (h : t.Grounded) {n : String} (hq : t.get? (p ++ [n]) ≠ none) :
    t.get? p = some .directory := by
  cases hancestor : isAncestor (p ++ [n]) with
  | true =>
    rw [isAncestor, List.all_append, Bool.and_eq_true] at hancestor
    rw [get?, isAncestor, if_pos hancestor.1]
  | false =>
    rw [get?, hancestor, if_neg Bool.false_ne_true] at hq
    obtain ⟨e, he⟩ := Option.ne_none_iff_exists'.1 hq
    obtain ⟨before, after, hentries, -⟩ := List.lookup_eq_some_iff.1 he
    have hparent := h (p ++ [n], e) (by simp [hentries])
    rwa [List.dropLast_concat] at hparent

/-- What lies above an entry is a directory. -/
theorem Grounded.above (h : t.Grounded) (hq : t.get? q ≠ none) (hpq : Above p q) :
    t.get? p = some .directory := by
  obtain ⟨⟨ns, rfl⟩, hne⟩ := hpq
  induction ns using List.reverseRecOn with
  | nil => exact absurd (List.append_nil p).symm hne
  | append_singleton ns n ih =>
    rw [← List.append_assoc] at hq
    have hdir := h.parent hq
    by_cases hns : ns = []
    · rwa [hns, List.append_nil] at hdir
    · exact ih (by simp [hdir]) (above_append p hns).2

end FileTree

end ApiScaffold
