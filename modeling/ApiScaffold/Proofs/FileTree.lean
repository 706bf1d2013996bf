import ApiScaffold.FileTree
import Mathlib.Tactic

/-!
# Files that are written again and again

* `FileAt t path c`: the path leads to a file with these contents;
* `fileAt_of_write`: so it does after every write;
* `FileAt.write`: what is a file can be written again;
* `write_of_write`: whether a file can be written does not depend on what is written.
-/

namespace ApiScaffold.FileTree

variable {t t' : FileTree} {p q r : Place} {path : DiskPath} {c : Content} {ns : List String}

/-- The path leads to a file with the given contents. -/
def FileAt (t : FileTree) (path : DiskPath) (c : Content) : Prop :=
  ∃ p, t.locate path = .ok p ∧ t.get? p = some (.file c)

theorem FileAt.read (h : FileAt t path c) : t.read path = .ok c := by
  obtain ⟨p, hlocate, hget⟩ := h
  rw [FileTree.read, lookup, hlocate]
  dsimp only
  rw [hget]

theorem FileAt.holds (h : FileAt t path c) : t.holds path = true := by
  obtain ⟨p, hlocate, hget⟩ := h
  rw [FileTree.holds, lookup, hlocate]
  dsimp only
  rw [hget]

/-! ### Places that stay where they are -/

theorem isAncestor_of_ne (h : t.get? p ≠ some .directory) : isAncestor p = false := by
  by_contra hp
  exact h (by rw [get?, if_pos (by simpa using hp)])

/-- A path does not pass a place that is no directory, so that an entry put there leaves the path
alone. -/
theorem walk_put (hq : t.get? q ≠ some .directory) (e : Entry) (h : t.walk p ns = .ok r) :
    (t.put q e).walk p ns = .ok r := by
  induction ns generalizing p with
  | nil => exact h
  | cons n ns ih =>
    rw [walk] at h
    split at h
    · next hdir =>
      have hpq : p ≠ q := by
        rintro rfl
        exact hq hdir
      rw [walk, get?_put _ _ _ _ (isAncestor_of_ne hq), if_neg hpq, hdir]
      exact ih h
    · cases h
    · cases h

theorem locate_put (hq : t.get? q ≠ some .directory) (e : Entry) (h : t.locate path = .ok r) :
    (t.put q e).locate path = .ok r := by
  unfold locate at h ⊢
  split_ifs at h ⊢
  exact walk_put hq e h

/-- The last step of a path is taken from a directory. -/
theorem walk_append {n : String} (h : t.walk p (ns ++ [n]) = .ok q) :
    ∃ r, t.walk p ns = .ok r ∧ t.get? r = some .directory := by
  induction ns generalizing p with
  | nil =>
    rw [List.nil_append, walk] at h
    split at h
    · next hdir => exact ⟨p, rfl, hdir⟩
    · cases h
    · cases h
  | cons m ns ih =>
    rw [List.cons_append, walk] at h
    rw [walk]
    split at h
    · exact ih h
    · cases h
    · cases h

/-! ### Writing -/

theorem writeFile_ok (h : t.writeFile path c = .ok t') :
    ∃ p, t.locate path = .ok p ∧ t.get? p ≠ some .directory ∧ t' = t.put p (.file c) := by
  unfold writeFile at h
  split at h
  · cases h
  · next p hlocate =>
    split at h
    · cases h
    · next hdir =>
      cases h
      exact ⟨p, hlocate, hdir, rfl⟩

theorem writeFile_of_locate (hlocate : t.locate path = .ok p) (hdir : t.get? p ≠ some .directory)
    (c : Content) : t.writeFile path c = .ok (t.put p (.file c)) := by
  rw [writeFile, hlocate]
  dsimp only
  split
  · next h => exact absurd h hdir
  · rfl

theorem fileAt_put (hlocate : t.locate path = .ok p) (hdir : t.get? p ≠ some .directory)
    (c : Content) : FileAt (t.put p (.file c)) path c := by
  refine ⟨p, locate_put hdir _ hlocate, ?_⟩
  rw [get?_put _ _ _ _ (isAncestor_of_ne hdir), if_pos rfl]

/-- **What was written is there.** -/
theorem fileAt_of_write (h : t.write path c = .ok t') : FileAt t' path c := by
  unfold FileTree.write at h
  split at h
  · cases h
  · obtain ⟨p, hlocate, hdir, rfl⟩ := writeFile_ok h
    exact fileAt_put hlocate hdir c

/-- Whether a file can be written does not depend on what is written. -/
theorem write_of_write (h : t.write path c = .ok t') (c' : Content) :
    ∃ t'', t.write path c' = .ok t'' := by
  unfold FileTree.write at h ⊢
  split at h
  · cases h
  · next made hmade =>
    obtain ⟨p, hlocate, hdir, -⟩ := writeFile_ok h
    exact ⟨_, writeFile_of_locate hlocate hdir c'⟩

theorem exists_write (h : (t.write path c).toOption.isSome = true) (c' : Content) :
    ∃ t', t.write path c' = .ok t' := by
  cases hwrite : t.write path c with
  | error e =>
    rw [hwrite] at h
    cases h
  | ok made => exact write_of_write hwrite c'

/-- The directories above a file are there. -/
theorem FileAt.makeDirectories (h : FileAt t path c) :
    t.makeDirectories path.root path.parent.names.reverse = .ok t := by
  obtain ⟨p, hlocate, -⟩ := h
  rw [DiskPath.parent]
  -- The directory right above the file is tried first, and it is there.
  rcases List.eq_nil_or_concat path.names.dropLast with hnil | ⟨outer, n, hconcat⟩
  · rw [hnil]
    rfl
  · have hnames : path.names = path.names.dropLast ++ [path.names.getLast (by
        intro hnames
        rw [hnames] at hconcat
        simp at hconcat)] := (List.dropLast_append_getLast _).symm
    unfold locate at hlocate
    split_ifs at hlocate with hbad
    rw [hnames] at hlocate
    obtain ⟨r, hwalk, hdir⟩ := walk_append hlocate
    have hparent : t.locate ⟨path.root, path.names.dropLast⟩ = .ok r := by
      unfold locate
      rw [if_neg, hwalk]
      intro hany
      obtain ⟨m, hm, hzero⟩ := List.any_eq_true.1 hany
      exact hbad (List.any_eq_true.2 ⟨m, List.mem_of_mem_dropLast hm, hzero⟩)
    have hmake : t.makeDirectory ⟨path.root, path.names.dropLast⟩ = .error .occupied := by
      rw [makeDirectory, hparent]
      dsimp only
      rw [hdir]
    have hisDirectory : t.isDirectory ⟨path.root, path.names.dropLast⟩ = true := by
      rw [isDirectory, lookup, hparent]
      dsimp only
      rw [hdir]
    rw [hconcat, List.concat_eq_append] at hmake hisDirectory ⊢
    rw [List.reverse_append, List.reverse_singleton, List.singleton_append,
      FileTree.makeDirectories]
    simp [hmake, hisDirectory]

/-- **A file can be written again.** -/
theorem FileAt.write (h : FileAt t path c) (c' : Content) :
    ∃ t', t.write path c' = .ok t' ∧ FileAt t' path c' := by
  obtain ⟨p, hlocate, hget⟩ := id h
  have hdir : t.get? p ≠ some .directory := by
    rw [hget]
    exact fun heq => by cases heq
  refine ⟨t.put p (.file c'), ?_, fileAt_put hlocate hdir c'⟩
  rw [FileTree.write, h.makeDirectories]
  exact writeFile_of_locate hlocate hdir c'

end ApiScaffold.FileTree
