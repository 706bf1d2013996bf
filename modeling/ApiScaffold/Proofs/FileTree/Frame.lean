import ApiScaffold.Proofs.FileTree

/-!
# What a write changes

A path leads to a place that depends on its names alone (`placeOf`), through the places that it
passes (`passed`).  Whether it can be followed is a matter of the tree.

* `lookup_eq_ok_iff`: what is at the end of a path is what is at its place, if all places passed are
  directories;
* `exists_write_iff`: a file can be written if no other file is in the way and no directory in its
  place, directories that are missing being made;
* `get?_of_write`: a write puts the file at its place and directories at the places passed, and
  changes nothing else.
-/

namespace ApiScaffold.FileTree

variable {t t' : FileTree} {p q r : Place} {path : DiskPath} {c : Content} {ns : List String}
  {root : String}

/-- The place that a path leads to, if it can be followed. -/
def placeOf (path : DiskPath) : Place := path.names.foldl step (origin path.root)

/-- The places from which the steps along names are taken. -/
def passedFrom : Place → List String → List Place
  | _, [] => []
  | p, n :: ns => p :: passedFrom (step p n) ns

/-- The places that a path passes on the way to its own. -/
def passed (path : DiskPath) : List Place := passedFrom (origin path.root) path.names

/-- Whether the names can be those of a path. -/
def Spelled (ns : List String) : Prop := ∀ n ∈ ns, '\x00' ∉ n.toList

theorem passedFrom_append (p : Place) (ns ms : List String) :
    passedFrom p (ns ++ ms) = passedFrom p ns ++ passedFrom (ns.foldl step p) ms := by
  induction ns generalizing p with
  | nil => rfl
  | cons n ns ih => rw [List.cons_append, passedFrom, ih, passedFrom, List.cons_append]; rfl

/-- The way to the end of names and one name further. -/
theorem passedFrom_concat (p : Place) (ns : List String) (n : String) :
    passedFrom p (ns ++ [n]) = passedFrom p ns ++ [ns.foldl step p] := by
  rw [passedFrom_append]
  rfl

/-! ### Following a path -/

theorem walk_eq_ok_iff :
    t.walk p ns = .ok q ↔
      (∀ r ∈ passedFrom p ns, t.get? r = some .directory) ∧ q = ns.foldl step p := by
  induction ns generalizing p with
  | nil => simp [walk, passedFrom, eq_comm]
  | cons n ns ih =>
    rw [walk, passedFrom, List.foldl_cons]
    split
    · next h => rw [ih]; simp [h]
    · next h => simp [h]
    · next h => simp [h]

/-- A path that cannot be followed meets a file or misses a directory. -/
theorem walk_eq_error {e : AccessFault} (h : t.walk p ns = .error e) :
    e = .missing ∨ ∃ r ∈ passedFrom p ns, ∃ c, t.get? r = some (.file c) := by
  induction ns generalizing p with
  | nil => cases h
  | cons n ns ih =>
    rw [walk] at h
    split at h
    · rcases ih h with rfl | ⟨r, hr, hfile⟩
      · exact .inl rfl
      · exact .inr ⟨r, List.mem_cons_of_mem _ hr, hfile⟩
    · next c hfile => exact .inr ⟨p, List.mem_cons_self, c, hfile⟩
    · cases h
      exact .inl rfl

theorem spelled_iff : (ns.any fun n => n.toList.contains '\x00') = false ↔ Spelled ns := by
  simp [Spelled]

theorem locate_eq_ok_iff :
    t.locate path = .ok p ↔
      Spelled path.names ∧ (∀ r ∈ passed path, t.get? r = some .directory) ∧ p = placeOf path := by
  rw [locate]
  split
  · next h =>
    have hspelled : ¬ Spelled path.names := by
      rw [← spelled_iff, h]
      exact Bool.noConfusion
    simp [hspelled]
  · next h =>
    rw [Bool.not_eq_true, spelled_iff] at h
    simp [h, walk_eq_ok_iff, passed, placeOf]

theorem locate_eq_error {e : AccessFault} (hspelled : Spelled path.names)
    (h : t.locate path = .error e) :
    e = .missing ∨ ∃ r ∈ passed path, ∃ c, t.get? r = some (.file c) := by
  rw [locate, if_neg (by simpa using spelled_iff.2 hspelled)] at h
  exact walk_eq_error h

/-- A path leads to its place, or cannot be followed. -/
theorem locate_cases (t : FileTree) (path : DiskPath) :
    (∃ e, t.locate path = .error e) ∨ t.locate path = .ok (placeOf path) := by
  cases h : t.locate path with
  | error e => exact .inl ⟨e, rfl⟩
  | ok p => exact .inr (congrArg Except.ok (locate_eq_ok_iff.1 h).2.2)

/-- What is at the end of a path is what is at its place, if the path can be followed. -/
theorem lookup_eq_ok_iff {e : Entry} :
    t.lookup path = .ok e ↔
      t.locate path = .ok (placeOf path) ∧ t.get? (placeOf path) = some e := by
  rcases t.locate_cases path with ⟨f, h⟩ | h
  · simp [lookup, h]
  · cases hget : t.get? (placeOf path) <;> simp [lookup, h, hget]

theorem fileAt_iff : FileAt t path c ↔ t.lookup path = .ok (.file c) := by
  rw [lookup_eq_ok_iff]
  constructor
  · rintro ⟨p, hlocate, hget⟩
    obtain rfl := (locate_eq_ok_iff.1 hlocate).2.2
    exact ⟨hlocate, hget⟩
  · rintro ⟨hlocate, hget⟩
    exact ⟨_, hlocate, hget⟩

/-- Trees with the same at every place have the same at the end of every path. -/
theorem lookup_congr (h : ∀ q, t'.get? q = t.get? q) : t'.lookup path = t.lookup path := by
  have hwalk : ∀ p ns, t'.walk p ns = t.walk p ns := by
    intro p ns
    induction ns generalizing p with
    | nil => rfl
    | cons n ns ih => rw [walk, walk, h, ih]
  rw [lookup, lookup, locate, locate, hwalk]
  split
  · rfl
  · rw [h]

/-! ### Making directories -/

theorem makeDirectory_eq_ok_iff :
    t.makeDirectory path = .ok t' ↔
      t.locate path = .ok (placeOf path) ∧ t.get? (placeOf path) = none ∧
        t' = t.put (placeOf path) .directory := by
  rcases t.locate_cases path with ⟨f, h⟩ | h
  · simp [makeDirectory, h]
  · cases hget : t.get? (placeOf path) <;> simp [makeDirectory, h, hget, eq_comm]

/-- What stops the making of a directory stops the way to it, or is something at its place. -/
theorem makeDirectory_error_cases {e : AccessFault} (h : t.makeDirectory path = .error e) :
    t.locate path = .error e ∨ t.locate path = .ok (placeOf path) ∧ e ≠ .missing := by
  rcases t.locate_cases path with ⟨f, hlocate⟩ | hlocate
  · rw [makeDirectory, hlocate] at h
    exact .inl (hlocate.trans (congrArg Except.error (Except.error.inj h)))
  · refine .inr ⟨hlocate, ?_⟩
    rintro rfl
    rw [makeDirectory, hlocate] at h
    dsimp only at h
    split at h <;> cases h

theorem isDirectory_iff :
    t.isDirectory path = true ↔
      t.locate path = .ok (placeOf path) ∧ t.get? (placeOf path) = some .directory := by
  rw [isDirectory, ← lookup_eq_ok_iff]
  split
  · next h => simp [h]
  · next h => exact ⟨by rintro ⟨⟩, fun he => absurd he (h · )⟩

/-- Makes a directory where none is. -/
def ensureDirectory (t : FileTree) (path : DiskPath) : Except AccessFault FileTree :=
  match t.makeDirectory path with
  | .ok t => .ok t
  | .error e => if t.isDirectory path then .ok t else .error e

theorem makeDirectories_concat (t : FileTree) (root : String) (ns : List String) (n : String) :
    t.makeDirectories root (ns ++ [n]).reverse =
      match t.makeDirectory ⟨root, ns ++ [n]⟩ with
      | .error .missing =>
        match t.makeDirectories root ns.reverse with
        | .ok t => t.ensureDirectory ⟨root, ns ++ [n]⟩
        | .error e => .error e
      | _ => t.ensureDirectory ⟨root, ns ++ [n]⟩ := by
  rw [List.reverse_append, List.reverse_singleton, List.singleton_append, makeDirectories]
  simp only [List.reverse_cons, List.reverse_reverse]
  rfl

/-- The places of a list get directories, and nothing else changes. -/
structure Opened (t t' : FileTree) (ps : List Place) : Prop where
  /-- No file is in the way. -/
  free : ∀ r ∈ ps, ∀ c, t.get? r ≠ some (.file c)
  get? : ∀ q, t'.get? q = if q ∈ ps then some .directory else t.get? q

/-- What is made in two steps. -/
theorem Opened.trans {t'' : FileTree} {ps qs : List Place} (h : Opened t t' ps)
    (h' : Opened t' t'' qs) (hsub : ps ⊆ qs) : Opened t t'' qs where
  free r hr c hfile := by
    by_cases hps : r ∈ ps
    · exact h.free r hps c hfile
    · exact h'.free r hr c (by rw [h.get?, if_neg hps, hfile])
  get? q := by
    rw [h'.get?]
    split
    · rfl
    · next hq => rw [h.get?, if_neg fun hps => hq (hsub hps)]

/-- The places on the way to the end of a path, its own included. -/
def along (path : DiskPath) : List Place := passed path ++ [placeOf path]

theorem along_eq (root : String) (ns : List String) (n : String) :
    passed ⟨root, ns ++ [n]⟩ = along ⟨root, ns⟩ := passedFrom_concat _ ns n

theorem get?_origin (t : FileTree) (root : String) : t.get? (origin root) = some .directory := by
  rw [get?, if_pos]
  unfold origin
  split <;> decide

/-- A directory is made where nothing is, or found. -/
theorem ensureDirectory_cases (h : t.ensureDirectory path = .ok t') :
    t.locate path = .ok (placeOf path) ∧
      (t.get? (placeOf path) = none ∧ t' = t.put (placeOf path) .directory ∨
        t.get? (placeOf path) = some .directory ∧ t' = t) := by
  unfold ensureDirectory at h
  split at h
  · next hmade =>
    cases h
    obtain ⟨hlocate, hnone, rfl⟩ := makeDirectory_eq_ok_iff.1 hmade
    exact ⟨hlocate, .inl ⟨hnone, rfl⟩⟩
  · split_ifs at h with hdir
    cases h
    obtain ⟨hlocate, hget⟩ := isDirectory_iff.1 hdir
    exact ⟨hlocate, .inr ⟨hget, rfl⟩⟩

theorem opened_of_ensureDirectory (h : t.ensureDirectory path = .ok t') :
    Spelled path.names ∧ Opened t t' (along path) := by
  obtain ⟨hlocate, hplace⟩ := ensureDirectory_cases h
  obtain ⟨hspelled, hpassed, -⟩ := locate_eq_ok_iff.1 hlocate
  refine ⟨hspelled, ⟨?_, ?_⟩⟩
  · intro r hr c hfile
    rcases List.mem_append.1 hr with hr | hr
    · cases (hpassed r hr).symm.trans hfile
    · rw [List.mem_singleton.1 hr] at hfile
      rcases hplace with ⟨hnone, -⟩ | ⟨hdir, -⟩
      · cases hnone.symm.trans hfile
      · cases hdir.symm.trans hfile
  · intro q
    rcases hplace with ⟨hnone, rfl⟩ | ⟨hdir, rfl⟩
    · rw [get?_put _ _ _ _ (isAncestor_of_ne (t := t) (by simp [hnone])), along]
      by_cases hq : q = placeOf path
      · simp [hq]
      · by_cases hp : q ∈ passed path
        · simp [hq, hp, hpassed q hp]
        · simp [hq, hp]
    · split
      · next hq =>
        rcases List.mem_append.1 hq with hq | hq
        · exact hpassed q hq
        · rw [List.mem_singleton.1 hq, hdir]
      · rfl

theorem opened_of_makeDirectories (h : t.makeDirectories root ns.reverse = .ok t') :
    Spelled ns ∧ Opened t t' (along ⟨root, ns⟩) := by
  induction ns using List.reverseRecOn generalizing t' with
  | nil =>
    cases h
    have horigin : along ⟨root, []⟩ = [origin root] := rfl
    rw [horigin]
    refine ⟨by simp [Spelled], ⟨?_, ?_⟩⟩
    · simp [get?_origin]
    · intro q
      by_cases hq : q = origin root
      · simp [hq, get?_origin]
      · simp [hq]
  | append_singleton ns n ih =>
    rw [makeDirectories_concat] at h
    split at h
    · split at h
      · next made hmade =>
        obtain ⟨hspelled, hopened⟩ := opened_of_ensureDirectory h
        refine ⟨hspelled, (ih hmade).2.trans hopened ?_⟩
        rw [← along_eq root ns n]
        exact List.subset_append_left _ _
      · cases h
    · exact opened_of_ensureDirectory h

theorem exists_ensureDirectory (hspelled : Spelled path.names)
    (hpassed : ∀ r ∈ passed path, t.get? r = some .directory)
    (hplace : ∀ c, t.get? (placeOf path) ≠ some (.file c)) :
    ∃ t', t.ensureDirectory path = .ok t' := by
  have hlocate : t.locate path = .ok (placeOf path) :=
    locate_eq_ok_iff.2 ⟨hspelled, hpassed, rfl⟩
  rw [ensureDirectory]
  cases hget : t.get? (placeOf path) with
  | none => exact ⟨_, by rw [makeDirectory_eq_ok_iff.2 ⟨hlocate, hget, rfl⟩]⟩
  | some e =>
    cases e with
    | file c => exact absurd hget (hplace c)
    | directory =>
      split
      · exact ⟨_, rfl⟩
      · exact ⟨t, by rw [if_pos (isDirectory_iff.2 ⟨hlocate, hget⟩)]⟩

/-- Directories can be made if no file is in their way. -/
theorem exists_makeDirectories (t : FileTree) (root : String) (hspelled : Spelled ns)
    (hfree : ∀ r ∈ along ⟨root, ns⟩, ∀ c, t.get? r ≠ some (.file c)) :
    ∃ t', t.makeDirectories root ns.reverse = .ok t' := by
  induction ns using List.reverseRecOn with
  | nil => exact ⟨t, rfl⟩
  | append_singleton ns n ih =>
    have hway : passed ⟨root, ns ++ [n]⟩ = along ⟨root, ns⟩ := along_eq root ns n
    have hplace : ∀ c, t.get? (placeOf ⟨root, ns ++ [n]⟩) ≠ some (.file c) :=
      hfree _ (List.mem_append_right _ List.mem_cons_self)
    obtain ⟨made, hmade⟩ := ih (fun m hm => hspelled m (List.mem_append_left _ hm)) fun r hr =>
      hfree r (List.mem_append_left _ (hway ▸ hr))
    rw [makeDirectories_concat]
    -- Whatever stops the first attempt is no file, so a directory outside is missing.
    cases hfirst : t.makeDirectory ⟨root, ns ++ [n]⟩ with
    | ok t' =>
      obtain ⟨hlocate, -, -⟩ := makeDirectory_eq_ok_iff.1 hfirst
      exact exists_ensureDirectory hspelled (locate_eq_ok_iff.1 hlocate).2.1 hplace
    | error e =>
      rcases makeDirectory_error_cases hfirst with hlocate | ⟨hlocate, hoccupied⟩
      · rcases locate_eq_error hspelled hlocate with rfl | ⟨r, hr, c, hfile⟩
        · rw [hmade]
          have hopened := (opened_of_makeDirectories hmade).2
          refine exists_ensureDirectory hspelled (fun r hr => ?_) fun c hfile => ?_
          · rw [hopened.get?, if_pos (hway ▸ hr)]
          · rw [hopened.get?] at hfile
            split_ifs at hfile
            · cases hfile
            · exact hplace c hfile
        · exact absurd hfile (hfree r (List.mem_append_left _ hr) c)
      · split
        · next h => exact absurd (Except.error.inj h) hoccupied
        · exact exists_ensureDirectory hspelled (locate_eq_ok_iff.1 hlocate).2.1 hplace

/-! ### Writing -/

/-- A file can be written: no file is in the way of its directories, and no directory is in its
place or has to be made there. -/
structure Writable (t : FileTree) (path : DiskPath) : Prop where
  spelled : Spelled path.names
  way : ∀ r ∈ passed path, ∀ c, t.get? r ≠ some (.file c)
  apart : placeOf path ∉ passed path
  place : t.get? (placeOf path) ≠ some .directory

/-- The directories of a file are made first. -/
theorem made_of_write (h : t.write path c = .ok t') :
    ∃ made, Opened t made (passed path) ∧ made.writeFile path c = .ok t' := by
  unfold FileTree.write at h
  split at h
  · cases h
  · next made hmade =>
    refine ⟨made, ?_, h⟩
    obtain ⟨root, names⟩ := path
    rcases List.eq_nil_or_concat names with rfl | ⟨ns, n, rfl⟩
    · -- A path without names leads to a directory.
      obtain ⟨p, hlocate, hdir, -⟩ := writeFile_ok h
      cases hlocate
      exact absurd (get?_origin made root) hdir
    · rw [List.concat_eq_append, along_eq]
      rw [DiskPath.parent, List.concat_eq_append, List.dropLast_concat] at hmade
      exact (opened_of_makeDirectories hmade).2

theorem writable_of_write (h : t.write path c = .ok t') : t.Writable path := by
  obtain ⟨made, hopened, hwrite⟩ := made_of_write h
  obtain ⟨p, hlocate, hdir, -⟩ := writeFile_ok hwrite
  obtain ⟨hspelled, -, rfl⟩ := locate_eq_ok_iff.1 hlocate
  have hapart : placeOf path ∉ passed path := fun hp => hdir (by rw [hopened.get?, if_pos hp])
  refine ⟨hspelled, hopened.free, hapart, ?_⟩
  rwa [hopened.get?, if_neg hapart] at hdir

/-- A file can be written where nothing is in the way. -/
theorem Writable.write (h : t.Writable path) (c : Content) : ∃ t', t.write path c = .ok t' := by
  obtain ⟨root, names⟩ := path
  rcases List.eq_nil_or_concat names with rfl | ⟨ns, n, rfl⟩
  · exact absurd (get?_origin t root) h.place
  · rw [List.concat_eq_append] at h ⊢
    have hway : passed ⟨root, ns ++ [n]⟩ = along ⟨root, ns⟩ := along_eq root ns n
    obtain ⟨made, hmade⟩ := exists_makeDirectories t root
      (fun m hm => h.spelled m (List.mem_append_left _ hm)) (hway ▸ h.way)
    have hopened := (opened_of_makeDirectories hmade).2
    rw [← hway] at hopened
    have hlocate : made.locate ⟨root, ns ++ [n]⟩ = .ok (placeOf ⟨root, ns ++ [n]⟩) :=
      locate_eq_ok_iff.2 ⟨h.spelled, fun r hr => by rw [hopened.get?, if_pos hr], rfl⟩
    have hdir : made.get? (placeOf ⟨root, ns ++ [n]⟩) ≠ some .directory := by
      rw [hopened.get?, if_neg h.apart]
      exact h.place
    refine ⟨made.put (placeOf ⟨root, ns ++ [n]⟩) (.file c), ?_⟩
    rw [FileTree.write, DiskPath.parent, List.dropLast_concat, hmade]
    exact writeFile_of_locate hlocate hdir c

/-- **When a file can be written.** -/
theorem exists_write_iff : (∃ t', t.write path c = .ok t') ↔ t.Writable path :=
  ⟨fun ⟨_, h⟩ => writable_of_write h, fun h => h.write c⟩

/-- **What a write changes.** The file is put at its place, directories are at the places passed,
and nothing else changes. -/
theorem get?_of_write (h : t.write path c = .ok t') (q : Place) :
    t'.get? q = if q = placeOf path then some (.file c)
      else if q ∈ passed path then some .directory else t.get? q := by
  obtain ⟨made, hopened, hwrite⟩ := made_of_write h
  obtain ⟨p, hlocate, hdir, rfl⟩ := writeFile_ok hwrite
  obtain rfl := (locate_eq_ok_iff.1 hlocate).2.2
  rw [get?_put _ _ _ _ (isAncestor_of_ne hdir), hopened.get?]

/-! ### Files -/

/-- The contents of the file at a place, if a file is there. -/
def file? (t : FileTree) (p : Place) : Option Content :=
  match t.get? p with
  | some (.file c) => some c
  | _ => none

theorem file?_eq_some_iff : t.file? p = some c ↔ t.get? p = some (.file c) := by
  rw [file?]
  split
  · next h => simp [h]
  · next h => exact ⟨by rintro ⟨⟩, fun he => absurd he (h c)⟩

theorem file?_eq_none (h : ∀ c, t.get? p ≠ some (.file c)) : t.file? p = none := by
  rw [file?]
  split
  · next c hfile => exact absurd hfile (h c)
  · rfl

/-- A write changes no file but its own. -/
theorem file?_of_write (h : t.write path c = .ok t') (q : Place) :
    t'.file? q = if q = placeOf path then some c else t.file? q := by
  rw [file?, get?_of_write h]
  by_cases hq : q = placeOf path
  · rw [if_pos hq, if_pos hq]
  · rw [if_neg hq, if_neg hq]
    by_cases hpassed : q ∈ passed path
    · rw [if_pos hpassed, file?_eq_none ((writable_of_write h).way q hpassed)]
    · rw [if_neg hpassed, file?]

/-- A file stays where it is while others are written. -/
theorem FileAt.of_write {other : DiskPath} {d : Content} (h : FileAt t path c)
    (hwrite : t.write other d = .ok t') (hne : placeOf path ≠ placeOf other) :
    FileAt t' path c := by
  obtain ⟨p, hlocate, hget⟩ := h
  obtain ⟨hspelled, hpassed, rfl⟩ := locate_eq_ok_iff.1 hlocate
  have hfile : t'.file? (placeOf path) = some c := by
    rw [file?_of_write hwrite, if_neg hne, file?_eq_some_iff, hget]
  refine ⟨_, locate_eq_ok_iff.2 ⟨hspelled, fun r hr => ?_, rfl⟩, file?_eq_some_iff.1 hfile⟩
  have hother : r ≠ placeOf other := by
    rintro rfl
    exact (writable_of_write hwrite).place (hpassed _ hr)
  rw [get?_of_write hwrite, if_neg hother, hpassed r hr, ite_self]

theorem FileAt.congr (h : FileAt t path c) (hsame : ∀ q, t'.get? q = t.get? q) :
    FileAt t' path c := by
  rw [fileAt_iff, lookup_congr hsame]
  exact fileAt_iff.1 h

/-- Writing again what a file holds changes nothing. -/
theorem FileAt.write_same (h : FileAt t path c) :
    ∃ t', t.write path c = .ok t' ∧ ∀ q, t'.get? q = t.get? q := by
  obtain ⟨t', hwrite, -⟩ := h.write c
  obtain ⟨p, hlocate, hget⟩ := h
  obtain ⟨-, hpassed, rfl⟩ := locate_eq_ok_iff.1 hlocate
  refine ⟨t', hwrite, fun q => ?_⟩
  rw [get?_of_write hwrite]
  split_ifs with hq hp
  · rw [hq, hget]
  · rw [hpassed q hp]
  · rfl

end ApiScaffold.FileTree
