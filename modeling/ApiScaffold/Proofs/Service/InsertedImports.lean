import Mathlib.Logic.Relation
import ApiScaffold.Proofs.Service.Reread
import ApiScaffold.Proofs.TypeScript.ImportGroups
import ApiScaffold.Proofs.TypeScript.KnownImports

/-!
# Imports are inserted once

A reconciliation inserts the imports whose names it does not read in the file. This module says when
a name that has been inserted is read for good.

* `Reconcilable` gathers what makes a reconciliation one of whole lines; `Reconciles` relates the
  texts of a file before and after such a one, with any service and any settings;
* `Knows` says that a name is bound above the class of a file; `Reconcilable.knows`: one that is
  inserted where no import clause is open is; `Knows.reconciles`, `Knows.run`: and stays so;
* `imports_stay_known`: so no reconciliation inserts it again. Import lines bind all that they list,
  but for the word `type` at the end of a clause.
-/

namespace ApiScaffold.Reconcile

open TypeScript Splice ServiceFile Relation

variable {settings : Settings} {s : Service} {source later : List Char} {className name : String}
  {body : ClassBody} {i : Import}

/-- A class can be reconciled with a service: it is found, each edit takes whole lines, what is put
in can stand in the text as it is, and missing imports go above the class. -/
structure Reconcilable (settings : Settings) (s : Service) (className : String)
    (source : List Char) (body : ClassBody) : Prop where
  found : findClass? source className = some body
  lines : EditsLines settings s source body
  spelled : Spelled settings s
  above : ImportsAbove s source className

/-- A reconciliation of a class with some service takes one text to another. -/
inductive Reconciles (className : String) : List Char → List Char → Prop
  | step {settings : Settings} {s : Service} {source : List Char} {body : ClassBody}
      (h : Reconcilable settings s className source body) :
      Reconciles className source (apply source (changes settings s source body).edits)

/-- The brackets and literals of a file are closed, and above its class a name is bound. -/
structure Knows (className name : String) (source : List Char) : Prop where
  balanced : balanceProblems source = []
  bound : ∃ front z body, mask source = front ++ '\x7b' :: z ∧
    findClass? source className = some body ∧ body.opening = front.length ∧ BindsAbove name front

/-- The name is read in the file. -/
theorem Knows.mem (h : Knows className name source) (hname : IsName name.toList)
    (htype : name ≠ "type") : name ∈ importedNames source := by
  obtain ⟨front, z, -, hmask, -, -, hbound⟩ := h.bound
  rw [importedNames, hmask]
  exact hbound.mem hname htype _

/-- Above a class a line begins where missing imports are put in. -/
theorem Reread.fresh {f r : List Char} {body' : ClassBody}
    (h : Reread settings s source className body f r body') : freshAfter true f = true := by
  rcases h.place with rfl | ⟨xs, rfl, -⟩
  · rfl
  · exact freshAfter_concat true xs

/-- No import clause is open there, if none is at the place for them. -/
theorem Reread.closed {f r : List Char} {body' : ClassBody}
    (h : Reread settings s source className body f r body')
    (hclosed : ClausesClosed true ((mask source).take (importInsertionPoint source))) :
    ClausesClosed true f := by
  rcases h.place with rfl | ⟨xs, rfl, hlength⟩
  · trivial
  · obtain ⟨z, hz⟩ := h.before
    rw [hz, List.append_assoc, List.append_assoc, ← hlength, List.take_left] at hclosed
    exact hclosed.append_break

/-- **An import that is inserted is known.** -/
theorem Reconcilable.knows (h : Reconcilable settings s className source body)
    (hname : ClassWord className) (balanced : balanceProblems source = [])
    (hclosed : ClausesClosed true ((mask source).take (importInsertionPoint source)))
    (hi : i ∈ missingImports s source) :
    Knows className i.name (apply source (changes settings s source body).edits) := by
  obtain ⟨f, r, body', hbody'⟩ := exists_reread h.lines h.spelled h.above h.found balanced hname
  obtain ⟨z, hz⟩ := hbody'.after
  have hline : importOf settings i ∈ newImports settings s source := List.mem_map_of_mem hi
  rw [apply_edits h.found h.above]
  exact ⟨hbody'.balanced, _, z, body', hz, hbody'.found, hbody'.opening_after,
    bindsAbove_lines (sound_newImports h.spelled source) hline rfl hbody'.fresh
      (hbody'.closed hclosed) r⟩

/-- **A name that is known stays known,** with whatever service the class is reconciled. -/
theorem Knows.reconciles (h : Knows className name source) (hclass : ClassWord className)
    (hname : IsName name.toList) (hstep : Reconciles className source later) :
    Knows className name later := by
  obtain @⟨settings, s, source, body, hstep⟩ := hstep
  obtain ⟨f, r, body', hbody'⟩ :=
    exists_reread hstep.lines hstep.spelled hstep.above hstep.found h.balanced hclass
  obtain ⟨z, hz⟩ := hbody'.after
  obtain ⟨front, y, body₁, hy, hfound, hopening, hbound⟩ := h.bound
  have hfront : front = f ++ r := by
    obtain ⟨x, hx⟩ := hbody'.before
    obtain rfl : body₁ = body := Option.some.inj (hfound.symm.trans hstep.found)
    exact (List.append_inj (hy.symm.trans hx) (by rw [← hopening, hbody'.opening])).1
  rw [hfront] at hbound
  rw [apply_edits hstep.found hstep.above]
  exact ⟨hbody'.balanced, _, z, body', hz, hbody'.found, hbody'.opening_after,
    hbound.insert (sound_newImports hstep.spelled source) hname hbody'.fresh⟩

/-- So it does in any number of reconciliations. -/
theorem Knows.run (h : Knows className name source) (hclass : ClassWord className)
    (hname : IsName name.toList) (hrun : ReflTransGen (Reconciles className) source later) :
    Knows className name later := by
  induction hrun with
  | refl => exact h
  | tail _ hstep ih => exact ih.reconciles hclass hname hstep

/-- **Import lines bind what they list, and what has been inserted is not inserted again.** Of the
names in a clause the word `type` alone is not read, and that at its end only. An import that is
inserted where no import clause is open is known in all later texts of the file, so that it is
missing in none. -/
theorem imports_stay_known {gs : List ImportGroup} (hgs : ∀ g ∈ gs, g.Spelled)
    (h : Reconcilable settings s className source body) (hclass : ClassWord className)
    (balanced : balanceProblems source = [])
    (hclosed : ClausesClosed true ((mask source).take (importInsertionPoint source))) :
    importedNames (Render.joinLines (gs.map ImportGroup.line)) =
        (gs.flatMap fun g => boundOf g.names) ∧
      (∀ r, importedNames (groupLines gs ++ r) =
        (gs.flatMap fun g => boundOf g.names) ++ importedNames r) ∧
      ∀ i ∈ missingImports s source, i.name ≠ "" → i.name ≠ "type" →
        ∀ later, ReflTransGen (Reconciles className)
            (apply source (changes settings s source body).edits) later →
          i.name ∈ importedNames later ∧
            ∀ s', ∀ j ∈ missingImports s' later, j.name ≠ i.name := by
  refine ⟨importedNames_joinLines hgs, importedNames_groupLines hgs, ?_⟩
  intro i hi hne htype later hrun
  have hname : IsName i.name.toList := by
    refine (h.spelled.importNames i (List.mem_filter.1 hi).1).isName fun hnil => hne ?_
    exact String.toList_inj.1 hnil
  have hknown : i.name ∈ importedNames later :=
    ((h.knows hclass balanced hclosed hi).run hclass hname hrun).mem hname htype
  refine ⟨hknown, fun s' j hj heq => ?_⟩
  have hmissing := (List.mem_filter.1 hj).2
  rw [heq, List.contains_eq_mem, decide_eq_true hknown] at hmissing
  cases hmissing

/-- A class below an import line and perhaps others. -/
def boxSource (more : String) : List Char :=
  ("import \x7b Box \x7d from \x22./Box\x22;" ++ more ++ "\nclass BoxService \x7b\n\x7d\n").toList

/-- A service that imports one class. -/
def boxService (importName : String) : Service where
  name := "Box"
  description := ""
  methods := []
  imports := [⟨importName, "@/models/Part"⟩]

/-- The line of that import. -/
def partLine (importName : String) : String :=
  "\nimport \x7b " ++ importName ++ " \x7d from \x22@/models/Part.ts\x22;"

theorem spelled_boxService : Spelled {} (boxService "Lid") where
  name := by decide
  methods := by simp [boxService]
  bodyTypes := by simp [boxService]
  importNames := List.all_iff_forall_prop.1 (by decide)
  importPaths := List.all_iff_forall_prop.1 (by decide)
  extension := by decide
  frameworkModule := by decide

theorem reconcilable_boxSource :
    Reconcilable {} (boxService "Lid") "BoxService" (boxSource "") ⟨"BoxService", 46, 48, []⟩ where
  found := by decide +kernel
  lines := by
    have hedits : (changes {} (boxService "Lid") (boxSource "") ⟨"BoxService", 46, 48, []⟩).edits =
        [⟨28, 28, (partLine "Lid").toList⟩] := by decide +kernel
    intro e he _
    rw [hedits, List.mem_singleton] at he
    subst he
    exact ⟨28, 28, rfl, rfl, by decide +kernel, by decide +kernel⟩
  spelled := spelled_boxService
  above := Or.inr ⟨29, by decide +kernel, by decide +kernel⟩

/-- Once the import stands there, nothing is left to do. -/
theorem reconciles_boxSource :
    Reconciles "BoxService" (boxSource (partLine "Lid")) (boxSource (partLine "Lid")) := by
  have hedits : (changes {} (boxService "Lid") (boxSource (partLine "Lid"))
      ⟨"BoxService", 86, 88, []⟩).edits = [] := by decide +kernel
  have hstep : Reconcilable {} (boxService "Lid") "BoxService" (boxSource (partLine "Lid"))
      ⟨"BoxService", 86, 88, []⟩ :=
    { found := by decide +kernel
      lines := by
        intro e he
        rw [hedits] at he
        cases he
      spelled := spelled_boxService
      above := Or.inl (by decide +kernel) }
  have h := Reconciles.step hstep
  rwa [hedits, apply_nil] at h

/-- Lines that hold the name `type` in front of others, and by itself. -/
def typeGroups : List ImportGroup :=
  [⟨true, ["Box", "type", "of"], "./Box"⟩, ⟨false, ["type"], "./type"⟩]

theorem spelled_typeGroups : ∀ g ∈ typeGroups, g.Spelled := by
  have hnames : ∀ n ∈ ["Box", "type", "of"], n ≠ "" ∧ n.toList.all isNameChar = true :=
    List.all_iff_forall_prop.1 (by decide)
  have hname : ∀ n ∈ ["Box", "type", "of"], IsName n.toList := fun n hn =>
    ⟨fun hnil => (hnames n hn).1 (String.toList_inj.1 hnil), (hnames n hn).2⟩
  intro g hg
  rcases List.mem_pair.1 hg with rfl | rfl
  · exact ⟨hname, by decide⟩
  · exact ⟨fun n hn => hname n (by simp_all), by decide⟩

/-- The import of the lid is inserted, and known after the next reconciliation. -/
theorem imports_stay_known_lid :
    (∀ g ∈ typeGroups, g.Spelled) ∧
      (Reconcilable {} (boxService "Lid") "BoxService" (boxSource "") ⟨"BoxService", 46, 48, []⟩ ∧
        ClassWord "BoxService" ∧ balanceProblems (boxSource "") = [] ∧
        ClausesClosed true ((mask (boxSource "")).take (importInsertionPoint (boxSource ""))) ∧
        ⟨"Lid", "@/models/Part"⟩ ∈ missingImports (boxService "Lid") (boxSource "")) ∧
      importedNames (Render.joinLines (typeGroups.map ImportGroup.line)) = ["Box", "type", "of"] ∧
      "Lid" ∈ importedNames (boxSource (partLine "Lid")) := by
  have hclass : ClassWord "BoxService" := ⟨by decide, by decide, by decide⟩
  have balanced : balanceProblems (boxSource "") = [] := by decide +kernel
  have hclosed : ClausesClosed true
      ((mask (boxSource "")).take (importInsertionPoint (boxSource ""))) := by decide +kernel
  have hmissing : ⟨"Lid", "@/models/Part"⟩ ∈ missingImports (boxService "Lid") (boxSource "") := by
    decide +kernel
  have hrun : ReflTransGen (Reconciles "BoxService") (apply (boxSource "")
      (changes {} (boxService "Lid") (boxSource "") ⟨"BoxService", 46, 48, []⟩).edits)
        (boxSource (partLine "Lid")) := by
    have hafter : apply (boxSource "") (changes {} (boxService "Lid") (boxSource "")
        ⟨"BoxService", 46, 48, []⟩).edits = boxSource (partLine "Lid") := by decide +kernel
    have hagain := ReflTransGen.single reconciles_boxSource
    nth_rewrite 1 [← hafter] at hagain
    exact hagain
  obtain ⟨hread, -, hknown⟩ :=
    imports_stay_known spelled_typeGroups reconcilable_boxSource hclass balanced hclosed
  exact ⟨spelled_typeGroups, ⟨reconcilable_boxSource, hclass, balanced, hclosed, hmissing⟩,
    hread.trans (by decide), (hknown _ hmissing (by decide) (by decide) _ hrun).1⟩

/-- The name `type` is not read, so that its import is inserted again; and one that is inserted in a
comment is not read either. -/
theorem typeImport_inserted_twice :
    importedNames (Render.joinLines [Render.valueImport ["type"] "@/models/Part.ts"]) = [] ∧
      (∃ body ∈ findClass? (boxSource (partLine "type")) "BoxService",
        apply (boxSource (partLine "type"))
            (changes {} (boxService "type") (boxSource (partLine "type")) body).edits =
          boxSource (partLine "type" ++ partLine "type")) ∧
      ∃ body ∈ findClass? (boxSource " /* a\n b */") "BoxService",
        apply (boxSource " /* a\n b */")
            (changes {} (boxService "Lid") (boxSource " /* a\n b */") body).edits =
          boxSource (" /* a" ++ partLine "Lid" ++ "\n b */") ∧
        "Lid" ∉ importedNames (boxSource (" /* a" ++ partLine "Lid" ++ "\n b */")) := by
  refine ⟨by decide +kernel, ⟨⟨"BoxService", 87, 89, []⟩, by decide +kernel, by decide +kernel⟩,
    ⟨"BoxService", 57, 59, []⟩, by decide +kernel, by decide +kernel, by decide +kernel⟩

end ApiScaffold.Reconcile
