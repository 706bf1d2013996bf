import ApiScaffold.Proofs.TypeScript.ImportedNames
import ApiScaffold.Proofs.TypeScript.LineEdits

/-!
# Import lines read back

* `ImportGroup` is a line that imports any number of names, as values or as types;
* `ImportGroup.Spelled.piece`: it stands in code, and nothing but its module is masked;
* `importedNames_groups`: the names that such lines bind are those that they list, but for the word
  `type` at the end of a clause; what stands below them binds what it binds by itself.
-/

namespace ApiScaffold.TypeScript

/-- A line that imports names from a module. -/
structure ImportGroup where
  typeOnly : Bool
  names : List String
  module : String
  deriving DecidableEq, Repr

namespace ImportGroup

/-- The line as it is written. -/
def line (g : ImportGroup) : List Char :=
  (if g.typeOnly then Render.typeImport else Render.valueImport) g.names g.module

/-- What stands in front of the opening brace. -/
def front (g : ImportGroup) : List Char :=
  if g.typeOnly then "import type ".toList else "import ".toList

/-- The line with a text between its quotation marks. -/
def lineWith (g : ImportGroup) (module : List Char) : List Char :=
  g.front ++ '\x7b' :: (clauseOf g.names ++ '\x7d' :: behindClause module)

/-- The mask of the line. -/
def masked (g : ImportGroup) : List Char := g.lineWith (List.replicate g.module.length ' ')

/-- The names are names, and the module can stand between quotation marks as it is. -/
structure Spelled (g : ImportGroup) : Prop where
  names : ∀ n ∈ g.names, IsName n.toList
  module : g.module.toList.all isPlainText = true

variable {g : ImportGroup} {gs : List ImportGroup}

theorem line_eq (g : ImportGroup) : g.line = g.lineWith g.module.toList := by
  have hopen : " \x7b ".toList = [' ', '\x7b', ' '] := rfl
  have hclose : " \x7d from \x22".toList = ' ' :: '\x7d' :: " from \x22".toList := rfl
  have hvalue : "import ".toList = "import".toList ++ [' '] := rfl
  have htype : "import type ".toList = "import type".toList ++ [' '] := rfl
  unfold line lineWith front clauseOf behindClause
  split_ifs
  · unfold Render.typeImport Render.importLine
    rw [hopen, hclose, htype]
    simp only [List.append_assoc, List.cons_append, List.nil_append]
  · unfold Render.valueImport Render.importLine
    rw [hopen, hclose, hvalue]
    simp only [List.append_assoc, List.cons_append, List.nil_append]

theorem clauseFront_front (g : ImportGroup) : ClauseFront g.front := by
  unfold front
  split_ifs
  · exact clauseFront_importType
  · exact clauseFront_import

theorem Spelled.mem_clauseOf (h : g.Spelled) {c : Char} (hc : c ∈ clauseOf g.names) :
    c ∈ [',', ' '] ∨ isNameChar c = true := by
  unfold clauseOf Render.commaList at hc
  rw [String.toList_intercalate] at hc
  rw [List.mem_cons, List.mem_append, List.mem_singleton] at hc
  rcases hc with rfl | hc | rfl
  · exact Or.inl (by decide)
  · rcases Text.mem_joinWith hc with hsep | ⟨l, hl, hcl⟩
    · exact Or.inl hsep
    · obtain ⟨n, hn, rfl⟩ := List.mem_map.1 hl
      exact Or.inr ((h.names n hn).isNameChar hcl)
  · exact Or.inl (by decide)

theorem Spelled.brace_notMem (h : g.Spelled) : '\x7d' ∉ clauseOf g.names := by
  intro hmem
  rcases h.mem_clauseOf hmem with hc | hc <;> exact absurd hc (by decide)

/-- The line stands in code wherever it is put. -/
theorem Spelled.piece (h : g.Spelled) : Piece g.line g.masked fun _ => True := by
  have hfront : Piece g.front g.front fun _ => True := by
    unfold front
    split_ifs <;> exact .of_all (by decide)
  have hclause : Piece (clauseOf g.names) (clauseOf g.names) fun _ => True := by
    refine .of_plain fun c hc => ?_
    have hseparator : ∀ c ∈ [',', ' '], isPlainCode c = true := List.all_eq_true.1 (by decide)
    rcases h.mem_clauseOf hc with hc | hc
    · exact hseparator c hc
    · simp only [isNameChar, Bool.and_eq_true] at hc
      exact hc.1.1.1
  have hopen : Piece ['\x7b'] ['\x7b'] fun _ => True := .of_all (by decide)
  have hclose : Piece "\x7d from ".toList "\x7d from ".toList fun _ => True := .of_all (by decide)
  have hmodule : Piece ('\x22' :: (g.module.toList ++ ['\x22'])) _ fun _ => True :=
    Piece.literal (List.all_eq_true.1 h.module)
  have hend : Piece [';'] [';'] fun _ => True := .of_all (by decide)
  have hback := hclose.append (hmodule.append hend fun _ _ => trivial) fun _ _ => trivial
  have hall := hfront.append (hopen.append (hclause.append hback fun _ _ => trivial)
    fun _ _ => trivial) fun _ _ => trivial
  have hline : ∀ module, g.lineWith module = g.front ++ (['\x7b'] ++ (clauseOf g.names ++
      ("\x7d from ".toList ++ ('\x22' :: (module ++ ['\x22']) ++ [';'])))) := fun module => by
    have hfrom : "\x7d from ".toList = '\x7d' :: " from ".toList := rfl
    have hquote : " from \x22".toList = " from ".toList ++ ['\x22'] := rfl
    have hlast : "\x22;".toList = ['\x22', ';'] := rfl
    unfold lineWith behindClause
    rw [hfrom, hquote, hlast]
    simp only [List.append_assoc, List.cons_append, List.nil_append]
  rw [line_eq, masked, hline, hline, ← String.length_toList]
  exact hall

end ImportGroup

section Groups

variable {gs : List ImportGroup} {g : ImportGroup}

/-- Lines below each other, each with its line break. -/
def groupLines (gs : List ImportGroup) : List Char := gs.flatMap fun g => g.line ++ ['\n']

/-- The masks of lines below each other. -/
def maskedGroups (gs : List ImportGroup) : List Char := gs.flatMap fun g => g.masked ++ ['\n']

theorem piece_groupLines (h : ∀ g ∈ gs, g.Spelled) :
    Piece (groupLines gs) (maskedGroups gs) fun _ => True := by
  induction gs with
  | nil => exact .nil
  | cons g gs ih =>
    have hbreak : Piece ['\n'] ['\n'] fun _ => True := .of_all (by decide)
    have hline := (h g List.mem_cons_self).piece.append hbreak fun _ _ => trivial
    exact hline.append (ih fun k hk => h k (List.mem_cons_of_mem g hk)) fun _ _ => trivial

theorem clausesFrom_groups (h : ∀ g ∈ gs, g.Spelled) (r : List Char) :
    clausesFrom true 0 (maskedGroups gs ++ r) =
      gs.map (fun g => clauseOf g.names) ++ clausesFrom true 0 r := by
  induction gs with
  | nil => rfl
  | cons g gs ih =>
    have hline : maskedGroups (g :: gs) ++ r = g.front ++ '\x7b' :: (clauseOf g.names ++ '\x7d' ::
        (behindClause (List.replicate g.module.length ' ') ++ '\n' :: (maskedGroups gs ++ r))) := by
      simp [maskedGroups, ImportGroup.masked, ImportGroup.lineWith]
    rw [hline, clausesFrom_importLine g.clauseFront_front (h g List.mem_cons_self).brace_notMem,
      ih fun k hk => h k (List.mem_cons_of_mem g hk)]
    rfl

theorem flatMap_clauseNames (h : ∀ g ∈ gs, g.Spelled) :
    (gs.map fun g => clauseOf g.names).flatMap clauseNames =
      gs.flatMap fun g => boundOf g.names := by
  rw [List.flatMap_map]
  exact List.flatMap_congr fun g hg => clauseNames_clauseOf (h g hg).names

theorem linesAbove_groupLines (h : ∀ g ∈ gs, g.Spelled) (hne : gs ≠ []) :
    LinesAbove (groupLines gs) := by
  obtain ⟨front, g, rfl⟩ := (List.eq_nil_or_concat gs).resolve_left hne
  rw [List.concat_eq_append] at h ⊢
  have hfront : ∀ k ∈ front, k.Spelled := fun k hk => h k (by simp [hk])
  have hpiece := (piece_groupLines hfront).append (h g (by simp)).piece fun _ _ => trivial
  refine ⟨_, _, ?_, fun s r hs _ => hpiece s r hs trivial⟩
  simp [groupLines]

/-- **Import lines bind what they list,** but for the word `type` at the end of a clause, and change
nothing in what the text below them binds. -/
theorem importedNames_groupLines (h : ∀ g ∈ gs, g.Spelled) (r : List Char) :
    importedNames (groupLines gs ++ r) =
      (gs.flatMap fun g => boundOf g.names) ++ importedNames r := by
  by_cases hne : gs = []
  · subst hne
    rfl
  · have hlines : Piece (groupLines gs) (maskedGroups gs) LineBreakAhead := fun s r hs _ =>
      piece_groupLines h s r hs trivial
    rw [importedNames, (mask_top (linesAbove_groupLines h hne) r).1, maskedLine_of_piece hlines,
      clausesFrom_groups h, List.flatMap_append, flatMap_clauseNames h]
    rfl

/-- Without the last line break they bind the same. -/
theorem importedNames_joinLines (h : ∀ g ∈ gs, g.Spelled) :
    importedNames (Render.joinLines (gs.map ImportGroup.line)) =
      gs.flatMap fun g => boundOf g.names := by
  rcases List.eq_nil_or_concat gs with rfl | ⟨front, g, rfl⟩
  · rfl
  · rw [List.concat_eq_append] at h ⊢
    have hg := h g (by simp)
    have hjoin : Render.joinLines ((front ++ [g]).map ImportGroup.line) =
        groupLines front ++ g.line := by
      have happend : Render.joinLines ((front ++ [g]).map ImportGroup.line) ++ ['\n'] = _ :=
        Text.joinWith_append ['\n'] (by simp)
      have hsplit : ((front ++ [g]).map ImportGroup.line).flatMap (· ++ ['\n']) =
          (groupLines front ++ g.line) ++ ['\n'] := by
        rw [List.flatMap_map]
        simp [groupLines]
      exact List.append_cancel_right (happend.trans hsplit)
    have hlast : importedNames g.line = boundOf g.names := by
      rw [importedNames, hg.piece.mask_eq trivial, ImportGroup.masked, ImportGroup.lineWith,
        clausesFrom_clause g.clauseFront_front hg.brace_notMem,
        clausesFrom_lastLine (lineBreak_notMem_behindClause _), List.flatMap_singleton,
        clauseNames_clauseOf hg.names]
    rw [hjoin, importedNames_groupLines fun k hk => h k (by simp [hk]), hlast,
      List.flatMap_append, List.flatMap_singleton]

end Groups

end ApiScaffold.TypeScript
