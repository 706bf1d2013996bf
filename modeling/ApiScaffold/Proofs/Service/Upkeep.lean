import ApiScaffold.Proofs.FileTree
import ApiScaffold.Proofs.Reconcile
import ApiScaffold.Proofs.Service.Rendering
import ApiScaffold.Proofs.TypeScript.HandEdit

/-!
# What a build does to a service file

* `upkept` is the layout of a service file after a build: methods that are no operations are gone,
  stubs of new operations come below the others, and missing imports below the import lines;
* `reconciled_eq`: this is what a reconciliation makes of the text;
* `generateService_new`, `generateService_upkept`: a build writes the file of the service if there
  is none, and otherwise brings the one that is there up to date; neither fails.
-/

namespace ApiScaffold.ServiceFile

open TypeScript Splice

/-- Whether a build takes the method out of the file. -/
def gone (s : Service) (e : MethodText) : Bool :=
  !(s.methods.map (·.name)).contains (String.ofList e.name) &&
    !Reconcile.protectedMembers.contains (String.ofList e.name)

/-- The operations that the file has no method for. -/
def newcomers (s : Service) (l : Layout) : List Method :=
  s.methods.filter fun m => !(l.methods.map fun e => String.ofList e.name).contains m.name

/-- The layout of a service file after a build. -/
def upkept (settings : Settings) (s : Service) (l : Layout) : Layout :=
  { l with
    imports := l.imports ++ (Reconcile.missingImports s l.text).map (importOf settings)
    methods := l.methods.filter (fun e => !gone s e) ++ (newcomers s l).map stubOf }

variable {settings : Settings} {s : Service} {l : Layout} {e : MethodText}
  {es before after : List MethodText}

/-! ### Methods that are cut out -/

/-- Whether an offset lies in a method with a property, the methods beginning at the offset
`pos`. -/
def inMethod (p : MethodText → Bool) : (pos : ℕ) → List MethodText → ℕ → Bool
  | _, [], _ => false
  | pos, e :: es, i =>
    (p e && (decide (pos ≤ i) && decide (i < pos + e.text.length))) ||
      inMethod p (pos + e.text.length) es i

theorem inMethod_of_lt (p : MethodText → Bool) {pos i : ℕ} (h : i < pos) :
    inMethod p pos es i = false := by
  induction es generalizing pos with
  | nil => rfl
  | cons e es ih =>
    rw [inMethod, ih (by omega), decide_eq_false (by omega)]
    simp

theorem inMethod_of_le (p : MethodText → Bool) {pos i : ℕ} (h : pos + (textOf es).length ≤ i) :
    inMethod p pos es i = false := by
  induction es generalizing pos with
  | nil => rfl
  | cons e es ih =>
    rw [textOf_cons, List.length_append] at h
    have hfalse : decide (i < pos + e.text.length) = false := decide_eq_false (by omega)
    rw [inMethod, ih (by omega), hfalse]
    simp

theorem inMethod_append (p : MethodText → Bool) (pos : ℕ) (es fs : List MethodText) (i : ℕ) :
    inMethod p pos (es ++ fs) i =
      (inMethod p pos es i || inMethod p (pos + (textOf es).length) fs i) := by
  induction es generalizing pos with
  | nil => simp [inMethod]
  | cons e es ih =>
    rw [List.cons_append, inMethod, inMethod, ih, textOf_cons, List.length_append,
      Nat.add_assoc pos, Bool.or_assoc]

/-- Where all methods have the property, so has each offset in them. -/
theorem inMethod_of_all {p : MethodText → Bool} (hp : ∀ e ∈ es, p e = true) {pos i : ℕ}
    (h₁ : pos ≤ i) (h₂ : i < pos + (textOf es).length) : inMethod p pos es i = true := by
  induction es generalizing pos with
  | nil =>
    rw [textOf_nil, List.length_nil] at h₂
    omega
  | cons e es ih =>
    rw [textOf_cons, List.length_append] at h₂
    rw [inMethod, hp e (List.mem_cons_self ..), decide_eq_true h₁]
    by_cases hi : i < pos + e.text.length
    · simp [hi]
    · rw [ih (fun e he => hp e (List.mem_cons_of_mem _ he)) (by omega) (by omega), Bool.or_true]

theorem isRemoved_eq (s : Service) (e : MethodText) (start stop : ℕ) :
    Reconcile.isRemoved s ⟨String.ofList e.name, .method, start, stop⟩ = gone s e := by
  simp [Reconcile.isRemoved, gone]

theorem isCut_eq (s : Service) (l : Layout) (i : ℕ) :
    Reconcile.isCut s l.classBody i = inMethod (gone s) (l.opening + 1) l.methods i := by
  rw [Reconcile.isCut, Reconcile.removed, List.any_filter, Layout.classBody]
  generalize l.opening + 1 = pos
  induction l.methods generalizing pos with
  | nil => rfl
  | cons e es ih =>
    rw [membersAt, List.any_cons, ih, inMethod, isRemoved_eq]

/-- A pass that leaves out some methods of a file keeps the others. -/
theorem weave_textOf {p : MethodText → Bool} {dropped : ℕ → Bool} {inserted : ℕ → List Char}
    {pos : ℕ}
    (hd : ∀ i, pos ≤ i → i < pos + (textOf es).length → dropped i = inMethod p pos es i)
    (hi : ∀ i, pos ≤ i → i < pos + (textOf es).length → inserted i = []) (r : List Char) :
    weave dropped inserted pos (textOf es ++ r) =
      textOf (es.filter fun e => !p e) ++ weave dropped inserted (pos + (textOf es).length) r := by
  induction es generalizing pos with
  | nil => rfl
  | cons e es ih =>
    simp only [textOf_cons, List.length_append] at hd hi ⊢
    have hpos : 0 < e.text.length := by
      rw [MethodText.text, List.length_append, MethodText.length_around]
      omega
    have hne : e.text ≠ [] := List.length_pos_iff.1 hpos
    have hhere : ∀ i, pos ≤ i → i < pos + e.text.length → dropped i = p e := by
      intro i h₁ h₂
      rw [hd i h₁ (by omega), inMethod, inMethod_of_lt _ h₂, decide_eq_true h₁, decide_eq_true h₂]
      simp
    have hlater : ∀ i, pos + e.text.length ≤ i → i < pos + e.text.length + (textOf es).length →
        dropped i = inMethod p (pos + e.text.length) es i := by
      intro i h₁ h₂
      have hfalse : decide (i < pos + e.text.length) = false := decide_eq_false (by omega)
      rw [hd i (by omega) (by omega), inMethod, hfalse]
      simp
    rw [List.append_assoc, weave_segment _ hne hhere fun i h₁ h₂ => hi i (by omega) (by omega),
      hi pos le_rfl (by omega), ih hlater fun i h₁ h₂ => hi i (by omega) (by omega),
      List.filter_cons, Nat.add_assoc]
    cases p e <;> simp

/-! ### Places and texts of insertions -/

/-- A list with an element that has not the property has a last one of these. -/
theorem exists_last {p : MethodText → Bool} (h : ∃ e ∈ es, p e = false) :
    ∃ before e after, es = before ++ e :: after ∧ p e = false ∧ ∀ e' ∈ after, p e' = true := by
  induction es with
  | nil =>
    obtain ⟨e, he, -⟩ := h
    cases he
  | cons x es ih =>
    by_cases hrest : ∃ e ∈ es, p e = false
    · obtain ⟨before, e, after, rfl, hkept, hafter⟩ := ih hrest
      exact ⟨x :: before, e, after, rfl, hkept, hafter⟩
    · have hall : ∀ e ∈ es, p e = true := by
        intro e he
        by_contra hfalse
        exact hrest ⟨e, he, by simpa using hfalse⟩
      obtain ⟨e, he, hkept⟩ := h
      rcases List.mem_cons.1 he with rfl | he
      · exact ⟨[], e, es, rfl, hkept, hall⟩
      · rw [hall e he] at hkept
        cases hkept

theorem kept_eq (hl : l.methods = before ++ e :: after) (he : gone s e = false)
    (hafter : ∀ e' ∈ after, gone s e' = true) :
    ∃ ms, Reconcile.kept s l.classBody = ms ++ [⟨String.ofList e.name, .method,
      l.opening + 1 + (textOf before).length,
      l.opening + 1 + (textOf before).length + e.text.length⟩] := by
  have hnone : ∀ pos, (membersAt pos after).filter (fun m => !Reconcile.isRemoved s m) = [] := by
    clear hl
    intro pos
    induction after generalizing pos with
    | nil => rfl
    | cons e' es ih =>
      rw [membersAt, List.filter_cons, isRemoved_eq, hafter e' (List.mem_cons_self ..)]
      exact ih (fun e he => hafter e (List.mem_cons_of_mem _ he)) _
  refine ⟨(membersAt (l.opening + 1) before).filter fun m => !Reconcile.isRemoved s m, ?_⟩
  rw [Reconcile.kept, Layout.classBody, hl]
  dsimp only
  rw [membersAt_append, List.filter_append, membersAt, List.filter_cons, isRemoved_eq, he, hnone]
  rfl

theorem stubPlace_eq (hl : l.methods = before ++ e :: after) (he : gone s e = false)
    (hafter : ∀ e' ∈ after, gone s e' = true) :
    Reconcile.stubPlace s l.classBody = l.opening + 1 + (textOf (before ++ [e])).length := by
  obtain ⟨ms, hms⟩ := kept_eq hl he hafter
  rw [Reconcile.stubPlace, hms, List.getLast?_concat]
  simp
  omega

theorem added_eq (s : Service) (l : Layout) : Reconcile.added s l.classBody = newcomers s l := by
  rw [Reconcile.added, Layout.map_name_methods, newcomers]

theorem stubs_eq (h : Spelled settings s) {ms : List Method} (hms : ∀ m ∈ ms, m ∈ s.methods) :
    Reconcile.stubs ms = textOf (ms.map stubOf) := by
  unfold Reconcile.stubs textOf
  rw [List.flatMap_map]
  exact List.flatMap_congr fun m hm =>
    (text_stubOf (h.methods m (hms m hm)) (h.bodyTypes m (hms m hm))).symm

theorem stubText_eq (h : Renderable settings s) (hl : l.methods = before ++ e :: after)
    (he : gone s e = false) (hafter : ∀ e' ∈ after, gone s e' = true) :
    Reconcile.stubText s l.classBody = textOf ((newcomers s l).map stubOf) := by
  obtain ⟨ms, hms⟩ := kept_eq hl he hafter
  have hkept : (Reconcile.kept s l.classBody).isEmpty = false := by
    rw [hms]
    simp
  have hstubs : Reconcile.stubs (newcomers s l) = textOf ((newcomers s l).map stubOf) :=
    stubs_eq h.spelled fun m hm => (List.mem_filter.1 hm).1
  rw [Reconcile.stubText, added_eq, hkept, hstubs]
  cases newcomers s l <;> rfl

/-- The lines that are put in, with the line break behind them. -/
theorem importText_append {source : List Char} (h : Reconcile.missingImports s source = [] ∨
      importInsertionPoint source ≠ 0) :
    Reconcile.importText settings s source ++ ['\n'] =
      '\n' :: linesOf ((Reconcile.missingImports s source).map (importOf settings)) := by
  rw [linesOf_map_importOf, Reconcile.importText]
  cases hmissing : Reconcile.missingImports s source with
  | nil => rfl
  | cons i is =>
    rw [hmissing] at h
    have hpoint : importInsertionPoint source ≠ 0 := h.resolve_left (List.cons_ne_nil i is)
    have hlines := @Text.joinWith_append ((i :: is).map (Render.classImport settings)) ['\n']
      (by simp)
    rw [if_neg (by simp), if_neg hpoint, List.cons_append, Render.joinLines, hlines]

/-! ### The text after a build -/

/-- A pass over a file that puts lines behind its front part and stubs behind its methods, of which
it leaves out those with a property, and all that come last. -/
theorem weave_parts {p : MethodText → Bool} {dropped : ℕ → Bool} {inserted : ℕ → List Char}
    {front middle lines stubs : List Char} (hfront : front ≠ []) (hmiddle : middle ≠ [])
    (hd : ∀ i, dropped i = (inMethod p (front.length + middle.length) es i ||
      inMethod p (front.length + middle.length + (textOf es).length) after i))
    (hi : ∀ i, inserted i =
      (if i = front.length + middle.length + (textOf es).length then stubs else []) ++
        (if i = front.length then lines else []))
    (hafter : ∀ e ∈ after, p e = true) (tail : List Char) :
    weave dropped inserted 0 (front ++ (middle ++ (textOf es ++ (textOf after ++ tail)))) =
      front ++ (lines ++ (middle ++ (textOf (es.filter fun e => !p e) ++ (stubs ++ tail)))) := by
  have hpos : 0 < front.length := List.length_pos_iff.2 hfront
  have hpos' : 0 < middle.length := List.length_pos_iff.2 hmiddle
  generalize hstart : front.length + middle.length = start at hd hi
  generalize hstop : start + (textOf es).length = stop at hd hi
  -- What is left out and what is put in, place by place.
  have hnothing : ∀ i, i ≠ stop → i ≠ front.length → inserted i = [] := by
    intro i h₁ h₂
    rw [hi, if_neg h₁, if_neg h₂]
    rfl
  have habove : ∀ i, i < start → dropped i = false := by
    intro i h
    rw [hd, inMethod_of_lt _ h, inMethod_of_lt _ (by omega)]
    rfl
  have hmethods : ∀ i, start ≤ i → i < start + (textOf es).length →
      dropped i = inMethod p start es i := by
    intro i _ h
    rw [hd, inMethod_of_lt _ (show i < stop by omega), Bool.or_false]
  have hgone : ∀ i, stop ≤ i → i < stop + (textOf after).length → dropped i = true := by
    intro i h₁ h₂
    rw [hd, inMethod_of_all hafter h₁ h₂, Bool.or_true]
  have hbehind : ∀ i, stop + (textOf after).length ≤ i → dropped i = false := by
    intro i h
    rw [hd, inMethod_of_le _ h, inMethod_of_le _ (by omega)]
    rfl
  have hlines : inserted front.length = lines := by
    rw [hi, if_neg (by omega), if_pos rfl]
    rfl
  have hstubs : inserted stop = stubs := by
    rw [hi, if_pos rfl, if_neg (by omega), List.append_nil]
  rw [weave_segment _ hfront (fun i _ h => habove i (by omega))
      fun i h₁ h₂ => hnothing i (by omega) (by omega),
    hnothing 0 (by omega) (by omega), Nat.zero_add,
    weave_segment _ hmiddle (fun i _ h => habove i (by omega))
      fun i h₁ h₂ => hnothing i (by omega) (by omega),
    hlines, hstart, weave_textOf hmethods fun i h₁ h₂ => hnothing i (by omega) (by omega), hstop,
    weave_replace hgone hbehind fun i h => hnothing i (by omega) (by omega), hstubs]
  simp

/-- **What a reconciliation makes of a service file.** -/
theorem reconciled_eq (h : l.Sound) (hs : Renderable settings s)
    (hkept : ∃ e ∈ l.methods, gone s e = false) :
    Reconcile.reconciled settings s l.text l.classBody = (upkept settings s l).text := by
  obtain ⟨before, e, after, hl, he, hafter⟩ := exists_last hkept
  obtain ⟨front, -, hfront, hlines, -⟩ := exists_linesOf_eq h.imports h.imports_ne
  have hpos : 0 < front.length := List.length_pos_iff.2 hfront
  have hcount : (linesOf l.imports).length - 1 = front.length := by simp [hlines]
  have hstart : l.opening + 1 = front.length + ('\n' :: (l.header ++ ['\x7b'])).length := by
    simp [Layout.opening, hlines]
    omega
  have hmethods : l.methods = (before ++ [e]) ++ after := by simp [hl]
  have hcut : ∀ i, Reconcile.isCut s l.classBody i =
      (inMethod (gone s) (l.opening + 1) (before ++ [e]) i ||
        inMethod (gone s) (l.opening + 1 + (textOf (before ++ [e])).length) after i) := by
    intro i
    rw [isCut_eq, hmethods, inMethod_append]
  have hinserted : ∀ i, Reconcile.insertedAt settings s l.text l.classBody i =
      (if i = l.opening + 1 + (textOf (before ++ [e])).length then
        textOf ((newcomers s l).map stubOf) else []) ++
      (if i = front.length then Reconcile.importText settings s l.text else []) := by
    intro i
    rw [Reconcile.insertedAt, stubPlace_eq hl he hafter, stubText_eq hs hl he hafter,
      h.importInsertionPoint_eq, hcount]
  have hsplit : l.text = front ++ (('\n' :: (l.header ++ ['\x7b'])) ++
      (textOf (before ++ [e]) ++ (textOf after ++ fileEnd))) := by
    rw [Layout.text, Layout.frame, hlines, hmethods, textOf_append]
    simp
  -- Behind the last method that stays all go.
  have hfilter : l.methods.filter (fun e => !gone s e) =
      (before ++ [e]).filter fun e => !gone s e := by
    have hnil : after.filter (fun e => !gone s e) = [] := by
      rw [List.filter_eq_nil_iff]
      intro e' he'
      rw [hafter e' he']
      decide
    rw [hmethods, List.filter_append, hnil, List.append_nil]
  have himports : Reconcile.importText settings s l.text ++ ['\n'] = _ :=
    importText_append (Or.inr (by rw [h.importInsertionPoint_eq, hcount]; omega))
  have hnew : (upkept settings s l).text = front ++ (('\n' :: linesOf
      ((Reconcile.missingImports s l.text).map (importOf settings))) ++ (l.header ++ '\x7b' ::
        (textOf ((before ++ [e]).filter fun e => !gone s e) ++
          (textOf ((newcomers s l).map stubOf) ++ fileEnd)))) := by
    rw [← hfilter]
    simp [upkept, Layout.text, Layout.frame, Layout.header, hlines]
  rw [hstart] at hcut hinserted
  have hwoven := weave_parts hfront (List.cons_ne_nil _ _) hcut hinserted hafter fileEnd
  rw [← hsplit] at hwoven
  rw [Reconcile.reconciled, hwoven, hnew, ← himports]
  simp

/-! ### Layouts stay what they should be -/

theorem sound_upkept (h : l.Sound) (hs : Renderable settings s) : (upkept settings s l).Sound where
  imports := by
    intro i hi
    rcases List.mem_append.1 hi with hi | hi
    · exact h.imports i hi
    · obtain ⟨j, hj, rfl⟩ := List.mem_map.1 hi
      exact sound_importOf hs.spelled (List.mem_filter.1 hj).1
  imports_ne := fun hnil => h.imports_ne (List.append_eq_nil_iff.1 hnil).1
  className := h.className
  className_ne := h.className_ne
  methods := by
    intro e he
    rcases List.mem_append.1 he with he | he
    · exact h.methods e (List.mem_filter.1 he).1
    · obtain ⟨m, hm, rfl⟩ := List.mem_map.1 he
      exact sound_stubOf hs.spelled (List.mem_filter.1 hm).1

/-! ### Builds -/

theorem writeSource_ok {tree tree' : FileTree} {path : DiskPath} {source : List Char}
    {className : Option String} (hproblems : sourceProblems source className = [])
    (hwrite : tree.write path (sourceContent source) = .ok tree') (outcome : Outcome) :
    writeSource tree path source className outcome =
      ⟨tree', [.written outcome path.toString], .ok ⟨path, outcome, []⟩⟩ := by
  rw [writeSource, hproblems]
  simp [hwrite]

variable {tree : FileTree}

theorem importsAbove (h : l.Sound) {name : String} (hname : l.className = name.toList)
    (s : Service) : Reconcile.ImportsAbove s l.text name := by
  refine Or.inr ⟨(linesOf l.imports).length + decoration.length, ?_, ?_⟩
  · rw [← hname, h.mask_text, h.keywordOffset?_eq]
  · rw [h.importInsertionPoint_eq]
    omega

/-- **A build without a service file writes one.** -/
theorem generateService_new (hs : Renderable settings s)
    (hnone : tree.holds (servicePath settings s) = false) {c : Content} {made : FileTree}
    (hwritable : tree.write (servicePath settings s) c = .ok made) :
    ∃ tree' log r, generateService settings tree s = ⟨tree', log, .ok r⟩ ∧ r.ok = true ∧
      tree'.FileAt (servicePath settings s) (sourceContent (newLayout settings s).text) := by
  obtain ⟨tree', hwrite⟩ :=
    FileTree.write_of_write hwritable (sourceContent (newLayout settings s).text)
  have hproblems := (sound_newLayout hs.spelled).sourceProblems_eq_nil rfl
  refine ⟨tree', [.written .created (servicePath settings s).toString],
    ⟨servicePath settings s, .created, []⟩, ?_, rfl, FileTree.fileAt_of_write hwrite⟩
  simp only [generateService, hnone, Bool.false_eq_true, if_false]
  rw [serviceFile_eq hs.spelled]
  exact writeSource_ok hproblems hwrite .created

/-- A build reconciles the text of the file that is there. -/
theorem generateService_of_fileAt {source : List Char} (hreturn : '\r' ∉ source)
    (hfile : tree.FileAt (servicePath settings s) (sourceContent source)) :
    generateService settings tree s =
      reconcileSource settings tree (servicePath settings s) s source := by
  simp only [generateService, hfile.holds, if_true, hfile.read, sourceContent,
    String.toList_ofList, Text.normalizeLineEnds_of_notMem hreturn]

/-- **A build brings the file that is there up to date.** -/
theorem generateService_upkept (h : l.Sound) (hs : Renderable settings s)
    (hclass : l.className = classOf s) (hkept : ∃ e ∈ l.methods, gone s e = false)
    (hfile : tree.FileAt (servicePath settings s) (sourceContent l.text)) :
    ∃ tree' log r, generateService settings tree s = ⟨tree', log, .ok r⟩ ∧ r.ok = true ∧
      tree'.FileAt (servicePath settings s) (sourceContent (upkept settings s l).text) := by
  have hfound : findClass? l.text (Naming.className s.name .service) = some l.classBody :=
    h.findClass?_eq hclass
  have habove : Reconcile.ImportsAbove s l.text (Naming.className s.name .service) :=
    importsAbove h hclass s
  have hedits : Splice.apply l.text (Reconcile.changes settings s l.text l.classBody).edits =
      (upkept settings s l).text := by
    rw [Reconcile.apply_edits hfound habove, reconciled_eq h hs hkept]
  have hproblems : sourceProblems (upkept settings s l).text
      (some (Naming.className s.name .service)) = [] :=
    (sound_upkept h hs).sourceProblems_eq_nil hclass
  rw [generateService_of_fileAt h.return_notMem hfile]
  simp only [reconcileSource, hfound, hedits]
  by_cases hempty : (Reconcile.changes settings s l.text l.classBody).edits.isEmpty = true
  · -- Nothing is written, and the file is what it would be.
    rw [if_pos hempty]
    refine ⟨_, _, _, rfl, rfl, ?_⟩
    rw [List.isEmpty_iff.1 hempty, Splice.apply_nil] at hedits
    rw [← hedits]
    exact hfile
  · obtain ⟨tree', hwrite, hfile'⟩ := hfile.write (sourceContent (upkept settings s l).text)
    rw [if_neg hempty, writeSource_ok hproblems hwrite]
    exact ⟨_, _, _, rfl, rfl, hfile'⟩

end ApiScaffold.ServiceFile
