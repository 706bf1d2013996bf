import ApiScaffold.Proofs.FileTree
import ApiScaffold.Proofs.Reconcile
import ApiScaffold.Proofs.Splice.Insertion
import ApiScaffold.Proofs.Splice.Pieces
import ApiScaffold.Proofs.Text.LineEnds
import ApiScaffold.Proofs.TypeScript.ImportScan

/-!
# The bytes that a reconciliation keeps

A service file is read with its line ends normalized, edited, and written. This module says what
becomes of its bytes, whatever the file holds and wherever its imports go.

* `importInsertionPoint_le`: the place for missing imports lies in the text;
* `apply_changes`: the edits come to one pass, as `apply_edits` says for imports above the class;
  only where that place lies inside a method that goes (`crossed?`) something else is put in than
  the imports and stubs (`addedAt`);
* `generateService_bytes`: of the bytes outside the methods that go, a build keeps all exactly if
  there is no carriage return among them.
-/

namespace ApiScaffold.TypeScript

variable {cs rest : List Char} {n : ℕ}

/-! ### The place for missing imports -/

theorem length_le_of_afterImport? (h : afterImport? cs = some rest) : rest.length ≤ cs.length := by
  obtain ⟨gap, rfl, -⟩ := exists_of_afterImport? h
  simp only [List.length_append]
  omega

theorem declarationTail?_le (h : declarationTail? cs = some n) : n ≤ cs.length := by
  have hsplit := congrArg List.length (List.takeWhile_append_dropWhile (p := (· != ';')) (l := cs))
  rw [List.length_append] at hsplit
  unfold declarationTail? at h
  dsimp only at h
  split at h
  · obtain rfl := Option.some.inj h
    omega
  · next after hafter =>
    rw [hafter, List.length_cons] at hsplit
    split at h
    · next k hk =>
      have hkle : k ≤ after.length := by
        have hblank := (List.takeWhile_prefix (l := after) isLineBlank).length_le
        unfold lineEnd? at hk
        split at hk
        · obtain rfl := Option.some.inj hk
          exact hblank
        · obtain rfl := Option.some.inj hk
          exact hblank
        · cases hk
      obtain rfl := Option.some.inj h
      omega
    · unfold lastLineBreak? at h
      dsimp only at h
      split_ifs at h
      obtain rfl := Option.some.inj h
      omega

theorem declarationLength?_le (h : declarationLength? cs = some n) : n ≤ cs.length := by
  simp only [declarationLength?, Option.bind_eq_bind, Option.bind_eq_some_iff] at h
  obtain ⟨rest, hrest, h⟩ := h
  split_ifs at h
  obtain ⟨tail, htail, h⟩ := Option.bind_eq_some_iff.1 h
  obtain rfl := Option.some.inj h
  have h₁ := length_le_of_afterImport? hrest
  have h₂ := declarationTail?_le htail
  omega

theorem lastDeclarationEnd_le {size found pos skip : ℕ} {depth : ℤ} {fresh : Bool}
    (hfound : found ≤ size) (hsize : pos + cs.length ≤ size) :
    lastDeclarationEnd found pos depth fresh skip cs ≤ size := by
  induction cs generalizing found pos depth fresh skip with
  | nil => exact hfound
  | cons c cs ih =>
    rw [List.length_cons] at hsize
    cases skip with
    | succ skip => exact ih hfound (by omega)
    | zero =>
      rw [lastDeclarationEnd]
      split
      · next n hn =>
        have hle : n ≤ cs.length + 1 := by
          cases fresh with
          | false => cases hn
          | true => exact declarationLength?_le hn
        refine ih ?_ (by omega)
        split_ifs
        · omega
        · exact hfound
      · exact ih hfound (by omega)

/-- **Missing imports are put in inside the text.** -/
theorem importInsertionPoint_le (source : List Char) :
    importInsertionPoint source ≤ source.length :=
  lastDeclarationEnd_le (Nat.zero_le _) (by simp)

end ApiScaffold.TypeScript

namespace ApiScaffold.Reconcile

open TypeScript Splice Text

variable {settings : Settings} {s : Service} {source : List Char} {name : String} {body : ClassBody}

/-! ### One pass, wherever the imports go -/

/-- The method that goes in whose inside missing imports are put, if there is one. -/
def crossed? (s : Service) (source : List Char) (body : ClassBody) : Option Member :=
  (removed s body).find? fun m =>
    m.start < importInsertionPoint source && importInsertionPoint source < m.stop

/-- The missing imports and the stubs, each at its place. -/
def addedAt (settings : Settings) (s : Service) (source : List Char) (body : ClassBody) (i : ℕ) :
    List Char :=
  (if i = importInsertionPoint source then importText settings s source else []) ++
    (if i = stubPlace s body then stubText s body else [])

/-- What the edits put in front of the character at an offset: imports and stubs. If the imports
fall inside a method that goes, what is left over of both comes in the place of the method. -/
def putAt (settings : Settings) (s : Service) (source : List Char) (body : ClassBody) (i : ℕ) :
    List Char :=
  match crossed? s source body with
  | none => addedAt settings s source body i
  | some m =>
    (if i = stubPlace s body then stubText s body else []) ++
      (if i = m.start then
        leftover source (importText settings s source) (importInsertionPoint source) m.stop
      else [])

/-- The service without its imports. -/
def withoutImports (s : Service) : Service := { s with imports := [] }

theorem edits_eq_append (settings : Settings) (s : Service) (source : List Char)
    (body : ClassBody) :
    (changes settings s source body).edits =
      (changes settings (withoutImports s) source body).edits ++
        insertImports settings s source := by
  have hnone : insertImports settings (withoutImports s) source = [] := rfl
  simp only [changes, hnone, List.append_nil]
  rfl

/-- **The edits of a reconciliation come to one pass** over the source text. -/
theorem apply_changes (hf : findClass? source name = some body) :
    Splice.apply source (changes settings s source body).edits =
      weave (isCut s body) (putAt settings s source body) 0 source := by
  obtain ⟨k, hk, hb⟩ := findClass?_placed hf
  have habove : ImportsAbove (withoutImports s) source name := .inl rfl
  have hwithin : ∀ e ∈ (changes settings (withoutImports s) source body).edits,
      e.Within source.length := edits_within hb hk habove
  have hapart : (changes settings (withoutImports s) source body).edits.Pairwise Edit.Apart :=
    edits_apart hb hk habove
  have hcovers : ∀ i, covers (changes settings (withoutImports s) source body).edits i =
      isCut s body i := covers_edits
  have htext : ∀ i, textAt (changes settings (withoutImports s) source body).edits i =
      if i = stubPlace s body then stubText s body else [] := fun i => by
    have hnone : importText settings (withoutImports s) source = [] := rfl
    rw [textAt_edits hb, insertedAt, hnone, ite_self, List.append_nil]
    rfl
  have hplace := importInsertionPoint_le source
  rw [edits_eq_append, insertImports_eq]
  by_cases hmissing : (missingImports s source).isEmpty = true
  · -- Without missing imports there is nothing left over.
    have hnone : importText settings s source = [] := by simp [importText, hmissing]
    rw [if_pos hmissing, List.append_nil, apply_eq_weave hwithin hapart]
    refine weave_congr (fun i _ _ => hcovers i) fun i _ _ => ?_
    rw [htext, putAt]
    cases crossed? s source body with
    | none => simp [addedAt, hnone]
    | some m => simp [leftover, hnone]
  · rw [if_neg hmissing, insertion]
    cases hcross : crossed? s source body with
    | none =>
      rw [apply_insertion_apart hwithin hapart hplace]
      · refine weave_congr (fun i _ _ => hcovers i) fun i _ _ => ?_
        rw [htext, putAt, hcross]
        rfl
      · intro e he
        rcases mem_edits he with ⟨m, hm, rfl⟩ | rfl | ⟨hne, -⟩
        · have hout := List.find?_eq_none.1 hcross m hm
          simp only [Bool.and_eq_true, decide_eq_true_eq] at hout
          dsimp only
          omega
        · simp only [insertion]
          omega
        · exact absurd rfl hne
    | some m =>
      have hm : m ∈ removed s body := List.mem_of_find?_eq_some hcross
      have hin := List.find?_some hcross
      simp only [Bool.and_eq_true, decide_eq_true_eq] at hin
      have hedit : (⟨m.start, m.stop, []⟩ : Edit) ∈
          (changes settings (withoutImports s) source body).edits := by
        simp only [changes, List.mem_append]
        exact .inl (.inl (List.mem_map.2 ⟨m, hm, rfl⟩))
      rw [apply_insertion_crossed hwithin hapart hedit rfl rfl hin.1 hin.2]
      refine weave_congr (fun i _ _ => hcovers i) fun i _ _ => ?_
      rw [htext, putAt, hcross]

/-! ### Bytes -/

/-- A text whose writing is reported stands in its file. -/
theorem fileAt_of_written {tree : FileTree} {path : DiskPath} {className : Option String}
    {outcome : Outcome}
    (h : .written outcome path.toString ∈ (writeSource tree path source className outcome).log) :
    (writeSource tree path source className outcome).tree.FileAt path (sourceContent source) := by
  unfold writeSource at h ⊢
  dsimp only at h ⊢
  split_ifs at h ⊢
  · simp at h
  · split at h
    · simp at h
    · next tree' hwrite => exact FileTree.fileAt_of_write hwrite

/-- A build that writes an existing service file writes what the edits make of its text. -/
theorem exists_of_written {tree : FileTree} {old : String}
    (hfile : tree.FileAt (servicePath settings s) (.text old))
    (hwritten : .written .reconciled (servicePath settings s).toString ∈
      (generateService settings tree s).log) :
    ∃ body, findClass? (normalizeLineEnds old.toList) (Naming.className s.name .service) =
        some body ∧
      (generateService settings tree s).tree.FileAt (servicePath settings s)
        (sourceContent (apply (normalizeLineEnds old.toList)
          (changes settings s (normalizeLineEnds old.toList) body).edits)) := by
  simp only [generateService, hfile.holds, if_true, hfile.read, reconcileSource] at hwritten ⊢
  split at hwritten
  · cases hwritten
  · next body hbody =>
    refine ⟨body, hbody, ?_⟩
    split_ifs at hwritten ⊢
    · simp at hwritten
    · refine fileAt_of_written ((List.mem_cons.1 hwritten).resolve_left ?_)
      simp

/-- The bytes of a text as a file holds them. -/
def fileBytes (text : String) : List UInt8 := text.toUTF8.data.toList

/-- What is read of a file has nowhere more bytes. -/
theorem forall₂_readAs (cs : List Char) :
    List.Forall₂ (fun u v : List UInt8 => u.length ≤ v.length)
      ((readUnits cs).map fun u => textBytes (readAs u)) ((readUnits cs).map textBytes) := by
  rw [List.forall₂_map_left_iff, List.forall₂_map_right_iff, List.forall₂_same]
  exact fun u hu => (readAs_bytes hu).1

/-- **The bytes of a reconciled file.** If a build writes a service file that is there, the new file
is the old one as it was read, without the methods that go and with imports and stubs put in, unless
the imports fall inside a method that goes. All bytes outside the methods that go are kept if and
only if there is no carriage return among them. -/
theorem generateService_bytes {tree : FileTree} {old : String}
    (hfile : tree.FileAt (servicePath settings s) (.text old))
    (hwritten : .written .reconciled (servicePath settings s).toString ∈
      (generateService settings tree s).log) :
    ∃ body new,
      findClass? (normalizeLineEnds old.toList) (Naming.className s.name .service) = some body ∧
      (generateService settings tree s).tree.FileAt (servicePath settings s) (.text new) ∧
      fileBytes new = weaveOf (isCut s body)
        (fun i => textBytes (putAt settings s (normalizeLineEnds old.toList) body i)) 0
        ((readUnits old.toList).map fun u => textBytes (readAs u)) ∧
      (fileBytes new = weaveOf (isCut s body)
          (fun i => textBytes (putAt settings s (normalizeLineEnds old.toList) body i)) 0
          ((readUnits old.toList).map textBytes) ↔
        ∀ i u, (readUnits old.toList)[i]? = some u → isCut s body i = false → '\r' ∉ u) ∧
      (crossed? s (normalizeLineEnds old.toList) body = none → ∀ i,
        putAt settings s (normalizeLineEnds old.toList) body i =
          addedAt settings s (normalizeLineEnds old.toList) body i) := by
  obtain ⟨body, hfound, hnew⟩ := exists_of_written hfile hwritten
  generalize hsource : normalizeLineEnds old.toList = source at hfound hnew
  have hbytes : fileBytes (String.ofList (apply source (changes settings s source body).edits)) =
      weaveOf (isCut s body) (fun i => textBytes (putAt settings s source body i)) 0
        ((readUnits old.toList).map fun u => textBytes (readAs u)) := by
    rw [fileBytes, toUTF8_ofList, apply_changes hfound, weave_eq_weaveOf, textBytes,
      flatMap_weaveOf, ← hsource, map_normalizeLineEnds, List.map_map]
    rfl
  refine ⟨body, _, hfound, hnew, hbytes, ?_, fun hnone i => by rw [putAt, hnone]⟩
  rw [hbytes, weaveOf_eq_iff (forall₂_readAs old.toList)]
  simp only [Nat.zero_add, List.getElem?_map]
  constructor
  · intro h i u hu hcut
    have hsame := h i hcut
    rw [hu, Option.map_some, Option.map_some, Option.some.injEq] at hsame
    exact (readAs_bytes (List.mem_of_getElem? hu)).2.1 hsame
  · intro h i hcut
    cases hu : (readUnits old.toList)[i]? with
    | none => rfl
    | some u =>
      have hsame := (readAs_bytes (List.mem_of_getElem? hu)).2.2 (h i u hu hcut)
      rw [Option.map_some, Option.map_some, hsame]

/-- A tree with a service file. -/
def penTree (source : String) : FileTree :=
  ⟨[(["lib", "services", "PenService.ts"], .file (.text source)),
    (["lib", "services"], .directory), (["lib"], .directory)]⟩

/-- A service with one operation. -/
def penService (imports : List Import) : Service :=
  { name := "Pen"
    description := ""
    methods := [⟨.get, "listPens", "/pens", none, none⟩]
    imports := imports }

/-- An import of that service. -/
def penImport : Import := ⟨"Pen", "@/models/Pen"⟩

/-- A service file with a carriage return in a method that goes. -/
def penSource : String :=
  "import \x7b Box \x7d from \x22./Box\x22;\nclass PenService \x7b\n  drop() \x7b\r\n  \x7d\n\x7d\n"

/-- The class in that file. -/
def penBody : ClassBody := ⟨"PenService", 46, 63, [⟨"drop", .method, 47, 62⟩]⟩

/-- A service file whose lines end in carriage returns. -/
def crlfSource : String := "class PenService \x7b\r\n\x7d\r\n"

/-- The class in that file. -/
def crlfBody : ClassBody := ⟨"PenService", 17, 19, []⟩

/-- A service file without semicolons in its imports, so that the place behind them is found in
front of the last line of a method that goes. -/
def bareSource : String :=
  "import \x7b Box \x7d from \x27./Box\x27\nclass PenService \x7b\n" ++
    "  size = 1\n\n  drop() \x7b a(); \x7d\n\x7d\n"

/-- The class in that file. -/
def bareBody : ClassBody :=
  ⟨"PenService", 45, 77, [⟨"size", .property, 46, 57⟩, ⟨"drop", .method, 57, 76⟩]⟩

theorem fileAt_penTree (source : String) (is : List Import) :
    (penTree source).FileAt (servicePath {} (penService is)) (.text source) := by
  have hpath : servicePath {} (penService is) = ⟨"", ["lib", "services", "PenService.ts"]⟩ := by
    change servicePath {} (penService []) = _
    decide +kernel
  refine ⟨["lib", "services", "PenService.ts"], ?_, rfl⟩
  rw [hpath]
  simp [FileTree.locate, FileTree.origin, FileTree.walk, FileTree.step, FileTree.get?,
    FileTree.isAncestor, penTree, List.lookup_cons]

theorem generateService_bytes_pen :
    (penTree penSource).FileAt (servicePath {} (penService [penImport])) (.text penSource) ∧
      .written .reconciled (servicePath {} (penService [penImport])).toString ∈
        (generateService {} (penTree penSource) (penService [penImport])).log ∧
      ∃ new, (generateService {} (penTree penSource) (penService [penImport])).tree.FileAt
          (servicePath {} (penService [penImport])) (.text new) ∧
        fileBytes new = weaveOf (isCut (penService [penImport]) penBody)
          (fun i => textBytes
            (putAt {} (penService [penImport]) (normalizeLineEnds penSource.toList) penBody i)) 0
          ((readUnits penSource.toList).map textBytes) := by
  have hfile := fileAt_penTree penSource [penImport]
  have hfound : findClass? (normalizeLineEnds penSource.toList)
      (Naming.className (penService [penImport]).name .service) = some penBody := by decide +kernel
  have hwritten : .written .reconciled (servicePath {} (penService [penImport])).toString ∈
      (generateService {} (penTree penSource) (penService [penImport])).log := by
    simp only [generateService, hfile.holds, if_true, hfile.read, reconcileSource, hfound,
      apply_changes hfound]
    decide +kernel
  obtain ⟨body, new, hbody, hnew, -, hkept, -⟩ := generateService_bytes hfile hwritten
  obtain rfl := Option.some.inj (hbody.symm.trans hfound)
  refine ⟨hfile, hwritten, new, hnew, hkept.2 fun i u hu hcut => ?_⟩
  have hunits : ∀ x ∈ (readUnits penSource.toList).zipIdx,
      isCut (penService [penImport]) penBody x.2 = false → '\r' ∉ x.1 := by decide +kernel
  exact hunits (u, i) (List.mk_mem_zipIdx_iff_getElem?.2 hu) hcut

/-- Carriage returns outside the methods that go are not kept; and where imports fall inside a
method that goes, the end of their lines and the method are put in instead. -/
theorem crlfSource_not_kept :
    (.written .reconciled (servicePath {} (penService [])).toString ∈
        (generateService {} (penTree crlfSource) (penService [])).log ∧
      findClass? (normalizeLineEnds crlfSource.toList) "PenService" = some crlfBody ∧
      ∀ new, (generateService {} (penTree crlfSource) (penService [])).tree.FileAt
          (servicePath {} (penService [])) (.text new) →
        fileBytes new ≠ weaveOf (isCut (penService []) crlfBody)
          (fun i => textBytes (addedAt {} (penService []) (normalizeLineEnds crlfSource.toList)
            crlfBody i)) 0
          ((readUnits crlfSource.toList).map textBytes)) ∧
      findClass? bareSource.toList "PenService" = some bareBody ∧
      (removed (penService [penImport]) bareBody).map (·.name) = ["drop"] ∧
      apply bareSource.toList
          (changes {} (penService [penImport]) bareSource.toList bareBody).edits =
        ("import \x7b Box \x7d from \x27./Box\x27\nclass PenService \x7b\n  size = 1\n\n" ++
          "  listPens(context: unknown, params: unknown) \x7b\n" ++
          "    throw new Error(\x22listPens is not implemented\x22);\n  \x7d" ++
          "om \x22@/models/Pen.ts\x22;\n  drop() \x7b a(); \x7d\n\x7d\n").toList ∧
      sourceProblems (apply bareSource.toList
        (changes {} (penService [penImport]) bareSource.toList bareBody).edits)
          (some "PenService") = [] := by
  have hfile := fileAt_penTree crlfSource []
  have hbare : findClass? bareSource.toList "PenService" = some bareBody := by decide +kernel
  refine ⟨⟨?_, by decide +kernel, fun new hnew => ?_⟩, hbare, by decide +kernel, ?_, ?_⟩
  · simp only [generateService, hfile.holds, if_true, hfile.read]
    decide +kernel
  · have hread := hnew.read
    simp only [generateService, hfile.holds, if_true, hfile.read] at hread
    have hdone : (reconcileSource {} (penTree crlfSource) (servicePath {} (penService []))
        (penService []) (normalizeLineEnds crlfSource.toList)).tree.read
          (servicePath {} (penService [])) =
        .ok (.text (String.ofList (apply (normalizeLineEnds crlfSource.toList)
          (changes {} (penService []) (normalizeLineEnds crlfSource.toList) crlfBody).edits))) := by
      decide +kernel
    rw [hdone] at hread
    obtain rfl := Content.text.inj (Except.ok.inj hread)
    decide +kernel
  · rw [apply_changes hbare]
    decide +kernel
  · rw [apply_changes hbare]
    decide +kernel

end ApiScaffold.Reconcile
