import ApiScaffold.Proofs.Render.Phrase
import ApiScaffold.Proofs.Service.Upkeep

/-!
# Model files

A model shows texts that may hold anything: descriptions, formats, the names of its fields, and the
values of enumerations. Its file has no problem for any of them.

* `TypeText` says what a field's type may be, `Spelled` that nothing else of the model has to be
  written as it is;
* `phrase_propertyLine`, `selfContained_property`: a field is self-contained;
* `modelFile_written`: the file of a model passes the check, so that it is written.
-/

namespace ApiScaffold.ModelFile

open TypeScript Render

/-- The types that fields have: a name, a list of what it names, or a union of values. -/
inductive TypeText : String → Prop
  | name {t : String} (h : IsWord t.toList) : TypeText t
  | list {t : String} (h : IsWord t.toList) : TypeText (t ++ "[]")
  | union {values : Value} {t : String} (h : Draft.literalUnion values = .ok t) : TypeText t

/-- What the file shows of the model as it is, names and modules, can stand in a source text. There
is no condition on any description, format or name of a field. -/
structure Spelled (settings : Settings) (m : Model) : Prop where
  name : IsWord m.name.toList
  types : ∀ f ∈ m.fields, TypeText f.type
  importNames : ∀ i ∈ m.imports, IsWord i.name.toList
  importPaths : ∀ i ∈ m.imports, i.path.toList.all isPlainText = true
  extension : settings.extension.toList.all isPlainText = true

/-! ### Fields -/

theorem TypeText.phrase {t : String} (h : TypeText t) : Phrase t.toList := by
  cases h with
  | name h => exact .of_word h
  | @list t h =>
    have hbrackets := Phrase.nil.pair (o := '[') rfl
    simpa using (Phrase.of_word h).append hbrackets
  | union h => exact phrase_literalUnion h

theorem phrase_propertyLine {f : Field} (h : TypeText f.type) : Phrase (propertyLine f) := by
  have hmark : Phrase (if f.nullable then ['?'] else ['!']) := by
    split_ifs <;> exact .of_all (by decide)
  have hcolon : Phrase ": ".toList := .of_all (by decide)
  have hend : Phrase [';'] := .of_all (by decide)
  exact ((((phrase_propertyKey _).append hmark).append hcolon).append h.phrase).append hend

/-- The lines of a field: its remarks, if there are any, and the property. -/
def propertyLines (f : Field) : List (List Char) :=
  (if (remarks f).isEmpty then [] else [docComment (Text.joinWith [' '] (remarks f))]) ++
    [propertyLine f]

theorem joinLines_propertyLines (f : Field) : joinLines (propertyLines f) = property f := by
  unfold propertyLines property
  split_ifs
  · simp [joinLines, Text.joinWith, List.intercalate]
  · rfl

theorem docComment_ne_nil (cs : List Char) : docComment cs ≠ [] := by
  unfold docComment
  simp

theorem mem_propertyLines {f : Field} {l : List Char} (h : TypeText f.type)
    (hl : l ∈ propertyLines f) : l ≠ [] ∧ Phrase l := by
  unfold propertyLines at hl
  rcases List.mem_append.1 hl with hl | hl
  · split_ifs at hl
    · cases hl
    · rw [List.mem_singleton.1 hl]
      exact ⟨docComment_ne_nil _, phrase_docComment _⟩
  · rw [List.mem_singleton.1 hl]
    exact ⟨by simp [propertyLine], phrase_propertyLine h⟩

/-- **A field is self-contained,** whatever it is called and whatever its remarks say. -/
theorem selfContained_property {f : Field} (h : TypeText f.type) :
    SelfContained (indent 1 (property f)) := by
  have hlines : ∀ l ∈ propertyLines f, l ≠ [] ∧ '\n' ∉ l := fun l hl =>
    ⟨(mem_propertyLines h hl).1, (mem_propertyLines h hl).2.lineBreak_notMem⟩
  rw [← joinLines_propertyLines, indent_joinLines 1 hlines (by simp [propertyLines])]
  refine .joinWith (.of_all (by decide)) fun l hl => ?_
  obtain ⟨k, hk, rfl⟩ := List.mem_map.1 hl
  have hindentation : SelfContained (indentation 1) := .of_all (by decide)
  exact hindentation.append (mem_propertyLines h hk).2.selfContained

/-! ### Files -/

section Files

variable {settings : Settings} {m : Model}

/-- The lines above the class. -/
def frontLines (settings : Settings) (m : Model) : List (List Char) :=
  modelImportLines settings m ++
    if m.description = "" then [] else [docComment m.description.toList]

/-- The first line of the class. -/
def headLine (m : Model) : List Char :=
  "export class ".toList ++ (Naming.className m.name .model).toList ++ " \x7b".toList

theorem className_eq (m : Model) : Naming.className m.name .model = m.name := by
  simp [Naming.className, Naming.Role.suffix]

theorem headLine_eq (m : Model) :
    headLine m = "export class ".toList ++ m.name.toList ++ " \x7b".toList := by
  unfold headLine
  rw [className_eq]

/-- Lines with a line break behind each. -/
def ended (ls : List (List Char)) : List Char := ls.flatMap (· ++ ['\n'])

theorem selfContained_ended {ls : List (List Char)} (h : ∀ l ∈ ls, SelfContained l) :
    SelfContained (ended ls) :=
  .flatMap fun l hl => (h l hl).append (.of_all (by decide))

/-- The file: the lines above the class, its head, and the fields up to the brace that ends it. -/
theorem modelFile_eq (settings : Settings) (m : Model) :
    modelFile settings m = ended (frontLines settings m) ++ headLine m ++
      ('\n' :: (ended (m.fields.map fun f => indent 1 (property f)) ++ ['\x7d', '\n'])) := by
  unfold modelFile fileOfLines joinLines ended frontLines headLine
  rw [Text.joinWith_append _ (by simp)]
  simp [List.flatMap_append]

theorem Spelled.frontLines (h : Spelled settings m) :
    ∀ l ∈ frontLines settings m, SelfContained l := by
  intro l hl
  rcases List.mem_append.1 hl with hl | hl
  · unfold modelImportLines at hl
    split_ifs at hl
    · cases hl
    rcases List.mem_append.1 hl with hl | hl
    · obtain ⟨i, hi, rfl⟩ := List.mem_map.1 hl
      have hmodule : (moduleOf settings i.path).toList.all isPlainText = true := by
        simp [moduleOf, h.importPaths i hi, h.extension, show isPlainText '.' = true by decide]
      have hkeyword : Phrase "import type".toList := .of_all (by decide)
      have hnames : ∀ n ∈ [i.name], IsWord n.toList := by simpa using h.importNames i hi
      exact (phrase_importLine hkeyword hnames hmodule).selfContained
    · rw [List.mem_singleton.1 hl]
      exact .nil
  · split_ifs at hl
    · cases hl
    · rw [List.mem_singleton.1 hl]
      exact (phrase_docComment _).selfContained

theorem Spelled.fieldLines (h : Spelled settings m) :
    ∀ l ∈ m.fields.map (fun f => indent 1 (property f)), SelfContained l := by
  intro l hl
  obtain ⟨f, hf, rfl⟩ := List.mem_map.1 hl
  exact selfContained_property (h.types f hf)

theorem Spelled.balanceProblems_eq (h : Spelled settings m) :
    balanceProblems (modelFile settings m) = [] := by
  have hbreak : SelfContained ['\n'] := .of_all (by decide)
  have hbody := hbreak.append (selfContained_ended h.fieldLines)
  have hexport : Phrase "export class ".toList := .of_all (by decide)
  have hspace : Phrase [' '] := .of_all (by decide)
  have hhead := ((hexport.append (.of_word h.name)).append hspace).selfContained
  have hall := (selfContained_ended h.frontLines).append
    ((hhead.append (hbody.pair (o := '\x7b') rfl)).append hbreak)
  refine SelfContained.balanceProblems_eq ?_
  rw [modelFile_eq, headLine_eq]
  simpa using hall

theorem Spelled.sourceProblems_eq (h : Spelled settings m) :
    sourceProblems (modelFile settings m) (some (Naming.className m.name .model)) = [] := by
  rw [sourceProblems, h.balanceProblems_eq, className_eq, List.nil_append]
  split_ifs with hdeclared
  · rfl
  · rw [not_or] at hdeclared
    refine absurd ?_ hdeclared.2
    rw [modelFile_eq, headLine_eq]
    exact declaresClass_of_selfContained hdeclared.1 h.name (selfContained_ended h.frontLines) _

/-- **A model is always written:** its file has no problem, so nothing but the file system decides
whether it comes to be. -/
theorem modelFile_written (h : Spelled settings m) :
    sourceProblems (modelFile settings m) (some (Naming.className m.name .model)) = [] ∧
      ∀ tree tree' : FileTree,
        tree.write (modelPath settings m) (sourceContent (modelFile settings m)) = .ok tree' →
        ∃ outcome, (outcome = .created ∨ outcome = .overwritten) ∧
          generateModel settings tree m =
            ⟨tree', [.written outcome (modelPath settings m).toString],
              .ok ⟨modelPath settings m, outcome, []⟩⟩ := by
  refine ⟨h.sourceProblems_eq, fun tree tree' hwrite => ?_⟩
  refine ⟨if tree.holds (modelPath settings m) then .overwritten else .created, ?_, ?_⟩
  · split_ifs
    · exact Or.inr rfl
    · exact Or.inl rfl
  · exact ServiceFile.writeSource_ok h.sourceProblems_eq hwrite _

end Files

/-! ### An example -/

/-- The values of an enumeration that hold the signs of literals and comments. -/
def hostileValues : List String := ["\x22 + \\", "*/ \x7b", "\n//", "\x27\x60"]

/-- A model whose texts hold the ends of comments and literals, brackets and line breaks. -/
def hostileModel : Model where
  name := "Pet"
  description := "A **/ pet\n*/*/ \x22 \x7b ( /"
  fields := [
    ⟨"a\x22\n\\", Draft.unionText hostileValues, true, "", some "*/ \x60]", none, false, none⟩,
    ⟨"*/", "Toy[]", false, "/* \x27", none, some "Toy", false, none⟩,
    ⟨"\x7d", "string", false, "//\n*/", some "*", none, false, none⟩]
  imports := [⟨"Toy", "@/models/Toy"⟩]

theorem spelled_hostileModel : Spelled {} hostileModel where
  name := by decide
  types := by
    have hunion : Draft.literalUnion (.list (hostileValues.map Value.text)) =
        .ok (Draft.unionText hostileValues) := rfl
    intro f hf
    simp only [hostileModel, List.mem_cons, List.not_mem_nil, or_false] at hf
    rcases hf with rfl | rfl | rfl
    · exact .union hunion
    · exact TypeText.list (t := "Toy") (by decide)
    · exact .name (by decide)
  importNames := by decide
  importPaths := by decide
  extension := by decide

theorem modelFile_written_hostileModel :
    Spelled {} hostileModel ∧
      sourceProblems (modelFile {} hostileModel) (some "Pet") = [] ∧
      ∃ tree outcome, generateModel {} .empty hostileModel =
        ⟨tree, [.written outcome "lib/models/Pet.ts"],
          .ok ⟨modelPath {} hostileModel, outcome, []⟩⟩ := by
  have hclass : Naming.className hostileModel.name .model = "Pet" := by decide
  have hpath : (modelPath {} hostileModel).toString = "lib/models/Pet.ts" := by decide
  obtain ⟨hproblems, hwritten⟩ := modelFile_written spelled_hostileModel
  have hwritable : (FileTree.empty.write (modelPath {} hostileModel) (.text "")).toOption.isSome =
      true := by decide
  obtain ⟨tree, hwrite⟩ := FileTree.exists_write hwritable
    (sourceContent (modelFile {} hostileModel))
  obtain ⟨outcome, -, hgenerated⟩ := hwritten _ tree hwrite
  rw [hpath] at hgenerated
  exact ⟨spelled_hostileModel, hclass ▸ hproblems, tree, outcome, hgenerated⟩

end ApiScaffold.ModelFile
