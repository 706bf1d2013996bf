import ApiScaffold.Proofs.Service.Reread

/-!
# What a class declares after a reconciliation

* `methodNames` are the names of the methods of a class, `namesAfter` those after a reconciliation;
* `count_namesAfter`: an operation that has methods keeps them, and one that has none gets a stub;
* `methodNames_reconciled`: where the edits take whole lines, these are the names that are read in
  the new text;
* `reconciled_declares`: no operation that has a method gets a stub, and each is declared
  afterwards, none more often than before or than the service has it;
* `propertyService_declared_twice`: a property of the name of an operation does not count, so the
  name can be declared twice.
-/

namespace ApiScaffold.Reconcile

open TypeScript Splice ServiceFile

/-- The names that the methods of a class have, one for each method. -/
def methodNames (body : ClassBody) : List String := body.methods.map (·.name)

/-- The names that its methods have after a reconciliation: those of the methods that stay, then
those of the stubs. -/
def namesAfter (s : Service) (body : ClassBody) : List String :=
  ((kept s body).filter fun d => d.kind == .method).map (·.name) ++ (added s body).map (·.name)

variable {settings : Settings} {s : Service} {source : List Char} {name : String}
  {body : ClassBody} {m : Method} {d : Member}

theorem mem_added : m ∈ added s body ↔ m ∈ s.methods ∧ m.name ∉ methodNames body := by
  simp [added, methodNames, List.mem_filter]

/-- A method with the name of an operation stays. -/
theorem isRemoved_of_operation (hm : m ∈ s.methods) (hd : d.name = m.name) :
    isRemoved s d = false := by
  have hwanted : (s.methods.map (·.name)).contains d.name = true :=
    List.contains_iff_mem.2 (hd ▸ List.mem_map_of_mem hm)
  rw [isRemoved, hwanted]
  simp

/-- An operation has methods in the class, which all stay, or is added. -/
theorem kept_or_added (hm : m ∈ s.methods) :
    (∃ d ∈ kept s body, d.kind = .method ∧ d.name = m.name) ∨ m ∈ added s body := by
  by_cases h : m.name ∈ methodNames body
  · obtain ⟨d, hd, hname⟩ := List.mem_map.1 h
    obtain ⟨hmem, hkind⟩ := List.mem_filter.1 hd
    have hkept := mem_kept.2 ⟨hmem, isRemoved_of_operation hm hname⟩
    exact Or.inl ⟨d, hkept, by simpa using hkind, hname⟩
  · exact Or.inr (mem_added.2 ⟨hm, h⟩)

/-- The methods with the name of an operation that stay are those there were. -/
theorem count_kept (hm : m ∈ s.methods) :
    (((kept s body).filter fun d => d.kind == .method).map (·.name)).count m.name =
      (methodNames body).count m.name := by
  rw [methodNames, ClassBody.methods, kept, List.filter_filter, List.count_eq_countP,
    List.count_eq_countP, List.countP_map, List.countP_map, List.countP_filter,
    List.countP_filter]
  refine List.countP_congr fun d _ => ?_
  by_cases hd : d.name = m.name
  · simp [hd, isRemoved_of_operation hm hd]
  · simp [hd]

/-- **How often an operation is declared afterwards:** as often as before, or, if it was not, as
often as the service has it. -/
theorem count_namesAfter (hm : m ∈ s.methods) :
    (namesAfter s body).count m.name =
      if m.name ∈ methodNames body then (methodNames body).count m.name
      else (s.methods.map (·.name)).count m.name := by
  have hadded : ((added s body).map (·.name)).count m.name =
      if m.name ∈ methodNames body then 0 else (s.methods.map (·.name)).count m.name := by
    rw [added, List.count_eq_countP, List.count_eq_countP, List.countP_map, List.countP_map,
      List.countP_filter]
    split_ifs with h
    · refine List.countP_eq_zero.2 fun e _ he => ?_
      simp only [Function.comp_apply, Bool.and_eq_true, beq_iff_eq, Bool.not_eq_true',
        List.contains_eq_mem, decide_eq_false_iff_not] at he
      exact he.2 (he.1 ▸ h)
    · refine List.countP_congr fun e _ => ?_
      simp only [Function.comp_apply, Bool.and_eq_true, beq_iff_eq, Bool.not_eq_true',
        List.contains_eq_mem, decide_eq_false_iff_not, and_iff_left_iff_imp]
      exact fun he => he ▸ h
  rw [namesAfter, List.count_append, count_kept hm, hadded]
  split_ifs with h
  · rfl
  · rw [List.count_eq_zero_of_not_mem h, Nat.zero_add]

/-- The stub of an added operation is in the text of the stubs, the line break in front included. -/
theorem isInfix_stub (hm : m ∈ added s body) :
    '\n' :: Render.indent 1 (Render.serviceMethod m) <:+: stubText s body := by
  have hne : (added s body).isEmpty = false := List.isEmpty_eq_false_iff.2 (List.ne_nil_of_mem hm)
  obtain ⟨before, after, hsplit⟩ := List.append_of_mem hm
  have hstubs : stubs (added s body) = stubs before ++
      ('\n' :: ('\n' :: Render.indent 1 (Render.serviceMethod m)) ++ stubs after) := by
    rw [hsplit]
    simp [stubs]
  have hdrop : '\n' :: Render.indent 1 (Render.serviceMethod m) <:+:
      (stubs (added s body)).drop 1 := by
    rw [hstubs]
    cases before with
    | nil => exact ⟨[], _, rfl⟩
    | cons e es => exact ⟨(stubs (e :: es)).drop 1 ++ ['\n'], stubs after, by simp [stubs]⟩
  rw [stubText, if_neg (by simp [hne])]
  split_ifs
  · exact hdrop.trans (List.prefix_append _ _).isInfix
  · exact hdrop.trans (List.drop_suffix _ _).isInfix

/-- So it is in the text that is written. -/
theorem isInfix_stubText (settings : Settings) (hf : findClass? source name = some body) :
    stubText s body <:+: reconciled settings s source body := by
  obtain ⟨k, -, hb⟩ := findClass?_placed hf
  have hplace := opening_lt_stubPlace (s := s) hb
  have hsize := hb.closing_lt
  refine List.IsInfix.trans ?_ (inserted_infix_weave (i := stubPlace s body) (by omega))
  rw [insertedAt, if_pos rfl]
  exact (List.prefix_append _ _).isInfix

theorem methodNames_eq (body : ClassBody) :
    methodNames body =
      ((body.members.map Member.label).filter fun l => l.2 == .method).map (·.1) := by
  rw [methodNames, ClassBody.methods, List.filter_map, List.map_map]
  rfl

/-- The names that are read in the new text are those of the methods that stay and of the stubs. -/
theorem methodNames_of_labels {body' : ClassBody} (h : body'.members.map Member.label =
      (kept s body).map Member.label ++ stubLabels s body) :
    methodNames body' = namesAfter s body := by
  have hstubs : ((stubLabels s body).filter fun l => l.2 == .method) = stubLabels s body := by
    refine List.filter_eq_self.2 fun l hl => ?_
    obtain ⟨m, -, rfl⟩ := List.mem_map.1 hl
    rfl
  rw [methodNames_eq, h, List.filter_append, List.map_append, hstubs, List.filter_map,
    List.map_map, stubLabels, List.map_map]
  rfl

/-- **An operation that has a method gets no stub,** and each operation is declared afterwards.
Where the edits take whole lines of a balanced file, the class is found again in the new text and
has just these methods. -/
theorem reconciled_declares (hf : findClass? source name = some body)
    (hi : ImportsAbove s source name) (settings : Settings) :
    (∀ m ∈ added s body, m.name ∉ methodNames body) ∧
      (∀ m ∈ s.methods,
        ((∃ d ∈ kept s body, (d.kind = .method ∧ d.name = m.name) ∧
              (source.drop d.start).take (d.stop - d.start) <:+:
                Splice.apply source (changes settings s source body).edits) ∨
            m ∈ added s body ∧
              '\n' :: Render.indent 1 (Render.serviceMethod m) <:+:
                Splice.apply source (changes settings s source body).edits) ∧
          (namesAfter s body).count m.name =
            if m.name ∈ methodNames body then (methodNames body).count m.name
            else (s.methods.map (·.name)).count m.name) ∧
      (EditsLines settings s source body → Spelled settings s → balanceProblems source = [] →
        ClassWord name →
          ∃ body' ∈ findClass? (Splice.apply source (changes settings s source body).edits) name,
            methodNames body' = namesAfter s body) := by
  rw [apply_edits hf hi]
  refine ⟨fun m hm => (mem_added.1 hm).2, fun m hm => ⟨?_, count_namesAfter hm⟩,
    fun hlines hs balanced hname => ?_⟩
  · rcases @kept_or_added s body m hm with ⟨d, hd, hkind⟩ | hadded
    · exact Or.inl ⟨d, hd, hkind, kept_infix hf hi hd⟩
    · exact Or.inr ⟨hadded, (isInfix_stub hadded).trans (isInfix_stubText settings hf)⟩
  · obtain ⟨_, _, body', hbody'⟩ := exists_reread hlines hs hi hf balanced hname
    exact ⟨body', hbody'.found, methodNames_of_labels hbody'.labels⟩

/-- What was read and what is written for the toy service. -/
theorem reconciled_declares_toy :
    (findClass? toySource "ToyService" = some toyBody ∧
        ImportsAbove toyService toySource "ToyService" ∧
        EditsLines {} toyService toySource toyBody ∧ Spelled {} toyService ∧
        balanceProblems toySource = [] ∧ ClassWord "ToyService") ∧
      (∀ m ∈ added toyService toyBody, m.name ∉ methodNames toyBody) ∧
      ∃ body' ∈ findClass? (Splice.apply toySource
          (changes {} toyService toySource toyBody).edits) "ToyService",
        methodNames body' = ["list", "add"] := by
  have found : findClass? toySource "ToyService" = some toyBody := by decide +kernel
  have above : ImportsAbove toyService toySource "ToyService" :=
    Or.inr ⟨29, by decide +kernel, by decide +kernel⟩
  have lines : EditsLines {} toyService toySource toyBody := by
    have hedits : (changes {} toyService toySource toyBody).edits.map (fun e => (e.start, e.stop)) =
        [(72, 84), (96, 96), (28, 28)] := by decide +kernel
    intro e he _
    have hplace := List.mem_map_of_mem (f := fun e : Edit => (e.start, e.stop)) he
    rw [hedits] at hplace
    simp only [List.mem_cons, List.not_mem_nil, or_false, Prod.mk.injEq] at hplace
    rcases hplace with ⟨hstart, hstop⟩ | ⟨hstart, hstop⟩ | ⟨hstart, hstop⟩
    · exact ⟨72, 84, hstart, hstop, by decide +kernel, by decide +kernel⟩
    · exact ⟨96, 96, hstart, hstop, by decide +kernel, by decide +kernel⟩
    · exact ⟨28, 28, hstart, hstop, by decide +kernel, by decide +kernel⟩
  have spelled : Spelled {} toyService := by
    refine ⟨by decide, ?_, ?_, ?_, ?_, by decide, by decide⟩
    · exact List.all_iff_forall_prop.1 (by decide)
    · have words : ∀ m ∈ toyService.methods, ∀ t ∈ m.bodyType?, IsWord t.toList :=
        List.all_iff_forall_prop.1 (by decide)
      exact fun m hm t ht => words m hm t ht
    · exact List.all_iff_forall_prop.1 (by decide)
    · exact List.all_iff_forall_prop.1 (by decide)
  have balanced : balanceProblems toySource = [] := by decide +kernel
  have word : ClassWord "ToyService" := ⟨by decide, by decide, by decide⟩
  have names : namesAfter toyService toyBody = ["list", "add"] := by decide +kernel
  obtain ⟨added, -, reread⟩ := reconciled_declares found above {}
  rw [← names]
  exact ⟨⟨found, above, lines, spelled, balanced, word⟩, added, reread lines spelled balanced word⟩

/-- A service file in which an operation is a property. -/
def propertySource : List Char :=
  ["import \x7b Service, type InjectableRegistration \x7d from \x22@eyrie/app\x22;\n\n",
    "@Service()\nexport class PetService \x7b\n  list = async () => [];\n\n",
    "  register(): InjectableRegistration \x7b\n    return \x7b dependencies: [] \x7d;\n  \x7d\n",
    "\x7d\n"].flatMap String.toList

/-- Its service. -/
def propertyService : Service where
  name := "Pet"
  description := ""
  methods := [⟨.get, "list", "/pets", none, none⟩]
  imports := []

/-- A property is no method, whatever its value: the stub of an operation of its name is added, and
the name is declared twice. -/
theorem propertyService_declared_twice :
    balanceProblems propertySource = [] ∧
      ∃ body ∈ findClass? propertySource "PetService",
        body.members.map (fun d => (d.name, d.kind)) =
            [("list", .property), ("register", .method)] ∧
          (added propertyService body).map (·.name) = ["list"] ∧
          ∃ body' ∈ findClass? (Splice.apply propertySource
              (changes {} propertyService propertySource body).edits) "PetService",
            body'.members.map (fun d => (d.name, d.kind)) =
              [("list", .property), ("register", .method), ("list", .method)] := by
  refine ⟨by decide +kernel, ⟨"PetService", 103, 207,
    [⟨"list", .property, 104, 129⟩, ⟨"register", .method, 129, 206⟩]⟩, by decide +kernel,
    by decide +kernel, by decide +kernel, ⟨"PetService", 103, 304, [⟨"list", .property, 104, 129⟩,
      ⟨"register", .method, 129, 206⟩, ⟨"list", .method, 206, 303⟩]⟩, by decide +kernel,
    by decide +kernel⟩

end ApiScaffold.Reconcile
