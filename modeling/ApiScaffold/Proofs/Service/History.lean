import ApiScaffold.Proofs.Service.Upkeep

/-!
# Builds and hand edits of a service file

A service file is built again and again, and between builds its methods are filled in by hand. A
history lists these steps, the latest first.

* `Step` is a build or a hand edit, `run?` what a history makes of a file tree;
* `bodyAfter` is the body that an operation should have: what was last written by hand since it was
  added, or else its stub;
* `Legal` says which steps may come after which: texts put in by hand have to fit, and may hold
  anything else;
* `Upheld`: no build has failed, the methods of the class are the operations of the service built
  last and `register`, and each operation has the body that it should have;
* `upheld_of_legal`: so it is after every legal history.
-/

namespace ApiScaffold.ServiceFile

open TypeScript

/-! ### Histories -/

/-- What may happen to a service file. -/
inductive Step where
  | build (settings : Settings) (s : Service)
  /-- The text between the braces of a method is replaced. -/
  | edit (method : String) (t : List Char)

/-- The names of the operations of a service. -/
def operationNames (s : Service) : List String := s.methods.map (·.name)

/-- The service that was built last. -/
def lastBuilt? : List Step → Option Service
  | [] => none
  | .build _ s :: _ => some s
  | .edit _ _ :: past => lastBuilt? past

/-- The text last given to an operation by hand since it was added to the service; its stub if there
is none. -/
def bodyAfter (operation : String) : List Step → List Char
  | [] => stubBody operation
  | .build _ s :: past =>
    if operation ∈ operationNames s then bodyAfter operation past else stubBody operation
  | .edit method t :: past => if method = operation then t else bodyAfter operation past

/-- The steps of a history can be taken: builds are of services of one name whose texts can be
rendered, and hand edits replace the body of a method that is there by a text that `fits`. -/
def Legal (fits : List Char → Prop) (path : DiskPath) (name : String) : List Step → Prop
  | [] => True
  | .build settings s :: past =>
    Renderable settings s ∧ s.name = name ∧ servicePath settings s = path ∧
      Legal fits path name past
  | .edit method t :: past =>
    (∃ s, lastBuilt? past = some s ∧ method ∈ operationNames s ++ ["register"]) ∧
      '\r' ∉ t ∧ fits t ∧ Legal fits path name past

/-- The source text in a file. -/
def sourceAt? (tree : FileTree) (path : DiskPath) : Option (List Char) :=
  match tree.read path with
  | .ok (.text s) => some (Text.normalizeLineEnds s.toList)
  | _ => none

/-- The tree after a hand edit of a service file. -/
def handEdit? (path : DiskPath) (name : String) (tree : FileTree) (method : String)
    (t : List Char) : Option FileTree := do
  let source ← sourceAt? tree path
  let body ← findClass? source (Naming.className name .service)
  let edited ← replaceBody? source body method t
  (tree.write path (sourceContent edited)).toOption

/-- The tree after a history, and the results of its builds; none if a step breaks off. -/
def run? (path : DiskPath) (name : String) (tree : FileTree) :
    List Step → Option (FileTree × List BuildResult)
  | [] => some (tree, [])
  | .build settings s :: past =>
    (run? path name tree past).bind fun before =>
      let done := generateService settings before.1 s
      done.result.toOption.map fun r => (done.tree, r :: before.2)
  | .edit method t :: past =>
    (run? path name tree past).bind fun before =>
      (handEdit? path name before.1 method t).map fun after => (after, before.2)

/-- The history runs through, no build fails, and then the class in the file has one method for each
operation of the service built last, besides `register`, with the body that it should have. -/
def Upheld (path : DiskPath) (name : String) (tree : FileTree) (history : List Step) : Prop :=
  ∃ tree' results, run? path name tree history = some (tree', results) ∧
    (∀ r ∈ results, r.ok = true) ∧
    ∀ s, lastBuilt? history = some s →
      ∃ source body, sourceAt? tree' path = some source ∧
        findClass? source (Naming.className name .service) = some body ∧
        (body.methods.map (·.name)).Perm (operationNames s ++ ["register"]) ∧
        ∀ n ∈ operationNames s, bodyText? source body n = some (bodyAfter n history)

variable {fits : List Char → Prop} {path : DiskPath} {name : String} {history past : List Step}
  {settings : Settings} {s : Service} {l : Layout}

theorem Legal.of_suffix (h : Legal fits path name history) (hpast : past <:+ history) :
    Legal fits path name past := by
  induction history with
  | nil =>
    rw [List.suffix_nil.1 hpast]
    trivial
  | cons step history ih =>
    rcases List.suffix_cons_iff.1 hpast with rfl | hrest
    · exact h
    · cases step with
      | build settings s => exact ih h.2.2.2 hrest
      | edit method t => exact ih h.2.2.2 hrest

/-- The first step of a history is a build. -/
theorem Legal.eq_nil (h : Legal fits path name history) (hs : lastBuilt? history = none) :
    history = [] := by
  cases history with
  | nil => rfl
  | cons step past =>
    cases step with
    | build settings s => cases hs
    | edit method t =>
      obtain ⟨⟨s, hs', -⟩, -⟩ := h
      rw [lastBuilt?, hs'] at hs
      cases hs

/-- An operation that the service built last does not have is to have its stub. -/
theorem Legal.bodyAfter_eq_stubBody (h : Legal fits path name history)
    (hs : lastBuilt? history = some s) {operation : String}
    (hnot : operation ∉ operationNames s ++ ["register"]) :
    bodyAfter operation history = stubBody operation := by
  induction history with
  | nil => rfl
  | cons step past ih =>
    cases step with
    | build settings s' =>
      obtain rfl := Option.some.inj hs
      rw [bodyAfter, if_neg fun hmem => hnot (List.mem_append_left _ hmem)]
    | edit method t =>
      -- The edited method is one of the service built last, so it is not the operation.
      obtain ⟨⟨s', hs', hmethod⟩, -, -, hpast⟩ := h
      rw [lastBuilt?] at hs
      obtain rfl : s' = s := Option.some.inj (hs'.symm.trans hs)
      rw [bodyAfter, if_neg, ih hpast hs]
      rintro rfl
      exact hnot hmethod

theorem Legal.renderable (h : Legal fits path name history) (hs : lastBuilt? history = some s) :
    ∃ settings, Renderable settings s := by
  induction history with
  | nil => cases hs
  | cons step past ih =>
    cases step with
    | build settings s' =>
      obtain rfl := Option.some.inj hs
      exact ⟨settings, h.1⟩
    | edit method t => exact ih h.2.2.2 hs

/-! ### What a file follows -/

/-- The names of methods. -/
def namesOf (es : List MethodText) : List String := es.map fun e => String.ofList e.name

/-- The layout is that of a service file after a history whose last build was of the given
service. -/
structure Follows (name : String) (history : List Step) (s : Service) (l : Layout) : Prop where
  sound : l.Sound
  className : l.className = (Naming.className name .service).toList
  distinct : (namesOf l.methods).Nodup
  mem_names : ∀ n, n ∈ namesOf l.methods ↔ n ∈ operationNames s ++ ["register"]
  bodies : ∀ e ∈ l.methods, String.ofList e.name ∈ operationNames s →
    e.body = bodyAfter (String.ofList e.name) history

theorem nodup_operationNames (h : Renderable settings s) :
    (operationNames s ++ ["register"]).Nodup := by
  rw [List.nodup_append]
  refine ⟨h.distinct, List.nodup_singleton _, ?_⟩
  rintro n hn _ hregister rfl
  obtain ⟨m, hm, rfl⟩ := List.mem_map.1 hn
  refine h.unprotected m hm ?_
  rw [List.mem_singleton.1 hregister]
  decide

theorem exists_method {es : List MethodText} (hdistinct : (namesOf es).Nodup) {n : String}
    (hn : n ∈ namesOf es) :
    ∃ before e after, es = before ++ e :: after ∧ String.ofList e.name = n ∧
      ∀ e' ∈ before ++ after, e'.name ≠ e.name := by
  obtain ⟨e, he, rfl⟩ := List.mem_map.1 hn
  obtain ⟨before, after, rfl⟩ := List.append_of_mem he
  have hnodup : (namesOf (e :: (before ++ after))).Nodup :=
    (List.perm_middle.map _).nodup_iff.1 hdistinct
  rw [namesOf, List.map_cons, List.nodup_cons] at hnodup
  refine ⟨before, e, after, rfl, rfl, fun e' he' heq => hnodup.1 ?_⟩
  rw [← heq]
  exact List.mem_map_of_mem he'

theorem namesOf_raised (es : List MethodText) : namesOf (raised es) = namesOf es := by
  cases es <;> rfl

theorem namesOf_stubs (ms : List Method) : namesOf (ms.map stubOf) = ms.map (·.name) := by
  rw [namesOf, List.map_map]
  exact List.map_congr_left fun m _ => String.ofList_toList

theorem namesOf_membersOf (s : Service) :
    namesOf (membersOf s) = operationNames s ++ ["register"] := by
  rw [membersOf, namesOf, List.map_append, ← namesOf, namesOf_stubs]
  rfl

/-! ### One step -/

/-- A new file follows the history of its build. -/
theorem follows_new (hs : Renderable settings s) (hname : s.name = name) :
    Follows name [.build settings s] s (newLayout settings s) where
  sound := sound_newLayout hs.spelled
  className := by rw [← hname]; rfl
  distinct := by
    rw [newLayout, namesOf_raised, namesOf_membersOf]
    exact nodup_operationNames hs
  mem_names n := by rw [newLayout, namesOf_raised, namesOf_membersOf]
  bodies := by
    intro e he hoperation
    have hbody : ∃ e' ∈ membersOf s, e'.name = e.name ∧ e'.body = e.body := by
      rw [newLayout] at he
      cases hmembers : membersOf s with
      | nil =>
        rw [hmembers] at he
        cases he
      | cons x es =>
        rw [hmembers] at he
        rcases List.mem_cons.1 he with rfl | he
        · exact ⟨x, List.mem_cons_self .., rfl, rfl⟩
        · exact ⟨e, List.mem_cons_of_mem x he, rfl, rfl⟩
    obtain ⟨e', he', hsame, hbody⟩ := hbody
    rw [bodyAfter, if_pos hoperation, bodyAfter, ← hbody, ← hsame]
    rcases List.mem_append.1 he' with he' | he'
    · obtain ⟨m, -, rfl⟩ := List.mem_map.1 he'
      exact (congrArg stubBody String.ofList_toList).symm
    · -- `register` is no operation.
      rw [← hsame, List.mem_singleton.1 he'] at hoperation
      have hdistinct := nodup_operationNames hs
      rw [List.nodup_append] at hdistinct
      exact absurd rfl (hdistinct.2.2 _ hoperation "register" (List.mem_singleton_self _))

theorem gone_eq_false_iff {e : MethodText} :
    gone s e = false ↔ String.ofList e.name ∈ operationNames s ∨
      String.ofList e.name ∈ Reconcile.protectedMembers := by
  rw [gone, operationNames, Bool.and_eq_false_iff, Bool.not_eq_false', Bool.not_eq_false',
    List.contains_iff_mem, List.contains_iff_mem]

theorem mem_newcomers {m : Method} :
    m ∈ newcomers s l ↔ m ∈ s.methods ∧ m.name ∉ namesOf l.methods := by
  rw [newcomers, List.mem_filter, Bool.not_eq_true', ← Bool.not_eq_true, List.contains_iff_mem]
  rfl

/-- The names of the methods after a build: those that stay, and those of new operations. -/
theorem mem_namesOf_upkept {n : String} :
    n ∈ namesOf (upkept settings s l).methods ↔
      (n ∈ namesOf l.methods ∧ (n ∈ operationNames s ∨ n ∈ Reconcile.protectedMembers)) ∨
        (n ∈ operationNames s ∧ n ∉ namesOf l.methods) := by
  have hstay : n ∈ namesOf (l.methods.filter fun e => !gone s e) ↔
      n ∈ namesOf l.methods ∧ (n ∈ operationNames s ∨ n ∈ Reconcile.protectedMembers) := by
    constructor
    · intro hn
      obtain ⟨e, he, rfl⟩ := List.mem_map.1 hn
      obtain ⟨he, hgone⟩ := List.mem_filter.1 he
      exact ⟨List.mem_map_of_mem he, gone_eq_false_iff.1 (by simpa using hgone)⟩
    · rintro ⟨hn, hname⟩
      obtain ⟨e, he, rfl⟩ := List.mem_map.1 hn
      exact List.mem_map_of_mem (List.mem_filter.2 ⟨he, by simpa using gone_eq_false_iff.2 hname⟩)
  have hnew : n ∈ (newcomers s l).map (·.name) ↔ n ∈ operationNames s ∧ n ∉ namesOf l.methods := by
    constructor
    · intro hn
      obtain ⟨m, hm, rfl⟩ := List.mem_map.1 hn
      exact ⟨List.mem_map_of_mem (mem_newcomers.1 hm).1, (mem_newcomers.1 hm).2⟩
    · rintro ⟨hn, hnot⟩
      obtain ⟨m, hm, rfl⟩ := List.mem_map.1 hn
      exact List.mem_map_of_mem (mem_newcomers.2 ⟨hm, hnot⟩)
  rw [upkept, namesOf, List.map_append, ← namesOf, ← namesOf, namesOf_stubs, List.mem_append, hstay,
    hnew]

theorem nodup_namesOf_upkept (hl : (namesOf l.methods).Nodup) (hs : Renderable settings s) :
    (namesOf (upkept settings s l).methods).Nodup := by
  rw [upkept, namesOf, List.map_append, ← namesOf, ← namesOf, namesOf_stubs, List.nodup_append]
  refine ⟨hl.sublist (List.filter_sublist.map _), hs.distinct.sublist (List.filter_sublist.map _),
    ?_⟩
  rintro n hstay _ hnew rfl
  obtain ⟨m, hm, hname⟩ := List.mem_map.1 hnew
  obtain ⟨e, he, rfl⟩ := List.mem_map.1 hstay
  refine (mem_newcomers.1 hm).2 ?_
  rw [hname]
  exact List.mem_map_of_mem (List.mem_filter.1 he).1

/-- A build keeps up with its history. -/
theorem Follows.build {s' : Service} (h : Follows name past s l)
    (hlegal : Legal fits path name past) (hlast : lastBuilt? past = some s)
    (hs : Renderable settings s') :
    Follows name (.build settings s' :: past) s' (upkept settings s' l) where
  sound := sound_upkept h.sound hs
  className := h.className
  distinct := nodup_namesOf_upkept h.distinct hs
  mem_names := by
    intro n
    rw [mem_namesOf_upkept, List.mem_append, List.mem_singleton]
    constructor
    · rintro (⟨hn, hoperation | hprotected⟩ | ⟨hoperation, -⟩)
      · exact Or.inl hoperation
      · obtain ⟨settings', hs₀⟩ := hlegal.renderable hlast
        rcases List.mem_append.1 ((h.mem_names n).1 hn) with hold | hregister
        · obtain ⟨m, hm, rfl⟩ := List.mem_map.1 hold
          exact absurd hprotected (hs₀.unprotected m hm)
        · exact Or.inr (List.mem_singleton.1 hregister)
      · exact Or.inl hoperation
    · rintro (hoperation | rfl)
      · by_cases hn : n ∈ namesOf l.methods
        · exact Or.inl ⟨hn, Or.inl hoperation⟩
        · exact Or.inr ⟨hoperation, hn⟩
      · exact Or.inl ⟨(h.mem_names _).2 (by simp), Or.inr (by decide)⟩
  bodies := by
    intro e he hoperation
    rw [bodyAfter, if_pos hoperation]
    rcases List.mem_append.1 he with he | he
    · -- A method that stays was an operation before, since `register` is none now.
      have hold := (h.mem_names _).1 (List.mem_map_of_mem (List.mem_filter.1 he).1)
      rcases List.mem_append.1 hold with hold | hregister
      · exact h.bodies e (List.mem_filter.1 he).1 hold
      · obtain ⟨m, hm, hname⟩ := List.mem_map.1 hoperation
        refine absurd ?_ (hs.unprotected m hm)
        rw [hname, List.mem_singleton.1 hregister]
        decide
    · obtain ⟨m, hm, rfl⟩ := List.mem_map.1 he
      have hnot := (mem_newcomers.1 hm).2
      rw [h.mem_names] at hnot
      show stubBody m.name = bodyAfter (String.ofList m.name.toList) past
      rw [String.ofList_toList, hlegal.bodyAfter_eq_stubBody hlast hnot]

/-- The methods after another body was given to one: that one, and others. -/
theorem mem_edited {before after : List MethodText} {e e' : MethodText} {t : List Char}
    (hothers : ∀ e' ∈ before ++ after, e'.name ≠ e.name)
    (he' : e' ∈ before ++ { e with body := t } :: after) :
    e' = { e with body := t } ∨ e' ∈ before ++ e :: after ∧ e'.name ≠ e.name := by
  rcases List.mem_cons.1 (List.perm_middle.mem_iff.1 he') with rfl | he'
  · exact Or.inl rfl
  · exact Or.inr ⟨List.perm_middle.mem_iff.2 (List.mem_cons_of_mem e he'), hothers e' he'⟩

/-- A hand edit keeps up with its history. -/
theorem Follows.edit {before after : List MethodText} {e : MethodText} (h : Follows name past s l)
    (hl : l.methods = before ++ e :: after) (hothers : ∀ e' ∈ before ++ after, e'.name ≠ e.name)
    {t : List Char} (ht : Fits t) (hreturn : '\r' ∉ t) :
    Follows name (.edit (String.ofList e.name) t :: past) s
      { l with methods := before ++ { e with body := t } :: after } where
  sound := h.sound.withBody hl ht hreturn
  className := h.className
  distinct := by
    have hdistinct := h.distinct
    rw [hl] at hdistinct
    simpa [namesOf] using hdistinct
  mem_names n := by
    rw [← h.mem_names n, hl]
    simp [namesOf]
  bodies := by
    intro e' he' hoperation
    rw [bodyAfter]
    rcases mem_edited hothers he' with rfl | ⟨he', hname⟩
    · rw [if_pos rfl]
    · rw [if_neg fun heq => hname (String.ofList_inj.1 heq).symm]
      exact h.bodies e' (hl ▸ he') hoperation

/-! ### All steps -/

/-- What holds after each step: the builds have not failed, and the file, if there is one, follows
the history. -/
def Invariant (path : DiskPath) (name : String) (tree : FileTree) (history : List Step) : Prop :=
  ∃ tree' results, run? path name tree history = some (tree', results) ∧
    (∀ r ∈ results, r.ok = true) ∧
    ∀ s, lastBuilt? history = some s →
      ∃ l, Follows name history s l ∧ tree'.FileAt path (sourceContent l.text)

theorem sourceAt?_eq {tree : FileTree} {source : List Char} (h : '\r' ∉ source)
    (hat : tree.FileAt path (sourceContent source)) : sourceAt? tree path = some source := by
  rw [sourceAt?, hat.read, sourceContent]
  dsimp only
  rw [String.toList_ofList, Text.normalizeLineEnds_of_notMem h]

theorem Follows.findClass?_eq (h : Follows name history s l) :
    findClass? l.text (Naming.className name .service) = some l.classBody :=
  h.sound.findClass?_eq h.className

/-- A hand edit of a file that follows a history, whatever is put in. -/
theorem Follows.handEdit?_eq {tree : FileTree} {before after : List MethodText} {e : MethodText}
    (h : Follows name history s l) (hat : tree.FileAt path (sourceContent l.text))
    (hl : l.methods = before ++ e :: after) (hbefore : ∀ e' ∈ before, e'.name ≠ e.name)
    (t : List Char) :
    ∃ tree', handEdit? path name tree (String.ofList e.name) t = some tree' ∧ tree'.FileAt path
      (sourceContent { l with methods := before ++ { e with body := t } :: after }.text) := by
  obtain ⟨tree', hwrite, hat'⟩ := hat.write
    (sourceContent { l with methods := before ++ { e with body := t } :: after }.text)
  refine ⟨tree', ?_, hat'⟩
  simp only [handEdit?, sourceAt?_eq h.sound.return_notMem hat, Option.bind_eq_bind,
    Option.bind_some, h.findClass?_eq, h.sound.replaceBody?_eq hl hbefore t, hwrite]
  rfl

theorem Invariant.upheld {tree : FileTree} (h : Invariant path name tree history)
    (hlegal : Legal fits path name history) : Upheld path name tree history := by
  obtain ⟨tree', results, hrun, hresults, hfile⟩ := h
  refine ⟨tree', results, hrun, hresults, fun s hs => ?_⟩
  obtain ⟨l, hl, hat⟩ := hfile s hs
  obtain ⟨settings, hrenderable⟩ := hlegal.renderable hs
  refine ⟨l.text, l.classBody, sourceAt?_eq hl.sound.return_notMem hat, hl.findClass?_eq, ?_,
    fun n hn => ?_⟩
  · rw [Layout.map_name_methods]
    exact (List.perm_ext_iff_of_nodup hl.distinct (nodup_operationNames hrenderable)).2 hl.mem_names
  · have hmem := (hl.mem_names n).2 (List.mem_append_left _ hn)
    obtain ⟨before, e, after, hsplit, rfl, hothers⟩ := exists_method hl.distinct hmem
    have hbefore : ∀ e' ∈ before, e'.name ≠ e.name :=
      fun e' he' => hothers e' (List.mem_append_left _ he')
    rw [hl.sound.bodyText?_eq hsplit hbefore, hl.bodies e (by rw [hsplit]; simp) hn]

theorem Invariant.build {tree : FileTree} {s' : Service} (hnone : tree.holds path = false)
    {c : Content} {made : FileTree} (hwritable : tree.write path c = .ok made)
    (hlegal : Legal fits path name past) (h : Invariant path name tree past)
    (hs : Renderable settings s') (hname : s'.name = name)
    (hpath : servicePath settings s' = path) :
    Invariant path name tree (.build settings s' :: past) := by
  obtain ⟨tree', results, hrun, hresults, hfile⟩ := h
  subst hpath
  have hlater : ∃ tree'' log r l, generateService settings tree' s' = ⟨tree'', log, .ok r⟩ ∧
      r.ok = true ∧ Follows name (.build settings s' :: past) s' l ∧
      tree''.FileAt (servicePath settings s') (sourceContent l.text) := by
    cases hlast : lastBuilt? past with
    | none =>
      -- Nothing was built before, so there is no file yet.
      obtain rfl := hlegal.eq_nil hlast
      obtain ⟨rfl, rfl⟩ := Prod.mk.inj (Option.some.inj hrun)
      obtain ⟨tree'', log, r, hgenerate, hr, hat⟩ := generateService_new hs hnone hwritable
      exact ⟨tree'', log, r, _, hgenerate, hr, follows_new hs hname, hat⟩
    | some s =>
      -- `register` stays, so the new stubs have a member to come behind.
      obtain ⟨l, hl, hat⟩ := hfile s hlast
      have hregister : ∃ e ∈ l.methods, gone s' e = false := by
        obtain ⟨e, he, heq⟩ := List.mem_map.1 ((hl.mem_names "register").2 (by simp))
        exact ⟨e, he, gone_eq_false_iff.2 (Or.inr (by rw [heq]; decide))⟩
      have hclass : l.className = classOf s' := by rw [hl.className, classOf, hname]
      obtain ⟨tree'', log, r, hgenerate, hr, hat'⟩ :=
        generateService_upkept hl.sound hs hclass hregister hat
      exact ⟨tree'', log, r, _, hgenerate, hr, hl.build hlegal hlast hs, hat'⟩
  obtain ⟨tree'', log, r, l, hgenerate, hr, hfollows, hat⟩ := hlater
  refine ⟨tree'', r :: results, ?_, ?_, fun s hs' => ?_⟩
  · rw [run?, hrun, Option.bind_some, hgenerate]
    rfl
  · intro r' hr'
    rcases List.mem_cons.1 hr' with rfl | hr'
    · exact hr
    · exact hresults r' hr'
  · obtain rfl := Option.some.inj hs'
    exact ⟨l, hfollows, hat⟩

theorem Invariant.edit {tree : FileTree} (h : Invariant path name tree past)
    (hlast : lastBuilt? past = some s) {method : String}
    (hmethod : method ∈ operationNames s ++ ["register"]) {t : List Char} (ht : Fits t)
    (hreturn : '\r' ∉ t) : Invariant path name tree (.edit method t :: past) := by
  obtain ⟨tree', results, hrun, hresults, hfile⟩ := h
  obtain ⟨l, hl, hat⟩ := hfile s hlast
  obtain ⟨before, e, after, hsplit, rfl, hothers⟩ :=
    exists_method hl.distinct ((hl.mem_names method).2 hmethod)
  obtain ⟨tree'', hedit, hat'⟩ := hl.handEdit?_eq hat hsplit
    (fun e' he' => hothers e' (List.mem_append_left _ he')) t
  refine ⟨tree'', results, ?_, hresults, fun s' hs' => ?_⟩
  · rw [run?, hrun, Option.bind_some, hedit]
    rfl
  · rw [lastBuilt?, hlast] at hs'
    obtain rfl := Option.some.inj hs'
    exact ⟨_, hl.edit hsplit hothers ht hreturn, hat'⟩

theorem invariant_of_legal {tree : FileTree} (hnone : tree.holds path = false) {c : Content}
    {made : FileTree} (hwritable : tree.write path c = .ok made)
    (h : Legal Fits path name history) : Invariant path name tree history := by
  induction history with
  | nil => exact ⟨tree, [], rfl, by simp, by simp [lastBuilt?]⟩
  | cons step past ih =>
    cases step with
    | build settings s =>
      obtain ⟨hs, hname, hpath, hpast⟩ := h
      exact (ih hpast).build hnone hwritable hpast hs hname hpath
    | edit method t =>
      obtain ⟨⟨s, hlast, hmethod⟩, hreturn, hfits, hpast⟩ := h
      exact (ih hpast).edit hlast hmethod hfits hreturn

/-- **Builds never fail and never touch what was written by hand.** Where no service file is and one
can be written, each beginning of a legal history leaves a file whose class has one method for each
operation of the service built last, besides `register`, and each operation has the text last given
to it since it was added, or its stub. -/
theorem upheld_of_legal {tree : FileTree} (hnone : tree.holds path = false) {c : Content}
    {made : FileTree} (hwritable : tree.write path c = .ok made) (h : Legal Fits path name history)
    (hpast : past <:+ history) : Upheld path name tree past :=
  (invariant_of_legal hnone hwritable (h.of_suffix hpast)).upheld (h.of_suffix hpast)

/-! ### A service with a history -/

/-- The service with its first operation only. -/
def smallService : Service :=
  { Reconcile.toyService with methods := Reconcile.toyService.methods.take 1 }

/-- The path of its file. -/
def toyPath : DiskPath := servicePath {} Reconcile.toyService

/-- A body with braces in a literal, a regular expression and a comment. -/
def trickyBody : List Char := "\n    return \x60\x7d\x60 + /[\x7b]/.source; // \x7b\n  ".toList

/-- The service is built with one operation, this one is filled in, and then another one is
added. -/
def toyHistory : List Step :=
  [.build {} Reconcile.toyService, .edit "list" trickyBody, .build {} smallService]

theorem renderable_toy {s : Service} (h : s = Reconcile.toyService ∨ s = smallService) :
    Renderable {} s where
  name := by rcases h with rfl | rfl <;> decide
  methods := by rcases h with rfl | rfl <;> decide
  distinct := by rcases h with rfl | rfl <;> decide
  unprotected := by rcases h with rfl | rfl <;> decide
  bodyTypes := by
    have hword : ∀ m ∈ s.methods, ∀ t ∈ m.bodyType?, IsWord t.toList := by
      rcases h with rfl | rfl <;> decide
    exact fun m hm t ht => hword m hm t ht
  importNames := by rcases h with rfl | rfl <;> decide
  importPaths := by rcases h with rfl | rfl <;> decide
  extension := by decide
  frameworkModule := by decide

theorem holds_toyPath : FileTree.empty.holds toyPath = false := by decide

theorem exists_write_toyPath : ∃ made, FileTree.empty.write toyPath (.text "") = .ok made :=
  FileTree.exists_write (c := .text "") (by decide) _

theorem upheld_toyHistory : Legal Fits toyPath "Toy" toyHistory ∧
    Upheld toyPath "Toy" .empty toyHistory := by
  have hfits : Fits trickyBody := ⟨by decide +kernel, by decide +kernel⟩
  have hlegal : Legal Fits toyPath "Toy" toyHistory :=
    ⟨renderable_toy (Or.inl rfl), rfl, rfl,
      ⟨smallService, rfl, by decide +kernel⟩, by decide +kernel, hfits,
      renderable_toy (Or.inr rfl), rfl, rfl, trivial⟩
  obtain ⟨made, hmade⟩ := exists_write_toyPath
  exact ⟨hlegal, upheld_of_legal holds_toyPath hmade hlegal (List.suffix_refl _)⟩

/-- A text that is balanced between braces, but closes the brace in front of it and opens
another. -/
def closingBody : List Char := "\x7d other() \x7b".toList

/-- The file of the small service with that text in its operation. -/
def closedLayout : Layout :=
  { newLayout {} smallService with
    methods :=
      [⟨below.tail, "list".toList, Render.methodParameters "unknown" none, [], closingBody⟩,
        registration ["Toy"]] }

/-- For a text to be balanced between braces is not enough. -/
theorem balanced_not_upheld :
    Legal (fun t => balanceProblems (enclosed t) = []) toyPath "Toy"
        [.edit "list" closingBody, .build {} smallService] ∧
      ¬ Upheld toyPath "Toy" .empty [.edit "list" closingBody, .build {} smallService] := by
  have hsmall : Renderable {} smallService := renderable_toy (Or.inr rfl)
  refine ⟨⟨⟨smallService, rfl, by decide +kernel⟩, by decide +kernel, by decide +kernel, hsmall,
    rfl, rfl, trivial⟩, ?_⟩
  rintro ⟨tree', results, hrun, -, hfile⟩
  obtain ⟨source, body, hsource, hbody, hnames, -⟩ := hfile smallService rfl
  obtain ⟨made, hmade⟩ := exists_write_toyPath
  obtain ⟨built, log, r, hgenerate, -, hat⟩ := generateService_new hsmall holds_toyPath hmade
  have hsplit : (newLayout {} smallService).methods =
      [] ++ ⟨below.tail, "list".toList, Render.methodParameters "unknown" none, [],
        stubBody "list"⟩ :: [registration ["Toy"]] := rfl
  obtain ⟨edited, hedit, hat'⟩ :=
    (follows_new hsmall rfl).handEdit?_eq hat hsplit (by simp) closingBody
  have hrun' : run? toyPath "Toy" .empty [.edit "list" closingBody, .build {} smallService] =
      some (edited, [r]) := by
    have hedit' : handEdit? toyPath "Toy" built (String.ofList "list".toList) closingBody =
        some edited := hedit
    rw [String.ofList_toList] at hedit'
    rw [run?, run?, run?, Option.bind_some, hgenerate]
    show (handEdit? toyPath "Toy" built "list" closingBody).map _ = _
    rw [hedit']
    rfl
  obtain ⟨rfl, -⟩ := Prod.mk.inj (Option.some.inj (hrun.symm.trans hrun'))
  have hreturn : '\r' ∉ closedLayout.text := by decide +kernel
  obtain rfl := Option.some.inj (hsource.symm.trans (sourceAt?_eq hreturn hat'))
  -- The class has a method that is no operation.
  have hfound : ((findClass? closedLayout.text "ToyService").map fun body =>
      body.methods.map (·.name)) = some ["list", "other", "register"] := by decide +kernel
  rw [show Naming.className "Toy" .service = "ToyService" from rfl] at hbody
  rw [hbody, Option.map_some, Option.some.injEq] at hfound
  rw [hfound] at hnames
  exact absurd hnames (by decide)

end ApiScaffold.ServiceFile
