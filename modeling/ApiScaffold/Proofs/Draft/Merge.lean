import ApiScaffold.Proofs.Keyed
import ApiScaffold.Proofs.Resource.Check

/-!
# Merging operations

Operations are merged by name, and names are told apart as keys of a mapping are: a text and bytes
are never the same key, not even if the bytes spell the text.

* `Scalar.identity` is what two keys that are the same have in common;
* `Merged` says what a merge keeps: only given operations, one for each name, no name twice;
* `mergeMethods_last_in_first_place`: where all names are texts, each of them stays where it first
  came, with the operation that was given last;
* `nodup_names_iff`: the operations that come out of the check have different names unless
  `SpelledTwice` holds of those that went in;
* `map_name_importsOf`: the imports are the classes of the bodies in the order of first use;
  `bodyImports_eq` that the merge computes them.
-/

namespace ApiScaffold

/-! ### Keys -/

namespace Scalar

/-- The moment that a point in time with a known offset denotes. -/
def moment? : Scalar → Option ℤ
  | instant t => universal? t
  | _ => none

/-- What two scalars have in common if they are the same key. -/
def identity (s : Scalar) : ℤ ⊕ ℤ ⊕ Scalar :=
  match s.wholeNumber?, s.moment? with
  | some n, _ => .inl n
  | none, some u => .inr (.inl u)
  | none, none => .inr (.inr s)

theorem same_of_no_number {a b : Scalar} (ha : a.wholeNumber? = none)
    (hb : b.wholeNumber? = none) :
    a.same b =
      match a.moment?, b.moment? with
      | some u, some v => u == v
      | none, none => a == b
      | _, _ => false := by
  unfold same
  rw [ha, hb]
  cases a with
  | instant s =>
    cases b with
    | instant t => cases hs : universal? s <;> cases ht : universal? t <;> simp [moment?, hs, ht]
    | _ => cases hs : universal? s <;> simp [moment?, hs]
  | _ =>
    cases b with
    | instant t => cases ht : universal? t <;> simp [moment?, ht]
    | _ => rfl

theorem same_iff {a b : Scalar} : a.same b = true ↔ a.identity = b.identity := by
  cases ha : a.wholeNumber? with
  | some m =>
    cases hb : b.wholeNumber? with
    | some n => simp [same, identity, ha, hb]
    | none => cases hm : b.moment? <;> simp [same, identity, ha, hb, hm]
  | none =>
    cases hb : b.wholeNumber? with
    | some n => cases hm : a.moment? <;> simp [same, identity, ha, hb, hm]
    | none =>
      rw [same_of_no_number ha hb]
      cases hu : a.moment? <;> cases hv : b.moment? <;> simp [identity, ha, hb, hu, hv]

theorem identity_eq_text {a : Scalar} {s : String} :
    a.identity = (text s).identity ↔ a = text s := by
  rw [← same_iff, same_text_iff]

theorem identity_eq_bytes {a : Scalar} {bs : List UInt8} :
    a.identity = (bytes bs).identity ↔ a = bytes bs := by
  rw [← same_iff]
  cases a with
  | float x => cases h : x.toInt? <;> simp [same, wholeNumber?, h]
  | _ => simp [same, wholeNumber?]

end Scalar

namespace Draft

/-! ### Merges -/

/-- The name of an operation as a key, if it can be one. -/
def nameKey (m : MethodDraft) : Option (ℤ ⊕ ℤ ⊕ Scalar) :=
  match m.name with
  | .scalar s => some s.identity
  | _ => none

theorem sameName_iff {a b : MethodDraft} (ha : hasScalarName a = true) :
    sameName b a = true ↔ nameKey b = nameKey a := by
  unfold hasScalarName at ha
  unfold sameName nameKey
  cases hn : a.name with
  | scalar s => cases b.name <;> simp [Scalar.same_iff]
  | _ => simp [hn] at ha

/-- The key of an operation that is named by a text. -/
def textKey (s : String) : Option (ℤ ⊕ ℤ ⊕ Scalar) := some (Scalar.text s).identity

theorem textKey_injective : Function.Injective textKey := fun _ _ h =>
  Scalar.text.inj (Scalar.identity_eq_text.1 (Option.some.inj h))

theorem nameKey_eq_textKey {m : MethodDraft} {s : String} :
    nameKey m = textKey s ↔ m.name = .text s := by
  unfold nameKey textKey
  cases m.name <;> simp [Scalar.identity_eq_text]

theorem nameKey_of_text {m m' : MethodDraft} {s : String} (hm : m.name = .text s)
    (h : nameKey m' = nameKey m) : m'.name = .text s :=
  nameKey_eq_textKey.1 (h.trans (nameKey_eq_textKey.2 hm))

theorem nameKey_of_bytes {m m' : MethodDraft} {bs : List UInt8} (hm : m.name = .scalar (.bytes bs))
    (h : nameKey m' = nameKey m) : m'.name = .scalar (.bytes bs) := by
  unfold nameKey at h
  rw [hm] at h
  cases hn : m'.name with
  | scalar t =>
    rw [hn] at h
    rw [Scalar.identity_eq_bytes.1 (Option.some.inj h)]
  | _ => simp [hn] at h

theorem anyText_eq_ok {v : Value} {s : String} (h : Check.anyText v = .ok s) :
    v = .text s ∨ ∃ bs, v = .scalar (.bytes bs) ∧ String.fromUTF8? ⟨bs.toArray⟩ = some s := by
  unfold Check.anyText at h
  split at h
  · exact Or.inl (congrArg Value.text (Except.ok.inj h))
  · rename_i bs
    cases hb : String.fromUTF8? ⟨bs.toArray⟩ with
    | none => simp [hb] at h
    | some t =>
      rw [hb] at h
      exact Or.inr ⟨bs, rfl, by rw [hb, Except.ok.inj h]⟩
  · exact (Checked.object_ne_ok h).elim

/-- A name that is a text, or spells one, is the only one with its key. -/
theorem name_eq_of_nameKey {m m' : MethodDraft} {s : String} (hm : Check.anyText m.name = .ok s)
    (h : nameKey m' = nameKey m) : m'.name = m.name := by
  rcases anyText_eq_ok hm with htext | ⟨bs, hbytes, -⟩
  · rw [htext, nameKey_of_text htext h]
  · rw [hbytes, nameKey_of_bytes hbytes h]

theorem tells_sameName {ms : List MethodDraft} (h : ms.all hasScalarName = true) :
    Tells sameName nameKey ms :=
  fun m hm _ => sameName_iff (List.all_eq_true.1 h m hm)

theorem all_hasScalarName_writeAll {ms : List MethodDraft} (h : ms.all hasScalarName = true) :
    (writeAll sameName ms).all hasScalarName = true :=
  List.all_eq_true.2 fun m hm => List.all_eq_true.1 h m (mem_of_mem_writeAll hm)

/-- A merge succeeds exactly if all names can be told apart, and writes one operation after the
other. -/
theorem mergeMethods_eq_ok {existing new out : List MethodDraft} :
    mergeMethods existing new = .ok out ↔
      (existing ++ new).all hasScalarName = true ∧ out = writeAll sameName (existing ++ new) := by
  unfold mergeMethods
  split_ifs with hall
  · exact ⟨fun h => ⟨hall, (Except.ok.inj h).symm⟩, fun h => congrArg _ h.2.symm⟩
  · exact ⟨nofun, fun h => absurd h.1 hall⟩

/-- What a merge makes of the operations given to it: it keeps one of each name. -/
structure Merged (given out : List MethodDraft) : Prop where
  given_of_mem : ∀ m ∈ out, m ∈ given
  exists_key : ∀ m ∈ given, ∃ m' ∈ out, nameKey m' = nameKey m
  nodup_keys : (out.map nameKey).Nodup

/-- Operations may be merged in two goes. -/
theorem mergeMethods_bind (existing new more : List MethodDraft) :
    ((mergeMethods existing new).bind fun out => mergeMethods out more) =
      mergeMethods existing (new ++ more) := by
  unfold mergeMethods
  by_cases hnew : (existing ++ new).all hasScalarName = true
  · rw [if_pos hnew]
    have hout : (mergeAll (existing ++ new)).all hasScalarName = true :=
      all_hasScalarName_writeAll hnew
    have htwice : mergeAll (mergeAll (existing ++ new) ++ more) =
        mergeAll (existing ++ new ++ more) := writeAll_writeAll_append (tells_sameName hnew)
    simp only [Except.bind, List.all_append, hout, Bool.true_and, htwice, List.append_assoc]
    rw [List.all_append, Bool.and_eq_true] at hnew
    simp [hnew.1, hnew.2]
  · rw [if_neg hnew, if_neg]
    · rfl
    · rw [← List.append_assoc, List.all_append, Bool.and_eq_true]
      exact fun h => hnew h.1

theorem mergeMethods_merged {existing new out : List MethodDraft}
    (h : mergeMethods existing new = .ok out) : Merged (existing ++ new) out := by
  obtain ⟨hall, rfl⟩ := mergeMethods_eq_ok.1 h
  have htells := tells_sameName hall
  exact ⟨fun _ => mem_of_mem_writeAll, fun _ => exists_mem_writeAll htells, nodup_writeAll htells⟩

/-! ### Operations named by texts -/

/-- Operations are named by the given texts, one by one. -/
def NamedBy (ms : List MethodDraft) (ns : List String) : Prop := ms.map (·.name) = ns.map .text

theorem NamedBy.append {ms ms' : List MethodDraft} {ns ns' : List String} (h : NamedBy ms ns)
    (h' : NamedBy ms' ns') : NamedBy (ms ++ ms') (ns ++ ns') := by
  unfold NamedBy at h h' ⊢
  rw [List.map_append, List.map_append, h, h']

theorem NamedBy.exists_text {ms : List MethodDraft} {ns : List String} (h : NamedBy ms ns)
    {m : MethodDraft} (hm : m ∈ ms) : ∃ n, m.name = .text n := by
  have hname : m.name ∈ ns.map Value.text := h ▸ List.mem_map_of_mem hm
  obtain ⟨n, -, hn⟩ := List.mem_map.1 hname
  exact ⟨n, hn.symm⟩

theorem NamedBy.all_hasScalarName {ms : List MethodDraft} {ns : List String} (h : NamedBy ms ns) :
    ms.all hasScalarName = true := by
  refine List.all_eq_true.2 fun m hm => ?_
  obtain ⟨n, hn⟩ := h.exists_text hm
  rw [hasScalarName, hn]

theorem namedBy_iff {ms : List MethodDraft} {ns : List String} :
    NamedBy ms ns ↔ ms.map nameKey = ns.map textKey := by
  simp only [NamedBy, ← List.forall₂_eq_eq_eq, List.forall₂_map_left_iff,
    List.forall₂_map_right_iff, nameKey_eq_textKey]

theorem NamedBy.nodup_iff {ms : List MethodDraft} {ns : List String} (h : NamedBy ms ns) :
    (ms.map (·.name)).Nodup ↔ ns.Nodup := by
  rw [h, List.nodup_map_iff fun _ _ heq => Scalar.text.inj (Value.scalar.inj heq)]

/-- Each name stays where it first came. -/
theorem NamedBy.writeAll {ms : List MethodDraft} {ns : List String} (h : NamedBy ms ns) :
    NamedBy (writeAll sameName ms) ns.eraseDups := by
  rw [namedBy_iff, map_writeAll (tells_sameName h.all_hasScalarName), namedBy_iff.1 h,
    eraseDups_map textKey_injective]

/-- Each name carries the operation that was given last. -/
theorem NamedBy.mem_writeAll_iff {ms : List MethodDraft} {ns : List String} (h : NamedBy ms ns)
    {m : MethodDraft} : m ∈ Draft.writeAll sameName ms ↔
      ∃ before after, ms = before ++ m :: after ∧ m.name ∉ after.map (·.name) := by
  rw [mem_writeAll_iff_last (tells_sameName h.all_hasScalarName)]
  refine exists₂_congr fun before after => and_congr_right fun hms => not_congr ?_
  obtain ⟨n, hn⟩ := h.exists_text (m := m) (by simp [hms])
  rw [nameKey_eq_textKey.2 hn, hn]
  simp only [List.mem_map, nameKey_eq_textKey]

/-- Where all names are texts, a merge writes one operation after the other. -/
theorem NamedBy.mergeMethods {existing new : List MethodDraft} {ns : List String}
    (h : NamedBy (existing ++ new) ns) :
    mergeMethods existing new = .ok (Draft.writeAll sameName (existing ++ new)) :=
  mergeMethods_eq_ok.2 ⟨h.all_hasScalarName, rfl⟩

/-- **Of operations that are named by texts, a merge keeps each name in the place where it first
came, with the operation that was given last under it.** Operations may be merged in one go or in
two. -/
theorem mergeMethods_last_in_first_place {a b c : List MethodDraft} {as bs cs : List String}
    (ha : NamedBy a as) (hb : NamedBy b bs) (hc : NamedBy c cs) :
    ∃ ab, mergeMethods a b = .ok ab ∧
      (ab.map (·.name)).Nodup ∧
      NamedBy ab (as ++ bs).eraseDups ∧
      (∀ m, m ∈ ab ↔
        ∃ before after, a ++ b = before ++ m :: after ∧ m.name ∉ after.map (·.name)) ∧
      ∃ abc, mergeMethods ab c = .ok abc ∧ mergeMethods a (b ++ c) = .ok abc := by
  have hab := ha.append hb
  have hnames := hab.writeAll
  refine ⟨writeAll sameName (a ++ b), hab.mergeMethods, hnames.nodup_iff.2 (nodup_eraseDups _),
    hnames, fun m => hab.mem_writeAll_iff, writeAll sameName (a ++ (b ++ c)), ?_,
    (ha.append (hb.append hc)).mergeMethods⟩
  have hregrouped := mergeMethods_bind a b c
  rwa [hab.mergeMethods, (ha.append (hb.append hc)).mergeMethods] at hregrouped

/-- An operation at an address, with nothing but a name. -/
def bareOperation (name url : String) : MethodDraft := ⟨.get, .text name, url, .null, none⟩

/-- Operations that repeat a name already. -/
def knownDogs : List MethodDraft :=
  [bareOperation "list" "/pets", bareOperation "add" "/pets", bareOperation "list" "/dogs"]

/-- Operations one of which is known, and one of which comes twice. -/
def newDogs : List MethodDraft :=
  [bareOperation "get" "/pets", bareOperation "add" "/dogs", bareOperation "get" "/dogs"]

theorem mergeMethods_last_in_first_place_dogs :
    (NamedBy knownDogs ["list", "add", "list"] ∧ NamedBy newDogs ["get", "add", "get"] ∧
        NamedBy knownDogs.reverse ["list", "add", "list"]) ∧
      ∃ ab, mergeMethods knownDogs newDogs = .ok ab ∧
        (ab.map (·.name)).Nodup ∧
        NamedBy ab ["list", "add", "get"] ∧
        bareOperation "list" "/dogs" ∈ ab ∧
        ∃ abc, mergeMethods ab knownDogs.reverse = .ok abc ∧
          mergeMethods knownDogs (newDogs ++ knownDogs.reverse) = .ok abc := by
  have hknown : NamedBy knownDogs ["list", "add", "list"] := rfl
  have hnew : NamedBy newDogs ["get", "add", "get"] := rfl
  have hmore : NamedBy knownDogs.reverse ["list", "add", "list"] := rfl
  obtain ⟨ab, hab, hnodup, hnames, hlast, abc, habc⟩ :=
    mergeMethods_last_in_first_place hknown hnew hmore
  have hfirst : (["list", "add", "list"] ++ ["get", "add", "get"]).eraseDups =
      ["list", "add", "get"] := by decide
  refine ⟨⟨hknown, hnew, hmore⟩, ab, hab, hnodup, hfirst ▸ hnames, (hlast _).2 ?_, abc, habc⟩
  exact ⟨knownDogs.take 2, newDogs, rfl, by simp [newDogs, bareOperation]⟩

/-! ### Names -/

/-- Bytes are told from the text they spell. -/
theorem bytes_eq_of_fromUTF8? {bs cs : List UInt8} {s : String}
    (hb : String.fromUTF8? ⟨bs.toArray⟩ = some s) (hc : String.fromUTF8? ⟨cs.toArray⟩ = some s) :
    bs = cs := by
  have hbytes : ∀ ds : List UInt8, String.fromUTF8? ⟨ds.toArray⟩ = some s →
      s.toByteArray = ⟨ds.toArray⟩ := by
    intro ds hd
    unfold String.fromUTF8? at hd
    split_ifs at hd
    rw [← Option.some.inj hd]
    rfl
  have h := (hbytes bs hb).symm.trans (hbytes cs hc)
  simpa using h

/-- An operation named by bytes spells the name of an operation named by a text. -/
def SpelledTwice (ms : List MethodDraft) : Prop :=
  ∃ s bs, (∃ m ∈ ms, m.name = .text s) ∧ (∃ m ∈ ms, m.name = .scalar (.bytes bs)) ∧
    String.fromUTF8? ⟨bs.toArray⟩ = some s

/-- The text of an operation's name, if it has one. -/
def nameText (d : MethodDraft) : String := (Check.anyText d.name).toOption.getD ""

theorem nameText_eq {d : MethodDraft} {s : String} (h : Check.anyText d.name = .ok s) :
    nameText d = s := by
  unfold nameText
  rw [h]
  rfl

theorem map_name_of_accepted {ds : List MethodDraft} {ms : List Method} (h : Accepted ds ms) :
    ms.map (·.name) = ds.map nameText :=
  (map_eq_of_forall₂ (h.imp fun _ _ hdm => nameText_eq (Method.name_of_check_draft hdm))).symm

theorem anyText_of_accepted {ds : List MethodDraft} {ms : List Method} (h : Accepted ds ms)
    {d : MethodDraft} (hd : d ∈ ds) : Check.anyText d.name = .ok (nameText d) := by
  induction h with
  | nil => exact (List.not_mem_nil hd).elim
  | cons hdm _ ih =>
    rcases List.mem_cons.1 hd with rfl | hd
    · have hname := Method.name_of_check_draft hdm
      rw [hname, nameText_eq hname]
    · exact ih hd

/-- Two names of one text are one key, or one is the text and the other spells it in bytes. -/
theorem nameKey_eq_or_spelled {a b : MethodDraft} {s : String} (ha : Check.anyText a.name = .ok s)
    (hb : Check.anyText b.name = .ok s) :
    nameKey a = nameKey b ∨ SpelledTwice [a, b] := by
  rcases anyText_eq_ok ha with hta | ⟨bs, hba, hbs⟩
  · rcases anyText_eq_ok hb with htb | ⟨cs, hcb, hcs⟩
    · left
      rw [nameKey, nameKey, hta, htb]
    · exact Or.inr ⟨s, cs, ⟨a, by simp, hta⟩, ⟨b, by simp, hcb⟩, hcs⟩
  · rcases anyText_eq_ok hb with htb | ⟨cs, hcb, hcs⟩
    · exact Or.inr ⟨s, bs, ⟨b, by simp, htb⟩, ⟨a, by simp, hba⟩, hbs⟩
    · left
      rw [nameKey, nameKey, hba, hcb, bytes_eq_of_fromUTF8? hbs hcs]

theorem SpelledTwice.mono {ms ns : List MethodDraft} (h : SpelledTwice ms) (hsub : ms ⊆ ns) :
    SpelledTwice ns := by
  obtain ⟨s, bs, ⟨t, ht, hts⟩, ⟨b, hb, hbs⟩, hsp⟩ := h
  exact ⟨s, bs, ⟨t, hsub ht, hts⟩, ⟨b, hsub hb, hbs⟩, hsp⟩

/-- **Merged operations have different names, unless a name is spelled twice.** -/
theorem nodup_names_iff {given out : List MethodDraft} {ms : List Method} (h : Merged given out)
    (hms : Accepted out ms) : (ms.map (·.name)).Nodup ↔ ¬ SpelledTwice given := by
  have hout : out.Nodup := h.nodup_keys.of_map _
  rw [map_name_of_accepted hms, List.nodup_map_iff_inj_on hout]
  constructor
  · -- Both spellings stay through the merge, and the check makes one name of them.
    rintro hinj ⟨s, bs, ⟨t, ht, hts⟩, ⟨b, hb, hbs⟩, hsp⟩
    obtain ⟨t', ht', hkt⟩ := h.exists_key t ht
    obtain ⟨b', hb', hkb⟩ := h.exists_key b hb
    have htext := nameKey_of_text hts hkt
    have hbytes := nameKey_of_bytes hbs hkb
    have ht'' : nameText t' = s := nameText_eq (by rw [htext]; rfl)
    have hb'' : nameText b' = s := nameText_eq (by rw [hbytes]; simp [Check.anyText, hsp])
    have heq := hinj t' ht' b' hb' (ht''.trans hb''.symm)
    rw [heq, hbytes] at htext
    cases htext
  · intro hnot a ha b hb hab
    have hta := anyText_of_accepted hms ha
    have htb := anyText_of_accepted hms hb
    rw [← hab] at htb
    rcases nameKey_eq_or_spelled hta htb with hkey | hsp
    · exact List.inj_on_of_nodup_map h.nodup_keys ha hb hkey
    · refine (hnot (hsp.mono ?_)).elim
      intro x hx
      rcases List.mem_cons.1 hx with rfl | hx
      · exact h.given_of_mem x ha
      · rw [List.mem_singleton.1 hx]
        exact h.given_of_mem b hb

/-! ### Imports -/

/-- The import of a model. -/
def modelImport (settings : Settings) (name : String) : Import :=
  ⟨name, settings.modelImportPath name⟩

/-- The imports of operations: the classes of their bodies, each once, in the order of first use. -/
def importsOf (settings : Settings) (ms : List Method) : List Import :=
  ((ms.flatMap Method.bodies).map (·.type)).eraseDups.map (modelImport settings)

theorem mem_importsOf {settings : Settings} {ms : List Method} {i : Import}
    (h : i ∈ importsOf settings ms) :
    ∃ m ∈ ms, ∃ b ∈ m.bodies, i = modelImport settings b.type := by
  obtain ⟨n, hn, rfl⟩ := List.mem_map.1 h
  rw [List.mem_eraseDups, List.mem_map] at hn
  obtain ⟨b, hb, rfl⟩ := hn
  obtain ⟨m, hm, hbm⟩ := List.mem_flatMap.1 hb
  exact ⟨m, hm, b, hbm, rfl⟩

theorem map_name_importsOf (settings : Settings) (ms : List Method) :
    (importsOf settings ms).map (·.name) =
      ((ms.flatMap Method.bodies).map (·.type)).eraseDups := by
  simp [importsOf, Function.comp_def, modelImport]

theorem flatMap_bodies_of_accepted {ds : List MethodDraft} {ms : List Method}
    (h : Accepted ds ms) : ms.flatMap Method.bodies = ds.flatMap MethodDraft.bodies := by
  induction h with
  | nil => rfl
  | cons hdm _ ih =>
    rw [List.flatMap_cons, List.flatMap_cons, ih, (Method.bodies_of_check_draft hdm).1]

/-- The imports of drafts are those of the operations that they are accepted as. -/
theorem bodyImports_eq (settings : Settings) {ds : List MethodDraft} {ms : List Method}
    (h : Accepted ds ms) : bodyImports settings ds = importsOf settings ms := by
  have hmap : ∀ bs : List BodyParam, (bs.map fun b => (⟨b.type, settings.modelImportPath b.type⟩ :
      Import)) = (bs.map (·.type)).map (modelImport settings) := by
    intro bs
    rw [List.map_map]
    rfl
  rw [bodyImports, hmap, firstByName_map fun _ => rfl, freshNames_eq, importsOf,
    flatMap_bodies_of_accepted h]
  simp

theorem sound_of_accepted {ds : List MethodDraft} {ms : List Method} (h : Accepted ds ms) :
    ∀ m ∈ ms, m.Sound := by
  intro m hm
  obtain ⟨d, -, hd⟩ := exists_of_forall₂_right h hm
  exact Method.sound_of_check hd

/-- The imports of sound operations are sound. -/
theorem allSound_importsOf (settings : Settings) {ms : List Method} (h : ∀ m ∈ ms, m.Sound) :
    Import.AllSound (importsOf settings ms) := by
  refine ⟨fun i hi => ?_, map_name_importsOf settings ms ▸ nodup_eraseDups _⟩
  obtain ⟨n, hn, rfl⟩ := List.mem_map.1 hi
  rw [List.mem_eraseDups, List.mem_map] at hn
  obtain ⟨b, hb, rfl⟩ := hn
  obtain ⟨m, hm, hbm⟩ := List.mem_flatMap.1 hb
  refine ⟨((Method.sound_bodies (h m hm)).2 b hbm).2, ?_⟩
  simp [modelImport, Settings.modelImportPath, String.append_eq_empty_iff]

/-- Where each operation has at most one body, the classes of the bodies are their types. -/
theorem filterMap_bodyType? {ms : List Method} (h : ∀ m ∈ ms, m.Sound) :
    ms.filterMap Method.bodyType? = (ms.flatMap Method.bodies).map (·.type) := by
  induction ms with
  | nil => rfl
  | cons m ms ih =>
    have hlen := (Method.sound_bodies (h m (List.mem_cons_self ..))).1
    rw [List.flatMap_cons, List.map_append, ← ih fun n hn => h n (List.mem_cons_of_mem _ hn),
      List.filterMap_cons, Method.bodyType?]
    cases hb : m.bodies with
    | nil => rfl
    | cons b bs =>
      rw [hb, List.length_cons] at hlen
      obtain rfl : bs = [] := List.length_eq_zero_iff.1 (by omega)
      rfl

end Draft

end ApiScaffold
