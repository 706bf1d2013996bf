import ApiScaffold.Proofs.Reconcile
import ApiScaffold.Proofs.TypeScript.Tiling

/-!
# Classes that are declared in a text

The search for a class goes from its name to the next opening brace, whatever stands in between.

* `DeclaresAt` says that the keyword, blanks and a name stand at an offset of a masked text, each
  where a word ends; `declarationHere?_eq_some_iff` that the search finds just that, and
  `declarationEnd?_of_first` that it finds the first;
* `ClassDecl` is the declaration of a class, with whatever stands between its name and its braces;
* `findClass?_declared`: the brace that is found for the first declaration of a class is that of its
  body exactly if there is no other in front of it, and then, only then, stubs are put into the
  body.
-/

namespace ApiScaffold.TypeScript

/-! ### The place of a declaration -/

/-- The keyword, blanks and a name stand at an offset of a masked text. A word ends with the name,
and none in front of the keyword goes on with it. -/
def DeclaresAt (name masked : List Char) (n : ℕ) : Prop :=
  (masked.take n).getLast?.any Text.isWordChar = false ∧
    ∃ gap r, masked.drop n = "class".toList ++ (gap ++ (name ++ r)) ∧ gap ≠ [] ∧
      (∀ c ∈ gap, Text.isBlank c = true) ∧ isWordBoundary name.getLast? r.head? = true

section Search

variable {c : Char} {w gap r cs : List Char} {before : Option Char} {n k : ℕ}

theorem searchDown_eq_last {α : Type} {f : ℕ → Option α} (h : ∀ i < n, f i = none) (hn : n ≠ 0) :
    searchDown f n = f n := by
  obtain ⟨n, rfl⟩ := Nat.exists_eq_succ_of_ne_zero hn
  rw [searchDown]
  cases f (n + 1) with
  | some a => rfl
  | none => exact searchDown_eq_none fun i _ hi => h i (Nat.lt_succ_of_le hi)

/-- A name that begins with no blank does not begin inside blanks. -/
theorem nameAfter?_inside (hc : Text.isBlank c = false) (hgap : ∀ d ∈ gap, Text.isBlank d = true)
    {i : ℕ} (hi : i < gap.length) : nameAfter? (c :: w) (gap ++ r) i = none := by
  have hne : c ≠ gap[i] := fun heq => by
    rw [heq, hgap _ (List.getElem_mem hi)] at hc
    cases hc
  rw [nameAfter?, List.drop_append_of_le_length hi.le, List.drop_eq_getElem_cons hi,
    List.cons_append, Text.dropLeading?, if_neg hne]

/-- Behind blanks it is found where it stands and a word ends with it. -/
theorem nameAfter?_length_iff {ahead : List Char} :
    nameAfter? (c :: w) (gap ++ ahead) gap.length = some k ↔
      ∃ r, ahead = c :: w ++ r ∧ isWordBoundary (c :: w).getLast? r.head? = true ∧
        gap.length + (c :: w).length = k := by
  have hlast : ∀ r, ((gap ++ (c :: w ++ r)).take (gap.length + (c :: w).length)).getLast? =
      (c :: w).getLast? := fun r => by
    rw [List.take_length_add_append, List.take_left, List.getLast?_append, List.getLast?_cons]
    rfl
  rw [nameAfter?, List.drop_left]
  cases hd : Text.dropLeading? (c :: w) ahead with
  | none =>
    refine iff_of_false (Option.some_ne_none k ∘ Eq.symm) ?_
    rintro ⟨r, rfl, -⟩
    rw [Text.dropLeading?_eq_some_iff.2 rfl] at hd
    cases hd
  | some r =>
    obtain rfl := Text.dropLeading?_eq_some_iff.1 hd
    dsimp only
    rw [hlast, ite_eq_iff]
    simp

/-- **What is found at the front of a text:** the keyword, all blanks behind it, and the name. -/
theorem declarationHere?_eq_some_iff (hc : Text.isBlank c = false) :
    declarationHere? (c :: w) before cs = some k ↔
      before.any Text.isWordChar = false ∧
        ∃ gap r, cs = "class".toList ++ (gap ++ (c :: w ++ r)) ∧ gap ≠ [] ∧
          (∀ d ∈ gap, Text.isBlank d = true) ∧
          isWordBoundary (c :: w).getLast? r.head? = true ∧
          5 + (gap.length + (c :: w).length) = k := by
  rw [declarationHere?]
  cases hd : Text.dropLeading? "class".toList cs with
  | none =>
    refine iff_of_false (Option.some_ne_none k ∘ Eq.symm) ?_
    rintro ⟨-, gap, r, rfl, -⟩
    rw [Text.dropLeading?_eq_some_iff.2 rfl] at hd
    cases hd
  | some rest =>
    obtain rfl := Text.dropLeading?_eq_some_iff.1 hd
    have hlast : ∀ {gap ahead : List Char}, (∀ d ∈ gap, Text.isBlank d = true) → gap ≠ [] →
        searchDown (nameAfter? (c :: w) (gap ++ ahead)) gap.length =
          nameAfter? (c :: w) (gap ++ ahead) gap.length := fun hgap hne =>
      searchDown_eq_last (fun i hi => nameAfter?_inside hc hgap hi)
        (List.length_pos_iff.2 hne).ne'
    cases hbefore : before.any Text.isWordChar with
    | true => simp
    | false =>
      dsimp only
      rw [if_neg Bool.false_ne_true, Option.map_eq_some_iff]
      constructor
      · rintro ⟨k, hk, rfl⟩
        have hgap : ∀ d ∈ rest.takeWhile Text.isBlank, Text.isBlank d = true :=
          List.all_eq_true.1 List.all_takeWhile
        have hrest := List.takeWhile_append_dropWhile (p := Text.isBlank) (l := rest)
        generalize rest.takeWhile Text.isBlank = gap at hk hgap hrest
        generalize rest.dropWhile Text.isBlank = ahead at hrest
        subst hrest
        have hne : gap ≠ [] := fun hnil => by
          rw [hnil] at hk
          cases hk
        rw [hlast hgap hne, nameAfter?_length_iff] at hk
        obtain ⟨r, rfl, hword, rfl⟩ := hk
        exact ⟨rfl, gap, r, rfl, hne, hgap, hword, Nat.add_comm _ _⟩
      · rintro ⟨-, gap, r, hrest, hne, hgap, hword, rfl⟩
        obtain rfl := List.append_cancel_left hrest
        refine ⟨gap.length + (c :: w).length, ?_, Nat.add_comm _ _⟩
        have htake : (gap ++ (c :: w ++ r)).takeWhile Text.isBlank = gap := by
          rw [List.takeWhile_append_of_pos hgap, List.cons_append, List.takeWhile_cons, hc]
          simp
        rw [htake, hlast hgap hne]
        exact nameAfter?_length_iff.2 ⟨r, rfl, hword, rfl⟩

/-- **The first declaration is found.** -/
theorem declarationEnd?_of_first {name : List Char}
    (h : declarationHere? name ((cs.take n).getLast?.or before) (cs.drop n) = some k)
    (hfirst : ∀ m < n, declarationHere? name ((cs.take m).getLast?.or before) (cs.drop m) = none) :
    declarationEnd? name before cs = some (n + k) := by
  induction n generalizing cs before with
  | zero =>
    rw [List.take_zero, List.drop_zero] at h
    cases cs with
    | nil => cases h
    | cons c cs =>
      rw [declarationEnd?, show declarationHere? name before (c :: cs) = some k from h,
        Nat.zero_add]
  | succ n ih =>
    cases cs with
    | nil => cases h
    | cons c cs =>
      have hlast : ∀ m, ((c :: cs).take (m + 1)).getLast?.or before =
          (cs.take m).getLast?.or (some c) := fun m => by
        rw [List.take_succ_cons, List.getLast?_cons]
        cases (cs.take m).getLast? <;> rfl
      have hhere : declarationHere? name before (c :: cs) = none := hfirst 0 n.succ_pos
      rw [hlast, List.drop_succ_cons] at h
      rw [declarationEnd?, hhere, ih h fun m hm => ?_]
      · simp only [Option.map_some, Option.some.injEq]
        omega
      · have hnone := hfirst (m + 1) (Nat.succ_lt_succ hm)
        rwa [hlast, List.drop_succ_cons] at hnone

/-- The search stands where a class is declared. -/
theorem declaresAt_iff {name masked : List Char}
    (hname : ∃ c w, name = c :: w ∧ Text.isBlank c = false) :
    DeclaresAt name masked n ↔
      ∃ k, declarationHere? name (masked.take n).getLast? (masked.drop n) = some k := by
  obtain ⟨c, w, rfl, hc⟩ := hname
  simp only [declarationHere?_eq_some_iff hc, DeclaresAt, exists_and_left]
  refine and_congr_right fun _ => ⟨?_, ?_⟩
  · rintro ⟨gap, hne, r, h₁, h₂, h₃⟩
    exact ⟨_, gap, hne, r, h₁, h₂, h₃, rfl⟩
  · rintro ⟨-, gap, hne, r, h₁, h₂, h₃, rfl⟩
    exact ⟨gap, hne, r, h₁, h₂, h₃⟩

end Search

/-! ### Declarations -/

/-- The declaration of a class: the blanks behind the keyword, the name, what stands between the
name and the braces, and the text between these. -/
structure ClassDecl where
  gap : List Char
  name : List Char
  header : List Char
  body : List Char
  deriving DecidableEq, Repr

namespace ClassDecl

/-- The declaration up to its header. -/
def declared (d : ClassDecl) : List Char := "class".toList ++ (d.gap ++ d.name)

/-- The declaration up to the brace of its body. -/
def front (d : ClassDecl) : List Char := d.declared ++ d.header

/-- The declaration as it stands in a text. -/
def text (d : ClassDecl) : List Char := d.front ++ '\x7b' :: (d.body ++ ['\x7d'])

/-- The parts of a declaration are what they should be. -/
structure Formed (d : ClassDecl) : Prop where
  gap_ne_nil : d.gap ≠ []
  gap : ∀ c ∈ d.gap, Text.isBlank c = true
  name_ne_nil : d.name ≠ []
  name : ∀ c ∈ d.name, Text.isIdentifierChar c = true
  /-- The name does not go on. -/
  head : d.header.head?.any Text.isIdentifierChar = false
  header : Balanced d.header
  body : Balanced d.body

instance instDecidableFormed (d : ClassDecl) : Decidable d.Formed :=
  decidable_of_iff (d.gap ≠ [] ∧ d.gap.all Text.isBlank = true ∧ d.name ≠ [] ∧
      d.name.all Text.isIdentifierChar = true ∧
      d.header.head?.any Text.isIdentifierChar = false ∧ Balanced d.header ∧ Balanced d.body) <| by
    simp only [List.all_eq_true]
    exact ⟨fun ⟨h₁, h₂, h₃, h₄, h₅, h₆, h₇⟩ => ⟨h₁, h₂, h₃, h₄, h₅, h₆, h₇⟩,
      fun ⟨h₁, h₂, h₃, h₄, h₅, h₆, h₇⟩ => ⟨h₁, h₂, h₃, h₄, h₅, h₆, h₇⟩⟩

variable {d : ClassDecl} {above below source : List Char}

theorem Formed.exists_name (h : d.Formed) : ∃ c w, d.name = c :: w ∧ Text.isBlank c = false := by
  obtain ⟨c, w, hname⟩ := List.exists_cons_of_ne_nil h.name_ne_nil
  exact ⟨c, w, hname, isBlank_of_isIdentifierChar (h.name c (by rw [hname]; simp))⟩

/-- A word ends with the name, if the name ends with a part of a word. -/
theorem Formed.isWordBoundary (h : d.Formed) (last : d.name.getLast?.any Text.isWordChar = true)
    (r : List Char) :
    isWordBoundary d.name.getLast? (d.header ++ '\x7b' :: r).head? = true := by
  have hhead : (d.header ++ '\x7b' :: r).head?.any Text.isWordChar = false := by
    cases hheader : d.header with
    | nil => rfl
    | cons c cs =>
      have hc := h.head
      rw [hheader, List.head?_cons, Option.any_some] at hc
      rw [List.cons_append, List.head?_cons, Option.any_some]
      by_contra hword
      rw [isIdentifierChar_of_isWordChar (Bool.not_eq_false _ ▸ hword)] at hc
      cases hc
  rw [TypeScript.isWordBoundary, last, hhead]
  rfl

/-- The first declaration of a class is found, up to its name. -/
theorem Formed.declarationEnd?_eq (h : d.Formed)
    (last : d.name.getLast?.any Text.isWordChar = true)
    (split : mask source = above ++ (d.text ++ below))
    (alone : above.getLast?.any Text.isWordChar = false)
    (first : ∀ n < above.length, ¬DeclaresAt d.name (mask source) n) :
    declarationEnd? d.name none (mask source) = some (above.length + d.declared.length) := by
  obtain ⟨c, w, hname, hc⟩ := h.exists_name
  have hboundary := h.isWordBoundary last (d.body ++ '\x7d' :: below)
  rw [hname] at first hboundary ⊢
  refine declarationEnd?_of_first ?_ fun m hm => ?_
  · rw [Option.or_none, split, List.take_left, List.drop_left, declarationHere?_eq_some_iff hc]
    refine ⟨alone, d.gap, _, ?_, h.gap_ne_nil, h.gap, hboundary, ?_⟩
    · rw [text, front, declared, hname]
      simp
    · rw [declared, hname, List.length_append, List.length_append]
      rfl
  · rw [Option.or_none, Option.eq_none_iff_forall_ne_some]
    exact fun k hk => first m hm ((declaresAt_iff ⟨c, w, rfl, hc⟩).2 ⟨k, hk⟩)

end ClassDecl

/-- Stubs are put between the braces that are found. -/
theorem between_of_mem_insertStubs {source : List Char} {name : String} {body : ClassBody}
    (found : findClass? source name = some body) {s : Service} {e : Splice.Edit}
    (he : e ∈ Reconcile.insertStubs s body) : body.opening < e.start ∧ e.start ≤ body.closing := by
  obtain ⟨k, -, hplaced⟩ := findClass?_placed found
  rw [Reconcile.insertStubs_eq] at he
  split_ifs at he
  · cases he
  · have hplace := Reconcile.opening_lt_stubPlace (s := s) hplaced
    rw [List.mem_singleton.1 he]
    simp only [Reconcile.insertion]
    omega

/-- **Classes that are declared in a text.** If a class has a name that ends with a letter, a digit
or an underscore, a body is found for its first declaration. The opening brace of this is that of
the declaration exactly if there is no brace in the header, and then the closing brace is that of
the declaration, too. Stubs are put between the braces of the declaration if there is none in the
header, and only then. -/
theorem findClass?_declared {source above below : List Char} {d : ClassDecl} (formed : d.Formed)
    (last : d.name.getLast?.any Text.isWordChar = true)
    (split : mask source = above ++ (d.text ++ below))
    (alone : above.getLast?.any Text.isWordChar = false)
    (first : ∀ n < above.length, ¬DeclaresAt d.name (mask source) n) :
    ∃ body, findClass? source (String.ofList d.name) = some body ∧
      (body.opening = above.length + d.front.length ↔ '\x7b' ∉ d.header) ∧
      ('\x7b' ∉ d.header → body.closing + 1 = above.length + d.text.length) ∧
      ∀ s : Service, ∀ e ∈ Reconcile.insertStubs s body,
        above.length + d.front.length < e.start ∧ e.start < above.length + d.text.length ↔
          '\x7b' ∉ d.header := by
  have hdeclared := formed.declarationEnd?_eq last split alone first
  rw [← String.toList_ofList (l := d.name)] at hdeclared
  have hdrop : (mask source).drop (above.length + d.declared.length) =
      d.header ++ '\x7b' :: (d.body ++ '\x7d' :: below) := by
    rw [split, List.drop_length_add_append, ClassDecl.text, ClassDecl.front, List.append_assoc,
      List.append_assoc, List.drop_left]
    simp
  have hfront : d.front.length = d.declared.length + d.header.length := List.length_append
  have htext : d.text.length = d.front.length + (d.body.length + 2) := by simp [ClassDecl.text]
  by_cases hbrace : '\x7b' ∈ d.header
  · -- the first brace of the header is taken for that of the body
    obtain ⟨u, v, hheader, hu⟩ := List.eq_append_cons_of_mem hbrace
    obtain ⟨i, r, rfl, hi⟩ := (hheader ▸ formed.header).exists_pair
      (show closerOf? '\x7b' = some '\x7d' by decide)
    have hlen : d.header.length = u.length + (i.length + r.length + 2) := by
      rw [hheader]
      simp
      omega
    obtain ⟨body, found, hopening, hclosing⟩ := exists_findBody? hdeclared
      (by rw [hdrop, hheader, List.append_assoc, pair_append]) hu hi
    refine ⟨body, found, iff_of_false (by omega) (not_not.2 hbrace), fun h => absurd hbrace h,
      fun s e he => iff_of_false ?_ (not_not.2 hbrace)⟩
    have := between_of_mem_insertStubs found he
    omega
  · obtain ⟨body, found, hopening, hclosing⟩ := exists_findBody? hdeclared hdrop hbrace formed.body
    refine ⟨body, found, iff_of_true (by omega) hbrace, fun _ => by omega,
      fun s e he => iff_of_true ?_ hbrace⟩
    have := between_of_mem_insertStubs found he
    omega

/-- A class with type parameters and what it extends and implements. -/
def shelfSource : List Char :=
  ["export class Shelf<T extends Array<string>> extends Base<T>\n", "    implements Store \x7b\n",
    "  list() \x7b\n  \x7d\n\x7d\n"].flatMap String.toList

/-- The declaration of the class. -/
def shelfDecl : ClassDecl where
  gap := [' ']
  name := "Shelf".toList
  header := "<T extends Array<string>> extends Base<T>\n    implements Store ".toList
  body := "\n  list() \x7b\n  \x7d\n".toList

/-- A service with one operation. -/
def listService : Service where
  name := "A"
  description := ""
  methods := [⟨.get, "list", "/", none, none⟩]
  imports := []

theorem findClass?_declared_shelf :
    (shelfDecl.Formed ∧ shelfDecl.name.getLast?.any Text.isWordChar = true ∧
      mask shelfSource = "export ".toList ++ (shelfDecl.text ++ ['\n']) ∧
      "export ".toList.getLast?.any Text.isWordChar = false ∧
      ∀ n < "export ".toList.length, ¬DeclaresAt shelfDecl.name (mask shelfSource) n) ∧
    ∃ body, findClass? shelfSource (String.ofList shelfDecl.name) = some body ∧
      body.opening = "export ".toList.length + shelfDecl.front.length ∧
      body.closing + 1 = "export ".toList.length + shelfDecl.text.length := by
  have formed : shelfDecl.Formed := by decide +kernel
  have last : shelfDecl.name.getLast?.any Text.isWordChar = true := by decide +kernel
  have split : mask shelfSource = "export ".toList ++ (shelfDecl.text ++ ['\n']) := by
    decide +kernel
  have alone : "export ".toList.getLast?.any Text.isWordChar = false := by decide +kernel
  have first : ∀ n < "export ".toList.length, ¬DeclaresAt shelfDecl.name (mask shelfSource) n := by
    intro n hn hat
    have hnone : ∀ n < "export ".toList.length, declarationHere? shelfDecl.name
        ((mask shelfSource).take n).getLast? ((mask shelfSource).drop n) = none := by
      decide +kernel
    obtain ⟨k, hk⟩ := (declaresAt_iff formed.exists_name).1 hat
    rw [hnone n hn] at hk
    cases hk
  have plain : '\x7b' ∉ shelfDecl.header := by decide +kernel
  obtain ⟨body, found, hopening, hclosing, -⟩ :=
    findClass?_declared formed last split alone first
  exact ⟨⟨formed, last, split, alone, first⟩, body, found, hopening.2 plain, hclosing plain⟩

/-- A declaration that stands in a balanced text, and the opening brace of its body is not found. -/
def ClassDecl.Missed (d : ClassDecl) (source : List Char) (pos : ℕ) : Prop :=
  (balanceProblems source = [] ∧ d.Formed ∧
    ((mask source).take pos).getLast?.any Text.isWordChar = false ∧
      d.text <+: (mask source).drop pos) ∧
    ∀ body ∈ findClass? source (String.ofList d.name), body.opening ≠ pos + d.front.length

/-- A declaration of a class with one space behind the keyword. -/
def classOf (name header body : String) : ClassDecl :=
  ⟨[' '], name.toList, header.toList, body.toList⟩

/-- A class that extends one with an object type as its type argument. -/
def derivedSource : List Char :=
  ["class A extends Base<\x7b id: string \x7d> \x7b\n", "  find() \x7b\x7d\n",
    "\x7d\n"].flatMap String.toList

/-- An object type in the header is taken for the body, and stubs are put into it, while the text
passes all checks; a name that goes on with a dollar sign is taken for that of the class, and one
that ends with it is not found. -/
theorem classOf_missed :
    (classOf "A" " extends Base<\x7b id: string \x7d> " "\n  find() \x7b\x7d\n").Missed
        derivedSource 0 ∧
      (∃ body ∈ findClass? derivedSource "A",
        (Reconcile.insertStubs listService body).map (·.start) = [34] ∧
        sourceProblems (Splice.apply derivedSource
          (Reconcile.changes {} listService derivedSource body).edits) (some "A") = []) ∧
      (classOf "A" " " "\n").Missed
        (["class A$B \x7b\n\x7d\n", "class A \x7b\n\x7d\n"].flatMap String.toList) 14 ∧
      (classOf "A$" " " "\n").Missed (["class A$ \x7b\n", "\x7d\n"].flatMap String.toList) 0 := by
  refine ⟨⟨by decide +kernel, by decide +kernel⟩,
    ⟨⟨"A", 21, 34, [⟨"id", .property, 22, 34⟩]⟩, by decide +kernel, by decide +kernel,
      by decide +kernel⟩,
    ⟨by decide +kernel, by decide +kernel⟩, ⟨by decide +kernel, by decide +kernel⟩⟩

end ApiScaffold.TypeScript
