import ApiScaffold.Proofs.TypeScript.DeclaredClass
import ApiScaffold.Proofs.TypeScript.ImportLines
import ApiScaffold.Proofs.TypeScript.MemberPass

/-!
# Classes in a text that changes

* `Quiet.above`: a text that ends with its line stays quiet when a line that begins with the keyword
  of an import declaration comes below it;
* `findBody?_below`: a class is found below import lines that are put above it;
* `findBody?_replace`: a class is found where it was when its body is replaced.
-/

namespace ApiScaffold.TypeScript

/-! ### Import lines above a class -/

section Above

variable {name p r xs w gap z : List Char} {before : Option Char} {c : Char} {k : ℕ}

/-- In front of the first declaration all is quiet. -/
theorem quiet_of_keywordOffset? (h : keywordOffset? name before (p ++ r) = some k)
    (hle : p.length ≤ k) : Quiet name before p r := by
  induction p generalizing before k with
  | nil => trivial
  | cons c cs ih =>
    rw [List.cons_append, keywordOffset?] at h
    cases hhere : declarationHere? name before (c :: (cs ++ r)) with
    | some n =>
      rw [hhere] at h
      obtain rfl := Option.some.inj h
      exact absurd hle (by simp)
    | none =>
      rw [hhere] at h
      obtain ⟨k, hk, rfl⟩ := Option.map_eq_some_iff.1 h
      exact ⟨hhere, ih hk (by simpa using hle)⟩

/-- A line that ends in a declaration ends among its blanks or behind its name. -/
theorem lineBreak_of_declaration (hne : name ≠ []) (hname : IsWord name)
    (hgap : ∀ c ∈ gap, Text.isBlank c = true)
    (h : xs ++ '\n' :: z = "class".toList ++ (gap ++ (name ++ r))) :
    (∃ blanks, (∀ c ∈ blanks, Text.isBlank c = true) ∧ z = blanks ++ (name ++ r)) ∨
      ∃ s, xs = "class".toList ++ (gap ++ (name ++ s)) ∧ r = s ++ '\n' :: z := by
  have hbreak : Text.isWordChar '\n' = false := by decide
  have hkeyword : '\n' ∉ "class".toList := by decide
  obtain ⟨s, rfl, hs⟩ := exists_append_of_notMem hkeyword h.symm
  rcases List.append_eq_append_iff.1 hs with ⟨a, rfl, ha⟩ | ⟨a, rfl, ha⟩
  · obtain ⟨t, rfl, rfl⟩ := exists_append_of_notMem (hname.notMem hbreak) ha
    exact Or.inr ⟨t, rfl, rfl⟩
  · cases a with
    | nil =>
      obtain ⟨d, ds, rfl⟩ := List.exists_cons_of_ne_nil hne
      obtain ⟨rfl, -⟩ := List.cons.inj ha
      exact absurd List.mem_cons_self (hname.notMem hbreak)
    | cons d blanks =>
      obtain ⟨-, hz⟩ := List.cons.inj ha
      exact Or.inl ⟨blanks, fun c hc => hgap c (by simp [hc]), hz⟩

/-- A word that ends where it stands at the front of a text is all of the first word there. -/
theorem eq_of_append_eq (hname : IsWord name) (hlast : name ≠ [])
    (hr : isWordBoundary name.getLast? r.head? = true) (hw : IsWord w)
    (hz : z.head?.any Text.isWordChar = false) (h : name ++ r = w ++ z) : name = w := by
  have hhead : r.head?.any Text.isWordChar = false := by
    have hword := hname _ (List.getLast_mem hlast)
    rw [isWordBoundary, List.getLast?_eq_some_getLast hlast, Option.any_some, hword] at hr
    simpa using hr
  have htake : ∀ {x y : List Char}, IsWord x → y.head?.any Text.isWordChar = false →
      (x ++ y).takeWhile Text.isWordChar = x := by
    intro x y hx hy
    rw [List.takeWhile_append_of_pos hx]
    cases y with
    | nil => simp
    | cons d ds =>
      have hd : Text.isWordChar d = false := hy
      rw [List.takeWhile_cons_of_neg (by simp [hd]), List.append_nil]
  rw [← htake hname hhead, h, htake hw hz]

/-- No declaration begins in front of an import line that is none with the line break alone. -/
theorem declarationHere?_above (hne : name ≠ []) (hname : IsWord name)
    (himport : name ≠ "import".toList) (hw : w.head?.any Text.isWordChar = false)
    (h : declarationHere? name before (xs ++ '\n' :: r) = none) :
    declarationHere? name before (xs ++ '\n' :: ("import".toList ++ w)) = none := by
  obtain ⟨c, cs, rfl⟩ := List.exists_cons_of_ne_nil hne
  have hc : Text.isBlank c = false := isBlank_of_isWordChar (hname c List.mem_cons_self)
  rw [← Option.not_isSome_iff_eq_none] at h ⊢
  refine fun hsome => h ?_
  obtain ⟨k, hk⟩ := Option.isSome_iff_exists.1 hsome
  obtain ⟨hbefore, gap, t, hsplit, hgapne, hgap, hword, rfl⟩ :=
    (declarationHere?_eq_some_iff hc).1 hk
  rcases lineBreak_of_declaration hne hname hgap hsplit with ⟨blanks, hblanks, hz⟩ | ⟨s, rfl, rfl⟩
  · -- The name would stand at the beginning of the import line.
    cases blanks with
    | nil =>
      have hkeyword : IsWord "import".toList := by decide
      exact absurd (eq_of_append_eq hname hne hword hkeyword hw hz.symm) himport
    | cons d ds =>
      obtain ⟨rfl, -⟩ := List.cons.inj hz
      exact absurd (hblanks 'i' List.mem_cons_self) (by decide)
  · refine Option.isSome_iff_exists.2 ⟨_, (declarationHere?_eq_some_iff hc).2
      ⟨hbefore, gap, s ++ '\n' :: r, by simp, hgapne, hgap, ?_, rfl⟩⟩
    rw [List.head?_append] at hword ⊢
    exact hword

/-- A text that ends with its line stays quiet when an import line comes below it. -/
theorem Quiet.above (hne : name ≠ []) (hname : IsWord name) (himport : name ≠ "import".toList)
    (hw : w.head?.any Text.isWordChar = false) (h : Quiet name before (xs ++ ['\n']) r) :
    Quiet name before (xs ++ ['\n']) ("import".toList ++ w) := by
  induction xs generalizing before with
  | nil =>
    exact ⟨declarationHere?_of_ne (by decide) before _, trivial⟩
  | cons x xs ih =>
    have hsplit : ∀ z, x :: (xs ++ ['\n'] ++ z) = x :: xs ++ '\n' :: z := fun z => by simp
    refine ⟨?_, ih h.2⟩
    have hhere : declarationHere? name before (x :: (xs ++ ['\n'] ++ r)) = none := h.1
    rw [hsplit] at hhere
    exact (congrArg _ (hsplit _)).trans (declarationHere?_above hne hname himport hw hhere)

/-- A line break declares nothing. -/
theorem Quiet.append_break (h : Quiet name before xs ('\n' :: r)) :
    Quiet name before (xs ++ ['\n']) r := by
  induction xs generalizing before with
  | nil => exact ⟨declarationHere?_of_ne (by decide) before _, trivial⟩
  | cons x xs ih =>
    have hsplit : x :: (xs ++ ['\n'] ++ r) = x :: (xs ++ '\n' :: r) := by simp
    exact ⟨(congrArg _ hsplit).trans h.1, ih h.2⟩

/-- Of what stands in front it matters only whether it belongs to a word. -/
theorem declarationEnd?_before {before' : Option Char}
    (h : before.any Text.isWordChar = before'.any Text.isWordChar) (cs : List Char) :
    declarationEnd? name before cs = declarationEnd? name before' cs := by
  cases cs with
  | nil => rfl
  | cons c cs => rw [declarationEnd?, declarationEnd?, declarationHere?, declarationHere?, h]

end Above

/-- The body that is found depends on the text behind the name of the class. -/
theorem findBody?_of_drop {masked masked' : List Char} {name : String} {body : ClassBody} {n n' : ℕ}
    (h : findBody? name masked = some body) (hn : declarationEnd? name.toList none masked = some n)
    (hn' : declarationEnd? name.toList none masked' = some n')
    (hdrop : masked'.drop n' = masked.drop n) :
    ∃ body', findBody? name masked' = some body' ∧ body'.opening + n = body.opening + n' := by
  unfold findBody? at h ⊢
  rw [hn] at h
  simp only [Option.bind_eq_bind, Option.bind_some, Option.bind_eq_some_iff, Option.pure_def,
    Option.some.injEq] at h
  obtain ⟨gap, hgap, size, hsize, rfl⟩ := h
  rw [← List.drop_drop] at hsize
  simp only [hn', hdrop, hgap, ← List.drop_drop, hsize, Option.bind_eq_bind, Option.bind_some]
  exact ⟨_, rfl, by dsimp only; omega⟩

/-- A word that can be the name of a class. -/
structure ClassWord (name : String) : Prop where
  ne_nil : name.toList ≠ []
  word : IsWord name.toList
  ne_import : name.toList ≠ "import".toList

/-- **A class is found below import lines** that are put above it, where a line begins. -/
theorem findBody?_below {is : List ImportText} {front r : List Char} {name : String}
    {body : ClassBody} {k : ℕ} (hsound : ∀ i ∈ is, i.Sound) (hlines : is ≠ [])
    (hname : ClassWord name) (hfront : front = [] ∨ ∃ xs, front = xs ++ ['\n'] ∧ xs.length ≤ k)
    (hk : keywordOffset? name.toList none (front ++ r) = some k)
    (h : findBody? name (front ++ r) = some body) :
    ∃ body', findBody? name (front ++ (maskedLines is ++ r)) = some body' ∧
      body'.opening = body.opening + (maskedLines is).length := by
  obtain ⟨hquiet, hquiet'⟩ : Quiet name.toList none front r ∧
      Quiet name.toList none front (maskedLines is ++ r) := by
    rcases hfront with rfl | ⟨xs, rfl, hle⟩
    · exact ⟨trivial, trivial⟩
    · rw [List.append_assoc, List.singleton_append] at hk
      have hquiet := (quiet_of_keywordOffset? hk hle).append_break
      obtain ⟨i, is, rfl⟩ := List.exists_cons_of_ne_nil hlines
      refine ⟨hquiet, ?_⟩
      rw [maskedLines_cons, i.masked_eq, List.append_assoc, List.append_assoc]
      exact hquiet.above hname.ne_nil hname.word hname.ne_import rfl
  obtain ⟨-, m, -, -, hm, -⟩ := exists_linesOf_eq hsound hlines
  have hbefore : ((maskedLines is).getLast?.or (front.getLast?.or none)).any Text.isWordChar =
      (front.getLast?.or none).any Text.isWordChar := by
    rw [hm, List.getLast?_concat]
    rcases hfront with rfl | ⟨xs, rfl, -⟩
    · rfl
    · rw [List.getLast?_concat]
      rfl
  -- The search is the same from the text behind the lines on.
  have hold := hquiet.declarationEnd?_append
  have hnew := hquiet'.declarationEnd?_append
  rw [((silent_maskedLines hsound hname.ne_nil hname.word r).quiet _).declarationEnd?_append,
    declarationEnd?_before hbefore] at hnew
  obtain ⟨n, hn⟩ : ∃ n, declarationEnd? name.toList (front.getLast?.or none) r = some n := by
    unfold findBody? at h
    simp only [hold, Option.bind_eq_bind, Option.bind_eq_some_iff, Option.map_eq_some_iff] at h
    obtain ⟨-, ⟨n, hn, -⟩, -⟩ := h
    exact ⟨n, hn⟩
  rw [hn, Option.map_some] at hold
  rw [hn, Option.map_some, Option.map_some] at hnew
  have hbehind : ∀ (xs ys : List Char) (k : ℕ), (xs ++ ys).drop (k + xs.length) = ys.drop k :=
    fun xs ys k => by rw [Nat.add_comm, List.drop_length_add_append]
  obtain ⟨body', hfound, hopening⟩ := findBody?_of_drop h hold hnew (by simp only [hbehind])
  exact ⟨body', hfound, by omega⟩

/-- **A class whose body is replaced is found where it was,** and its members are those of the new
text. -/
theorem findBody?_replace {name : String} (hname : '\x7b' ∉ name.toList)
    {front m m' after : List Char} {body : ClassBody} (hm' : Balanced m')
    (h : findBody? name (front ++ '\x7b' :: (m ++ '\x7d' :: after)) = some body)
    (hopening : body.opening = front.length) :
    ∃ body', findBody? name (front ++ '\x7b' :: (m' ++ '\x7d' :: after)) = some body' ∧
      body'.opening = body.opening ∧
      body'.members.map Member.label = labelsIn ('\x7d' :: after) m' := by
  obtain ⟨n, hdeclared, gap, hgap, hplace⟩ : ∃ n,
      declarationEnd? name.toList none (front ++ '\x7b' :: (m ++ '\x7d' :: after)) = some n ∧
        ∃ gap, openingOffset? ((front ++ '\x7b' :: (m ++ '\x7d' :: after)).drop n) = some gap ∧
          n + gap = body.opening := by
    unfold findBody? at h
    simp only [Option.bind_eq_bind, Option.bind_eq_some_iff, Option.pure_def,
      Option.some.injEq] at h
    obtain ⟨n, hn, gap, hgap, size, -, rfl⟩ := h
    exact ⟨n, hn, gap, hgap, rfl⟩
  have hn : n ≤ front.length := by omega
  have hsplit : ∀ z, (front ++ z).drop n = front.drop n ++ z := fun z =>
    List.drop_append_of_le_length hn
  have hbraceless : '\x7b' ∉ front.drop n := by
    rw [hsplit, openingOffset?, List.findIdx?_append] at hgap
    cases hfirst : (front.drop n).findIdx? (· == '\x7b') with
    | none => exact fun hmem => by simpa using List.findIdx?_eq_none_iff.1 hfirst _ hmem
    | some i =>
      obtain ⟨hlt, -⟩ := List.findIdx?_eq_some_iff_getElem.1 hfirst
      rw [hfirst] at hgap
      obtain rfl : i = gap := Option.some.inj hgap
      rw [List.length_drop] at hlt
      omega
  obtain ⟨body', hfound, hopening', hclosing'⟩ := exists_findBody?
    (declarationEnd?_congr hname hdeclared hn (m' ++ '\x7d' :: after)) (hsplit _) hbraceless hm'
  have hplace' : body'.opening = front.length := by
    rw [hopening', List.length_drop]
    omega
  refine ⟨body', hfound, by rw [hplace', hopening], ?_⟩
  obtain ⟨size, -, -, -, hclosing, hmembers⟩ := findBody?_cases hfound
  obtain rfl : size = m'.length + 1 := by omega
  have hinside : (front ++ '\x7b' :: (m' ++ '\x7d' :: after)).drop (front.length + 1) =
      m' ++ '\x7d' :: after := by
    rw [← List.drop_drop, List.drop_left]
    rfl
  rw [hmembers, hplace', hinside, Nat.add_sub_cancel, ← labelsIn_eq (Nat.lt_succ_self _)]

end ApiScaffold.TypeScript
