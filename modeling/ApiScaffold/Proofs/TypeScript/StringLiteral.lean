import ApiScaffold.Text.Digits
import ApiScaffold.Text.Unit
import Mathlib.Data.List.Basic
import Mathlib.Tactic

/-!
# String literals as they are evaluated

A string literal between double quotation marks is read by the rules of strict code, character by
character, up to the mark that ends it. Its value is a list of UTF-16 units.

* `LiteralMode.read` is one step of the reader, `readLiteral` the whole of it;
* `Sealed` says of a text that it can stand in a literal as it is;
* `textUnits_injective`: different texts have different values;
* `LiteralMode.weigh_of_read`: a step brings in no more than it reads, if a backslash counts twice;
* `readLiteral_indented_iff`: a text whose lines may be indented is read as itself, and up to the
  mark behind it, exactly if it is sealed.
-/

namespace ApiScaffold.TypeScript

/-! ### The reader -/

/-- Where in a string literal its reader stands. -/
inductive LiteralMode where
  /-- Between characters. -/
  | plain
  /-- Behind a backslash. -/
  | escape
  /-- Behind an escaped zero, which no digit may follow. -/
  | zero
  /-- Behind an escaped carriage return, to which a line feed belongs. -/
  | carriage
  /-- In front of a hexadecimal digit and so many more, behind digits of the given value. -/
  | hex (more value : ℕ)
  /-- Behind the letter of an escape by code. -/
  | code
  /-- Between braces, behind digits of the given value if there are any. -/
  | braces (value? : Option ℕ)
  deriving DecidableEq, Repr

/-- What a character stands for that is no escape. -/
def readPlain (c : Char) : Option (List ℕ × LiteralMode) :=
  if c = '\\' then some ([], .escape)
  else if c = '\x22' ∨ c = '\n' ∨ c = '\r' then none
  else some (Text.unitsOf c.toNat, .plain)

/-- The units of an escape of one character. -/
def escapedUnits (c : Char) : List ℕ :=
  if c = 'b' then [8]
  else if c = 't' then [9]
  else if c = 'n' then [10]
  else if c = 'v' then [11]
  else if c = 'f' then [12]
  else if c = 'r' then [13]
  else Text.unitsOf c.toNat

/-- What a character behind a backslash stands for. A line break stands for nothing; strict code
allows no digit but zero. -/
def readEscaped (c : Char) : Option (List ℕ × LiteralMode) :=
  if c = 'x' then some ([], .hex 1 0)
  else if c = 'u' then some ([], .code)
  else if c = '0' then some ([0], .zero)
  else if c.isDigit then none
  else if c = '\r' then some ([], .carriage)
  else if c = '\n' ∨ c = '\u2028' ∨ c = '\u2029' then some ([], .plain)
  else some (escapedUnits c, .plain)

/-- What a digit of an escape stands for that takes `more` digits behind it. -/
def readDigit (more value : ℕ) (c : Char) : Option (List ℕ × LiteralMode) :=
  (Text.hexValue? c).map fun d =>
    match more with
    | 0 => ([16 * value + d], .plain)
    | k + 1 => ([], .hex k (16 * value + d))

/-- One step of the reader: the units that a character brings in, and where the reader stands then;
nothing if the literal is malformed. -/
def LiteralMode.read : LiteralMode → Char → Option (List ℕ × LiteralMode)
  | .plain, c => readPlain c
  | .escape, c => readEscaped c
  | .zero, c => if c.isDigit then none else readPlain c
  | .carriage, c => if c = '\n' then some ([], .plain) else readPlain c
  | .hex more value, c => readDigit more value c
  | .code, c => if c = '\x7b' then some ([], .braces none) else readDigit 3 0 c
  | .braces value?, c =>
    if c = '\x7d' then
      value?.bind fun n => if n ≤ 0x10FFFF then some (Text.unitsOf n, .plain) else none
    else (Text.hexValue? c).map fun d => ([], .braces (some (16 * value?.getD 0 + d)))

/-- Whether a quotation mark ends the literal. -/
def LiteralMode.ends : LiteralMode → Bool
  | .plain | .zero | .carriage => true
  | .escape | .hex _ _ | .code | .braces _ => false

/-- The value of the literal that a text goes on with, and what follows its quotation mark. -/
def readLiteral : LiteralMode → List Char → Option (List ℕ × List Char)
  | _, [] => none
  | m, c :: cs =>
    if c = '\x22' ∧ m.ends = true then some ([], cs)
    else
      match m.read c with
      | none => none
      | some (us, m') => (readLiteral m' cs).map fun p => (us ++ p.1, p.2)

/-- The UTF-16 units of a text. -/
def textUnits (t : List Char) : List ℕ := t.flatMap fun c => Text.unitsOf c.toNat

@[simp] theorem textUnits_nil : textUnits [] = [] := rfl

@[simp] theorem textUnits_cons (c : Char) (t : List Char) :
    textUnits (c :: t) = Text.unitsOf c.toNat ++ textUnits t := List.flatMap_cons

theorem textUnits_append (t u : List Char) : textUnits (t ++ u) = textUnits t ++ textUnits u :=
  List.flatMap_append

/-- No character of the text ends a literal or begins an escape. -/
def Sealed (t : List Char) : Prop := ∀ c ∈ t, c ≠ '\x22' ∧ c ≠ '\\' ∧ c ≠ '\n' ∧ c ≠ '\r'

instance instDecidableSealed (t : List Char) : Decidable (Sealed t) :=
  List.decidableBAll (fun c => c ≠ '\x22' ∧ c ≠ '\\' ∧ c ≠ '\n' ∧ c ≠ '\r') t

section Steps

variable {m m' : LiteralMode} {c : Char} {us vs : List ℕ} {t cs rest : List Char}

theorem readPlain_eq_some (h : readPlain c = some (us, m')) :
    c = '\\' ∧ us = [] ∧ m' = .escape ∨
      (c ≠ '\x22' ∧ c ≠ '\\' ∧ c ≠ '\n' ∧ c ≠ '\r') ∧ us = Text.unitsOf c.toNat ∧ m' = .plain := by
  unfold readPlain at h
  split_ifs at h with hslash hbreak
  · obtain ⟨rfl, rfl⟩ := Prod.mk.inj (Option.some.inj h)
    exact Or.inl ⟨hslash, rfl, rfl⟩
  · obtain ⟨rfl, rfl⟩ := Prod.mk.inj (Option.some.inj h)
    simp only [not_or] at hbreak
    exact Or.inr ⟨⟨hbreak.1, hslash, hbreak.2⟩, rfl, rfl⟩

theorem readPlain_of_sealed (h : c ≠ '\x22' ∧ c ≠ '\\' ∧ c ≠ '\n' ∧ c ≠ '\r') :
    readPlain c = some (Text.unitsOf c.toNat, .plain) := by
  simp [readPlain, h]

theorem readLiteral_cons (hend : ¬(c = '\x22' ∧ m.ends = true)) :
    readLiteral m (c :: cs) = some (vs, rest) ↔ ∃ us m' vs', m.read c = some (us, m') ∧
      readLiteral m' cs = some (vs', rest) ∧ vs = us ++ vs' := by
  rw [readLiteral, if_neg hend]
  cases hread : m.read c with
  | none => simp
  | some p =>
    obtain ⟨us, m'⟩ := p
    rw [Option.map_eq_some_iff]
    constructor
    · rintro ⟨⟨vs', rest'⟩, hrest, heq⟩
      obtain ⟨rfl, rfl⟩ := Prod.mk.inj heq
      exact ⟨us, m', vs', rfl, hrest, rfl⟩
    · rintro ⟨us', m'', vs', hstep, hrest, rfl⟩
      obtain ⟨rfl, rfl⟩ := Prod.mk.inj (Option.some.inj hstep)
      exact ⟨(vs', rest), hrest, rfl⟩

/-- A sealed text is read as itself, whatever follows. -/
theorem readLiteral_append_of_sealed (h : Sealed t) (r : List Char) :
    readLiteral .plain (t ++ r) =
      (readLiteral .plain r).map fun p => (textUnits t ++ p.1, p.2) := by
  induction t with
  | nil => simp
  | cons c t ih =>
    obtain ⟨hc, ht⟩ := List.forall_mem_cons.1 h
    rw [List.cons_append, readLiteral, if_neg fun hend => hc.1 hend.1, LiteralMode.read,
      readPlain_of_sealed hc]
    simp [ih ht, Function.comp_def]

/-- **The value of a sealed text in quotation marks** is the text. -/
theorem readLiteral_of_sealed (h : Sealed t) (rest : List Char) :
    readLiteral .plain (t ++ '\x22' :: rest) = some (textUnits t, rest) := by
  rw [readLiteral_append_of_sealed h]
  simp [readLiteral, LiteralMode.ends]

/-- No literal goes on over the rest of the line. -/
theorem readLiteral_line {line : List Char} (hquote : '\x22' ∉ line) (hslash : '\\' ∉ line)
    (more : List Char) : readLiteral .plain (line ++ '\n' :: more) = none := by
  induction line with
  | nil => rfl
  | cons c line ih =>
    rw [List.mem_cons, not_or] at hquote hslash
    rw [List.cons_append, Option.eq_none_iff_forall_not_mem]
    rintro ⟨vs, rest⟩ h
    obtain ⟨us, m', vs', hread, hrest, -⟩ :=
      (readLiteral_cons fun hend => hquote.1 hend.1.symm).1 h
    rcases readPlain_eq_some hread with ⟨rfl, -⟩ | ⟨-, -, rfl⟩
    · exact hslash.1 rfl
    · rw [ih hquote.2 hslash.2] at hrest
      cases hrest

end Steps

/-! ### What is read weighs no more than what is written -/

/-- The length of a list of units, in which a backslash counts twice. -/
def weigh (us : List ℕ) : ℕ := us.length + us.count 92

@[simp] theorem weigh_nil : weigh [] = 0 := rfl

@[simp] theorem weigh_append (us vs : List ℕ) : weigh (us ++ vs) = weigh us + weigh vs := by
  simp only [weigh, List.length_append, List.count_append]
  omega

theorem weigh_singleton_le (n : ℕ) : weigh [n] ≤ 2 := by
  unfold weigh
  have := List.count_le_length (a := 92) (l := [n])
  simp only [List.length_singleton] at this ⊢
  omega

/-- A character is one unit at least, and one unit or a pair without backslash. -/
theorem weigh_unitsOf (n : ℕ) :
    1 ≤ weigh (Text.unitsOf n) ∧ weigh (Text.unitsOf n) ≤ 2 := by
  unfold Text.unitsOf
  split_ifs with hn
  · exact ⟨by simp [weigh], weigh_singleton_le n⟩
  · have hhigh : 0xD800 + (n - 0x10000) / 0x400 ≠ 92 := by omega
    have hlow : 0xDC00 + (n - 0x10000) % 0x400 ≠ 92 := by omega
    simp [weigh, hhigh, hlow]

/-- A text is as long as its units are heavy, at most. -/
theorem length_le_weigh (t : List Char) : t.length ≤ weigh (textUnits t) := by
  induction t with
  | nil => exact Nat.zero_le _
  | cons c t ih =>
    have := (weigh_unitsOf c.toNat).1
    rw [textUnits_cons, weigh_append, List.length_cons]
    omega

/-- The first units tell the first character. -/
theorem unitsOf_append_inj {c d : Char} {us vs : List ℕ}
    (h : Text.unitsOf c.toNat ++ us = Text.unitsOf d.toNat ++ vs) : c = d ∧ us = vs := by
  have hc : c.toNat < 0xD800 ∨ 0xDFFF < c.toNat ∧ c.toNat < 0x110000 := c.valid
  have hd : d.toNat < 0xD800 ∨ 0xDFFF < d.toNat ∧ d.toNat < 0x110000 := d.valid
  unfold Text.unitsOf at h
  split_ifs at h with hc' hd' hd' <;>
    simp only [List.cons_append, List.nil_append, List.cons.injEq] at h
  · exact ⟨Char.toNat_inj.1 h.1, h.2⟩
  · omega
  · omega
  · exact ⟨Char.toNat_inj.1 (by omega), h.2.2⟩

/-- **A text is told by its units.** -/
theorem textUnits_injective : Function.Injective textUnits := by
  intro t
  induction t with
  | nil =>
    intro u h
    cases u with
    | nil => rfl
    | cons d u =>
      have := length_le_weigh (d :: u)
      rw [← h] at this
      exact absurd this (by simp)
  | cons c t ih =>
    intro u h
    cases u with
    | nil =>
      have := length_le_weigh (c :: t)
      rw [h] at this
      exact absurd this (by simp)
    | cons d u =>
      obtain ⟨rfl, htail⟩ := unitsOf_append_inj h
      rw [ih htail]

/-- What a reader may still bring in beyond what it reads. -/
def LiteralMode.debt : LiteralMode → ℕ
  | .plain | .zero => 0
  | .escape | .carriage | .hex _ _ | .code | .braces _ => 1

section Weights

variable {m m' : LiteralMode} {c : Char} {us : List ℕ}

theorem weigh_of_readPlain (h : readPlain c = some (us, m')) :
    weigh us + m'.debt ≤ weigh (Text.unitsOf c.toNat) := by
  rcases readPlain_eq_some h with ⟨rfl, rfl, rfl⟩ | ⟨-, rfl, rfl⟩
  · decide
  · exact le_rfl

theorem weigh_escapedUnits (c : Char) : weigh (escapedUnits c) ≤ weigh (Text.unitsOf c.toNat) := by
  have hone := (weigh_unitsOf c.toNat).1
  unfold escapedUnits
  split_ifs <;> first | exact hone | exact le_rfl

theorem weigh_of_readEscaped (h : readEscaped c = some (us, m')) :
    weigh us + m'.debt ≤ weigh (Text.unitsOf c.toNat) + 1 := by
  have hone := (weigh_unitsOf c.toNat).1
  have hescaped := weigh_escapedUnits c
  have hzero : weigh [0] = 1 := rfl
  unfold readEscaped at h
  split_ifs at h <;> obtain ⟨rfl, rfl⟩ := Prod.mk.inj (Option.some.inj h) <;>
    simp only [LiteralMode.debt, weigh_nil, hzero] <;> omega

theorem weigh_of_readDigit {more value : ℕ} (h : readDigit more value c = some (us, m')) :
    weigh us + m'.debt ≤ weigh (Text.unitsOf c.toNat) + 1 := by
  have hone := (weigh_unitsOf c.toNat).1
  obtain ⟨d, -, hd⟩ := Option.map_eq_some_iff.1 h
  cases more with
  | zero =>
    obtain ⟨rfl, rfl⟩ := Prod.mk.inj hd
    have := weigh_singleton_le (16 * value + d)
    simp only [LiteralMode.debt]
    omega
  | succ k =>
    obtain ⟨rfl, rfl⟩ := Prod.mk.inj hd
    simp only [LiteralMode.debt, weigh_nil]
    omega

/-- **A step brings in no more than it reads,** but for the debt. -/
theorem LiteralMode.weigh_of_read (h : m.read c = some (us, m')) :
    weigh us + m'.debt ≤ weigh (Text.unitsOf c.toNat) + m.debt := by
  have hone := (weigh_unitsOf c.toNat).1
  cases m with
  | plain => exact weigh_of_readPlain h
  | escape => exact weigh_of_readEscaped h
  | zero =>
    rw [LiteralMode.read] at h
    split_ifs at h
    exact weigh_of_readPlain h
  | carriage =>
    rw [LiteralMode.read] at h
    split_ifs at h
    · obtain ⟨rfl, rfl⟩ := Prod.mk.inj (Option.some.inj h)
      exact Nat.zero_le _
    · exact (weigh_of_readPlain h).trans (Nat.le_succ _)
  | hex more value => exact weigh_of_readDigit h
  | code =>
    rw [LiteralMode.read] at h
    split_ifs at h
    · obtain ⟨rfl, rfl⟩ := Prod.mk.inj (Option.some.inj h)
      exact Nat.le_add_left _ _
    · exact weigh_of_readDigit h
  | braces value? =>
    rw [LiteralMode.read] at h
    split_ifs at h
    · obtain ⟨n, -, hn⟩ := Option.bind_eq_some_iff.1 h
      split_ifs at hn
      obtain ⟨rfl, rfl⟩ := Prod.mk.inj (Option.some.inj hn)
      have := (weigh_unitsOf n).2
      simp only [LiteralMode.debt]
      omega
    · obtain ⟨d, -, hd⟩ := Option.map_eq_some_iff.1 h
      obtain ⟨rfl, rfl⟩ := Prod.mk.inj hd
      exact Nat.le_add_left _ _

/-- A line break can be read behind a backslash only. -/
theorem LiteralMode.read_lineBreak (h : m.read '\n' = some (us, m')) :
    us = [] ∧ m' = .plain ∧ m.debt = 1 := by
  cases m with
  | plain | zero => cases h
  | escape | carriage =>
    obtain ⟨rfl, rfl⟩ := Prod.mk.inj (Option.some.inj h)
    exact ⟨rfl, rfl, rfl⟩
  | hex | code | braces => cases h

/-- A quotation mark that does not end the literal stands behind a backslash. -/
theorem LiteralMode.read_quote (hends : m.ends ≠ true) (h : m.read '\x22' = some (us, m')) :
    m' = .plain := by
  cases m with
  | plain | zero | carriage => exact absurd rfl hends
  | escape => exact (Prod.mk.inj (Option.some.inj h)).2.symm
  | hex | code | braces => cases h

end Weights

/-! ### Texts whose lines are indented -/

/-- The first text is the second, with no more than two blanks behind each line break. -/
inductive Indented : List Char → List Char → Prop
  | nil : Indented [] []
  | char {c : Char} {w t : List Char} :
      c ≠ '\n' → Indented w t → Indented (c :: w) (c :: t)
  | line {n : ℕ} {w t : List Char} :
      n ≤ 2 → Indented w t → Indented ('\n' :: (List.replicate n ' ' ++ w)) ('\n' :: t)

namespace Indented

variable {w t u : List Char}

/-- A text on one line. -/
theorem eq_of_notMem (h : Indented w t) (hline : '\n' ∉ t) : w = t := by
  induction h with
  | nil => rfl
  | char _ _ ih => rw [ih fun hmem => hline (List.mem_cons_of_mem _ hmem)]
  | line => exact absurd List.mem_cons_self hline

/-- The indented text is cut where the text is. -/
theorem exists_append (h : Indented w (t ++ u)) :
    ∃ v v', w = v ++ v' ∧ Indented v t ∧ Indented v' u := by
  induction t generalizing w with
  | nil => exact ⟨[], w, rfl, .nil, h⟩
  | cons c t ih =>
    cases h with
    | char hc h =>
      obtain ⟨v, v', rfl, hv, hv'⟩ := ih h
      exact ⟨c :: v, v', rfl, .char hc hv, hv'⟩
    | @line n w _ hn h =>
      obtain ⟨v, v', rfl, hv, hv'⟩ := ih h
      exact ⟨'\n' :: (List.replicate n ' ' ++ v), v', by simp, .line hn hv, hv'⟩

end Indented

/-- The units were read of a front of the text, and weigh no more than that front, but for the debt.
Between characters the front is sealed if they weigh as much. -/
def ReadWithin (m : LiteralMode) (vs : List ℕ) (t : List Char) : Prop :=
  ∃ front, front <+: t ∧ weigh vs ≤ weigh (textUnits front) + m.debt ∧
    (m = .plain → Sealed front ∨ weigh vs < weigh (textUnits front))

namespace ReadWithin

variable {m m' : LiteralMode} {c : Char} {us vs : List ℕ} {t : List Char}

theorem nil (m : LiteralMode) (t : List Char) : ReadWithin m [] t :=
  ⟨[], List.nil_prefix, Nat.zero_le _, fun _ => Or.inl (List.forall_mem_nil _)⟩

theorem cons (hread : m.read c = some (us, m')) (h : ReadWithin m' vs t) :
    ReadWithin m (us ++ vs) (c :: t) := by
  obtain ⟨front, hfront, hweigh, hplain⟩ := h
  have hstep := LiteralMode.weigh_of_read hread
  refine ⟨c :: front, List.cons_prefix_cons.2 ⟨rfl, hfront⟩, ?_, ?_⟩
  · rw [textUnits_cons, weigh_append, weigh_append]
    omega
  · rintro rfl
    rw [textUnits_cons, weigh_append, weigh_append]
    rcases readPlain_eq_some hread with ⟨rfl, rfl, rfl⟩ | ⟨hc, rfl, rfl⟩
    · -- A backslash weighs more than the debt that it leaves.
      have hslash : weigh (Text.unitsOf '\\'.toNat) = 2 := rfl
      simp only [LiteralMode.debt] at hweigh
      rw [weigh_nil, hslash]
      omega
    · exact (hplain rfl).imp (fun hsealed => List.forall_mem_cons.2 ⟨hc, hsealed⟩) (by omega)

/-- The blanks behind a line break are no heavier than the break and the debt of what escapes it. -/
theorem line {n : ℕ} (hn : n ≤ 2) (hread : m.read '\n' = some (us, m'))
    (h : ReadWithin .plain vs t) :
    ReadWithin m (us ++ (textUnits (List.replicate n ' ') ++ vs)) ('\n' :: t) := by
  obtain ⟨rfl, -, hdebt⟩ := LiteralMode.read_lineBreak hread
  obtain ⟨front, hfront, hweigh, -⟩ := h
  have hblanks : weigh (textUnits (List.replicate n ' ')) ≤ 2 := by
    interval_cases n <;> decide
  have hbreak : weigh (Text.unitsOf '\n'.toNat) = 1 := rfl
  refine ⟨'\n' :: front, List.cons_prefix_cons.2 ⟨rfl, hfront⟩, ?_, ?_⟩
  · simp only [LiteralMode.debt] at hweigh
    rw [List.nil_append, textUnits_cons, weigh_append, weigh_append, hbreak]
    omega
  · rintro rfl
    cases hdebt

end ReadWithin

section Literals

variable {m : LiteralMode} {w t back rest : List Char} {vs : List ℕ}

/-- **A literal ends within the text that was put between its quotation marks,** or at the mark
behind it, if none goes on behind that mark. -/
theorem readWithin_of_readLiteral (hw : Indented w t) (hback : readLiteral .plain back = none)
    (h : readLiteral m (w ++ '\x22' :: back) = some (vs, rest)) : ReadWithin m vs t := by
  induction hw generalizing m vs with
  | nil =>
    by_cases hends : m.ends = true
    · rw [List.nil_append, readLiteral, if_pos ⟨rfl, hends⟩] at h
      obtain ⟨rfl, -⟩ := Prod.mk.inj (Option.some.inj h)
      exact .nil m []
    · obtain ⟨us, m', vs', hread, hrest, -⟩ := (readLiteral_cons fun hend => hends hend.2).1 h
      rw [LiteralMode.read_quote hends hread, hback] at hrest
      cases hrest
  | @char c w t hc hw ih =>
    by_cases hend : c = '\x22' ∧ m.ends = true
    · rw [List.cons_append, readLiteral, if_pos hend] at h
      obtain ⟨rfl, -⟩ := Prod.mk.inj (Option.some.inj h)
      exact .nil m _
    · obtain ⟨us, m', vs', hread, hrest, rfl⟩ := (readLiteral_cons hend).1 h
      exact .cons hread (ih hrest)
  | @line n w t hn hw ih =>
    have hblanks : Sealed (List.replicate n ' ') := fun c hc => by
      rw [List.eq_of_mem_replicate hc]
      decide
    rw [List.cons_append] at h
    obtain ⟨us, m', vs', hread, hrest, rfl⟩ :=
      (readLiteral_cons fun hend => absurd hend.1 (by decide)).1 h
    rw [(LiteralMode.read_lineBreak hread).2.1, List.append_assoc,
      readLiteral_append_of_sealed hblanks] at hrest
    obtain ⟨⟨ws, rest'⟩, hws, heq⟩ := Option.map_eq_some_iff.1 hrest
    obtain ⟨rfl, rfl⟩ := Prod.mk.inj heq
    exact .line hn hread (ih hws)

/-- **A text is read as itself,** and up to the quotation mark behind it, exactly if it is
sealed. -/
theorem readLiteral_indented_iff (hw : Indented w t) (hback : readLiteral .plain back = none) :
    readLiteral .plain (w ++ '\x22' :: back) = some (textUnits t, rest) ↔
      Sealed t ∧ rest = back := by
  constructor
  · intro h
    obtain ⟨front, ⟨behind, rfl⟩, hweigh, hplain⟩ := readWithin_of_readLiteral hw hback h
    have hbehind := length_le_weigh behind
    rw [textUnits_append, weigh_append] at hweigh hplain
    simp only [LiteralMode.debt] at hweigh
    obtain rfl : behind = [] := List.eq_nil_of_length_eq_zero (by omega)
    rw [List.append_nil] at hw h ⊢
    have hsealed : Sealed front := (hplain rfl).resolve_right (by omega)
    rw [hw.eq_of_notMem fun hmem => (hsealed _ hmem).2.2.1 rfl, readLiteral_of_sealed hsealed] at h
    exact ⟨hsealed, (Prod.mk.inj (Option.some.inj h)).2.symm⟩
  · rintro ⟨hsealed, rfl⟩
    rw [hw.eq_of_notMem fun hmem => (hsealed _ hmem).2.2.1 rfl]
    exact readLiteral_of_sealed hsealed _

/-- A backslash in front of a letter is lost. -/
example : readLiteral .plain "/\\d+\x22)".toList = some (textUnits "/d+".toList, [')']) := by
  decide +kernel

end Literals

end ApiScaffold.TypeScript
