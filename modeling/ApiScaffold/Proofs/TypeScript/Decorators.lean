import ApiScaffold.Proofs.TypeScript.Splits

/-!
# Decorators in front of a member

* `Decorator` is a decorator in a masked text, called with arguments or not;
* `Decorator.AllFormed` says that decorators one behind the other are what they should be;
* `Decorator.decoratorsLength_textOf`: in front of a name they are passed over.
-/

namespace ApiScaffold.TypeScript

/-- A decorator: its name, its arguments with the blanks in front of their parenthesis if it is
called, and the blanks behind it. -/
structure Decorator where
  name : List Char
  call : Option (List Char × List Char)
  gap : List Char
  deriving DecidableEq, Repr

namespace Decorator

/-- The arguments of a decorator as they stand in a text. -/
def callText : Option (List Char × List Char) → List Char
  | none => []
  | some (lead, args) => lead ++ '(' :: (args ++ [')'])

/-- The decorator as it stands in a text. -/
def text (d : Decorator) : List Char := '@' :: (d.name ++ (callText d.call ++ d.gap))

/-- Decorators one behind the other. -/
def textOf (ds : List Decorator) : List Char := ds.flatMap text

/-- The parts of a decorator are what they should be; its name does not go on in the text behind. -/
structure Formed (d : Decorator) (r : List Char) : Prop where
  name : ∀ c ∈ d.name, isDecoratorChar c = true
  lead : ∀ p ∈ d.call, ∀ c ∈ p.1, Text.isBlank c = true
  args : ∀ p ∈ d.call, Balanced p.2
  gap : ∀ c ∈ d.gap, Text.isBlank c = true
  ends : d.call = none → (d.gap ++ r).head?.any isDecoratorChar = false

instance instDecidableFormed (d : Decorator) (r : List Char) : Decidable (d.Formed r) :=
  decidable_of_iff (d.name.all isDecoratorChar = true ∧
      (∀ p ∈ d.call, p.1.all Text.isBlank = true) ∧ (∀ p ∈ d.call, Balanced p.2) ∧
      d.gap.all Text.isBlank = true ∧
      (d.call = none → (d.gap ++ r).head?.any isDecoratorChar = false)) <| by
    simp only [List.all_eq_true]
    exact ⟨fun ⟨h₁, h₂, h₃, h₄, h₅⟩ => ⟨h₁, h₂, h₃, h₄, h₅⟩, fun ⟨h₁, h₂, h₃, h₄, h₅⟩ =>
      ⟨h₁, h₂, h₃, h₄, h₅⟩⟩

/-- Decorators one behind the other in front of a text. -/
def AllFormed (r : List Char) : List Decorator → Prop
  | [] => True
  | d :: ds => d.Formed (textOf ds ++ r) ∧ AllFormed r ds

instance instDecidableAllFormed (r : List Char) :
    (ds : List Decorator) → Decidable (AllFormed r ds)
  | [] => inferInstanceAs (Decidable True)
  | d :: ds =>
    have := instDecidableAllFormed r ds
    inferInstanceAs (Decidable (d.Formed (textOf ds ++ r) ∧ AllFormed r ds))

variable {d : Decorator} {ds : List Decorator} {r : List Char}

@[simp] theorem textOf_nil : textOf [] = [] := rfl

@[simp] theorem textOf_cons (d : Decorator) (ds : List Decorator) :
    textOf (d :: ds) = d.text ++ textOf ds := rfl

theorem length_le_textOf (ds : List Decorator) : ds.length ≤ (textOf ds).length := by
  induction ds with
  | nil => exact le_rfl
  | cons d ds ih =>
    rw [textOf_cons, List.length_append, List.length_cons, text, List.length_cons]
    omega

/-- What decorators stand in front of, or the next decorator, is no blank and no parenthesis. -/
theorem head_textOf {c : Char} (hc : Text.isIdentifierChar c = true) (ds : List Decorator) :
    ∃ a, Text.isBlank a = false ∧ a ≠ '(' ∧ ∀ r, ∃ cs, textOf ds ++ c :: r = a :: cs := by
  cases ds with
  | nil =>
    exact ⟨c, isBlank_of_isIdentifierChar hc, ne_of_isIdentifierChar hc (by decide),
      fun r => ⟨r, rfl⟩⟩
  | cons d ds => exact ⟨'@', by decide, by decide, fun r => ⟨_, rfl⟩⟩

theorem isDecoratorChar_of_isBlank {c : Char} (h : Text.isBlank c = true) :
    isDecoratorChar c = false := by
  rw [Bool.eq_false_iff, isDecoratorChar]
  intro hc
  rcases Bool.or_eq_true_iff.1 hc with hc | hc
  · rw [isBlank_of_isIdentifierChar hc] at h
    cases h
  · rw [beq_iff_eq.1 hc] at h
    exact absurd h (by decide)

section Passed

variable {name lead args gap t : List Char} (hname : ∀ c ∈ name, isDecoratorChar c = true)
  (hgap : ∀ c ∈ gap, Text.isBlank c = true) (hblank : t.head?.any Text.isBlank = false)

include hname hgap hblank

/-- The name of a decorator that is not called is passed over, with the blanks behind it. -/
theorem decoratorsLength_name (hends : (gap ++ t).head?.any isDecoratorChar = false)
    (hround : t.head? ≠ some '(') (steps room : ℕ) :
    decoratorsLength (steps + 1) (name.length + gap.length + room + 1)
        ('@' :: (name ++ (gap ++ t))) =
      name.length + gap.length + 1 + decoratorsLength steps room t := by
  have hword : leading isDecoratorChar (name.length + gap.length + room) (name ++ (gap ++ t)) =
      name.length :=
    leading_append hname hends (by omega)
  have hbehind : leading Text.isBlank (name.length + gap.length + room - name.length)
      ((name ++ (gap ++ t)).drop name.length) = gap.length := by
    rw [List.drop_left]
    exact leading_append hgap hblank (by omega)
  rw [decoratorsLength_word hword hbehind, List.drop_length_add_append, List.drop_left,
    Nat.add_sub_cancel_left, behindWord, if_neg fun h => hround h.2]
  omega

/-- A decorator that is called is passed over, with the blanks behind its arguments. -/
theorem decoratorsLength_call (hlead : ∀ c ∈ lead, Text.isBlank c = true) (hargs : Balanced args)
    (steps room : ℕ) :
    decoratorsLength (steps + 1)
        (name.length + lead.length + (args.length + 2) + gap.length + room + 1)
        ('@' :: (name ++ (lead ++ '(' :: (args ++ ')' :: (gap ++ t))))) =
      name.length + lead.length + (args.length + 2) + gap.length + 1 +
        decoratorsLength steps room t := by
  obtain ⟨more, hmore⟩ : ∃ more, more = args.length + 2 + (gap.length + room) := ⟨_, rfl⟩
  have hword : leading isDecoratorChar (name.length + (lead.length + more))
      (name ++ (lead ++ '(' :: (args ++ ')' :: (gap ++ t)))) = name.length := by
    refine leading_append hname ?_ (Nat.le_add_right _ _)
    cases lead with
    | nil => rfl
    | cons x xs => simpa using isDecoratorChar_of_isBlank (hlead x (by simp))
  have hopen : leading Text.isBlank (name.length + (lead.length + more) - name.length)
      ((name ++ (lead ++ '(' :: (args ++ ')' :: (gap ++ t)))).drop name.length) = lead.length := by
    rw [Nat.add_sub_cancel_left, List.drop_left]
    exact leading_append hlead rfl (Nat.le_add_right _ _)
  have hbehind : leading Text.isBlank (gap.length + room) (gap ++ t) = gap.length :=
    leading_append hgap hblank (Nat.le_add_right _ _)
  rw [show name.length + lead.length + (args.length + 2) + gap.length + room =
      name.length + (lead.length + more) by omega,
    decoratorsLength_word hword hopen, List.drop_length_add_append, List.drop_left,
    ← Nat.add_assoc name.length, Nat.add_sub_cancel_left, hmore, behindWord_call hargs, behindCall]
  rw [hbehind, List.drop_left, Nat.add_sub_cancel_left]
  omega

end Passed

/-- A decorator is passed over, if a name or another decorator follows. -/
theorem decoratorsLength_text {a : Char} {cs cs' : List Char} (hd : d.Formed (a :: cs'))
    (hblank : Text.isBlank a = false) (hround : a ≠ '(') (steps room : ℕ) :
    decoratorsLength (steps + 1) (d.text.length + (room + 1)) (d.text ++ a :: cs) =
      d.text.length + decoratorsLength steps (room + 1) (a :: cs) := by
  obtain ⟨name, call, gap⟩ := d
  have hhead : (a :: cs).head?.any Text.isBlank = false := by simpa using hblank
  cases call with
  | none =>
    have hends : (gap ++ a :: cs).head?.any isDecoratorChar = false := by
      cases gap <;> exact hd.ends rfl
    have hpass := decoratorsLength_name hd.name hd.gap hhead hends
      (fun h => hround (Option.some.inj h)) steps (room + 1)
    have hlength : (⟨name, none, gap⟩ : Decorator).text.length = name.length + gap.length + 1 := by
      simp [text, callText]
    rw [hlength, Nat.add_right_comm, ← hpass]
    simp [text, callText]
  | some p =>
    obtain ⟨lead, args⟩ := p
    have hpass := decoratorsLength_call hd.name hd.gap hhead (hd.lead _ rfl) (hd.args _ rfl) steps
      (room + 1)
    have hlength : (⟨name, some (lead, args), gap⟩ : Decorator).text.length =
        name.length + lead.length + (args.length + 2) + gap.length + 1 := by
      simp [text, callText]
      omega
    rw [hlength, Nat.add_right_comm, ← hpass]
    simp [text, callText]

/-- **Decorators in front of a name are passed over.** -/
theorem decoratorsLength_textOf {c : Char} (hc : Text.isIdentifierChar c = true)
    {r' : List Char} (h : AllFormed (c :: r') ds) {steps : ℕ} (hsteps : ds.length ≤ steps)
    (room : ℕ) :
    decoratorsLength steps ((textOf ds).length + (room + 1)) (textOf ds ++ c :: r) =
      (textOf ds).length := by
  induction ds generalizing steps with
  | nil => exact decoratorsLength_of_ne (ne_of_isIdentifierChar hc (by decide)) _ _ _
  | cons d ds ih =>
    obtain ⟨hd, hds⟩ := h
    cases steps with
    | zero => exact absurd hsteps (by simp)
    | succ steps =>
      have hrest := ih hds (by simpa using hsteps)
      obtain ⟨a, hblank, hround, hhead⟩ := head_textOf hc ds
      obtain ⟨cs, hcs⟩ := hhead r
      obtain ⟨cs', hcs'⟩ := hhead r'
      rw [hcs'] at hd
      rw [hcs] at hrest
      rw [textOf_cons, List.append_assoc, List.length_append, Nat.add_assoc, ← Nat.add_assoc _ room,
        hcs, decoratorsLength_text hd hblank hround, Nat.add_assoc, hrest]

end Decorator

end ApiScaffold.TypeScript
