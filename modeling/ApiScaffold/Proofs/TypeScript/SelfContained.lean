import ApiScaffold.Proofs.Text.Split
import ApiScaffold.Proofs.TypeScript.LexicalPieces
import ApiScaffold.Proofs.TypeScript.MethodText
import ApiScaffold.Proofs.TypeScript.Pairs

/-!
# Self-contained texts

A text is self-contained if it can stand anywhere in code: whatever precedes it and whatever follows
it, its mask is the same, code goes on behind it, and its brackets are closed in it.

* `SelfContained.append`, `SelfContained.pair`, `SelfContained.flatMap`: such texts one behind the
  other, between brackets, and in any number;
* `SelfContained.of_plain`, `SelfContained.quoted`, `SelfContained.blockComment`: what they are made
  of;
* `SelfContained.balanceProblems_eq`: a self-contained text has no problem;
* `declaresClass_of_selfContained`: a class whose declaration stands between such texts is found.
-/

namespace ApiScaffold.TypeScript

/-- Wherever code ends, and whatever follows, the text has the same mask, in which every bracket is
closed, and ends in code again. -/
def SelfContained (t : List Char) : Prop := ∃ m, Piece t m (fun _ => True) ∧ Balanced m

namespace SelfContained

variable {t u : List Char}

theorem nil : SelfContained [] := ⟨[], .nil, .nil⟩

theorem append (ht : SelfContained t) (hu : SelfContained u) : SelfContained (t ++ u) := by
  obtain ⟨m, hm, hmb⟩ := ht
  obtain ⟨n, hn, hnb⟩ := hu
  exact ⟨m ++ n, hm.append hn fun _ _ => trivial, hmb.append hnb⟩

theorem of_plain (h : ∀ c ∈ t, isPlainCode c = true ∧ isBracket c = false) : SelfContained t :=
  ⟨t, .of_plain fun c hc => (h c hc).1, .of_plain fun c hc => (h c hc).2⟩

theorem of_all (h : t.all (fun c => isPlainCode c && !isBracket c) = true) : SelfContained t :=
  of_plain fun c hc => by simpa using List.all_eq_true.1 h c hc

/-- A text between two brackets that belong together. -/
theorem pair {o c : Char} (ho : closerOf? o = some c) (ht : SelfContained t) :
    SelfContained (o :: (t ++ [c])) := by
  obtain ⟨m, hm, hmb⟩ := ht
  have hplain : isPlainCode o = true ∧ isPlainCode c = true := by
    rcases closerOf?_eq_some_iff.1 ho with ⟨rfl, rfl⟩ | ⟨rfl, rfl⟩ | ⟨rfl, rfl⟩ <;> decide
  have hopen : Piece [o] [o] fun _ => True := .of_plain (by simpa using hplain.1)
  have hclose : Piece [c] [c] fun _ => True := .of_plain (by simpa using hplain.2)
  refine ⟨o :: (m ++ [c]), ?_, .pair ho hmb .nil⟩
  exact hopen.append (hm.append hclose fun _ _ => trivial) fun _ _ => trivial

theorem flatMap {α : Type} {f : α → List Char} {xs : List α} (h : ∀ x ∈ xs, SelfContained (f x)) :
    SelfContained (xs.flatMap f) :=
  Text.holds_flatMap nil append h

theorem joinWith {s : List Char} (hs : SelfContained s) {ls : List (List Char)}
    (h : ∀ l ∈ ls, SelfContained l) : SelfContained (Text.joinWith s ls) :=
  Text.holds_joinWith nil append hs h

/-- What a literal or a comment leaves in the mask holds no bracket. -/
theorem balanced_map_blank (t : List Char) : Balanced (t.map TypeScript.blank) := by
  refine .of_plain fun c hc => ?_
  obtain ⟨d, -, rfl⟩ := List.mem_map.1 hc
  unfold TypeScript.blank
  split_ifs <;> decide

theorem quoted {mark : Char} (hmark : isQuote mark = true) (h : LiteralText mark t) :
    SelfContained (mark :: (t ++ [mark])) := by
  have hplain : isBracket mark = false := by
    simp only [isQuote, Bool.or_eq_true, beq_iff_eq] at hmark
    rcases hmark with (rfl | rfl) | rfl <;> decide
  exact ⟨_, .quoted hmark h, .plain hplain ((balanced_map_blank t).append (.plain hplain .nil))⟩

theorem blockComment (h : ¬['*', '/'] <:+: t) :
    SelfContained (LexicalPiece.blockComment t).text :=
  ⟨_, .blockComment h, balanced_map_blank _⟩

/-- A self-contained text has neither an endless literal nor an unbalanced bracket. -/
theorem balanceProblems_eq (h : SelfContained t) : balanceProblems t = [] := by
  obtain ⟨m, hm, hmb⟩ := h
  rw [balanceProblems, hm.literalProblems_eq_nil trivial, hm.mask_eq trivial, balanced_iff.1 hmb]
  rfl

end SelfContained

/-! ### The declaration of a class -/

section Declaration

variable {name t : List Char}

/-- The search finds a declaration at the latest where one begins. -/
theorem declarationEnd?_isSome {before : Option Char} {f r : List Char}
    (h : (declarationHere? name (f.getLast?.or before) r).isSome = true) :
    (declarationEnd? name before (f ++ r)).isSome = true := by
  induction f generalizing before with
  | nil =>
    cases r with
    | nil => cases h
    | cons c cs =>
      rw [List.nil_append, declarationEnd?]
      obtain ⟨n, hn⟩ := Option.isSome_iff_exists.1 h
      rw [List.getLast?_nil, Option.none_or] at hn
      rw [hn]
      rfl
  | cons c cs ih =>
    rw [List.cons_append, declarationEnd?]
    split
    · rfl
    · rw [Option.isSome_map]
      refine ih ?_
      rwa [List.getLast?_cons, Option.some_or, ← Option.or_some] at h

/-- **A class is declared** by the head of its text behind a self-contained one, whatever
follows. -/
theorem declaresClass_of_selfContained {name : String} (hne : name ≠ "")
    (hname : IsWord name.toList) (ht : SelfContained t) (r : List Char) :
    declaresClass name
      (mask (t ++ ("export class ".toList ++ name.toList ++ " \x7b".toList) ++ r)) = true := by
  obtain ⟨m, hm, -⟩ := ht
  have hplain : ∀ c ∈ "export class ".toList ++ name.toList ++ " \x7b".toList,
      isPlainCode c = true := by
    have hends : ∀ c ∈ "export class ".toList ++ " \x7b".toList, isPlainCode c = true :=
      List.all_eq_true.1 (by decide)
    simp only [List.mem_append] at hends ⊢
    rintro c ((hc | hc) | hc)
    · exact hends c (Or.inl hc)
    · exact isPlainCode_of_isHeaderChar (isHeaderChar_of_isWordChar (hname c hc))
    · exact hends c (Or.inr hc)
  have hhead := hm.append (Piece.of_plain (P := fun _ => True) hplain) fun _ _ => trivial
  rw [mask, maskFrom_append, (hhead .start r rfl trivial).1]
  generalize maskFrom _ r = behind
  have hsplit : m ++ ("export class ".toList ++ name.toList ++ " \x7b".toList) ++ behind =
      (m ++ "export ".toList) ++
        ("class ".toList ++ (name.toList ++ (" \x7b".toList ++ behind))) := by
    simp
  have hbefore : (m ++ "export ".toList).getLast? = some ' ' := by
    rw [List.getLast?_append]
    rfl
  rw [declaresClass, hsplit]
  refine declarationEnd?_isSome ?_
  have hspace : (some ' ').any Text.isWordChar = false := by decide
  have hafter : (" \x7b".toList ++ behind).head?.any Text.isWordChar = false := hspace
  rw [hbefore, Option.some_or, declarationHere?_class (by simpa using hne) hname hspace hafter]
  rfl

end Declaration

end ApiScaffold.TypeScript
