import ApiScaffold.Proofs.Splice

/-!
# Splicing pieces

A text may be read in pieces that are longer than what is read of them, as a file is by its bytes
and its line ends. A pass over what was read is also a pass over the pieces.

* `weaveOf` leaves out pieces and puts lists in front of others; a pass over a text is one over its
  characters (`weave_eq_weaveOf`), and mapping each character takes a pass to a pass
  (`flatMap_weaveOf`);
* `weaveOf_eq_iff`: over pieces that are nowhere shorter, a pass gives the same only if it keeps the
  same pieces.
-/

namespace ApiScaffold.Splice

variable {α β : Type} {dropped : ℕ → Bool} {inserted : ℕ → List α} {pos : ℕ}

/-- Pieces one behind the other with lists put in front of them, and some of the pieces left out;
both go by the number of the piece, which begins at `pos`. -/
def weaveOf (dropped : ℕ → Bool) (inserted : ℕ → List α) (pos : ℕ) : List (List α) → List α
  | [] => inserted pos
  | u :: us =>
    inserted pos ++ (if dropped pos then [] else u) ++ weaveOf dropped inserted (pos + 1) us

/-- A pass over a text is one over its characters. -/
theorem weave_eq_weaveOf {inserted : ℕ → List Char} (cs : List Char) :
    weave dropped inserted pos cs = weaveOf dropped inserted pos (cs.map ([·])) := by
  induction cs generalizing pos with
  | nil => rfl
  | cons c cs ih => rw [weave, List.map_cons, weaveOf, ih]

/-- What is made of each element of a pass is a pass over what is made of the pieces. -/
theorem flatMap_weaveOf (f : α → List β) (us : List (List α)) :
    (weaveOf dropped inserted pos us).flatMap f =
      weaveOf dropped (fun i => (inserted i).flatMap f) pos (us.map (·.flatMap f)) := by
  induction us generalizing pos with
  | nil => rfl
  | cons u us ih =>
    rw [List.map_cons, weaveOf, weaveOf, List.flatMap_append, List.flatMap_append, ih]
    cases dropped pos <;> rfl

theorem length_weaveOf_le {us vs : List (List α)}
    (h : List.Forall₂ (fun u v => u.length ≤ v.length) us vs) :
    (weaveOf dropped inserted pos us).length ≤ (weaveOf dropped inserted pos vs).length := by
  induction h generalizing pos with
  | nil => exact le_rfl
  | cons huv _ ih =>
    have hrest := @ih (pos + 1)
    simp only [weaveOf, List.length_append]
    cases dropped pos
    · simp only [Bool.false_eq_true, if_false]
      omega
    · simp only [if_true]
      omega

/-- **A pass over pieces that are nowhere shorter** gives the same exactly if the pieces that it
keeps are the same. -/
theorem weaveOf_eq_iff {us vs : List (List α)}
    (h : List.Forall₂ (fun u v => u.length ≤ v.length) us vs) :
    weaveOf dropped inserted pos us = weaveOf dropped inserted pos vs ↔
      ∀ i, dropped (pos + i) = false → us[i]? = vs[i]? := by
  -- Along the pieces: what follows one is nowhere shorter either, so that each fits its place.
  induction h generalizing pos with
  | nil => simp
  | @cons u v us vs huv hrest ih =>
    have hle := @length_weaveOf_le _ dropped inserted (pos + 1) _ _ hrest
    have hkept : weaveOf dropped inserted pos (u :: us) = weaveOf dropped inserted pos (v :: vs) ↔
        (dropped pos = false → u = v) ∧
          weaveOf dropped inserted (pos + 1) us = weaveOf dropped inserted (pos + 1) vs := by
      rw [weaveOf, weaveOf, List.append_assoc, List.append_assoc, List.append_cancel_left_eq]
      cases hpos : dropped pos with
      | true => simp
      | false =>
        simp only [Bool.false_eq_true, if_false, forall_const]
        constructor
        · intro heq
          have hlen := congrArg List.length heq
          rw [List.length_append, List.length_append] at hlen
          exact List.append_inj heq (by omega)
        · rintro ⟨rfl, heq⟩
          rw [heq]
    rw [hkept, ih]
    constructor
    · rintro ⟨hfirst, hnext⟩ i hi
      cases i with
      | zero => simpa using hfirst hi
      | succ i => simpa using hnext i (by rwa [Nat.add_assoc, Nat.add_comm 1])
    · intro hall
      refine ⟨fun hpos => by simpa using hall 0 hpos, fun i hi => ?_⟩
      simpa using hall (i + 1) (by rwa [Nat.add_comm i, ← Nat.add_assoc])

end ApiScaffold.Splice
