import Mathlib.Algebra.BigOperators.Group.List.Basic
import Mathlib.Algebra.GroupWithZero.Nat
import Mathlib.Algebra.Order.Group.Int

/-!
# Lists that are read in pieces

A reader asks again and again for the next items, each time with some room, until it gets nothing. The items have
sizes, and a reply takes items in their order as long as they fit. A reply that goes on with the first item that did
not fit loses nothing; one that goes on behind it loses that item.
-/

namespace Mario.Lib.Listing

/-- What a request returns, the items it gives and where the next one goes on. -/
structure Reply (ε P : Type*) where
  ret : ℤ
  listed : List ε
  pos : P

variable {ε P R : Type*}

/-- The room that items take. -/
def total (size : ε → ℕ) (l : List ε) : ℕ := (l.map size).sum

/-- The items that fit are taken in their order. -/
structure Fills (size : ε → ℕ) (room : ℤ) (l taken rest : List ε) : Prop where
  eq : l = taken ++ rest
  fits : taken = [] ∨ total size taken ≤ room
  full : ∀ e ∈ rest.head?, room < total size taken + size e

/-- The replies to some requests. -/
def replies (call : P → R → Reply ε P) : P → List R → List (Reply ε P)
  | _, [] => []
  | p, r :: rs => call p r :: replies call (call p r).pos rs

/-- The items of all replies. -/
def listing (call : P → R → Reply ε P) (p : P) (rs : List R) : List ε :=
  (replies call p rs).flatMap Reply.listed

/-- The last reply says that there is nothing more. -/
def Ends (call : P → R → Reply ε P) (p : P) (rs : List R) : Prop :=
  (replies call p rs).getLast?.map Reply.ret = some 0

instance (call : P → R → Reply ε P) (p : P) (rs : List R) : Decidable (Ends call p rs) :=
  inferInstanceAs (Decidable (_ = _))

/-- A reply takes what fits and goes on with the rest. -/
def Resumes (size : ε → ℕ) (room : R → ℤ) (call : P → R → Reply ε P) (At : P → List ε → Prop) : Prop :=
  ∀ p l r, At p l → ∃ rest, Fills size (room r) l (call p r).listed rest ∧
    ((call p r).ret = 0 ↔ l = []) ∧ At (call p r).pos rest

/-- A reply takes what fits and goes on behind the first item of the rest. -/
def Skips (size : ε → ℕ) (room : R → ℤ) (call : P → R → Reply ε P) (At : P → List ε → Prop) : Prop :=
  ∀ p l r, At p l → ∃ rest, Fills size (room r) l (call p r).listed rest ∧
    ((call p r).ret = 0 ↔ l = []) ∧ At (call p r).pos rest.tail

variable {size : ε → ℕ} {room : R → ℤ} {call : P → R → Reply ε P} {At : P → List ε → Prop} {p : P}
  {l taken rest : List ε} {r : R} {rs : List R}

theorem total_append (l l' : List ε) : total size (l ++ l') = total size l + total size l' := by
  simp [total]

theorem listing_cons : listing call p (r :: rs) = (call p r).listed ++ listing call (call p r).pos rs := rfl

/-- Nothing is left out exactly when there is room for all. -/
theorem Fills.rest_eq_nil {n : ℤ} (h : Fills size n l taken rest) : rest = [] ↔ l = [] ∨ (total size l : ℤ) ≤ n := by
  constructor
  · rintro rfl
    have heq := h.eq
    rw [List.append_nil] at heq
    rw [heq]
    exact h.fits
  · intro hroom
    cases hrest : rest with
    | nil => rfl
    | cons e rest' =>
      have hfull := h.full e (by rw [hrest]; rfl)
      have heq := h.eq
      rw [hrest] at heq
      rcases hroom with hnil | hle
      · rw [hnil] at heq
        exact absurd heq.symm (by simp)
      · rw [heq, total_append] at hle
        have hcons : total size (e :: rest') = size e + total size rest' := by simp [total]
        rw [hcons] at hle
        push_cast at hle
        omega

/-- Items that are read in pieces until there are no more are all items, each once. -/
theorem Resumes.listing_eq (h : Resumes size room call At) (hat : At p l) (hends : Ends call p rs) :
    listing call p rs = l := by
  induction rs generalizing p l with
  | nil => cases hends
  | cons r rs ih =>
    obtain ⟨rest, hfills, hret, hnext⟩ := h p l r hat
    rw [listing_cons]
    cases rs with
    | nil =>
      have hzero : (call p r).ret = 0 := by simpa [Ends, replies] using hends
      have hl := hret.mp hzero
      have heq := hfills.eq
      rw [hl] at heq ⊢
      have htaken := (List.append_eq_nil_iff.mp heq.symm).1
      rw [htaken]
      rfl
    | cons r' rs =>
      have hends' : Ends call (call p r).pos (r' :: rs) := by
        rw [Ends, replies, replies, List.getLast?_cons_cons] at hends
        exact hends
      rw [ih hnext hends']
      exact hfills.eq.symm

theorem Skips.listing_sublist (h : Skips size room call At) (hat : At p l) : (listing call p rs).Sublist l := by
  induction rs generalizing p l with
  | nil => exact List.nil_sublist l
  | cons r rs ih =>
    obtain ⟨rest, hfills, -, hnext⟩ := h p l r hat
    rw [listing_cons, hfills.eq]
    exact (List.Sublist.refl _).append ((ih hnext).trans (List.tail_sublist rest))

/-- When the reader goes on behind what did not fit, it gets all items exactly when the first reply has room for
them. -/
theorem Skips.listing_eq_iff (h : Skips size room call At) (hat : At p l) :
    listing call p (r :: rs) = l ↔ l = [] ∨ (total size l : ℤ) ≤ room r := by
  obtain ⟨rest, hfills, -, hnext⟩ := h p l r hat
  have hsub : (listing call (call p r).pos rs).Sublist rest.tail := h.listing_sublist hnext
  rw [listing_cons, ← hfills.rest_eq_nil]
  constructor
  · intro heq
    have htail : listing call (call p r).pos rs = rest := by
      rw [hfills.eq] at heq
      exact List.append_cancel_left heq
    cases hrest : rest with
    | nil => rfl
    | cons e rest' =>
      have hlen := hsub.length_le
      rw [htail, hrest, List.tail_cons, List.length_cons] at hlen
      omega
  · intro hrest
    rw [hrest] at hsub
    rw [List.sublist_nil.mp hsub, List.append_nil]
    have heq := hfills.eq
    rw [hrest, List.append_nil] at heq
    exact heq.symm

end Mario.Lib.Listing
