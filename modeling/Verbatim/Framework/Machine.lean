import Mathlib.Algebra.Order.Ring.Int
import Mathlib.Data.List.Induction

namespace Verbatim.Framework

open List

def u64Max : Nat := 2^64-1

/-- `u64::saturating_add` on values kept as naturals. -/
@[irreducible] def satAdd (a b : Nat) : Nat := min (a+b) u64Max

theorem lt_satAdd (a b : Nat) (ha : a<u64Max) (hb : 0<b) : a<satAdd a b := by
  unfold satAdd
  omega

theorem getElem?_snoc {α : Type*} {items : List α} {last item : α} {i : Nat}
    (h : (items++[last])[i]?=some item) :
    i < items.length ∧ items[i]?=some item ∨ i=items.length ∧ last=item := by
  rw [getElem?_append] at h
  split at h
  next hlt => exact .inl ⟨hlt,h⟩
  rw [getElem?_singleton] at h
  split at h
  · exact .inr ⟨by omega,Option.some.inj h⟩
  · cases h

section Loops

variable {α σ : Type*} (inv : Nat → σ → Prop)

theorem foldl_zipIdx_invariant {f : σ → α × Nat → σ} (items : List α) {s : σ}
    (h0 : inv 0 s) (hstep : ∀ j item s, items[j]?=some item → inv j s → inv (j+1) (f s (item,j))) :
    inv items.length (items.zipIdx.foldl f s) := by
  induction items using reverseRecOn with
  | nil => exact h0
  | append_singleton items item ih =>
    have hrest : inv items.length (items.zipIdx.foldl f s) := by
      refine ih fun j item s hitem hinv => hstep j item s ?_ hinv
      rw [List.getElem?_append_left (List.getElem?_eq_some_iff.mp hitem).1]
      exact hitem
    rw [zipIdx_append,foldl_append,length_append]
    simpa using hstep items.length item _ (by simp) hrest

theorem foldl_range_invariant {f : σ → Nat → σ} (n : Nat) {s : σ}
    (h0 : inv 0 s) (hstep : ∀ j<n, ∀ s, inv j s → inv (j+1) (f s j)) :
    inv n ((range n).foldl f s) := by
  induction n with
  | zero => exact h0
  | succ n ih =>
    rw [range_succ,foldl_append]
    exact hstep n (Nat.lt_succ_self n) _ (ih fun j hj => hstep j (Nat.lt_succ_of_lt hj))

theorem foldl_invariant (inv : σ → Prop) {f : σ → α → σ} {items : List α} {s : σ} (h0 : inv s)
    (hstep : ∀ item∈items, ∀ s, inv s → inv (f s item)) : inv (items.foldl f s) :=
  foldlRecOn items f h0 fun s hs item hitem => hstep item hitem s hs

theorem foldl_fixed {f : σ → α → σ} {items : List α} {s : σ}
    (h : ∀ item∈items, f s item=s) : items.foldl f s=s :=
  foldl_invariant (fun s' => s'=s) rfl fun item hitem _ heq => heq ▸ h item hitem

end Loops

variable {σ α : Type}

/-- A run of labelled moves: each move adds its labels to the end of the trace. -/
inductive Chain (move : σ → List α → σ → Prop) (s : σ) : List α → σ → Prop where
  | refl : Chain move s [] s
  | snoc {as bs : List α} {t u : σ} : Chain move s as t → move t bs u → Chain move s (as++bs) u

namespace Chain

variable {move : σ → List α → σ → Prop} {s t u : σ} {as bs : List α}

theorem single (h : move s as t) : Chain move s as t := by
  simpa only [nil_append] using Chain.snoc .refl h

theorem trans (h : Chain move s as t) (h' : Chain move t bs u) : Chain move s (as++bs) u := by
  induction h' with
  | refl => simpa only [append_nil] using h
  | snoc _ hm ih => simpa only [append_assoc] using ih.snoc hm

/-- The invariant rule, with the trace so far in the invariant. -/
theorem invariant (inv : List α → σ → Prop) (h0 : inv [] s)
    (hstep : ∀ as t bs u, inv as t → move t bs u → inv (as++bs) u)
    (h : Chain move s as t) : inv as t := by
  induction h with
  | refl => exact h0
  | snoc _ hm ih => exact hstep _ _ _ _ ih hm

theorem of_eq (h : Chain move s as t) (ha : as=bs) (ht : t=u) : Chain move s bs u := by
  subst ha ht
  exact h

end Chain

end Verbatim.Framework
