import Mathlib.Data.List.Basic

namespace Verbatim.Outbound

/-- What a waiting message is to a newer one merged across it. -/
inductive Barrier where
  | none
  | reply
  | all
  deriving DecidableEq

namespace Barrier

def rank : Barrier → Nat
  | .none => 0
  | .reply => 1
  | .all => 2

def strongest (a b : Barrier) : Barrier := if a.rank≤b.rank then b else a

theorem strongest_rank (a b : Barrier) : (strongest a b).rank=max a.rank b.rank := by
  cases a <;> cases b <;> rfl

end Barrier

/-- How a message type merges while it waits. -/
class Merge (M : Type) (K : outParam Type) where
  /-- What two messages must share to be merged; none for a message never merged. -/
  mergeKey : M → Option K
  barrier : M → Barrier
  /-- Whether the newer may be merged into the older, across what is `crossed`. -/
  mayMerge (older newer : M) (crossed : Barrier) : Bool
  /-- What is written in their place, at the newer one's. -/
  merged (older newer : M) : M

variable {M K : Type} [Merge M K] [DecidableEq K]

open Merge

def mergeFrom (key : K) (newer : M) : Barrier → List (Nat × M) → Option Nat
  | _,[] => none
  | crossed,(place,older)::waiting =>
      if mergeKey older=some key then
        if mayMerge older newer crossed then some place else none
      else if barrier older=.all then none
      else mergeFrom key newer (crossed.strongest (barrier older)) waiting

/-- The place of the waiting message a newer one is merged into: of the newest with its key. -/
def mergeInto (waiting : List (Nat × M)) (newer : M) : Option Nat :=
  match mergeKey newer with
  | none => none
  | some key => mergeFrom key newer .none waiting.reverse

theorem mergeFrom_eq_some {key : K} {newer : M} {crossed : Barrier} {waiting : List (Nat × M)}
    {place : Nat} (h : mergeFrom key newer crossed waiting=some place) :
    ∃ after older before across,waiting=after++(place,older)::before ∧
      mergeKey older=some key ∧ mayMerge older newer across=true ∧
      crossed.rank≤across.rank ∧
      ∀ entry∈after,mergeKey entry.2≠some key ∧ barrier entry.2≠.all ∧
        (barrier entry.2).rank≤across.rank := by
  induction waiting generalizing crossed with
  | nil => cases h
  | cons entry waiting ih =>
    obtain ⟨at_place,older⟩ := entry
    simp only [mergeFrom] at h
    split at h
    · next same =>
      split at h
      · next may =>
        cases h
        exact ⟨[],older,waiting,crossed,rfl,same,may,Nat.le_refl _,by simp⟩
      · cases h
    next other =>
    split at h
    · cases h
    next passed =>
    obtain ⟨after,found,before,across,split,same,may,low,others⟩ := ih h
    rw [Barrier.strongest_rank] at low
    refine ⟨(at_place,older)::after,found,before,across,by rw [split]; rfl,same,may,by omega,?_⟩
    intro entry inside
    rcases List.mem_cons.mp inside with rfl | inside
    · exact ⟨other,passed,Nat.le_trans (Nat.le_max_right _ _) low⟩
    · exact others entry inside

/-- A newer message is merged into the newest with its key, which may take it across those after
it, none of which bars everything. -/
theorem mergeInto_eq_some {waiting : List (Nat × M)} {newer : M} {place : Nat}
    (h : mergeInto waiting newer=some place) :
    ∃ key before older after across,waiting=before++(place,older)::after ∧
      mergeKey newer=some key ∧ mergeKey older=some key ∧
      mayMerge older newer across=true ∧
      ∀ entry∈after,mergeKey entry.2≠some key ∧ barrier entry.2≠.all ∧
        (barrier entry.2).rank≤across.rank := by
  simp only [mergeInto] at h
  cases named : mergeKey newer with
  | none => simp [named] at h
  | some key =>
    simp only [named] at h
    obtain ⟨after,older,before,across,split,same,may,-,others⟩ := mergeFrom_eq_some h
    refine ⟨key,before.reverse,older,after.reverse,across,?_,rfl,same,may,?_⟩
    · rw [← List.reverse_reverse waiting,split]
      simp
    · intro entry inside
      exact others entry (List.mem_reverse.mp inside)

end Verbatim.Outbound
