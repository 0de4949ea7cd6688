import Mathlib.Data.List.Infix

namespace Verbatim.Framework

open List Option

variable {α : Type*} [DecidableEq α]

def position (pattern : List α) : List α → Option Nat
  | [] => if pattern=[] then some 0 else none
  | a::list => if pattern <+: a::list then some 0 else (position pattern list).map (·+1)

variable {pattern list : List α}

theorem position_eq_some {place : Nat} (h : position pattern list=some place) :
    place+pattern.length≤list.length ∧ pattern <+: list.drop place := by
  induction list generalizing place with
  | nil =>
    simp only [position] at h
    split at h
    next empty => cases h; simp [empty]
    · cases h
  | cons a list ih =>
    simp only [position] at h
    split at h
    · next starts =>
      cases h
      exact ⟨by simpa using starts.length_le,by simpa using starts⟩
    · obtain ⟨before,hb,rfl⟩ := map_eq_some_iff.mp h
      obtain ⟨fits,starts⟩ := ih hb
      exact ⟨by simp only [length_cons]; omega,by simpa using starts⟩

theorem position_append {place : Nat} (h : position pattern list=some place) (more : List α) :
    position pattern (list++more)=some place := by
  induction list generalizing place with
  | nil =>
    simp only [position] at h
    split at h
    · next empty =>
      cases h
      cases more with
      | nil | cons a more => simp [position,empty]
    · cases h
  | cons a list ih =>
    simp only [position] at h
    simp only [cons_append,position]
    split at h
    · next starts =>
      cases h
      rw [if_pos (starts.trans (by simp))]
    next starts =>
    obtain ⟨before,hb,rfl⟩ := map_eq_some_iff.mp h
    have fits := (position_eq_some hb).1
    have later : ¬ pattern <+: a::(list++more) := by
      intro found
      refine starts (prefix_of_prefix_length_le found (by simp) ?_)
      simp only [length_cons]; omega
    rw [if_neg later,ih hb]
    rfl

theorem position_of_append {pattern list more : List α} {place : Nat}
    (h : position pattern (list++more)=some place)
    (fits : place+pattern.length≤list.length) : position pattern list=some place := by
  induction list generalizing place with
  | nil =>
    simp only [length_nil,Nat.le_zero,Nat.add_eq_zero_iff] at fits
    have empty : pattern=[] := eq_nil_of_length_eq_zero fits.2
    simp [position,empty,fits.1]
  | cons a list ih =>
    simp only [cons_append,position] at h
    simp only [position]
    split at h
    · next starts =>
      cases h
      have within : pattern <+: a::list :=
        prefix_of_prefix_length_le starts (by simp) (by simpa using fits)
      rw [if_pos within]
    · next starts =>
      obtain ⟨before,hb,rfl⟩ := map_eq_some_iff.mp h
      have earlier : ¬ pattern <+: a::list := fun found => starts (found.trans (by simp))
      rw [if_neg earlier,ih hb (by simp only [length_cons] at fits; omega)]
      rfl

theorem position_snoc (h : position pattern list=none) (a : α) :
    position pattern (list++[a]) =
      if pattern <:+ list++[a] then some (list.length+1-pattern.length) else none := by
  induction list with
  | nil =>
    have some_pattern : pattern≠[] := by rintro rfl; simp [position] at h
    simp only [nil_append,position,some_pattern,if_false,map_none]
    by_cases whole : pattern=[a]
    · simp [whole]
    have long : [a].length≤pattern.length := length_pos_iff.mpr some_pattern
    have no_start : ¬ pattern <+: [a] := fun found => whole (found.eq_of_length_le long)
    have no_stop : ¬ pattern <:+ [a] := fun found => whole (found.eq_of_length_le long)
    rw [if_neg no_start,if_neg no_stop]
  | cons b list ih =>
    simp only [position] at h
    split at h
    · cases h
    next starts =>
    have later := ih (by simpa using h)
    simp only [cons_append,position]
    by_cases whole : pattern=b::(list++[a])
    · simp [whole]
    have no_start : ¬ pattern <+: b::(list++[a]) := by
      intro found
      rcases Nat.lt_or_ge (list.length+1) pattern.length with long | short
      · exact whole (found.eq_of_length_le (by simp; omega))
      · exact starts (prefix_of_prefix_length_le found (by simp) (by simpa using short))
    rw [if_neg no_start,later]
    by_cases ends : pattern <:+ list++[a]
    · have fits := ends.length_le
      rw [if_pos ends,if_pos (ends.trans (suffix_cons b _))]
      simp only [length_append,length_cons,length_nil] at fits
      simp only [map_some,length_cons,some.injEq]
      omega
    · have none_longer : ¬ pattern <:+ b::(list++[a]) := by
        rw [suffix_cons_iff]
        exact not_or.mpr ⟨whole,ends⟩
      rw [if_neg ends,if_neg none_longer]
      rfl

theorem position_skip {first : α} (rest : List α) {skipped : List α} (absent : first∉skipped)
    (list : List α) :
    position (first::rest) (skipped++list) =
      (position (first::rest) list).map (·+skipped.length) := by
  induction skipped with
  | nil => simp
  | cons a skipped ih =>
    have head : first≠a := fun same => absent (by simp [same])
    rw [cons_append,position,if_neg (by simp [cons_prefix_cons,head]),
      ih fun inside => absent (mem_cons_of_mem _ inside),Option.map_map]
    congr 1

end Verbatim.Framework
