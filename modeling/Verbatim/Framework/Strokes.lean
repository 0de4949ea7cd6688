import Mathlib.Data.List.Induction

namespace Verbatim.Framework

open List

structure Stroke (K : Type*) where
  key : K
  pressed : Bool
  deriving DecidableEq

variable {K : Type*} [DecidableEq K]

/-- The key is down after the stream: its last transition there is a press. -/
def isDown (k : K) (stream : List (Stroke K)) : Bool :=
  stream.foldl (fun down stroke => if stroke.key=k then stroke.pressed else down) false

/-- Every release of the key in the stream comes while the key is down. -/
def Matched (k : K) (stream : List (Stroke K)) : Prop :=
  ∀ before after, stream=before++⟨k,false⟩::after → isDown k before=true

theorem isDown_snoc (k : K) (stream : List (Stroke K)) (stroke : Stroke K) :
    isDown k (stream++[stroke]) =
      if stroke.key=k then stroke.pressed else isDown k stream := by
  simp [isDown]

variable {k : K} {stream : List (Stroke K)} {other : List (Stroke K)}

theorem isDown_append_of_absent (h : ∀ stroke∈other, stroke.key≠k) :
    isDown k (stream++other)=isDown k stream := by
  induction other using reverseRecOn with
  | nil => rw [append_nil]
  | append_singleton other stroke ih =>
    rw [← append_assoc,isDown_snoc,if_neg (h stroke (by simp))]
    exact ih fun t ht => h t (mem_append_left _ ht)

theorem matched_nil (k : K) : Matched k [] := by
  intro before after h
  simp at h

theorem Matched.of_append (h : Matched k (stream++other)) : Matched k stream := by
  intro before after hs
  exact h before (after++other) (by rw [hs]; simp)

theorem matched_snoc {stroke : Stroke K} : Matched k (stream++[stroke]) ↔
      Matched k stream ∧ (stroke=⟨k,false⟩ → isDown k stream=true) := by
  constructor
  · intro h
    exact ⟨h.of_append,fun hs => h stream [] (by rw [hs])⟩
  rintro ⟨hmatched,hlast⟩ before after h
  cases after using reverseRecOn with
  | nil =>
    obtain ⟨rfl,hs⟩ := append_inj' h rfl
    exact hlast (by simpa using hs)
  | append_singleton after last _ =>
    rw [← cons_append,← append_assoc] at h
    exact hmatched before after (append_inj' h rfl).1

theorem Matched.append_absent (h : Matched k stream)
    (habsent : ∀ stroke∈other, stroke.key≠k) : Matched k (stream++other) := by
  induction other using reverseRecOn with
  | nil => rwa [append_nil]
  | append_singleton other stroke ih =>
    rw [← append_assoc,matched_snoc]
    refine ⟨ih fun t ht => habsent t (mem_append_left _ ht),?_⟩
    rintro rfl
    exact absurd rfl (habsent ⟨k,false⟩ (by simp))

theorem Matched.tap {k : K} {stream : List (Stroke K)} (h : Matched k stream) :
    Matched k (stream++[⟨k,true⟩,⟨k,false⟩]) ∧ isDown k (stream++[⟨k,true⟩,⟨k,false⟩])=false := by
  have hsplit : stream++[⟨k,true⟩,⟨k,false⟩]=(stream++[⟨k,true⟩])++[⟨k,false⟩] := by simp
  rw [hsplit,matched_snoc,matched_snoc,isDown_snoc,isDown_snoc]
  simp [h]

theorem isDown_filter (k : K) (stream : List (Stroke K)) :
    isDown k (stream.filter (·.key=k))=isDown k stream := by
  induction stream using reverseRecOn with
  | nil => rfl
  | append_singleton stream stroke ih =>
    rw [filter_append,isDown_snoc]
    by_cases h : stroke.key=k
    · simp [h,isDown_snoc]
    · simp [h,ih]

theorem matched_filter (k : K) (stream : List (Stroke K)) :
    Matched k (stream.filter (·.key=k)) ↔ Matched k stream := by
  induction stream using reverseRecOn with
  | nil => exact Iff.rfl
  | append_singleton stream stroke ih =>
    rw [filter_append,matched_snoc]
    by_cases h : stroke.key=k
    · simp [h,matched_snoc,ih,isDown_filter]
    have hne : stroke≠⟨k,false⟩ := by
      rintro rfl
      exact h rfl
    simp [h,hne,ih]

theorem matched_iff_take :
    Matched k stream ↔ ∀ i<stream.length,
      stream[i]?=some ⟨k,false⟩ → isDown k (stream.take i)=true := by
  constructor
  · intro h i hi hrelease
    obtain ⟨_,hget⟩ := List.getElem?_eq_some_iff.mp hrelease
    refine h (stream.take i) (stream.drop (i+1)) ?_
    rw [← hget,← drop_eq_getElem_cons hi,take_append_drop]
  · rintro h before after rfl
    have := h before.length (by simp) (by simp)
    rwa [take_left] at this

instance (k : K) (stream : List (Stroke K)) : Decidable (Matched k stream) :=
  decidable_of_iff _ matched_iff_take.symm

end Verbatim.Framework
