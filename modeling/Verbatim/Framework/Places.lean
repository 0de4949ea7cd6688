import Mathlib.Data.List.Perm.Basic
import Mathlib.Data.List.Nodup
import Mathlib.Data.List.Pairwise
import Mathlib.Data.List.TakeWhile

namespace Verbatim.Framework

open List Prod

variable {α β : Type*}

section Split

variable (before after : List α) (x y : α)

@[simp]
theorem eraseIdx_split : (before++x::after).eraseIdx before.length=before++after := by
  induction before with
  | nil => rfl
  | cons b before ih => simp [ih]

@[simp]
theorem insertIdx_split : (before++after).insertIdx before.length x=before++x::after := by
  induction before with
  | nil => rfl
  | cons b before ih => simp [ih]

@[simp]
theorem set_split : (before++x::after).set before.length y=before++y::after := by
  induction before with
  | nil => rfl
  | cons b before ih => simp [ih]

@[simp]
theorem getElem?_split : (before++x::after)[before.length]?=some x := by
  simp

end Split

variable {p : α → Bool}

theorem split_of_getElem? {l : List α} {i : Nat} {a : α} (h : l[i]?=some a) :
    l=l.take i++a::l.drop (i+1) := by
  obtain ⟨hlt,hget⟩ := List.getElem?_eq_some_iff.mp h
  have hdrop := drop_eq_getElem_cons hlt
  rw [hget] at hdrop
  rw [← hdrop,take_append_drop]

theorem findIdx?_split {l : List α} {i : Nat} (h : l.findIdx? p=some i) :
    ∃ before x after, l=before++x::after ∧ before.length=i ∧ p x=true ∧ ∀ y∈before, p y=false := by
  induction l generalizing i with
  | nil => simp at h
  | cons a l ih =>
    rw [findIdx?_cons] at h
    cases ha : p a with
    | true =>
      rw [ha,if_pos rfl,Option.some.injEq] at h
      exact ⟨[],a,l,rfl,h,ha,by simp⟩
    | false =>
      rw [ha,if_neg (by simp)] at h
      obtain ⟨j,hj,rfl⟩ := Option.map_eq_some_iff.mp h
      obtain ⟨before,x,after,rfl,rfl,hx,hbefore⟩ := ih hj
      refine ⟨a::before,x,after,rfl,rfl,hx,?_⟩
      intro y hy
      rcases mem_cons.mp hy with rfl | hy
      · exact ha
      · exact hbefore y hy

theorem findIdx?_of_split {before after : List α} {x : α} (hx : p x=true)
    (hbefore : ∀ y∈before, p y=false) : (before++x::after).findIdx? p=some before.length := by
  induction before with
  | nil => simp [findIdx?_cons,hx]
  | cons b before ih =>
    rw [cons_append,findIdx?_cons,hbefore b (by simp),if_neg (by simp),
      ih fun y hy => hbefore y (mem_cons_of_mem _ hy)]
    rfl

theorem takeWhile_split (p : α → Bool) (l : List α) :
    ∃ rest, l=l.takeWhile p++rest ∧ ∀ x∈l.takeWhile p, p x=true :=
  ⟨l.dropWhile p,takeWhile_append_dropWhile.symm,fun _ hx => mem_takeWhile_imp hx⟩

theorem flatMap_ite_singleton (p : α → Bool) (l : List α) :
    l.flatMap (fun x => if p x then [x] else [])=l.filter p := by
  induction l with
  | nil => rfl
  | cons x l ih =>
    rw [flatMap_cons,ih,filter_cons]
    split <;> rfl

theorem range_flatMap_getElem? (f : α → List β) (l : List α) :
    (List.range l.length).flatMap (fun i => (l[i]?).elim [] f)=l.flatMap f := by
  induction l with
  | nil => rfl
  | cons x l ih =>
    rw [length_cons,range_succ_eq_map,flatMap_cons,flatMap_map,flatMap_cons,← ih]
    rfl

/-- Grouped under distinct numbers of a list, items are all given by going through the list. -/
theorem flatMap_find_perm {groups : List (Nat × List β)} {indexes : List Nat}
    (hindexes : indexes.Nodup) (hnames : (groups.map fst).Nodup)
    (hmem : ∀ group∈groups, group.1∈indexes) :
    (indexes.flatMap fun i => (groups.find? fun group => group.1=i).elim [] snd).Perm
      (groups.flatMap snd) := by
  induction groups with
  | nil => simp
  | cons group groups ih =>
    obtain ⟨hfresh,hnames⟩ := nodup_cons.mp hnames
    have hrest := ih hnames (fun other hother => hmem other (mem_cons_of_mem _ hother))
    -- The first group stands apart from the rest: no other bears its number.
    have hsplit : ∀ i, ((group::groups).find? fun group => group.1=i).elim [] snd =
        (if i=group.1 then group.2 else [])++(groups.find? fun group => group.1=i).elim [] snd := by
      intro i
      by_cases hi : i=group.1
      · have hnone : groups.find? (fun group => group.1=i)=none := by
          rw [find?_eq_none]
          intro other hother heq
          exact hfresh (mem_map.mpr ⟨other,hother,by simpa [hi] using heq⟩)
        rw [hnone]
        simp [hi]
      · simp [hi,Ne.symm hi]
    have hown : indexes.flatMap (fun i => if i=group.1 then group.2 else [])=group.2 := by
      obtain ⟨before,after,hsplit⟩ := append_of_mem (hmem group (by simp))
      rw [hsplit] at hindexes ⊢
      have hapart := nodup_middle.mp hindexes
      have hnil : ∀ l : List Nat, group.1∉l →
          l.flatMap (fun i => if i=group.1 then group.2 else [])=[] := by
        intro l hl
        rw [flatMap_eq_nil_iff]
        intro i hi
        rw [if_neg]
        rintro rfl
        exact hl hi
      have hnot := (nodup_cons.mp hapart).1
      rw [mem_append,not_or] at hnot
      rw [flatMap_append,flatMap_cons,hnil _ hnot.1,hnil _ hnot.2]
      simp
    simp only [hsplit]
    refine (flatMap_append_perm _ _ _).symm.trans ?_
    rw [hown]
    exact hrest.append_left _

end Verbatim.Framework
