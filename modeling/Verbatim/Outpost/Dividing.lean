import Verbatim.Outpost.Ledger

namespace Verbatim.Outpost

open Framework List Option Nat

def barriers (waiting : List Waiting) : Nat := waiting.countP Waiting.isBarrier

def keysOf : Nat → List Waiting → List (Nat × Key)
  | _,[] => []
  | n,w::waiting =>
      (w.key.map (n,·)).toList++keysOf (if w.isBarrier then n+1 else n) waiting

theorem keysOf_append (n : Nat) (xs ys : List Waiting) :
    keysOf n (xs++ys)=keysOf n xs++keysOf (n+barriers xs) ys := by
  induction xs generalizing n with
  | nil => rfl
  | cons x xs ih =>
    rw [cons_append,keysOf,keysOf,ih,append_assoc]
    have hcount : (if x.isBarrier then n+1 else n)+barriers xs=n+barriers (x::xs) := by
      unfold barriers
      rw [countP_cons]
      split <;> omega
    rw [hcount]

theorem barriers_append (xs ys : List Waiting) :
    barriers (xs++ys)=barriers xs+barriers ys := countP_append

variable {xs : List Waiting}

theorem barriers_free (h : ∀ w∈xs, w.isBarrier=false) : barriers xs=0 := by
  unfold barriers
  rw [countP_eq_zero]
  intro w hw
  simp [h w hw]

theorem barriers_cons_free {w : Waiting} (h : w.isBarrier=false) (xs : List Waiting) :
    barriers (w::xs)=barriers xs := by
  simp [barriers,h]

theorem keysOf_cons_free {n : Nat} {w : Waiting} (h : w.isBarrier=false) (xs : List Waiting) :
    keysOf n (w::xs)=(w.key.map (n,·)).toList++keysOf n xs := by
  rw [keysOf,h]
  rfl

theorem keysOf_free {n : Nat} (h : ∀ w∈xs, w.isBarrier=false) :
    keysOf n xs=xs.filterMap fun w => w.key.map (n,·) := by
  induction xs with
  | nil => rfl
  | cons x xs ih =>
    rw [keysOf_cons_free (h x (by simp)),ih fun w hw => h w (mem_cons_of_mem _ hw),filterMap_cons]
    cases x.key <;> rfl

theorem keysOf_shift (n k : Nat) (xs : List Waiting) :
    keysOf (n+k) xs=(keysOf n xs).map fun key => (key.1+k,key.2) := by
  induction xs generalizing n with
  | nil => rfl
  | cons x xs ih =>
    rw [keysOf,keysOf,map_append]
    have hnext : (if x.isBarrier then n+k+1 else n+k)=(if x.isBarrier then n+1 else n)+k := by
      split <;> omega
    rw [hnext,ih]
    cases x.key <;> rfl

/-- Whether stretches are numbered from one number or another makes no difference to what each
holds once. -/
theorem keysOf_nodup_iff (n : Nat) (xs : List Waiting) :
    (keysOf n xs).Nodup ↔ (keysOf 0 xs).Nodup := by
  have hshift := keysOf_shift 0 n xs
  rw [zero_add] at hshift
  rw [hshift]
  refine nodup_map_iff ?_
  rintro ⟨a,k⟩ ⟨b,k'⟩ heq
  simp only [Prod.mk.injEq] at heq ⊢
  exact ⟨by omega,heq.2⟩

theorem keysOf_filter {keep : Waiting → Bool} (n : Nat)
    (h : ∀ w∈xs, keep w=false → w.isBarrier=false) :
    (keysOf n (xs.filter keep)).Sublist (keysOf n xs) := by
  induction xs generalizing n with
  | nil => exact List.Sublist.refl _
  | cons x xs ih =>
    have ih := fun n => ih n fun w hw => h w (mem_cons_of_mem _ hw)
    rw [filter_cons]
    split
    · exact (ih _).append_left _
    next hkeep =>
      rw [keysOf_cons_free (h x (by simp) (by simpa using hkeep))]
      exact (ih n).trans (sublist_append_right _ _)

theorem barrier_between {waiting before between after : List Waiting} {a b : Waiting}
    (h : (keysOf 0 waiting).Nodup) (hsplit : waiting=before++a::(between++b::after))
    (hsome : a.key.isSome=true) (hsame : b.key=a.key) : ∃ w∈a::between, w.isBarrier=true := by
  by_contra hnone
  have hfree : ∀ w∈a::between, w.isBarrier=false := fun w hw => by
    simpa using fun hyes => hnone ⟨w,hw,hyes⟩
  obtain ⟨key,hkey⟩ := isSome_iff_exists.mp hsome
  have hab : waiting=before++((a::between)++b::after) := by simp [hsplit]
  rw [hab,keysOf_append,keysOf_append,barriers_free hfree,keysOf_free hfree] at h
  rw [keysOf,hsame,hkey,filterMap_cons,hkey] at h
  have hinner := (nodup_append.mp h).2.1
  have hapart := (nodup_append.mp hinner).2.2
  exact hapart _ (mem_cons_self) _ (mem_append_left _ (by simp)) rfl

section Edit

variable {before after before' after' lost : List Waiting}

theorem edited_barriers (h : Edited before after before' after' lost) :
    barriers before'=barriers before := by
  induction h with
  | refl => rfl
  | @behind older w newer ahead lost h hw hnone ih =>
    rw [← ih,barriers_append,barriers_append,barriers_cons_free (not_barrier_of_not_divides hw)]
  | ahead h hw hnone ih => exact ih
  | @move behind segment rest lost first h hnone ih =>
    have hfree : ∀ w∈segment.filter first, w.isBarrier=false := fun w hw =>
      not_barrier_of_not_divides (hnone w (mem_of_mem_filter hw))
    rw [barriers_append,barriers_free hfree,add_zero,ih]

theorem keysOf_remove {w : Waiting} (hw : w.isBarrier=false) (xs ys : List Waiting) :
    (keysOf 0 (xs++w::ys)).Perm (keysOf 0 (xs++ys)++(w.key.map (barriers xs,·)).toList) := by
  rw [keysOf_append,keysOf_append,keysOf_cons_free hw,zero_add,append_assoc]
  exact List.Perm.append_left _ perm_append_comm

theorem edited_keys (h : Edited before after before' after' lost) :
    (keysOf 0 (before++after)).Perm (keysOf 0 (before'++after') ++
      lost.filterMap fun w => w.key.map (barriers before,·)) := by
  have hcons : ∀ (w : Waiting) (xs : List Waiting) (n : Nat),
      (w::xs).filterMap (fun w => w.key.map (n,·)) =
        (w.key.map (n,·)).toList++xs.filterMap fun w => w.key.map (n,·) := by
    intro w xs n
    rw [filterMap_cons]
    cases w.key <;> rfl
  induction h with
  | refl => simp
  | @behind older w newer ahead lost h hw hnone ih =>
    have hfree := not_barrier_of_not_divides hw
    have hnumber : barriers older=barriers before := by
      have hcount := edited_barriers h
      rw [barriers_append,barriers_cons_free hfree,barriers_free hnone] at hcount
      exact hcount
    have hremove := keysOf_remove hfree older (newer++ahead)
    rw [hnumber,← append_assoc] at hremove
    rw [hcons,← append_assoc]
    refine ih.trans (List.Perm.append_right _ ?_)
    rw [append_assoc,cons_append]
    exact hremove
  | @ahead behind older w newer lost h hw hnone ih =>
    have hfree := not_barrier_of_not_divides hw
    have hnumber : barriers (behind++older)=barriers before := by
      rw [barriers_append,barriers_free hnone,edited_barriers h,add_zero]
    have hremove := keysOf_remove hfree (behind++older) newer
    rw [hnumber,append_assoc,append_assoc] at hremove
    rw [hcons,← append_assoc]
    exact ih.trans (List.Perm.append_right _ hremove)
  | @move behind segment rest lost first h hnone ih =>
    refine ih.trans (List.Perm.append_right _ ?_)
    have hfree : ∀ w∈segment, w.isBarrier=false := fun w hw =>
      not_barrier_of_not_divides (hnone w hw)
    have hpart : ∀ keep : Waiting → Bool, ∀ w∈segment.filter keep, w.isBarrier=false :=
      fun keep w hw => hfree w (mem_of_mem_filter hw)
    rw [append_assoc,keysOf_append,keysOf_append,keysOf_append,keysOf_append,keysOf_append,
      barriers_free hfree,barriers_free (hpart _),barriers_free (hpart _),keysOf_free hfree,
      keysOf_free (hpart _),keysOf_free (hpart _)]
    refine List.Perm.append_left _ ?_
    simp only [add_zero]
    rw [← append_assoc,← filterMap_append]
    exact List.Perm.append_right _ ((filter_append_perm first segment).symm.filterMap _)

theorem keysOf_le {n m : Nat} {key : Key} (h : (m,key)∈keysOf n xs) : n ≤ m ∧ m≤n+barriers xs := by
  induction xs generalizing n with
  | nil => cases h
  | cons x xs ih =>
    rcases mem_append.mp h with h | h
    · obtain ⟨k,_,heq⟩ := map_eq_some_iff.mp (mem_toList.mp h)
      cases heq
      omega
    have ih := ih h
    cases hx : x.isBarrier with
    | true =>
      have hcount : barriers (x::xs)=barriers xs+1 := by simp [barriers,hx]
      rw [hx,if_pos rfl] at ih
      omega
    | false =>
      rw [hx] at ih
      rw [barriers_cons_free hx]
      exact ih

theorem mem_keysOf_behind {key : Key} {before : List Waiting}
    (h : (barriers before,key)∈keysOf 0 before) :
    ∃ w∈before.reverse.takeWhile fun w => !w.isBarrier, w.key=some key := by
  induction before using List.reverseRecOn with
  | nil => cases h
  | append_singleton xs x ih =>
    rw [keysOf_append,zero_add] at h
    cases hx : x.isBarrier with
    | true =>
      -- What waits before the query is numbered before it.
      have hcount : barriers (xs++[x])=barriers xs+1 := by
        simp [barriers,hx]
      rcases mem_append.mp h with h | h
      · have hle := keysOf_le h
        omega
      rw [keysOf,keysOf,append_nil] at h
      obtain ⟨k,_,heq⟩ := map_eq_some_iff.mp (mem_toList.mp h)
      have hnumber := (Prod.mk.inj heq).1
      omega
    | false =>
      have hcount : barriers (xs++[x])=barriers xs := by
        rw [barriers_append,barriers_cons_free hx]
        rfl
      rw [hcount] at h
      rw [reverse_append,reverse_singleton,singleton_append,takeWhile_cons_of_pos (by simp [hx])]
      rcases mem_append.mp h with h | h
      · obtain ⟨w,hw,hkey⟩ := ih h
        exact ⟨w,mem_cons_of_mem _ hw,hkey⟩
      rw [keysOf,keysOf,append_nil] at h
      obtain ⟨k,hk,heq⟩ := map_eq_some_iff.mp (mem_toList.mp h)
      cases heq
      exact ⟨x,mem_cons_self,hk⟩

theorem mem_keysOf_ahead {n : Nat} {key : Key} {after : List Waiting}
    (hbarrier : ∀ w∈after, w.isBarrier=true → w.key=none) (h : (n,key)∈keysOf n after) :
    ∃ w∈after.takeWhile fun w => !w.isBarrier, w.key=some key := by
  induction after with
  | nil => cases h
  | cons x xs ih =>
    rw [keysOf] at h
    cases hx : x.isBarrier with
    | true =>
      rw [hbarrier x (by simp) hx,hx] at h
      have hle := keysOf_le (by simpa using h)
      omega
    | false =>
      rw [takeWhile_cons_of_pos (by simp [hx])]
      rw [hx] at h
      rcases mem_append.mp h with h | h
      · obtain ⟨k,hk,heq⟩ := map_eq_some_iff.mp (mem_toList.mp h)
        cases heq
        exact ⟨x,mem_cons_self,hk⟩
      · obtain ⟨w,hw,hkey⟩ := ih (fun w hw => hbarrier w (mem_cons_of_mem _ hw)) h
        exact ⟨w,mem_cons_of_mem _ hw,hkey⟩

theorem replaced_keys {key : Option Key} {item : Item} {new : Waiting} (slot : List Waiting)
    (h : Replaced key item before after before' after' lost) (hkey : new.key=key)
    (hnew : new.isBarrier=true → key=none ∧ after'=[])
    (hslot : ∀ w∈slot, w.isBarrier=false ∧ w.key=none)
    (hbarrier : ∀ w∈after, w.isBarrier=true → w.key=none)
    (hnodup : (keysOf 0 (before++(slot++after))).Nodup) :
    (keysOf 0 (before'++new::after')).Nodup := by
  have hslotKeys : keysOf (barriers before) slot=[] := by
    rw [keysOf_free fun w hw => (hslot w hw).1,filterMap_eq_nil_iff]
    intro w hw
    rw [(hslot w hw).2]
    rfl
  have hstart : (keysOf 0 (before++after)).Nodup := by
    rw [keysOf_append,keysOf_append,zero_add,hslotKeys,
      barriers_free fun w hw => (hslot w hw).1] at hnodup
    rw [keysOf_append]
    simpa using hnodup
  have hperm := edited_keys h.edited
  have hsplit := hperm.nodup_iff.mp hstart
  obtain ⟨hleft,_,hapart⟩ := nodup_append.mp hsplit
  cases key with
  | none =>
    cases hfree : new.isBarrier with
    | false =>
      rw [keysOf_append,keysOf_cons_free hfree,hkey]
      rw [keysOf_append] at hleft
      exact hleft
    | true =>
      obtain ⟨_,rfl⟩ := hnew hfree
      rw [keysOf_append,keysOf,hkey,keysOf]
      simpa using hleft
  | some key =>
    have hfree : new.isBarrier=false := by
      by_contra hyes
      have hnone := (hnew (by simpa using hyes)).1
      cases hnone
    have hjoin : keysOf 0 (before'++after')=keysOf 0 before'++keysOf (barriers before) after' := by
      rw [keysOf_append,zero_add,edited_barriers h.edited]
    rw [hjoin] at hleft hperm hapart
    rw [keysOf_append,keysOf_cons_free hfree,hkey,zero_add,edited_barriers h.edited]
    refine nodup_middle.mpr (nodup_cons.mpr ⟨?_,hleft⟩)
    intro hmem
    rcases h.sole rfl with hnone | ⟨w,hw,hsame⟩
    · have hmem := hperm.mem_iff.mpr (mem_append_left _ hmem)
      rw [keysOf_append,zero_add] at hmem
      rcases mem_append.mp hmem with hmem | hmem
      · obtain ⟨w,hw,hsame⟩ := mem_keysOf_behind hmem
        exact hnone w (mem_append_left _ hw) hsame
      · obtain ⟨w,hw,hsame⟩ := mem_keysOf_ahead hbarrier hmem
        exact hnone w (mem_append_right _ hw) hsame
    · refine hapart _ hmem _ (mem_filterMap.mpr ⟨w,hw,?_⟩) rfl
      rw [hsame]
      rfl

end Edit

end Verbatim.Outpost
