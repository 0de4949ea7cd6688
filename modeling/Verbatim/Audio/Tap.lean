import Mathlib.Data.List.Induction

namespace Verbatim.Audio

open List Prod

variable {A : Type}

/-- The audio loop as its tap sees it, frames as `A`: mix positions, the frames kept for the tap,
and beside them what the device has not played by its last answer, what it answered it played, each
frame with whether that pass was asked to reopen, and what the tap was given. -/
structure TapLoop (A : Type) where
  written : Nat := 0
  played : Nat := 0
  tapped : Nat := 0
  tapPending : List A := []
  queue : List A := []
  heard : List (A × Bool) := []
  given : List A := []

/-- What one pass meets: whether the device asks to be reopened, the frames it has queued unless
that fails, whether a record or a control discards its queue, what is mixed, and whether the write
or the start fails. -/
structure Turn (A : Type) where
  reopen : Bool
  queued : Option Nat
  discards : Bool
  mixed : List A
  fails : Bool

namespace TapLoop

variable (s : TapLoop A)

def poll (queued : Nat) (reopen : Bool) : TapLoop A :=
  let queued := min queued (s.written-s.played)
  let played := s.written-queued
  {s with
    played := played
    queue := s.queue.drop (played-s.played)
    heard := s.heard++(s.queue.take (played-s.played)).map (fun frame => (frame,reopen))}

/-- Gives the tap the frames that have played since it was last fed. -/
def feedTap : TapLoop A :=
  if s.tapped<s.played then
    let count := min (s.played-s.tapped) s.tapPending.length
    {s with
      given := s.given++s.tapPending.take count
      tapPending := s.tapPending.drop count
      tapped := s.played}
  else s

def discard : TapLoop A :=
  {s with written := s.played, tapPending := [], queue := []}

def write (mixed : List A) : TapLoop A :=
  {s with
    written := s.written+mixed.length
    tapPending := s.tapPending++mixed
    queue := s.queue++mixed}

def pass (turn : Turn A) : TapLoop A :=
  match turn.queued with
  | none => s.discard
  | some queued =>
      let s := s.poll queued turn.reopen
      -- a request to reopen is met before the tap is fed
      if turn.reopen then s.discard
      else
        let s := s.feedTap
        let s := if turn.discards then s.discard else s
        if turn.mixed=[] then s
        else if turn.fails then s.discard
        else s.write turn.mixed

def run (turns : List (Turn A)) : TapLoop A := turns.foldl pass s

/-- What is kept for the tap is what the device has not played, and the tap was given all that was
heard but in passes that reopened. -/
structure Fed (s : TapLoop A) : Prop where
  pending : s.tapPending=s.queue
  length : s.queue.length=s.written-s.played
  played : s.played ≤ s.written
  tapped : s.tapped=s.played ∨ s.tapped ≤ s.played ∧ s.queue=[]
  given : s.given=(s.heard.filter fun heard => !heard.2).map Prod.fst

/-- Of frames one pass found played the tap is given all, or none if it reopened. -/
theorem given_of_poll (heard : List (A × Bool)) (frames : List A) (reopen : Bool) :
    ((heard++frames.map fun frame => (frame,reopen)).filter fun heard => !heard.2).map fst =
      (heard.filter fun heard => !heard.2).map fst++if reopen then [] else frames := by
  rw [filter_append,map_append,filter_map]
  cases reopen <;> simp [Function.comp_def]

variable {s : TapLoop A}

theorem Fed.discard (h : Fed s) : Fed s.discard := by
  refine ⟨rfl,(Nat.sub_self _).symm,Nat.le_refl _,?_,h.given⟩
  rcases h.tapped with same | ⟨before,-⟩
  · exact .inl same
  · exact .inr ⟨before,rfl⟩

theorem Fed.reopened (h : Fed s) (queued : Nat) : Fed (s.poll queued true).discard := by
  refine ⟨rfl,(Nat.sub_self _).symm,Nat.le_refl _,.inr ⟨?_,rfl⟩,?_⟩
  · have before : s.tapped ≤ s.played := h.tapped.elim Nat.le_of_eq And.left
    have bound := h.played
    show s.tapped ≤ s.written-min queued (s.written-s.played)
    omega
  · exact h.given.trans ((given_of_poll _ _ true).trans (append_nil _)).symm

theorem Fed.fed (h : Fed s) (queued : Nat) : Fed (s.poll queued false).feedTap := by
  have bound := h.played
  have length := h.length
  obtain ⟨played,is⟩ : ∃ played,s.written - min queued (s.written - s.played)=played := ⟨_,rfl⟩
  have reach : s.played≤played ∧ played ≤ s.written := by omega
  have said : s.given++s.queue.take (played-s.played) =
      ((s.heard++(s.queue.take (played-s.played)).map fun frame => (frame,false)).filter
        fun heard => !heard.2).map fst := by
    rw [given_of_poll,h.given]
    rfl
  have rest : (s.queue.drop (played-s.played)).length=s.written-played := by
    rw [length_drop,length]
    omega
  simp only [poll,is,feedTap,h.pending]
  rcases h.tapped with same | ⟨before,empty⟩
  · split
    · have count : min (played-s.tapped) s.queue.length=played-s.played := by omega
      rw [count]
      exact ⟨rfl,rest,reach.2,.inl rfl,said⟩
    · have none_played : played-s.played=0 := by omega
      rw [none_played] at said rest ⊢
      exact ⟨rfl,rest,reach.2,.inl (by show s.tapped=played; omega),by simpa using said⟩
  · rw [empty] at said rest ⊢
    simp only [take_nil,drop_nil,map_nil,append_nil] at said rest ⊢
    split
    · exact ⟨rfl,rest,reach.2,.inl rfl,said⟩
    · exact ⟨rfl,rest,reach.2,.inr ⟨Nat.le_trans before reach.1,rfl⟩,said⟩

theorem Fed.write (h : Fed s) (fed : s.tapped=s.played) (mixed : List A) : Fed (s.write mixed) := by
  have length := h.length
  have bound := h.played
  refine ⟨congrArg (·++mixed) h.pending,?_,Nat.le_trans bound (Nat.le_add_right _ _),
    .inl fed,h.given⟩
  show (s.queue++mixed).length=s.written+mixed.length-s.played
  rw [length_append,length]
  omega

theorem Fed.feedTap_tapped (before : s.tapped ≤ s.played) : s.feedTap.tapped=s.feedTap.played := by
  unfold feedTap
  split
  · rfl
  · omega

theorem Fed.pass (h : Fed s) (turn : Turn A) : Fed (s.pass turn) := by
  obtain ⟨reopen,queued,discards,mixed,fails⟩ := turn
  cases queued with
  | none => exact h.discard
  | some queued =>
    cases reopen with
    | true => exact h.reopened queued
    | false =>
      have fed := h.fed queued
      have before : (s.poll queued false).tapped≤(s.poll queued false).played := by
        have upto : s.tapped ≤ s.played := h.tapped.elim Nat.le_of_eq And.left
        have bound := h.played
        show s.tapped ≤ s.written-min queued (s.written-s.played)
        omega
      have tapped := Fed.feedTap_tapped before
      show Fed (if mixed=[] then _ else if fails=true then _ else _)
      have both : Fed (if discards=true then (s.poll queued false).feedTap.discard
          else (s.poll queued false).feedTap) ∧
          (if discards=true then (s.poll queued false).feedTap.discard
            else (s.poll queued false).feedTap).tapped =
          (if discards=true then (s.poll queued false).feedTap.discard
            else (s.poll queued false).feedTap).played := by
        split
        · exact ⟨fed.discard,tapped⟩
        · exact ⟨fed,tapped⟩
      split
      · exact both.1
      split
      · exact both.1.discard
      · exact both.1.write both.2 mixed

theorem fed_run (turns : List (Turn A)) : Fed (run {} turns : TapLoop A) := by
  induction turns using List.reverseRecOn with
  | nil => exact ⟨rfl,rfl,Nat.le_refl _,.inl rfl,rfl⟩
  | append_singleton turns turn ih =>
    rw [run,foldl_append]
    exact ih.pass turn

/-- The tap is given what the device answered it had played, in order, each frame once, but for
what was found played by passes asked to reopen: it hears all exactly when there was none. -/
theorem tap_hears_played (turns : List (Turn A)) (s : TapLoop A) (is : run {} turns=s) :
    s.given=(s.heard.filter fun heard => !heard.2).map fst ∧
      (s.given=s.heard.map fst ↔ ∀ heard∈s.heard,heard.2=false) := by
  have given : s.given=(s.heard.filter fun heard => !heard.2).map fst :=
    is ▸ (fed_run turns).given
  refine ⟨given,fun same => ?_,fun none_lost => ?_⟩
  · have length := congrArg List.length (given.symm.trans same)
    rw [length_map,length_map] at length
    intro heard inside
    simpa using length_filter_eq_length_iff.mp length heard inside
  · rw [given,filter_eq_self.mpr fun heard inside => by simp [none_lost heard inside]]

theorem tap_hears_two : (run {} [⟨false,some 0,false,[1,2,3],false⟩,⟨false,some 1,true,[],false⟩] :
    TapLoop Nat).given=[1,2] :=
  ((tap_hears_played _ _ rfl).2.mpr (by decide +kernel)).trans (by decide +kernel)

/-- Two of three frames played when the device asked to be reopened: the tap never gets them. -/
theorem tap_misses_reopened :
    let s : TapLoop Nat := run {} [⟨false,some 0,false,[1,2,3],false⟩,⟨true,some 1,false,[],false⟩,
      ⟨false,some 0,false,[3],false⟩,⟨false,some 0,false,[],false⟩]
    s.heard.map fst=[1,2,3] ∧ s.given=[3] := by
  decide +kernel

end TapLoop

end Verbatim.Audio
