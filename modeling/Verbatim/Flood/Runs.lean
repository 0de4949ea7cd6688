import Verbatim.Flood.Groups

namespace Verbatim.Flood

open Verbatim.Terminal List State Nat
open Verbatim.Core (NodeId QueryId OutpostId TraceId)

variable {graphemes : Graphemes} {s t : State}

theorem Safe.of_same (h : s.Safe) (hsame : State.Same s t) : t.Safe := by
  unfold State.Safe full last at h ⊢
  rw [hsame.waiting,hsame.group,hsame.settings]
  exact h

theorem decide_deciding (s : State) : s.decide.terminal.deciding=s.terminal.deciding := by
  unfold State.decide
  split
  · rfl
  · split <;> rfl

theorem handOne_deciding (s : State) (trace : TraceId) (item : Waiting) (rest : List Waiting) :
    (s.handOne trace item rest).1.terminal.deciding=s.terminal.deciding := by
  have hframe := congrArg TerminalSpeechState.deciding (takeOff_frame s item rest).1.terminal
  unfold handOne
  simp only
  split <;> exact hframe

theorem pumpLoop_deciding (fuel : Nat) (trace : TraceId) (s : State)
    (h : (s.pumpLoop fuel trace).1.terminal.deciding) :
    s.terminal.deciding ∨ (s.pumpLoop fuel trace).1.Safe := by
  induction fuel generalizing trace s with
  | zero => exact Or.inl h
  | succ fuel ih =>
    have hhand : (s.handOn trace s.terminal.waiting).1.terminal.deciding=s.terminal.deciding :=
      handOn_keeps trace
        (fun t item rest ht _ _ => (handOne_deciding t trace item rest).trans ht) rfl rfl
    unfold pumpLoop at h ⊢
    generalize s.handOn trace s.terminal.waiting=r at hhand h ⊢
    obtain ⟨t,acts⟩ := r
    simp only at hhand h ⊢
    split at h
    next hheard =>
      rw [if_pos hheard]
      split at h
      next hasked =>
        rw [if_pos hasked]
        exact Or.inr (Safe.of_same (safe_of_heard (Bool.and_elim_right hheard)) ⟨rfl,rfl,rfl⟩)
      next hasked =>
        rw [if_neg hasked]
        split at h
        · exact Or.inl (hhand ▸ h)
        next newest _ =>
          have hlive := (goLive_frame (t.decide.pumpLoop fuel newest).1).1
          rw [hlive.terminal] at h
          rcases ih newest t.decide h with hbefore | hsafe
          · rw [decide_deciding,hhand] at hbefore
            exact Or.inl hbefore
          · exact Or.inr (Safe.of_same hsafe hlive.same)
    · exact Or.inl (hhand ▸ h)

theorem pump_deciding {trace : TraceId} (h : (s.pump trace).1.terminal.deciding) :
    s.terminal.deciding ∨ (s.pump trace).1.Safe :=
  pumpLoop_deciding _ trace s h

theorem piecesOf_nil_of_no_output {items : List SaidItem}
    (h : items.any SaidItem.isOutput=false) : piecesOf items=[] := by
  rw [piecesOf,filterMap_eq_nil_iff]
  intro item hitem
  have hnot := any_eq_false.mp h item hitem
  match item with
  | .line _ | .item (.output _) | .item (.growth _) => exact absurd rfl hnot
  | .item (.skipped _) | .item (.echo _) | .item (.caret _ _) | .item (.gained _)
  | .item (.lost _) | .item (.answer _) | .item (.suggestion _) => rfl

def State.queued (graphemes : Graphemes) (s : State) (items : List SaidItem) :
    List Waiting :=
  queue graphemes s.full s.last (some s.groupLeft) s.terminal.waiting items

def State.taken (graphemes : Graphemes) (s : State) (trace : TraceId)
    (items : List SaidItem) : State :=
  {s with
    terminal.trace := some trace
    terminal.group := (bound (s.queued graphemes items) (some s.groupLeft)).2
    terminal.waiting := (bound (s.queued graphemes items) (some s.groupLeft)).1}

/-- The backlog with the items' output queued, before any of it is handed on. -/
def State.offered (graphemes : Graphemes) (s : State) (trace : TraceId) (items : List SaidItem) :
    State := if items.any SaidItem.isOutput then s.taken graphemes trace items else s

theorem takeOutput_eq (s : State) (trace : TraceId) (items : List SaidItem) :
    s.takeOutput graphemes trace items =
      ((((s.taken graphemes trace items).pump trace).1.holdIfFull).1,
        ((s.taken graphemes trace items).pump trace).2 ++
          (((s.taken graphemes trace items).pump trace).1.holdIfFull).2) := by
  rfl

variable {log : List Waiting}

theorem taken_of_within {items : List SaidItem} (trace : TraceId)
    (hbytes : waitingBytes (s.queued graphemes items) ≤ maxWaitingBytes) :
    s.taken graphemes trace items={s with
      terminal.trace := some trace
      terminal.group := some s.groupLeft
      terminal.waiting := s.queued graphemes items} := by
  unfold taken
  rw [bound_of_within hbytes]

/-- What taking a read in did: nothing but speaking the answers to keys, or the output queued and
handed on. -/
theorem take_cases (graphemes : Graphemes) (s : State) (trace : TraceId) (items : List SaidItem)
    (hreport : s.settings.reportTerminalOutput) :
    ∃ spoken, handed spoken=[] ∧
      ((items.any SaidItem.isOutput=false ∧ s.take graphemes trace items false=(s,spoken)) ∨
        (items.any SaidItem.isOutput ∧ s.take graphemes trace items false =
          ((s.takeOutput graphemes trace items).1,
            spoken++(s.takeOutput graphemes trace items).2))) := by
  refine ⟨(items.filterMap (answers s.settings.speakTerminalPasswords)).map (Act.answer trace),
    ?_,?_⟩
  · simp [handed]
  unfold State.take
  cases houtput : items.any SaidItem.isOutput with
  | false => exact Or.inl ⟨rfl,by simp⟩
  | true => exact Or.inr ⟨rfl,by simp [hreport]⟩

/-- What was taken in is spoken, handed on or waiting, and all of it accounted for. -/
structure TakesIn (graphemes : Graphemes) (s : State) (new : List Piece)
    (r : Acted) : Prop where
  settings : r.1.settings=s.settings
  honest : ∀ act∈r.2, act.Honest
  stands : ∀ log pieces, Few (pieces++new) → Stands graphemes (log++s.terminal.waiting) pieces →
    Stands graphemes (log++handed r.2++r.1.terminal.waiting) (pieces++new)

variable {acts : List Act} {r r' : Acted} {new new' : List Piece}

theorem Accounts.takesIn (h : Accounts graphemes s t acts) : TakesIn graphemes s [] (t,acts) where
  settings := h.settings
  honest := h.honest
  stands log pieces := by
    rw [append_nil]
    exact h.stands log pieces

theorem TakesIn.trans (h : TakesIn graphemes s new r) (h' : TakesIn graphemes r.1 new' r') :
    TakesIn graphemes s (new++new') (r'.1,r.2++r'.2) where
  settings := h'.settings.trans h.settings
  honest act hact := (mem_append.mp hact).elim (h.honest act) (h'.honest act)
  stands log pieces hfew hstands := by
    rw [← append_assoc] at hfew ⊢
    rw [handed_append,← append_assoc log]
    exact h'.stands _ _ hfew (h.stands log pieces (few_of_append hfew) hstands)

section Taken

/-- What a read taken in did with the lines it added; a backlog then to be looked at was so before
or is safe to look at, and one safe as the lines came stays so. -/
def MovesOn (s offered : State) (new : List Waiting) (r : Acted) : Prop :=
  Moves s (linesOf new) r.1 r.2 ∧ (r.1.terminal.deciding → s.terminal.deciding ∨ r.1.Safe) ∧
    (offered.Safe → r.1.Safe)

variable {items : List SaidItem} (hlost : NoLost items) (hfew : Few (pieces++piecesOf items))
  (hstands : Stands graphemes (log++s.terminal.waiting) pieces) (trace : TraceId)

include hlost hfew hstands

theorem taken_stands : Stands graphemes
    (log++(s.taken graphemes trace items).terminal.waiting) (pieces++piecesOf items) := by
  have hadded := hstands.append (added_stands hlost)
  rw [append_assoc] at hadded
  obtain ⟨hexact,htotal⟩ := hadded.suffix hfew
  have htrims := queue_trims s.full s.last s.groupLeft hexact (added_counts hlost) htotal
  have hfirst : Trims 0 (s.terminal.waiting++added graphemes items .exactly)
      (s.queued graphemes items) := by
    obtain ⟨pre,dropped,rest,hold,hnew,-⟩ := htrims
    exact ⟨pre,dropped,rest,hold,hnew,fun _ => zero_le _⟩
  refine boundLoop_keeps (P := fun waiting => Stands graphemes (log++waiting)
    (pieces++piecesOf items)) (fun old new hold hnew => hold.trims (hnew.prepend log)) _ _
    (hfirst.exact hexact) (hfirst.total_eq ▸ htotal) (hadded.trims (hfirst.prepend log))

theorem taken_moves (hbytes : waitingBytes (s.queued graphemes items) ≤ maxWaitingBytes) :
    Moves s (linesOf (added graphemes items .exactly)) (s.taken graphemes trace items) [] := by
  have hadded := hstands.append (added_stands hlost)
  rw [append_assoc] at hadded
  obtain ⟨hexact,htotal⟩ := hadded.suffix hfew
  have htrims : Trims s.groupLeft (s.terminal.waiting++added graphemes items .exactly)
      (s.queued graphemes items) :=
    queue_trims s.full s.last s.groupLeft hexact (added_counts hlost) htotal
  rw [taken_of_within trace hbytes]
  refine ⟨?_,?_,?_,rfl⟩
  · simp only [groupLines,groupLeft,handed_nil,linesOf_nil,nil_append,append_nil,Option.getD_some]
    have hlines := htrims.take_lines
    rw [linesOf_append] at hlines
    exact hlines ▸ prefix_rfl
  · have hlength := htrims.length_lines
    simpa using hlength
  · exact le_trans (min_le_right _ _) (le_add_right _ _)

theorem takeOutput_moves
    (hbytes : waitingBytes (s.queued graphemes items) ≤ maxWaitingBytes) :
    MovesOn s (s.taken graphemes trace items) (added graphemes items .exactly)
      (s.takeOutput graphemes trace items) := by
  have htaken := taken_moves hlost hfew hstands trace hbytes
  obtain ⟨-,hpump,hsafe⟩ := spares_closed.pump
    (s.taken graphemes trace items) trace log _ hfew (taken_stands hlost hfew hstands trace)
  obtain ⟨hframe,hholds⟩ := holdIfFull_frame ((s.taken graphemes trace items).pump trace).1
  rw [takeOutput_eq]
  refine ⟨?_,fun hnoted => ?_,fun hoffered => Safe.of_same (hsafe hoffered) hframe.same⟩
  · have hmoves := htaken.trans (hpump.trans (moves_of_same hframe.same hholds))
    simpa using hmoves
  rw [hframe.terminal] at hnoted
  rcases pump_deciding hnoted with hbefore | hafter
  · exact Or.inl hbefore
  · exact Or.inr (Safe.of_same hafter hframe.same)

theorem take_moves (hreport : s.settings.reportTerminalOutput)
    (hbytes : items≠[] → waitingBytes (s.queued graphemes items) ≤ maxWaitingBytes) :
    MovesOn s (s.offered graphemes trace items) (added graphemes items .exactly)
      (s.take graphemes trace items false) := by
  obtain ⟨spoken,hspoken,⟨hnone,htake⟩ | ⟨houtput,htake⟩⟩ :=
    take_cases graphemes s trace items hreport
  · rw [htake,added_eq hlost,piecesOf_nil_of_no_output hnone]
    exact ⟨moves_of_same (State.Same.refl s) hspoken,Or.inl,by simp [offered,hnone]⟩
  have hsome : items≠[] := by
    rintro rfl
    exact absurd houtput (by simp)
  obtain ⟨hmoves,hdeciding,hsafe⟩ := takeOutput_moves hlost hfew hstands trace (hbytes hsome)
  rw [htake,offered,if_pos houtput]
  exact ⟨hmoves.of_handed (by rw [handed_append,hspoken,nil_append]),hdeciding,hsafe⟩

end Taken

theorem takeOutput_takesIn (graphemes : Graphemes) {items : List SaidItem}
    (hlost : NoLost items) (s : State) (trace : TraceId) :
    TakesIn graphemes s (piecesOf items) (s.takeOutput graphemes trace items) := by
  have hpump := accounts_closed.pump (R := Accounts graphemes) (s.taken graphemes trace items) trace
  obtain ⟨hframe,hholds⟩ := holdIfFull_frame ((s.taken graphemes trace items).pump trace).1
  have hall := accounts_closed.trans hpump (accounts_closed.quiet hframe.same hholds)
  refine ⟨hall.settings,hall.honest,fun log pieces hfew hstands => ?_⟩
  exact hall.stands log _ hfew (taken_stands hlost hfew hstands trace)

/-- What the policy is given: a read taken in, a mark playback reached, the answer to the read Core
asked for. -/
inductive Op where
  | read (trace : TraceId) (items : List SaidItem)
  | reached (mark : SpeechMark)
  | answered (trace : TraceId) (items : List SaidItem)

namespace Op

def items : Op → List SaidItem
  | .read _ items => items
  | .reached _ => []
  | .answered _ items => items

def pieces (op : Op) : List Piece := piecesOf op.items

def endRead (s : State) : State := {s with queries := s.queries.eraseP (·.continues=some .read)}

def run (graphemes : Graphemes) (s : State) : Op → Acted
  | .read trace items => s.take graphemes trace items false
  | .reached mark => s.markReached mark
  | .answered trace items => (endRead s).answered graphemes trace .read items

def newLines (graphemes : Graphemes) (op : Op) : List Text :=
  (Piece.lines op.pieces).map fun text => (withinBound graphemes text).1

def Allowed (s : State) : Op → Prop
  | .answered _ _ => s.asked .read
  | _ => True

def Within (graphemes : Graphemes) (s : State) (op : Op) : Prop :=
  op.items≠[] → waitingBytes (s.queued graphemes op.items) ≤ maxWaitingBytes

/-- An answer to a read that finds the backlog still to be looked at comes to one safe to look at
with its items, or leaves one: of the lines of the group enough are handed on at once. -/
def Calm (graphemes : Graphemes) (s : State) : Op → Prop
  | .answered trace items => s.terminal.deciding →
      ((endRead s).offered graphemes trace items).Safe ∨
      ((endRead s).take graphemes trace items false).1.Safe
  | _ => True

instance (s : State) (op : Op) : Decidable (op.Allowed s) := by
  cases op <;> unfold Allowed <;> infer_instance

instance (s : State) (op : Op) : Decidable (op.Within graphemes s) := by
  unfold Within
  infer_instance

instance (s : State) (op : Op) : Decidable (op.Calm graphemes s) := by
  cases op <;> unfold Calm State.Safe <;> infer_instance

end Op

theorem take_takesIn {items : List SaidItem} (hlost : NoLost items)
    (hreport : s.settings.reportTerminalOutput) (trace : TraceId) :
    TakesIn graphemes s (piecesOf items) (s.take graphemes trace items false) := by
  obtain ⟨spoken,hspoken,htake⟩ := take_cases graphemes s trace items hreport
  have hanswers : TakesIn graphemes s [] (s,spoken) :=
    (accounts_closed.quiet (State.Same.refl s) hspoken).takesIn
  obtain ⟨hnone,htake⟩ | ⟨-,htake⟩ := htake
  · rw [htake,piecesOf_nil_of_no_output hnone]
    exact hanswers
  · rw [htake]
    exact hanswers.trans (takeOutput_takesIn graphemes hlost s trace)

theorem Op.run_takesIn (graphemes : Graphemes) {op : Op} (hlost : NoLost op.items)
    (hreport : s.settings.reportTerminalOutput) :
    TakesIn graphemes s op.pieces (op.run graphemes s) := by
  cases op with
  | read trace items => exact take_takesIn hlost hreport trace
  | reached mark => exact (accounts_closed.markReached s mark).takesIn
  | answered trace items =>
    have htake := @take_takesIn graphemes (Op.endRead s) items hlost hreport trace
    have hall : TakesIn graphemes s (piecesOf items) ((Op.endRead s).take graphemes trace items
      false) := ⟨htake.settings,htake.honest,htake.stands⟩
    simp only [Op.run,State.answered]
    generalize (Op.endRead s).take graphemes trace items false=r at hall
    obtain ⟨t,spoken⟩ := r
    split
    · have hcleared : Accounts graphemes t {t with terminal.deciding := false} [] :=
        accounts_closed.quiet ⟨rfl,rfl,rfl⟩ rfl
      have hdecided := accounts_closed.trans hcleared
        (accounts_closed.decideAndPump (decide_accounts {t with terminal.deciding := false}))
      have hthen := hall.trans hdecided.takesIn
      rw [append_nil] at hthen
      exact hthen
    · exact hall

theorem Op.run_moves {op : Op} {pieces : List Piece} (hlost : NoLost op.items)
    (hreport : s.settings.reportTerminalOutput) (hfew : Few (pieces++op.pieces))
    (hstands : Stands graphemes (log++s.terminal.waiting) pieces)
    (hwithin : op.Within graphemes s) (hcalm : op.Calm graphemes s) :
    Moves s (op.newLines graphemes) (op.run graphemes s).1 (op.run graphemes s).2 := by
  have hlines : op.newLines graphemes=linesOf (added graphemes op.items .exactly) :=
    (linesOf_added hlost).symm
  rw [hlines]
  cases op with
  | read trace items => exact (take_moves hlost hfew hstands trace hreport hwithin).1
  | reached mark =>
    have hnone : (Op.reached mark).pieces=[] := rfl
    rw [hnone,append_nil] at hfew
    exact (spares_closed.markReached s mark log pieces hfew hstands).2.1
  | answered trace items =>
    have hnew : NoLost items := hlost
    have hstands' : Stands graphemes (log++(Op.endRead s).terminal.waiting) pieces := hstands
    obtain ⟨hmoves,hdeciding,hoffered⟩ := take_moves (s := Op.endRead s) hnew hfew hstands' trace
      hreport hwithin
    have htaken := (take_takesIn (s := Op.endRead s) hnew hreport trace).stands log pieces
      hfew hstands'
    have hfirst : Moves s (linesOf (added graphemes items .exactly))
        ((Op.endRead s).take graphemes trace items false).1
        ((Op.endRead s).take graphemes trace items false).2 :=
      ⟨hmoves.secure,hmoves.fewer,hmoves.group,hmoves.settings⟩
    have hcalm' : s.terminal.deciding → ((Op.endRead s).take graphemes trace items false).1.Safe :=
      fun hbefore => (hcalm hbefore).elim hoffered id
    simp only [Op.run,State.answered]
    generalize (Op.endRead s).take graphemes trace items false=r at hfirst hcalm' hdeciding htaken
    obtain ⟨t,spoken⟩ := r
    split
    next hnoted =>
      have hsafe : t.Safe := by
        rcases hdeciding hnoted with hbefore | hafter
        · exact hcalm' hbefore
        · exact hafter
      have hcleared : Moves t [] {t with terminal.deciding := false} [] :=
        moves_of_same ⟨rfl,rfl,rfl⟩ rfl
      have hdecided := (spares_closed.decideAndPump
        (decide_spares (s := {t with terminal.deciding := false}) hsafe)) _ _ hfew htaken
      exact hfirst.trans (by simpa using hcleared.trans hdecided.2.1)
    · exact hfirst

end Verbatim.Flood
