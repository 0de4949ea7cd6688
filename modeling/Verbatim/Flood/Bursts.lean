import Verbatim.Flood.Runs

namespace Verbatim.Flood

open Verbatim.Terminal List Op Option
open Verbatim.Core (NodeId QueryId OutpostId TraceId)

namespace Op

def runs (graphemes : Graphemes) (s : State) : List Op → Acted
  | [] => (s,[])
  | op::ops =>
      let (t,acts) := op.run graphemes s
      let (u,log) := runs graphemes t ops
      (u,acts++log)

def Along (graphemes : Graphemes) (P : State → Op → Prop) (s : State) : List Op → Prop
  | [] => True
  | op::ops => P s op ∧ Along graphemes P (op.run graphemes s).1 ops

instance decideAlong (graphemes : Graphemes) (P : State → Op → Prop)
    [∀ s op, Decidable (P s op)] (s : State) (ops : List Op) :
    Decidable (Along graphemes P s ops) :=
  match ops with
  | [] => .isTrue True.intro
  | op::ops =>
      have := decideAlong graphemes P (op.run graphemes s).1 ops
      inferInstanceAs (Decidable (P s op ∧ Along graphemes P (op.run graphemes s).1 ops))

end Op

variable {graphemes : Graphemes} {s t u : State} {ops : List Op}
  {log : List Waiting} {pieces : List Piece}

/-- The operation fits in the bytes that may wait, and a decision after it spares the group. -/
def Op.Spared (graphemes : Graphemes) (s : State) (op : Op) : Prop :=
  op.Within graphemes s ∧ op.Calm graphemes s

instance (s : State) (op : Op) : Decidable (op.Spared graphemes s) := by
  unfold Op.Spared
  infer_instance

theorem groupLines_begins (s : State) (new : List Text) : s.groupLines [] <+: s.groupLines new := by
  unfold State.groupLines
  rw [append_nil]
  exact (prefix_append _ _).take _

theorem kept_of_moves {lines spoken : List Text} (h : lines <+: spoken++s.groupLines [])
    (hmoves : Moves s new t acts) : lines <+: spoken++linesOf (handed acts)++t.groupLines [] := by
  rw [append_assoc]
  exact h.trans ((prefix_append_right_inj _).mpr ((groupLines_begins s new).trans hmoves.secure))

/-- Of a burst, the first lines were handed on or are in the group, and the group has place for
those of them still to come. -/
structure Covered (taken spoken : List Text) (s : State) : Prop where
  kept : taken.take s.full <+: spoken++s.groupLines []
  fewer : spoken.length+(linesOf s.terminal.waiting).length≤taken.length
  left : s.full ≤ spoken.length+s.groupLeft

theorem Covered.whole {taken spoken : List Text} (h : Covered taken spoken s)
    (hshort : taken.length ≤ s.full) : taken=spoken++linesOf s.terminal.waiting := by
  have hkept := h.kept
  rw [take_of_length_le hshort] at hkept
  have hwaiting : s.groupLines [] <+: linesOf s.terminal.waiting := by
    unfold State.groupLines
    rw [append_nil]
    exact take_prefix _ _
  refine (hkept.trans ((prefix_append_right_inj _).mpr hwaiting)).eq_of_length_le ?_
  rw [length_append]
  exact h.fewer

theorem Covered.step {taken spoken : List Text} (h : Covered taken spoken s)
    (hmoves : Moves s new t acts) : Covered (taken++new) (spoken++linesOf (handed acts)) t where
  kept := by
    rw [hmoves.full_eq]
    rcases Nat.le_total s.full taken.length with hlong | hshort
    · rw [take_append_of_le_length hlong]
      exact kept_of_moves h.kept hmoves
    rw [h.whole hshort,append_assoc,append_assoc,take_append]
    have hplace : s.full-spoken.length ≤ s.groupLeft := by
      have hleft := h.left
      omega
    have hnew : (linesOf s.terminal.waiting++new).take (s.full-spoken.length) <+:
        linesOf (handed acts)++t.groupLines [] :=
      (take_prefix_take_left hplace).trans hmoves.secure
    rw [take_of_length_le (by have hfewer := h.fewer; omega)]
    exact (prefix_append_right_inj _).mpr hnew
  fewer := by
    have hbefore := h.fewer
    have hthen := hmoves.fewer
    rw [length_append,length_append]
    omega
  left := by
    have hbefore := h.left
    have hthen := hmoves.group
    rw [hmoves.full_eq,length_append]
    omega

def State.Settled (s : State) : Prop := s.terminal.group=none → s.terminal.waiting=[]

theorem Settled.of_same (h : s.Settled) (hsame : State.Same s t) : t.Settled := by
  unfold State.Settled at h ⊢
  rw [hsame.group,hsame.waiting]
  exact h

theorem decide_settled (s : State) : s.decide.Settled := by
  unfold State.decide
  split
  next hempty => exact fun _ => hempty
  split
  · exact fun hnone => absurd hnone (some_ne_none _)
  · exact fun hnone => absurd hnone (some_ne_none _)

theorem settled_closed : Closed (fun s t _ => s.Settled → t.Settled) where
  trans h h' hs := h' (h hs)
  quiet h _ hs := Settled.of_same hs h
  pop hwaiting _ h _ _ hs := by
    intro hnone
    rw [h.group] at hnone
    -- with an item waiting there was a group, and it goes on
    have hgroup := mt hs (by rw [hwaiting]; exact cons_ne_nil _ _)
    split at hnone
    · exact absurd (map_eq_none_iff.mp hnone) hgroup
    · exact absurd hnone hgroup
  decided _ _ := decide_settled _

theorem boundLoop_group (fuel : Nat) (waiting : List Waiting) {group : Option Nat}
    (h : group.isSome) : (boundLoop fuel waiting group).2.isSome := by
  induction fuel generalizing waiting group with
  | zero => exact h
  | succ fuel ih =>
    unfold boundLoop
    split
    · exact h
    simp only
    split
    · exact h
    refine ih _ ?_
    split
    · rw [isSome_map]
      exact h
    · exact h

theorem take_settled (graphemes : Graphemes) (hreport : s.settings.reportTerminalOutput)
    (hs : s.Settled) (trace : TraceId) (items : List SaidItem) :
    (s.take graphemes trace items false).1.Settled := by
  obtain ⟨spoken,-,⟨-,htake⟩ | ⟨-,htake⟩⟩ := take_cases graphemes s trace items hreport
  · rw [htake]
    exact hs
  have htaken : (s.taken graphemes trace items).Settled := by
    intro hnone
    have hsome : (s.taken graphemes trace items).terminal.group.isSome := boundLoop_group _ _ rfl
    rw [hnone] at hsome
    exact absurd hsome (by simp)
  have hpump := settled_closed.pump (s.taken graphemes trace items) trace htaken
  obtain ⟨hframe,-⟩ := State.holdIfFull_frame ((s.taken graphemes trace items).pump trace).1
  rw [htake,takeOutput_eq]
  exact Settled.of_same hpump hframe.same

theorem Op.run_settled (op : Op) (hreport : s.settings.reportTerminalOutput) (hs : s.Settled) :
    (op.run graphemes s).1.Settled := by
  cases op with
  | read trace items => exact take_settled graphemes hreport hs trace items
  | reached mark => exact settled_closed.markReached s mark hs
  | answered trace items =>
    have htake := take_settled graphemes (s := endRead s) hreport hs trace items
    simp only [run,State.answered]
    split
    · exact settled_closed.decideAndPump (fun _ => decide_settled _) htake
    · exact htake

theorem covered_of_burst (hs : s.Settled) (hnone : s.terminal.group=none) : Covered [] [] s := by
  refine ⟨?_,?_,?_⟩
  · rw [take_nil]
    exact nil_prefix
  · rw [hs hnone]
    exact Nat.le_refl _
  · simp [State.groupLeft,hnone]

def shownLines (graphemes : Graphemes) (s : State) (ops : List Op) : List Text :=
  linesOf (handed (runs graphemes s ops).2++(runs graphemes s ops).1.terminal.waiting)

theorem prefix_shownLines {lines : List Text}
    (h : lines <+: linesOf (handed (runs graphemes s ops).2) ++
      (runs graphemes s ops).1.groupLines []) : lines <+: shownLines graphemes s ops := by
  unfold State.groupLines at h
  rw [append_nil] at h
  unfold shownLines
  rw [linesOf_append]
  exact h.trans ((prefix_append_right_inj _).mpr ( take_prefix _ _))

section Runs

variable (hlost : ∀ op∈ops, NoLost op.items) (hreport : s.settings.reportTerminalOutput)

include hlost hreport

theorem runs_takesIn : TakesIn graphemes s (ops.flatMap Op.pieces) (runs graphemes s ops) := by
  induction ops generalizing s with
  | nil => exact (accounts_closed.quiet (State.Same.refl s) rfl).takesIn
  | cons op ops ih =>
    have hnow := run_takesIn graphemes (hlost op mem_cons_self) hreport
    have hthen := ih (fun op' hop => hlost op' (mem_cons_of_mem _ hop)) (hnow.settings ▸ hreport)
    exact hnow.trans hthen

theorem runs_settled (hs : s.Settled) : (runs graphemes s ops).1.Settled := by
  induction ops generalizing s with
  | nil => exact hs
  | cons op ops ih =>
    have hsettings := (run_takesIn graphemes (hlost op mem_cons_self) hreport).settings
    exact ih (fun op' hop => hlost op' (mem_cons_of_mem _ hop)) (hsettings ▸ hreport)
      (op.run_settled hreport hs)

variable (hfew : Few (pieces++ops.flatMap Op.pieces))
  (hstands : Stands graphemes (log++s.terminal.waiting) pieces)
  (hspared : Op.Along graphemes (Op.Spared graphemes) s ops)

include hfew hstands hspared

/-- What every move of the policy keeps, of the lines taken in and those handed on, a run of spared
operations keeps. -/
theorem runs_moves (inv : List Text → List Text → State → Prop)
    (hstep : ∀ taken spoken s new t acts, inv taken spoken s → Moves s new t acts →
      inv (taken++new) (spoken++linesOf (handed acts)) t)
    (taken spoken : List Text) (hinv : inv taken spoken s) :
    inv (taken++ops.flatMap (newLines graphemes))
      (spoken++linesOf (handed (runs graphemes s ops).2)) (runs graphemes s ops).1 := by
  induction ops generalizing s log pieces taken spoken with
  | nil => simpa [runs] using hinv
  | cons op ops ih =>
    obtain ⟨⟨hwithin,hcalm⟩,hrest⟩ := hspared
    rw [flatMap_cons,← append_assoc] at hfew ⊢
    have hnow := few_of_append hfew
    have hop := hlost op mem_cons_self
    have hall := run_takesIn graphemes hop hreport
    have hmoves := run_moves hop hreport hnow hstands hwithin hcalm
    have hthen := ih (fun op' hop' => hlost op' (mem_cons_of_mem _ hop'))
      (hall.settings ▸ hreport) hfew (hall.stands log pieces hnow hstands) hrest
      _ _ (hstep _ _ _ _ _ _ hinv hmoves)
    simpa [runs] using hthen

theorem burst_shown (hsettled : s.Settled) (hnone : s.terminal.group=none) :
    (ops.flatMap (newLines graphemes)).take s.full <+: shownLines graphemes s ops := by
  have hcovered := runs_moves hlost hreport hfew hstands hspared Covered
    (fun _ _ _ _ _ _ => Covered.step) [] [] (covered_of_burst hsettled hnone)
  have hfull : (runs graphemes s ops).1.full=s.full := by
    unfold State.full
    rw [(runs_takesIn hlost hreport).settings]
  refine prefix_shownLines ?_
  rw [← hfull]
  exact hcovered.kept

end Runs

theorem group_shown {op : Op} (hlost : ∀ op'∈op::ops, NoLost op'.items)
    (hreport : s.settings.reportTerminalOutput) (hfew : Few (pieces++(op::ops).flatMap Op.pieces))
    (hstands : Stands graphemes (log++s.terminal.waiting) pieces)
    (hspared : Op.Along graphemes (Op.Spared graphemes) s (op::ops)) :
    s.groupLines (op.newLines graphemes) <+: shownLines graphemes s (op::ops) := by
  obtain ⟨⟨hwithin,hcalm⟩,hrest⟩ := hspared
  rw [flatMap_cons,← append_assoc] at hfew
  have hop := hlost op mem_cons_self
  have hall := run_takesIn graphemes hop hreport
  have hfirst := run_moves hop hreport (few_of_append hfew) hstands hwithin hcalm
  have hkept := runs_moves (fun op' hop' => hlost op' (mem_cons_of_mem _ hop'))
    (hall.settings ▸ hreport) hfew (hall.stands log pieces (few_of_append hfew) hstands) hrest
    (fun _ spoken u => s.groupLines (op.newLines graphemes) <+: spoken++u.groupLines [])
    (fun _ _ _ _ _ _ => kept_of_moves) [] _ hfirst.secure
  refine prefix_shownLines ?_
  rw [← linesOf_append,← handed_append] at hkept
  exact hkept

/-- Every run of the policy accounts for every line: what was handed to speech and what waits stand
for the lines taken in, in order, and what was handed on is spoken as it is. No operation of a run
of spared ones skips a line of the group, and the first lines of a burst are all spoken. -/
theorem run_accounts_for_every_line (graphemes : Graphemes) (s : State) (ops : List Op)
    (hfresh : s.terminal={}) (hreport : s.settings.reportTerminalOutput)
    (hlost : ∀ op∈ops, NoLost op.items) (hfew : Few (ops.flatMap Op.pieces)) :
    Stands graphemes (handed (runs graphemes s ops).2 ++
      (Op.runs graphemes s ops).1.terminal.waiting) (ops.flatMap Op.pieces) ∧
    (∀ act∈(runs graphemes s ops).2, act.Honest) ∧
    ∀ before op after, ops=before++op::after →
      let t := (runs graphemes s before).1
      Op.Along graphemes (Op.Spared graphemes) t (op::after) →
      t.groupLines (op.newLines graphemes) <+: shownLines graphemes t (op::after) ∧
      (t.terminal.group=none → ((op::after).flatMap (newLines graphemes)).take t.full <+:
        shownLines graphemes t (op::after)) := by
  have hempty : Stands graphemes ([]++s.terminal.waiting) [] := by
    rw [hfresh]
    exact .nil
  have hall := @runs_takesIn graphemes _ _ hlost hreport
  refine ⟨hall.stands [] [] hfew hempty,hall.honest,?_⟩
  intro before op after hops t hspared
  subst hops
  have hbefore (op') (hop' : op'∈before) : NoLost op'.items := hlost op' (mem_append_left _ hop')
  have hlater (op') (hop' : op'∈op::after) : NoLost op'.items := hlost op' (mem_append_right _ hop')
  rw [flatMap_append] at hfew
  have hfirst := @runs_takesIn graphemes _ _ hbefore hreport
  have hsofar := hfirst.stands [] [] (few_of_append hfew) hempty
  have hsettled : t.Settled := runs_settled hbefore hreport fun _ => by rw [hfresh]
  have hreport' := hfirst.settings ▸ hreport
  exact ⟨group_shown hlater hreport' hfew hsofar hspared,
    burst_shown hlater hreport' hfew hsofar hspared hsettled⟩

def freshTerminal (full last : Nat) : State where
  settings := ⟨true,false,full,last⟩
  focus := some ⟨⟨1,1⟩,true,true,false⟩
  models := [⟨⟨1,1⟩,false⟩]
  nextQuery := 0
  queries := []
  nextMark := 0
  terminal := {}

def singleGraphemes (text : Text) : List Text := text.map ([·])

def linesRead (chars : List Char) : List SaidItem := chars.map fun c => .line [c]

/-- Five lines at two in full and one at the end: the third and fourth become a count. -/
theorem run_accounts_for_five_lines :
    let ops : List Op := [.read 0 (linesRead ['a','b','c','d','e']),.reached 0,.reached 2,
      .reached 3,
      .answered 0 [],.reached 4]
    Op.Along singleGraphemes Op.Allowed (freshTerminal 2 1) ops ∧
    handed (runs singleGraphemes (freshTerminal 2 1) ops).2 =
      [.line ['a'] (.line .exactly),.line ['b'] (.line .exactly),.skipped (.count 2),
        .line ['e'] (.line .exactly)] ∧
    Stands singleGraphemes (handed (runs singleGraphemes (freshTerminal 2 1) ops).2 ++
      (runs singleGraphemes (freshTerminal 2 1) ops).1.terminal.waiting)
      (ops.flatMap Op.pieces) ∧
    [['a'],['b']] <+: shownLines singleGraphemes (freshTerminal 2 1) ops := by
  intro ops
  obtain ⟨hstands,-,hshown⟩ := run_accounts_for_every_line singleGraphemes (freshTerminal 2 1)
    ops rfl
    rfl (by decide +kernel) (by decide +kernel)
  obtain ⟨-,hburst⟩ := hshown [] _ _ rfl (by decide +kernel)
  refine ⟨by decide +kernel,by decide +kernel,hstands,?_⟩
  exact hburst rfl

/-- The answer to a read that was still out when the next burst was under way decides in the middle
of that burst's group: the fourth of its first four lines is skipped. -/
theorem burst_line_skipped :
    let before : List Op := [.read 0 (linesRead ['a','b','c','d']),.reached 0,.reached 2,
      .answered 0 [],.reached 4,.reached 6,.reached 7]
    let burst : List Op := [.read 0 (linesRead ['e']),.reached 8,.reached 9,
      .answered 0 (linesRead ['f','g','h','i','j','k','l'])]
    let s := (runs singleGraphemes (freshTerminal 4 1) before).1
    Op.Along singleGraphemes Op.Allowed (freshTerminal 4 1) (before++burst) ∧
    Op.Along singleGraphemes (Op.Within singleGraphemes) (freshTerminal 4 1) (before++burst) ∧
    (∀ op∈before++burst, NoLost op.items) ∧ Few ((before++burst).flatMap Op.pieces) ∧
    s.terminal.group=none ∧ s.full=4 ∧
    (burst.flatMap (newLines singleGraphemes)).take s.full=[['e'],['f'],['g'],['h']] ∧
    shownLines singleGraphemes s burst=[['e'],['f'],['g'],['l']] := by
  decide +kernel

end Verbatim.Flood
