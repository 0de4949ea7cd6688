import Verbatim.Flood.Accounts
import Verbatim.Flood.Steps

namespace Verbatim.Flood

open Verbatim.Terminal List State Option Nat
open Verbatim.Core (NodeId QueryId OutpostId TraceId)

variable {graphemes : Graphemes} {s t u : State}

def Few (pieces : List Piece) : Prop := (Piece.lines pieces).length<2^32

instance (pieces : List Piece) : Decidable (Few pieces) := by
  unfold Few
  infer_instance

theorem few_of_append {pieces more : List Piece} (h : Few (pieces++more)) : Few pieces := by
  unfold Few at h ⊢
  rw [Piece.lines_append,length_append] at h
  omega

theorem Trims.prepend (h : Trims 0 old new) (log : List Waiting) :
    Trims 0 (log++old) (log++new) := by
  obtain ⟨pre,dropped,rest,rfl,rfl,-⟩ := h
  exact ⟨log++pre,dropped,rest,by simp,by simp,fun _ => zero_le _⟩

theorem Stands.suffix {log waiting : List Waiting} (h : Stands graphemes (log++waiting) pieces)
    (hfew : Few pieces) : (∀ item∈waiting, isExact item) ∧ total waiting<2^32 := by
  constructor
  · intro item hitem
    exact h.exact item (mem_append_right _ hitem)
  have htotal := h.total_eq
  rw [total_append] at htotal
  unfold Few at hfew
  omega

theorem tally_exact {items : List Waiting} (hexact : ∀ item∈items, isExact item)
    (lines count : Nat) (hfew : count+total items<2^32) :
    ∃ more, items.foldl tally (lines,.count count) =
        (lines+(linesOf items).length,.count (count+more)) ∧
      (linesOf items).length+more=total items := by
  induction items generalizing lines count with
  | nil => exact ⟨0,rfl,rfl⟩
  | cons item items ih =>
    have hrest := ih fun i hi => hexact i (mem_cons_of_mem _ hi)
    have hitem := hexact item mem_cons_self
    rw [total_cons] at hfew
    match item,hitem with
    | .line text (.line counted),_ =>
      obtain ⟨more,hfold,htotal⟩ := hrest (lines+1) count (by omega)
      refine ⟨more,?_,?_⟩
      · rw [foldl_cons,linesOf_cons_line,length_cons]
        exact hfold.trans (by rw [add_assoc,add_comm 1])
      · rw [linesOf_cons_line,length_cons,total_cons,weight]
        omega
    | .line text .growth,_ =>
      obtain ⟨more,hfold,htotal⟩ := hrest lines count (by omega)
      exact ⟨more,hfold,htotal.trans (by simp [weight])⟩
    | .cut,_ =>
      obtain ⟨more,hfold,htotal⟩ := hrest lines count (by omega)
      exact ⟨more,hfold,htotal.trans (by simp [weight])⟩
    | .skipped (.count n),_ =>
      have hn : count+n<2^32 := by
        simp only [weight] at hfew
        omega
      simp only [weight] at hfew
      obtain ⟨more,hfold,htotal⟩ := hrest lines (count+n) (by omega)
      refine ⟨n+more,?_,?_⟩
      · rw [← addCounts_eq hn] at hfold
        exact hfold.trans (by rw [addCounts_eq hn,add_assoc]; rfl)
      · rw [linesOf_cons_other rfl,total_cons,weight]
        omega

theorem skips_exact {items : List Waiting} (hexact : ∀ item∈items, isExact item)
    (hfew : total items<2^32) (full : Nat) : skips items 0 full=decide (full<total items) := by
  obtain ⟨count,htally,htotal⟩ := tally_exact hexact 0 0 (by simpa using hfew)
  simp [skips,htally,htotal]

/-- How many lines the group may still hand on; a burst not begun hands on a whole group. -/
def State.groupLeft (s : State) : Nat := s.terminal.group.getD s.full

def State.groupLines (s : State) (new : List Text) : List Text :=
  (linesOf s.terminal.waiting++new).take s.groupLeft

/-- The policy went on: the group's lines were handed on or still are the group's, no line came
from nowhere, and the group may still hand on what it had left. -/
structure Moves (s : State) (new : List Text) (t : State) (acts : List Act) : Prop where
  secure : s.groupLines new <+: linesOf (handed acts)++t.groupLines []
  fewer : (linesOf (handed acts)).length+(linesOf t.terminal.waiting).length ≤
    (linesOf s.terminal.waiting).length+new.length
  group : min s.full s.groupLeft≤t.groupLeft+(linesOf (handed acts)).length
  settings : t.settings=s.settings

theorem Moves.full_eq (h : Moves s new t acts) : t.full=s.full := by
  unfold full
  rw [h.settings]

theorem Moves.trans (h : Moves s new t a) (h' : Moves t [] u b) : Moves s new u (a++b) where
  secure := by
    rw [handed_append,linesOf_append,append_assoc]
    exact h.secure.trans ((prefix_append_right_inj _).mpr h'.secure)
  fewer := by
    have hfirst := h.fewer
    have hthen := h'.fewer
    rw [handed_append,linesOf_append,length_append]
    rw [length_nil] at hthen
    omega
  group := by
    have hfirst := h.group
    have hthen := h'.group
    rw [h.full_eq] at hthen
    rw [handed_append,linesOf_append,length_append]
    omega
  settings := h'.settings.trans h.settings

theorem Moves.of_handed (h : Moves s new t a) (heq : handed b=handed a) : Moves s new t b :=
  ⟨heq ▸ h.secure,heq ▸ h.fewer,heq ▸ h.group,h.settings⟩

theorem moves_of_same (h : State.Same s t) (hacts : handed acts=[]) : Moves s [] t acts := by
  have hleft : t.groupLeft=s.groupLeft := by
    unfold groupLeft full
    rw [h.group,h.settings]
  refine ⟨?_,?_,?_,h.settings⟩
  · rw [hacts]
    unfold groupLines
    rw [hleft,h.waiting]
    exact prefix_rfl
  · rw [hacts,h.waiting]
    exact le_of_eq (by simp)
  · rw [hacts,hleft]
    exact le_trans (min_le_right _ _) (le_add_right _ _)

theorem moves_of_pop {item : Waiting} {rest : List Waiting} {asks : List Act}
    {spoken : Option Utterance} (hwaiting : s.terminal.waiting=item::rest)
    (hgroup : s.terminal.group=some 0 → belongs item)
    (h : State.Same {s with
      terminal.waiting := rest
      terminal.group := if isLine item then s.terminal.group.map (·-1) else s.terminal.group} t)
    (hasks : handed asks=[]) : Moves s [] t (asks++[.hand item spoken]) := by
  have hhanded : handed (asks++[.hand item spoken])=[item] := by simp [hasks]
  have hwaiting' : t.terminal.waiting=rest := h.waiting
  have hfull : t.full=s.full := by
    unfold full
    rw [h.settings]
  cases hline : isLine item with
  | false =>
    have hlines (items : List Waiting) : linesOf (item::items)=linesOf items :=
      linesOf_cons_other hline items
    have hnone : linesOf [item]=[] := hlines []
    have hleft : t.groupLeft=s.groupLeft := by
      unfold groupLeft
      rw [h.group,hfull,hline]
      rfl
    refine ⟨?_,?_,?_,h.settings⟩
    · unfold groupLines
      rw [hhanded,hnone,hleft,hwaiting,hwaiting',hlines]
      exact prefix_rfl
    · rw [hhanded,hnone,hwaiting,hwaiting',hlines]
      exact le_of_eq (by simp)
    · rw [hhanded,hnone,hleft]
      exact le_trans (min_le_right _ _) (le_add_right _ _)
  | true =>
    obtain ⟨text,counted,rfl⟩ : ∃ text counted, item=.line text (.line counted) := by
      unfold isLine at hline
      split at hline
      next text counted => exact ⟨text,counted,rfl⟩
      · exact absurd hline (by simp)
    have hleft : t.groupLeft=(s.terminal.group.map (·-1)).getD s.full := by
      unfold groupLeft
      rw [h.group,hfull,hline]
      rfl
    have hone : linesOf [.line text (.line counted)]=[text] := rfl
    -- a line of the group moves from what waits to what is handed on
    have htake : s.groupLines [] <+: [text]++t.groupLines [] ∧
        min s.full s.groupLeft≤t.groupLeft+1 := by
      unfold groupLines
      rw [hleft,hwaiting,hwaiting',linesOf_cons_line,append_nil,append_nil]
      unfold groupLeft
      cases hsome : s.terminal.group with
      | none =>
        refine ⟨?_,?_⟩
        · obtain ⟨full,hsucc⟩ := exists_eq_succ_of_ne_zero (full_pos s).ne'
          simp only [map_none,getD_none,hsucc,take_succ_cons,singleton_append]
          exact cons_prefix_cons.mpr ⟨rfl,take_prefix_take_left (le_succ _)⟩
        · simp only [map_none,getD_none]
          omega
      | some left =>
        cases left with
        | zero => exact absurd (hgroup hsome) (by simp [belongs])
        | succ left =>
          exact ⟨prefix_rfl,min_le_right _ _⟩
    refine ⟨?_,?_,?_,h.settings⟩
    · rw [hhanded,hone]
      exact htake.1
    · rw [hhanded,hone,hwaiting,hwaiting',linesOf_cons_line]
      simp only [length_cons,length_nil]
      omega
    · rw [hhanded,hone]
      exact htake.2

/-- A decision now skips no line of the group: the group is over, or nothing too much waits. -/
def State.Safe (s : State) : Prop :=
  s.terminal.group=some 0 ∨ s.terminal.waiting=[] ∨ total s.terminal.waiting ≤ s.full ∨
    (linesOf s.terminal.waiting).length ≤ s.last

theorem safe_of_heard (h : s.heard) : s.Safe := by
  unfold heard at h
  simp only [Bool.and_eq_true,Bool.or_eq_true,List.isEmpty_iff] at h
  rcases h.2 with hzero | hempty
  · exact Or.inl (of_decide_eq_true hzero)
  · exact Or.inr (Or.inl hempty)

theorem Safe.of_fewer (h : s.Safe) (hgroup : s.terminal.group=some 0 → t.terminal.group=some 0)
    (hempty : s.terminal.waiting≠[]) (hsettings : t.settings=s.settings)
    (htotal : total t.terminal.waiting≤total s.terminal.waiting)
    (hlines : (linesOf t.terminal.waiting).length≤(linesOf s.terminal.waiting).length) :
    t.Safe := by
  unfold State.Safe full last at h ⊢
  rw [hsettings]
  rcases h with h | h | h | h
  · exact Or.inl (hgroup h)
  · exact absurd h hempty
  · exact Or.inr (Or.inr (Or.inl (le_trans htotal h)))
  · exact Or.inr (Or.inr (Or.inr (le_trans hlines h)))

section Decided

variable (hexact : ∀ item∈s.terminal.waiting, isExact item) (hfew : total s.terminal.waiting<2^32)

include hexact hfew

theorem decide_cases :
    (s.terminal.waiting=[] ∧ s.decide={s with terminal.group := none}) ∨
    (∃ dropped rest, s.terminal.waiting=dropped++rest ∧
      s.decide={s with
        terminal.waiting := countOf (total dropped)++rest
        terminal.group := some (max s.full (min (linesOf s.terminal.waiting).length s.last))} ∧
      (linesOf dropped).length≤(linesOf s.terminal.waiting).length-s.last ∧
      (linesOf rest).length ≤ s.last ∧ s.full<total s.terminal.waiting) ∨
    (total s.terminal.waiting ≤ s.full ∧ s.decide =
      {s with terminal.group := some (max s.full (linesOf s.terminal.waiting).length)}) := by
  have hskips := skips_exact hexact hfew s.full
  unfold State.decide
  split
  next hempty => exact Or.inl ⟨hempty,rfl⟩
  simp only [waitingLines_eq]
  split
  next hskip =>
    obtain ⟨dropped,rest,hwaiting,hall,hdropped,hrest⟩ := skipAllBut_trims s.last hexact hfew
    rw [hskips,decide_eq_true_eq] at hskip
    rw [hall]
    exact Or.inr (Or.inl ⟨dropped,rest,hwaiting,rfl,hdropped,hrest,hskip⟩)
  next hskip =>
    rw [hskips,decide_eq_true_eq] at hskip
    exact Or.inr (Or.inr ⟨by omega,rfl⟩)

theorem decide_trims : Trims 0 s.terminal.waiting s.decide.terminal.waiting := by
  rcases decide_cases hexact hfew with
    ⟨-,hdecide⟩ | ⟨dropped,rest,hwaiting,hdecide,-⟩ | ⟨-,hdecide⟩
  · rw [hdecide]
    exact Trims.refl _ _
  · rw [hdecide,hwaiting]
    exact ⟨[],dropped,rest,rfl,rfl,fun _ => zero_le _⟩
  · rw [hdecide]
    exact Trims.refl _ _

theorem decide_safe : s.decide.Safe := by
  rcases decide_cases hexact hfew with
    ⟨hempty,hdecide⟩ | ⟨dropped,rest,-,hdecide,-,hrest,-⟩ | ⟨hle,hdecide⟩
  · rw [hdecide]
    exact Or.inr (Or.inl hempty)
  · rw [hdecide]
    refine Or.inr (Or.inr (Or.inr ?_))
    simpa [last] using hrest
  · rw [hdecide]
    exact Or.inr (Or.inr (Or.inl hle))

theorem decide_moves (hsafe : s.Safe) : Moves s [] s.decide [] := by
  rcases decide_cases hexact hfew with
    ⟨hempty,hdecide⟩ | ⟨dropped,rest,hwaiting,hdecide,hdropped,-,htotal⟩ | ⟨-,hdecide⟩
  · rw [hdecide]
    refine ⟨?_,?_,?_,rfl⟩
    · simp [groupLines,hempty]
    · exact le_of_eq (by simp)
    · exact le_trans (min_le_left _ _) (le_add_right _ _)
  · rw [hdecide]
    refine ⟨?_,?_,?_,rfl⟩
    · -- only a decision while the group goes on could reach its lines, and then none is too many
      rcases hsafe with hzero | hempty | hle | hlast
      · simp [groupLines,groupLeft,hzero]
      · simp [groupLines,hempty]
      · exact absurd htotal (by omega)
      have hnone : linesOf dropped=[] := length_eq_zero_iff.mp (by omega)
      have hlines : linesOf s.terminal.waiting=linesOf rest := by
        rw [hwaiting,linesOf_append,hnone,nil_append]
      simp only [groupLines,groupLeft,handed_nil,linesOf_nil,nil_append,
        append_nil,linesOf_append,linesOf_countOf,getD_some,hlines]
      have hall : (linesOf rest).take (max s.full (min (linesOf rest).length s.last)) =
          linesOf rest := by
        rw [hlines] at hlast
        exact take_of_length_le (by omega)
      rw [hall]
      exact take_prefix _ _
    · simp only [handed_nil,linesOf_nil,length_nil,hwaiting,linesOf_append,
        linesOf_countOf,nil_append,length_append]
      omega
    · simp only [groupLeft,handed_nil,linesOf_nil,length_nil,getD_some]
      omega
  · rw [hdecide]
    refine ⟨?_,?_,?_,rfl⟩
    · simp only [groupLines,groupLeft,handed_nil,linesOf_nil,nil_append,append_nil,getD_some]
      have hall : (linesOf s.terminal.waiting).take
          (max s.full (linesOf s.terminal.waiting).length)=linesOf s.terminal.waiting :=
        take_of_length_le (by omega)
      rw [hall]
      exact take_prefix _ _
    · exact le_of_eq (by simp)
    · simp only [groupLeft,handed_nil,linesOf_nil,length_nil,getD_some]
      omega

end Decided

section Relations

variable (graphemes)

/-- What was handed on, spoken as it is, and what waits still stand for what was taken in. -/
structure Accounts (s t : State) (acts : List Act) : Prop where
  settings : t.settings=s.settings
  honest : ∀ act∈acts, act.Honest
  stands : ∀ log pieces, Few pieces → Stands graphemes (log++s.terminal.waiting) pieces →
    Stands graphemes (log++handed acts++t.terminal.waiting) pieces

def Spares (s t : State) (acts : List Act) : Prop :=
  ∀ log pieces, Few pieces → Stands graphemes (log++s.terminal.waiting) pieces →
    Stands graphemes (log++handed acts++t.terminal.waiting) pieces ∧
      Moves s [] t acts ∧ (s.Safe → t.Safe)

end Relations

theorem decide_settings (s : State) : s.decide.settings=s.settings := by
  unfold State.decide
  split
  · rfl
  · split <;> rfl

theorem decide_stands {log : List Waiting} (hfew : Few pieces)
    (hstands : Stands graphemes (log++s.terminal.waiting) pieces) :
    Stands graphemes (log++handed []++s.decide.terminal.waiting) pieces := by
  obtain ⟨hexact,htotal⟩ := hstands.suffix hfew
  rw [handed_nil,append_nil]
  exact hstands.trims ((decide_trims hexact htotal).prepend log)

theorem decide_accounts (s : State) : Accounts graphemes s s.decide [] where
  settings := decide_settings s
  honest _ hact := absurd hact not_mem_nil
  stands _ _ := decide_stands

theorem honest_of_handed (h : handed acts=[]) : ∀ act∈acts, act.Honest := by
  intro act hact
  match act with
  | .answer _ _ => exact True.intro
  | .request _ _ _ => exact True.intro
  | .hand item spoken =>
    have hmem : item∈handed acts := mem_filterMap.mpr ⟨_,hact,rfl⟩
    rw [h] at hmem
    exact absurd hmem not_mem_nil

theorem accounts_closed : Closed (Accounts graphemes) where
  trans h h' := by
    refine ⟨h'.settings.trans h.settings,fun act hact => ?_,fun log pieces hfew hstands => ?_⟩
    · rcases mem_append.mp hact with hact | hact
      · exact h.honest act hact
      · exact h'.honest act hact
    · have hthen := h'.stands _ pieces hfew (h.stands log pieces hfew hstands)
      rw [handed_append,← append_assoc log]
      exact hthen
  quiet h hacts := by
    refine ⟨h.settings,honest_of_handed hacts,fun log pieces hfew hstands => ?_⟩
    rw [hacts,append_nil,h.waiting]
    exact hstands
  pop hwaiting _ h hasks hhonest := by
    refine ⟨h.settings,fun act hact => ?_,fun log pieces hfew hstands => ?_⟩
    · rcases mem_append.mp hact with hact | hact
      · exact honest_of_handed hasks act hact
      · rw [mem_singleton.mp hact]
        exact hhonest
    · rw [hwaiting] at hstands
      rw [handed_append,hasks,h.waiting]
      simpa using hstands
  decided _ := decide_accounts _

theorem decide_spares (hsafe : s.Safe) : Spares graphemes s s.decide [] := by
  intro log pieces hfew hstands
  obtain ⟨hexact,htotal⟩ := hstands.suffix hfew
  exact ⟨decide_stands hfew hstands,decide_moves hexact htotal hsafe,
    fun _ => decide_safe hexact htotal⟩

theorem spares_closed : Closed (Spares graphemes) where
  trans h h' log pieces hfew hstands := by
    obtain ⟨hstands,hmoves,hsafe⟩ := h log pieces hfew hstands
    obtain ⟨hstands',hmoves',hsafe'⟩ := h' _ pieces hfew hstands
    refine ⟨?_,hmoves.trans hmoves',fun hs => hsafe' (hsafe hs)⟩
    rw [handed_append,← append_assoc log]
    exact hstands'
  quiet h hacts log pieces hfew hstands := by
    refine ⟨(accounts_closed.quiet h hacts).stands log pieces hfew hstands,moves_of_same h hacts,?_⟩
    unfold State.Safe full last
    rw [h.waiting,h.group,h.settings]
    exact id
  pop hwaiting hgroup h hasks hhonest log pieces hfew hstands := by
    refine ⟨(accounts_closed.pop hwaiting hgroup h hasks hhonest).stands log pieces hfew hstands,
      moves_of_pop hwaiting hgroup h hasks,fun hsafe => ?_⟩
    refine Safe.of_fewer hsafe (fun hzero => ?_) ?_ h.settings ?_ ?_
    · rw [h.group]
      simp [hzero]
    · rw [hwaiting]
      exact cons_ne_nil _ _
    · rw [h.waiting,hwaiting,total_cons]
      exact le_add_left _ _
    · rw [h.waiting,hwaiting]
      exact ((sublist_cons_self _ _).filterMap _).length_le
  decided hheard := decide_spares (safe_of_heard hheard)

end Verbatim.Flood
