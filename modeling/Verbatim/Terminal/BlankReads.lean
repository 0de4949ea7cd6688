import Verbatim.Terminal.Outcomes

namespace Verbatim.Terminal

open TerminalMemory

theorem Screen.trim_trim (screen : Screen) : screen.trim.trim=screen.trim := by
  unfold trim
  dsimp only
  split
  · rfl
  refine if_pos ?_
  simp only [trimPoint,List.length_drop]
  omega

namespace TerminalMemory

variable {w : Widths} {m : TerminalMemory} {read : Read} {current : Screen} {rows : List Row}
  {shape : Outcome}

theorem trim_trim (m : TerminalMemory) : m.trim.trim=m.trim := by
  simp [trim,Function.comp_def,Screen.trim_trim]

/-- The memory with no request of its own. -/
def unasked (m : TerminalMemory) : TerminalMemory :=
  {m with askedWhole := false, askedRefused := false, askedAbove := none}

/-- The read is taken as the whole document the memory asked for. -/
def takesWhole (w : Widths) (m : TerminalMemory) (read : Read) : Bool :=
  let shape := (shapeOf w m.trim read).2
  m.isWhole read && m.trim.screen.any fun current =>
    (shape.width,shape.height)=(current.width,current.height) &&
      !(current.showsText && !showsText read.screen)

theorem readWhole_outcome (m : TerminalMemory) (current : Screen) (rows : List Row) (read : Read)
    (shape : Outcome) (refused : Bool) :
    let outcome := (m.readWhole current rows read shape refused).2
    outcome.blank=shape.blank ∧ outcome.wholeDocument=shape.wholeDocument ∧
      (outcome.byText=shape.byText ∨ outcome.lost.isSome=true) := by
  unfold readWhole
  split
  · exact ⟨rfl,rfl,.inl rfl⟩
  · exact ⟨rfl,rfl,.inr rfl⟩

theorem readOn_outcome (m : TerminalMemory) (current : Screen) (rows : List Row) (read : Read)
    {shape : Outcome} (hlost : shape.lost=none) :
    let after := m.readOn current rows read shape
    after.2.blank=shape.blank ∧ after.2.byText=!isTrusted current rows read ∧
      after.2.lost=none ∧ (after.2.wholeDocument=true → shape.wholeDocument=true ∨
        after.1={m with
          askedWhole := true, askedRefused := isRefusedRead read, screen := some current}) := by
  unfold readOn
  dsimp only
  split
  · exact ⟨rfl,rfl,rfl,.inl⟩
  split
  · exact ⟨rfl,rfl,hlost,fun _ => .inr rfl⟩
  · exact ⟨rfl,rfl,hlost,.inl⟩

theorem read_of_screen (h : m.trim.screen=some current) :
    m.read w read=(let (rows,shape) := shapeOf w m.trim read
      if (shape.width,shape.height)≠(current.width,current.height) then
        m.trim.unasked.startAgain current rows read shape
      else if current.showsText ∧ !showsText read.screen then
        (m.trim.unasked,{shape with blank := true})
      else if m.trim.isWhole read then
        m.trim.unasked.readWhole current rows read shape m.trim.askedRefused
      else m.trim.unasked.readOn current rows read shape) := by
  unfold TerminalMemory.read
  generalize m.trim=trimmed at h ⊢
  cases trimmed
  cases h
  rfl

theorem read_cases (w : Widths) (m : TerminalMemory) (read : Read) :
    let after := m.read w read
    after.2.blank=true ∧ after.2.wholeDocument=false ∧ m.trim.screen.isSome=true ∧
        after.1=m.trim.unasked ∨
      after.2.blank=false ∧ (after.2.wholeDocument=true →
        after.1={m.trim with
          askedWhole := true, askedRefused := isRefusedRead read, askedAbove := none}) := by
  cases hscreen : m.trim.screen with
  | none =>
    unfold TerminalMemory.read
    dsimp only
    rw [hscreen]
    dsimp only
    split <;> exact .inr ⟨rfl,fun h => by cases h⟩
  | some current =>
    rw [read_of_screen hscreen]
    dsimp only
    split
    · exact .inr ⟨rfl,fun h => by cases h⟩
    split
    · exact .inl ⟨rfl,rfl,rfl,rfl⟩
    split
    · obtain ⟨hblank,hwhole,-⟩ := readWhole_outcome m.trim.unasked current
        (shapeOf w m.trim read).1 read (shapeOf w m.trim read).2 m.trim.askedRefused
      exact .inr ⟨hblank,fun h => by cases hwhole.symm.trans h⟩
    obtain ⟨hblank,-,-,hwhole⟩ := readOn_outcome m.trim.unasked current
      (shapeOf w m.trim read).1 read (rfl : (shapeOf w m.trim read).2.lost=none)
    refine .inr ⟨hblank,fun h => ?_⟩
    rcases hwhole h with hnot | hleft
    · cases hnot
    · rw [hleft,← hscreen]
      rfl

/-- A blank read changes what a later read makes of the memory exactly when that read would have
been taken as the whole document the memory asked for. -/
theorem read_after_blank (hblank : (m.read w read).2.blank=true) (next : Read) :
    (m.read w read).1.read w next=m.read w next ↔ m.takesWhole w next=false := by
  obtain ⟨-,-,hsome,hleft⟩ | ⟨hshown,-⟩ := read_cases w m read
  · obtain ⟨current,hscreen⟩ := Option.isSome_iff_exists.mp hsome
    have htrim : m.trim.unasked.trim=m.trim.unasked := congrArg unasked (trim_trim m)
    have hcurrent : m.trim.unasked.trim.screen=some current := by
      rw [htrim]
      exact hscreen
    rw [hleft,read_of_screen hcurrent,read_of_screen hscreen,htrim]
    have hshape : shapeOf w m.trim.unasked next=shapeOf w m.trim next := rfl
    have hwhole : m.trim.unasked.isWhole next=false := rfl
    have hagain : m.trim.unasked.unasked=m.trim.unasked := rfl
    rw [hshape,hwhole,hagain]
    have htakes : m.takesWhole w next=(m.trim.isWhole next &&
        (((shapeOf w m.trim next).2.width,(shapeOf w m.trim next).2.height) =
          (current.width,current.height) && !(current.showsText && !showsText next.screen))) := by
      unfold takesWhole
      rw [hscreen]
      rfl
    rw [htakes]
    dsimp only
    split
    next hsize => simp only [decide_eq_false hsize,Bool.false_and,Bool.and_false]
    · next hsize =>
      rw [decide_eq_true (not_not.mp hsize)]
      split
      next hblank => simp [hblank]
      · next hshown =>
        cases hwhole : m.trim.isWhole next with
        | false => simp
        | true =>
          refine iff_of_false (fun h => ?_) fun h => hshown (by simpa using h)
          obtain ⟨-,hbyText,hlost,-⟩ := readOn_outcome m.trim.unasked current
            (shapeOf w m.trim next).1 next (rfl : (shapeOf w m.trim next).2.lost=none)
          obtain ⟨-,-,hfound⟩ := readWhole_outcome m.trim.unasked current
            (shapeOf w m.trim next).1 next (shapeOf w m.trim next).2 m.trim.askedRefused
          have hnew : next.fromStart=false := by
            simp only [isWhole,Bool.and_eq_true,Bool.not_eq_true'] at hwhole
            exact hwhole.2
          have huntrusted : isTrusted current (shapeOf w m.trim next).1 next=false := by
            simp [isTrusted,isRefusedRead,hnew]
          -- a read on its own start is aligned by its text, and counts nothing lost
          rw [if_neg Bool.false_ne_true,if_pos rfl] at h
          rw [← h,hbyText,hlost,huntrusted] at hfound
          rcases hfound with hfound | hfound <;> cases hfound
  · rw [hshown] at hblank
    cases hblank

/-- A blank read changes nothing unless the next would have been taken as the whole document the
memory asked for; a read that asks for it leaves all but the requests as trimming left it. -/
theorem blank_read_changes_nothing_iff (w : Widths) (m : TerminalMemory) (next : Read) :
    (∀ blank, (m.read w blank).2.blank=true →
      ((m.read w blank).1.read w next=m.read w next ↔ m.takesWhole w next=false)) ∧
      ((m.read w next).2.wholeDocument=true → (m.read w next).1={m.trim with
        askedWhole := true, askedRefused := isRefusedRead next, askedAbove := none}) := by
  refine ⟨fun _ hblank => read_after_blank hblank next,fun hwhole => ?_⟩
  obtain ⟨-,hpart,-⟩ | ⟨-,hleft⟩ := read_cases w m next
  · cases hpart.symm.trans hwhole
  · exact hleft hwhole

/-- A memory that asked for the whole document: the start was refused and nothing was kept. -/
def lostMemory : TerminalMemory :=
  ((TerminalMemory.new.read monospaced (readLines [("a",4),("b",4)] 0 2 false)).1.read monospaced
    {readLines [("x",4),("y",4)] 0 2 false with atDocumentStart := false}).1

def clearedRead : Read := readLines [("",4),("",4)] 0 2 false

theorem clearedRead_changes_nothing :
    let next := readLines [("x",4),("y",4)] 0 2 true
    (lostMemory.read monospaced clearedRead).1.read monospaced next =
      lostMemory.read monospaced next :=
  ((blank_read_changes_nothing_iff monospaced lostMemory _).1 clearedRead (by decide +kernel)).2
    (by decide +kernel)

/-- The blank read forgets that the whole document was asked for: read after it, the document is
asked for again. -/
theorem clearedRead_forgets_request :
    let whole := readLines [("w",4),("x",4),("y",4)] 0 2 false
    lostMemory.askedWhole=true ∧ (lostMemory.read monospaced clearedRead).2.blank=true ∧
      (lostMemory.read monospaced whole).2.wholeDocument=false ∧
      ((lostMemory.read monospaced clearedRead).1.read monospaced whole).2.wholeDocument=true := by
  decide +kernel

end TerminalMemory

end Verbatim.Terminal
