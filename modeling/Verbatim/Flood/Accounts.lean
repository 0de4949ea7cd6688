import Verbatim.Flood.Trimming

namespace Verbatim.Flood

open Verbatim.Terminal

/-- A piece of output taken in: a line, or what the line before it gained. -/
inductive Piece where
  | line (text : Text)
  | growth (text : Text)
  deriving DecidableEq

def piecesOf (items : List SaidItem) : List Piece :=
  items.filterMap (fun item => match item with
    | .line text => some (.line text)
    | .item (.output text) => some (.line text)
    | .item (.growth text) => some (.growth text)
    | _ => none)

def Piece.lines (pieces : List Piece) : List Text :=
  pieces.filterMap (fun piece => match piece with
    | .line text => some text
    | .growth _ => none)

section

variable (graphemes : Graphemes)

/-- The items stand for the pieces taken in, in order: a line for itself, as far as it is kept, a
count of N for N consecutive lines with their growths. A growth alone may have been dropped. -/
inductive Stands : List Waiting → List Piece → Prop
  | nil : Stands [] []
  | line : Stands items pieces →
      Stands (.line (withinBound graphemes text).1 (.line .exactly)::items) (.line text::pieces)
  | growth : Stands items pieces →
      Stands (.line (withinBound graphemes text).1 .growth::items) (.growth text::pieces)
  | cut : Stands items pieces → Stands (.cut::items) pieces
  | skipped : (Piece.lines run).length=count → Stands items pieces →
      Stands (.skipped (.count count)::items) (run++pieces)
  | dropped : Stands items pieces → Stands items (.growth text::pieces)

end

variable {graphemes : Graphemes} {items items' : List Waiting} {pieces pieces' : List Piece}

theorem Piece.lines_append (a b : List Piece) : Piece.lines (a++b)=Piece.lines a++Piece.lines b :=
  List.filterMap_append

section

variable (h : Stands graphemes items pieces)

include h

theorem Stands.append (h' : Stands graphemes items' pieces') :
    Stands graphemes (items++items') (pieces++pieces') := by
  induction h with
  | nil => exact h'
  | line _ ih => exact .line ih
  | growth _ ih => exact .growth ih
  | cut _ ih => exact .cut ih
  | skipped hcount _ ih =>
    rw [List.append_assoc]
    exact .skipped hcount ih
  | dropped _ ih => exact .dropped ih

omit h in
theorem Stands.split (h : Stands graphemes (items++items') pieces) :
    ∃ before after, pieces=before++after ∧ Stands graphemes items before ∧
      Stands graphemes items' after := by
  generalize hall : items++items'=all at h
  induction h generalizing items with
  | nil =>
    obtain ⟨rfl,rfl⟩ := List.append_eq_nil_iff.mp hall
    exact ⟨[],[],rfl,.nil,.nil⟩
  | @line all pieces text h ih =>
    rcases List.append_eq_cons_iff.mp hall with ⟨rfl,rfl⟩ | ⟨rest,rfl,hrest⟩
    · exact ⟨[],.line text::pieces,rfl,.nil,.line h⟩
    · obtain ⟨before,after,rfl,hbefore,hafter⟩ := ih hrest.symm
      exact ⟨.line text::before,after,rfl,.line hbefore,hafter⟩
  | @growth all pieces text h ih =>
    rcases List.append_eq_cons_iff.mp hall with ⟨rfl,rfl⟩ | ⟨rest,rfl,hrest⟩
    · exact ⟨[],.growth text::pieces,rfl,.nil,.growth h⟩
    · obtain ⟨before,after,rfl,hbefore,hafter⟩ := ih hrest.symm
      exact ⟨.growth text::before,after,rfl,.growth hbefore,hafter⟩
  | @cut all pieces h ih =>
    rcases List.append_eq_cons_iff.mp hall with ⟨rfl,rfl⟩ | ⟨rest,rfl,hrest⟩
    · exact ⟨[],pieces,rfl,.nil,.cut h⟩
    · obtain ⟨before,after,rfl,hbefore,hafter⟩ := ih hrest.symm
      exact ⟨before,after,rfl,.cut hbefore,hafter⟩
  | @skipped run count all pieces hcount h ih =>
    rcases List.append_eq_cons_iff.mp hall with ⟨rfl,rfl⟩ | ⟨rest,rfl,hrest⟩
    · exact ⟨[],run++pieces,rfl,.nil,.skipped hcount h⟩
    · obtain ⟨before,after,rfl,hbefore,hafter⟩ := ih hrest.symm
      exact ⟨run++before,after,by rw [List.append_assoc],.skipped hcount hbefore,hafter⟩
  | @dropped all pieces text h ih =>
    obtain ⟨before,after,rfl,hbefore,hafter⟩ := ih hall
    exact ⟨.growth text::before,after,rfl,.dropped hbefore,hafter⟩

theorem Stands.total_eq : total items=(Piece.lines pieces).length := by
  induction h with
  | nil => rfl
  | line _ ih | growth _ ih =>
    rw [total_cons,ih,Nat.add_comm]
    rfl
  | cut _ ih =>
    rw [total_cons,ih]
    exact Nat.zero_add _
  | skipped hcount _ ih =>
    rw [total_cons,ih,Piece.lines_append,List.length_append,hcount]
    rfl
  | dropped _ ih => exact ih

theorem Stands.exact : ∀ item∈items, isExact item := by
  induction h with
  | nil => exact fun _ hitem => absurd hitem List.not_mem_nil
  | line _ ih | growth _ ih | cut _ ih | skipped _ _ ih => exact List.forall_mem_cons.mpr ⟨rfl,ih⟩
  | dropped _ ih => exact ih

omit h in
theorem stands_nil (h : Piece.lines pieces=[]) : Stands graphemes [] pieces := by
  induction pieces with
  | nil => exact .nil
  | cons piece pieces ih =>
    cases piece with
    | line text => exact absurd h (List.cons_ne_nil _ _)
    | growth text => exact .dropped (ih h)

theorem Stands.counted : Stands graphemes (countOf (total items)) pieces := by
  have htotal := h.total_eq
  by_cases hzero : total items=0
  · rw [hzero] at htotal ⊢
    exact stands_nil (List.length_eq_zero_iff.mp htotal.symm)
  · rw [countOf_pos hzero,← List.append_nil pieces]
    exact .skipped htotal.symm .nil

theorem Stands.trims (htrims : Trims group items items') : Stands graphemes items' pieces := by
  obtain ⟨pre,dropped,rest,rfl,rfl,-⟩ := htrims
  obtain ⟨front,last,rfl,hfront,hlast⟩ := h.split
  obtain ⟨first,middle,rfl,hfirst,hmiddle⟩ := hfront.split
  exact (hfirst.append hmiddle.counted).append hlast

end

def NoLost (items : List SaidItem) : Prop := ∀ skipped, .item (.skipped skipped)∉items

def isLost : SaidItem → Bool
  | .item (.skipped _) => true
  | _ => false

instance (items : List SaidItem) : Decidable (NoLost items) :=
  decidable_of_iff (∀ item∈items, isLost item=false) ⟨fun h skipped hmem => by
      have hnot := h _ hmem
      exact absurd hnot (by simp [isLost]),fun h item hitem => by
      unfold isLost
      split
      next skipped => exact absurd hitem (h skipped)
      · rfl⟩

variable {items : List SaidItem}

theorem NoLost.tail {item : SaidItem} (h : NoLost (item::items)) : NoLost items :=
  fun skipped hmem => h skipped (List.mem_cons_of_mem _ hmem)

variable (text : Text)

def Piece.added (graphemes : Graphemes) : Piece → List Waiting
  | .line text => lineAdded graphemes text (.line .exactly)
  | .growth text => lineAdded graphemes text .growth

theorem added_eq (h : NoLost items) :
    added graphemes items .exactly=(piecesOf items).flatMap (Piece.added graphemes) := by
  induction items with
  | nil => rfl
  | cons item items ih =>
    have htail := ih h.tail
    match item with
    | .line text | .item (.output text) | .item (.growth text) => exact congrArg (_++·) htail
    | .item (.skipped skipped) => exact absurd List.mem_cons_self (h skipped)
    | .item (.echo _) | .item (.caret _ _) | .item (.gained _) | .item (.lost _)
    | .item (.answer _) | .item (.suggestion _) => exact htail

theorem added_stands (h : NoLost items) :
    Stands graphemes (added graphemes items .exactly) (piecesOf items) := by
  rw [added_eq h]
  generalize piecesOf items=pieces
  induction pieces with
  | nil => exact .nil
  | cons piece pieces ih =>
    suffices hone : Stands graphemes _ [piece] from hone.append ih
    cases piece with
    | line text =>
      simp only [Piece.added,lineAdded]
      split
      · exact .line (.cut .nil)
      · exact .line .nil
    | growth text =>
      simp only [Piece.added,lineAdded]
      split
      · exact .growth (.cut .nil)
      · exact .growth .nil

theorem linesOf_lineAdded (counted : Counted) :
    linesOf (lineAdded graphemes text (.line counted))=[(withinBound graphemes text).1] ∧
      linesOf (lineAdded graphemes text .growth)=[] := by
  unfold lineAdded
  simp only
  split <;> exact ⟨rfl,rfl⟩

theorem linesOf_added (h : NoLost items) :
    linesOf (added graphemes items .exactly) =
      (Piece.lines (piecesOf items)).map fun text => (withinBound graphemes text).1 := by
  rw [added_eq h]
  generalize piecesOf items=pieces
  induction pieces with
  | nil => rfl
  | cons piece pieces ih =>
    rw [List.flatMap_cons,linesOf_append,ih]
    cases piece with
    | line text => exact congrArg (·++_) (linesOf_lineAdded text _).1
    | growth text => exact congrArg (·++_) (linesOf_lineAdded text .exactly).2

theorem lineAdded_counts (kind : LineKind) : Counts (lineAdded graphemes text kind) := by
  intro item hitem skipped
  unfold lineAdded at hitem
  simp only at hitem
  split at hitem
  · rcases List.mem_cons.mp hitem with rfl | hitem
    · simp
    · rw [List.mem_singleton.mp hitem]
      simp
  · rw [List.mem_singleton.mp hitem]
    simp

theorem added_counts (h : NoLost items) : Counts (added graphemes items .exactly) := by
  rw [added_eq h]
  intro item hitem
  obtain ⟨piece,-,hitem⟩ := List.mem_flatMap.mp hitem
  cases piece with
  | line text => exact lineAdded_counts text _ item hitem
  | growth text => exact lineAdded_counts text _ item hitem

end Verbatim.Flood
