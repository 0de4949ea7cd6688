import Verbatim.Terminal.Bytes

namespace Verbatim.Core.Editing

open List Terminal Terminal.Text

def isLineBreak (c : Char) : Bool := c.toNat∈[0x0D,0x0A,0x0B,0x0C,0x85,0x2028,0x2029]

/-- A line without its line break, in a terminal (`grid`) without its padding too. -/
def lineContent (text : Text) (grid : Bool) : Text :=
  let content := (text.reverse.dropWhile isLineBreak).reverse
  if grid then trimPadding content else content

/-- What a key that deletes backward did to the caret's line. -/
inductive Removal where
  | removed (text : Text)
  | joined
  | nothing
  deriving DecidableEq

/-- The line's content; in a terminal spaces up to the caret, which may stand in the padding. -/
def readLine (line : Text × Nat) (grid : Bool) : Text :=
  let content := lineContent line.1 grid
  if grid ∧ content.bytes<line.2 then content++replicate (line.2-content.bytes) ' ' else content

/-- What the key did, from the caret's line before and after it, each with the caret's offset. -/
def removal (before after : Text × Nat) (grid : Bool) : Removal :=
  let (was,b) := (readLine before grid,before.2)
  let (now,a) := (readLine after grid,after.2)
  if b<a ∨ dropBytes was b=none ∨ dropBytes now a=none then
    if a=now.bytes-was.bytes ∧ was <:+ now then .joined else .nothing
  else
    let keptBefore : Bool := takeBytes was a=takeBytes now a
    let stop := a+(was.bytes-now.bytes)
    let gone := (dropBytes was a).bind (takeBytes · (stop-a))
    if a=b ∧ keptBefore ∧ now.bytes<was.bytes ∧ gone.isSome ∧
        dropBytes was stop=dropBytes now a then
      .removed (gone.getD [])
    else
      let keptAfter : Bool := dropBytes was b=dropBytes now a ∨
        (grid ∧ (dropBytes was b).map trimPadding=(dropBytes now a).map trimPadding)
      match (dropBytes was a).bind (takeBytes · (b-a)) with
      | some gone => if keptBefore ∧ keptAfter ∧ a<b then .removed gone else .nothing
      | none => .nothing

variable {p x s : Text} {before after : Text × Nat} {grid : Bool}

/-- A splice around the caret is told as what it removed. -/
theorem removal_of_splice (hx : x≠[]) (hwas : readLine before grid=p++x++s)
    (hnow : readLine after grid=p++s) (ha : after.2=p.bytes)
    (hb : before.2=p.bytes+x.bytes ∨ before.2=p.bytes) :
    removal before after grid=.removed x := by
  have hpos : 0<x.bytes := Nat.pos_of_ne_zero fun h => hx (bytes_eq_zero.mp h)
  have hdrop : dropBytes (p++(x++s)) (p.bytes+x.bytes)=some s := by
    rw [← bytes_append,← append_assoc,dropBytes_append]
  have hless : p.bytes+(x.bytes+s.bytes)-(p.bytes+s.bytes)=x.bytes := by omega
  unfold removal
  rcases hb with hb | hb <;>
    simp [hwas,hnow,ha,hb,hdrop,hless,dropBytes_append,takeBytes_append,hpos,hpos.ne']

/-- What is told as removed is not empty, and the lines are such a splice. -/
theorem splice_of_removal (h : removal before after grid=.removed x) :
    x≠[] ∧ ∃ p s s', readLine before grid=p++x++s ∧ readLine after grid=p++s' ∧
      (s'=s ∨ grid=true ∧ trimPadding s=trimPadding s') ∧ after.2=p.bytes ∧
      (before.2=p.bytes+x.bytes ∨ before.2=p.bytes) := by
  unfold removal at h
  simp only at h
  generalize readLine before grid=was,readLine after grid=now at h
  split at h
  · split at h <;> cases h
  next hfits =>
  obtain ⟨s',hs'⟩ : ∃ s', dropBytes now after.2=some s' := Option.ne_none_iff_exists'.mp (by tauto)
  obtain ⟨p,rfl,hp⟩ := dropBytes_eq_some.mp hs'
  -- the caret's beginning is the same in both lines
  have hsame : takeBytes was after.2=takeBytes (p++s') after.2 → ∃ r, was=p++r := fun hkept => by
    rw [← hp,takeBytes_append] at hkept
    exact (takeBytes_eq_some.mp hkept).imp fun r hr => hr.1
  have hgone {r x : Text} {n : Nat} (hwas : was=p++r)
      (hx : (dropBytes was after.2).bind (takeBytes · n)=some x) :
      ∃ s, was=p++x++s ∧ x.bytes=n := by
    rw [hwas,← hp,dropBytes_append,Option.bind_some] at hx
    obtain ⟨s,rfl,hn⟩ := takeBytes_eq_some.mp hx
    exact ⟨s,by rw [hwas,append_assoc],hn⟩
  split at h
  next hstays =>
    obtain ⟨hcaret,hkept,hless,hsome,hrest⟩ := hstays
    obtain ⟨r,hwas⟩ := hsame (by simpa using hkept)
    obtain ⟨y,hy⟩ := Option.isSome_iff_exists.mp hsome
    rw [hy] at h
    obtain rfl : y=x := by simpa using h
    obtain ⟨s,rfl,hbytes⟩ := hgone hwas hy
    have hs : dropBytes (p++y++s) (p++y).bytes=some s' := by
      rw [← hs',← hrest,bytes_append,hp]
      exact congrArg _ (by omega)
    rw [dropBytes_append] at hs
    refine ⟨fun hnil => ?_,p,s,s',rfl,rfl,.inl (Option.some.inj hs).symm,hp.symm,.inr (by omega)⟩
    have := bytes_eq_zero.mpr hnil
    omega
  next =>
    split at h
    next y hy =>
      split at h
      next hkept =>
        obtain rfl : y=x := by simpa using h
        obtain ⟨r,hwas⟩ := hsame (by simpa using hkept.1)
        obtain ⟨s,rfl,hbytes⟩ := hgone hwas hy
        have hs : dropBytes (p++y++s) before.2=some s := by
          rw [show before.2=(p++y).bytes by rw [bytes_append]; omega,dropBytes_append]
        refine ⟨fun hnil => ?_,p,s,s',rfl,rfl,?_,hp.symm,.inl (by omega)⟩
        · have := bytes_eq_zero.mpr hnil
          omega
        · have hafter := hkept.2.1
          rw [hs,hs'] at hafter
          exact (by simpa using hafter : s=s' ∨ _).imp_left Eq.symm
      · cases h
    · cases h

theorem readLine_append {u l : Text} (hu : ∀ c∈u, isLineBreak c=false) (caret : Nat) :
    readLine (u++l,caret) false=u++readLine (l,caret) false := by
  have hrev : u.reverse.dropWhile isLineBreak=u.reverse := by
    cases hcase : u.reverse with
    | nil => rfl
    | cons c rest => simp [hu c (mem_reverse.mp (hcase ▸ mem_cons_self))]
  simp only [readLine,lineContent,reverse_append,Bool.false_eq_true,false_and,if_false]
  rw [dropWhile_append]
  split
  next hempty => simp [hrev,List.isEmpty_iff.mp hempty]
  · simp

theorem removal_joined_iff {u : Text} (hu : ∀ c∈u, isLineBreak c=false) (l : Text) :
    removal (l,0) (u++l,u.bytes) false=.joined ↔ u≠[] := by
  have hzero : ∀ text, dropBytes text 0=some text := fun text => by cases text <;> rfl
  have hnow : readLine (u++l,u.bytes) false=u++readLine (l,0) false := readLine_append hu _
  simp only [removal,hnow]
  by_cases hnil : u=[]
  · subst hnil
    simp only [nil_append,bytes_nil,hzero]
    rw [if_neg (by simp),if_neg (by simp)]
    split <;> simp
  · have hpos : 0<u.bytes := Nat.pos_of_ne_zero (fun h => hnil (bytes_eq_zero.mp h))
    simp [hpos,hnil]

/-- What a deleting key removed is told from the line before and after it: a splice around the
caret is, and nothing else; a line joined to the one above it is unless that one is empty. -/
theorem removal_tells_iff (p x s u l : Text) (hx : x≠[])
    (hbreaks : ∀ c∈p++x++s++u, isLineBreak c=false) (grid : Bool) :
    removal (p++x++s,p.bytes+x.bytes) (p++s,p.bytes) false=.removed x ∧
    removal (p++x++s,p.bytes) (p++s,p.bytes) false=.removed x ∧
    (∀ before after, readLine before grid=p++x++s → readLine after grid=p++s →
      after.2=p.bytes → before.2=p.bytes+x.bytes ∨ before.2=p.bytes →
      removal before after grid=.removed x) ∧
    (removal (l,0) (u++l,u.bytes) false=.joined ↔ u≠[]) ∧
    ∀ before after y, removal before after grid=.removed y → y≠[] ∧
      ∃ p s s', readLine before grid=p++y++s ∧ readLine after grid=p++s' ∧
        (s'=s ∨ grid=true ∧ trimPadding s=trimPadding s') ∧ after.2=p.bytes ∧
        (before.2=p.bytes+y.bytes ∨ before.2=p.bytes) := by
  have hline : ∀ text : Text, (∀ c∈text, c∈p++x++s) →
      ∀ caret, readLine (text,caret) false=text := by
    intro text htext caret
    have := readLine_append (l := []) (fun c hc => hbreaks c (mem_append_left u (htext c hc))) caret
    rwa [append_nil,show readLine ([],caret) false=[] from rfl,append_nil] at this
  have hwas := hline (p++x++s) fun _ h => h
  have hnow := hline (p++s) (by simp; tauto)
  refine ⟨?_,?_,fun before after => removal_of_splice hx,?_,fun _ _ _ => splice_of_removal⟩
  · exact removal_of_splice hx (hwas _) (hnow _) rfl (.inl rfl)
  · exact removal_of_splice hx (hwas _) (hnow _) rfl (.inr rfl)
  · exact removal_joined_iff (fun c hc => hbreaks c (mem_append_right _ hc)) l

theorem removal_tells_letter :
    removal ("ab".toList,1) ("b".toList,0) false=.removed "a".toList :=
  (removal_tells_iff [] "a".toList "b".toList [] [] (by decide) (by simp [isLineBreak]) false).1

/-- Below an empty line, Backspace at a line's start is told as nothing. -/
theorem join_of_empty_line_untold :
    removal ("def".toList,0) ([]++"def".toList,Text.bytes []) false=.nothing := by
  decide

end Verbatim.Core.Editing
