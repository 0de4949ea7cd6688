import Verbatim.Framework.Machine
import Verbatim.Flood.Trimming

namespace Verbatim.Flood

open Framework Verbatim.Terminal List Option

/-- One line or growth dropped: whether it was in the group, and whether it was a line. -/
structure Drop where
  inGroup : Bool
  counted : Bool

/-- At `index` is the oldest text of the backlog, or of the group when the backlog has none. -/
def Oldest (waiting : List Waiting) (start index : Nat) : Prop :=
  ∀ place item, waiting[place]?=some item → hasText item →
    (start≤place → start ≤ index ∧ index≤place) ∧ (place<start → index<start → index≤place)

/-- More waits than may, and what is at `index` is dropped next, from the group or not. -/
structure Takes (waiting : List Waiting) (group : Option Nat) (index : Nat) (inGroup : Bool) :
    Prop where
  full : maxWaitingBytes<waitingBytes waiting
  oldest : Oldest waiting (backlogStart waiting (group.getD 0)) index
  place : inGroup=true ↔ index<backlogStart waiting (group.getD 0)

def lowered (group : Option Nat) (inGroup : Bool) : Option Nat :=
  if inGroup then group.map (·-1) else group

/-- What is dropped in one turn: a growth alone, or a line with what belongs to it, which adds
one to the count that stands before it or leaves a count where it was. -/
inductive Turn : List Waiting × Option Nat → List Drop → List Waiting × Option Nat → Prop where
  | growth {pre post : List Waiting} {text : Text} {group : Option Nat} {inGroup : Bool}
      (h : Takes (pre++.line text .growth::post) group pre.length inGroup) :
      Turn (pre++.line text .growth::post,group) [⟨inGroup,false⟩] (pre++post,lowered group inGroup)
  | line {pre post : List Waiting} (before : Option Skipped) {text : Text} {counted : Counted}
      {group : Option Nat} {inGroup : Bool}
      (hlast : before=none → ∀ count, pre.getLast?≠some (.skipped count))
      (h : Takes (pre++before.toList.map .skipped++.line text (.line counted)::post) group
        (pre++before.toList.map Waiting.skipped).length inGroup) :
      Turn (pre++before.toList.map .skipped++.line text (.line counted)::post,group)
        [⟨inGroup,true⟩]
        (pre++.skipped (withLine before counted)::post.dropWhile belongs,lowered group inGroup)

variable {waiting : List Waiting} {group : Option Nat}

theorem findIdx?_oldest {index place : Nat} {item : Waiting}
    (h : waiting.findIdx? hasText=some index) (hitem : waiting[place]?=some item)
    (htext : hasText item) : index≤place := by
  obtain ⟨_,_,hfirst⟩ := findIdx?_eq_some_iff_getElem.mp h
  obtain ⟨hlt,rfl⟩ := List.getElem?_eq_some_iff.mp hitem
  by_contra hless
  exact hfirst place (by omega) htext

theorem oldest_of_oldestText {start index : Nat} (h : oldestText waiting start=some index) :
    Oldest waiting start index := by
  intro place item hitem htext
  have hback : start≤place → (waiting.drop start)[place-start]?=some item := fun hle => by
    rw [getElem?_drop,Nat.add_sub_cancel' hle]
    exact hitem
  unfold oldestText at h
  split at h
  next found hfound =>
    obtain rfl : start+found=index := some.inj h
    refine ⟨fun hle => ?_,by omega⟩
    have := findIdx?_oldest hfound (hback hle) htext
    omega
  next hnone =>
    refine ⟨fun hle => ?_,fun hlt _ => ?_⟩
    · have := findIdx?_eq_none_iff.mp hnone item (mem_of_getElem? (hback hle))
      rw [htext] at this
      cases this
    · exact findIdx?_oldest h (by rw [getElem?_take_of_lt hlt]; exact hitem) htext

theorem turn_of_oldestText (hfull : ¬ waitingBytes waiting ≤ maxWaitingBytes) {index : Nat}
    (h : oldestText waiting (backlogStart waiting (group.getD 0))=some index) :
    ∃ drops, Turn (waiting,group) drops (joinCount waiting index,
      if index<backlogStart waiting (group.getD 0) then group.map (·-1) else group) := by
  obtain ⟨item,hitem,htext⟩ := oldestText_spec h
  have htakes : Takes waiting group index (decide (index<backlogStart waiting (group.getD 0))) :=
    ⟨not_le.mp hfull,oldest_of_oldestText h,decide_eq_true_iff⟩
  have hlowered : (if index<backlogStart waiting (group.getD 0) then group.map (·-1)
      else group)=lowered group (decide (index<backlogStart waiting (group.getD 0))) := by
    simp [lowered]
  rw [hlowered]
  have hsplit := split_of_getElem? hitem
  have hlength : (waiting.take index).length=index := by
    rw [length_take]
    exact Nat.min_eq_left (List.getElem?_eq_some_iff.mp hitem).1.le
  unfold joinCount
  rw [hitem]
  generalize waiting.take index=pre at hsplit hlength ⊢
  generalize waiting.drop (index+1)=post at hsplit ⊢
  subst hsplit hlength
  cases item with
  | line text kind =>
    cases kind with
    | growth => exact ⟨_,.growth htakes⟩
    | line counted =>
      simp only
      split
      next count hlast =>
        obtain ⟨pre,rfl⟩ := getLast?_eq_some_iff.mp hlast
        rw [dropLast_concat]
        exact ⟨_,.line (some count) (by simp) htakes⟩
      next hlast =>
        have hturn := Turn.line none (fun _ => hlast) (by simpa using htakes)
        exact ⟨_,by simpa using hturn⟩
  | skipped | cut => cases htext

theorem boundLoop_chain (fuel : Nat) (waiting : List Waiting) (group : Option Nat) :
    ∃ drops, Chain Turn (waiting,group) drops (boundLoop fuel waiting group) := by
  induction fuel generalizing waiting group with
  | zero => exact ⟨[],.refl⟩
  | succ fuel ih =>
    unfold boundLoop
    split
    · exact ⟨[],.refl⟩
    next hfull =>
      simp only
      split
      · exact ⟨[],.refl⟩
      next index hindex =>
        obtain ⟨first,hturn⟩ := turn_of_oldestText hfull hindex
        obtain ⟨rest,hrest⟩ := ih _ _
        exact ⟨first++rest,(Chain.single hturn).trans hrest⟩

variable {s t : List Waiting × Option Nat} {drops : List Drop}

theorem chain_counter (h : Chain Turn s drops t) : t.2=s.2.map (·-drops.countP (·.inGroup)) := by
  refine Chain.invariant (fun drops t => t.2=s.2.map (·-drops.countP (·.inGroup))) (by simp) ?_ h
  intro drops t more u hcounter hturn
  obtain ⟨inGroup,counted,rfl,hu⟩ : ∃ inGroup counted, more=[⟨inGroup,counted⟩] ∧
      u.2=lowered t.2 inGroup := by
    cases hturn with
    | growth | line => exact ⟨_,_,rfl,rfl⟩
  rw [hu,hcounter,countP_append]
  cases inGroup <;> simp [lowered,Function.comp_def,Nat.sub_sub]

/-- The bytes of the items from the first growth on that stands apart from its line: at their head,
or after a count. `inLine` says that the items go on from a line. -/
def apartBytes : Bool → List Waiting → Nat
  | _,[] => 0
  | _,.line _ (.line _)::rest => apartBytes true rest
  | true,.line _ .growth::rest => apartBytes true rest
  | false,.line text .growth::rest => waitingBytes (.line text .growth::rest)
  | inLine,.cut::rest => apartBytes inLine rest
  | _,.skipped _::rest => apartBytes false rest

section Apart

variable {pre items items' : List Waiting}

theorem waitingBytes_append (a b : List Waiting) :
    waitingBytes (a++b)=waitingBytes a+waitingBytes b := by
  simp [waitingBytes]

theorem waitingBytes_cons_le (item : Waiting) (items : List Waiting) :
    waitingBytes items≤waitingBytes (item::items) :=
  waitingBytes_append [item] items ▸ Nat.le_add_left _ _

theorem apartBytes_le (inLine : Bool) (items : List Waiting) :
    apartBytes inLine items≤waitingBytes items := by
  fun_induction apartBytes inLine items with
  | case1 | case4 => exact le_rfl
  | case2 _ _ _ rest ih | case3 _ rest ih | case5 _ rest ih | case6 _ _ rest ih =>
    exact ih.trans (waitingBytes_cons_le _ rest)

theorem apartBytes_own (items : List Waiting) :
    apartBytes false (items.dropWhile belongs)=apartBytes true items ∧
      waitingBytes (items.dropWhile belongs)≤waitingBytes items := by
  induction items with
  | nil => exact ⟨rfl,le_rfl⟩
  | cons item items ih =>
    match item with
    | .line _ .growth | .cut => exact ⟨ih.1,ih.2.trans (waitingBytes_cons_le _ items)⟩
    | .line _ (.line _) | .skipped _ => exact ⟨rfl,le_rfl⟩

/-- Less after the same items leaves less apart. -/
theorem apartBytes_append (hbytes : waitingBytes items'≤waitingBytes items)
    (happart : ∀ inLine, apartBytes inLine items'≤apartBytes inLine items) (pre : List Waiting)
    (inLine : Bool) : apartBytes inLine (pre++items')≤apartBytes inLine (pre++items) := by
  induction pre generalizing inLine with
  | nil => exact happart inLine
  | cons item pre ih =>
    match inLine,item with
    | false,.line text .growth =>
      have hall (rest : List Waiting) := waitingBytes_append (.line text .growth::pre) rest
      exact (hall items').le.trans ((Nat.add_le_add_left hbytes _).trans (hall items).ge)
    | true,.line _ .growth | _,.line _ (.line _) | _,.cut | _,.skipped _ => exact ih _

/-- Nothing with text is ahead of a growth dropped from the group, so it stands apart. -/
theorem Takes.apart {post : List Waiting} {text : Text}
    (h : Takes (pre++.line text .growth::post) group pre.length true) :
    maxWaitingBytes<apartBytes false (pre++.line text .growth::post) := by
  have hplace := h.place.mp rfl
  have hsilent : ∀ item∈pre, hasText item=false := by
    intro item hitem
    obtain ⟨place,hlt,rfl⟩ := mem_iff_getElem.mp hitem
    by_contra htext
    have hget : (pre++.line text .growth::post)[place]?=some pre[place] := by
      rw [getElem?_append_left hlt,getElem?_eq_getElem hlt]
    have := h.oldest place _ hget (by simpa using htext)
    omega
  have hsame : apartBytes false (pre++.line text .growth::post) =
      waitingBytes (pre++.line text .growth::post) := by
    clear h hplace
    induction pre with
    | nil => rfl
    | cons item pre ih =>
      have hrest := ih fun other hother => hsilent other (mem_cons_of_mem _ hother)
      match item,hsilent item mem_cons_self with
      | .skipped _,_ | .cut,_ => simpa [waitingBytes,apartBytes] using hrest
  exact hsame ▸ h.full

/-- A growth that is dropped from the group had more than may wait from it on, and no turn leaves
more apart. -/
theorem Turn.apart (h : Turn s drops t)
    (hapart : apartBytes false s.1 ≤ maxWaitingBytes) :
    (∀ drop∈drops, drop.inGroup → drop.counted) ∧ apartBytes false t.1 ≤ maxWaitingBytes := by
  cases h with
  | @growth pre post text group inGroup h =>
    cases inGroup with
    | true => exact absurd h.apart (Nat.not_lt.mpr hapart)
    | false =>
      have hbytes := waitingBytes_cons_le (.line text .growth) post
      refine ⟨by simp,(apartBytes_append hbytes ?_ pre false).trans hapart⟩
      rintro (_ | _)
      · exact (apartBytes_le false post).trans hbytes
      · exact le_rfl
  | @line pre post before text counted group inGroup hlast h =>
    obtain ⟨hown,hbytes⟩ := apartBytes_own post
    refine ⟨by simp,(apartBytes_append ?_ (fun inLine => ?_) pre false).trans
      (append_assoc pre _ _ ▸ hapart)⟩
    · cases before with
      | none | some _ =>
        have := waitingBytes_cons_le (.line text (.line counted)) post
        simp only [waitingBytes] at hbytes this ⊢
        simpa using hbytes.trans this
    · cases before with
      | none | some _ => cases inLine <;> exact hown.le

end Apart

theorem chain_apart (h : Chain Turn s drops t) (hapart : apartBytes false s.1 ≤ maxWaitingBytes) :
    (∀ drop∈drops, drop.inGroup → drop.counted) ∧ apartBytes false t.1 ≤ maxWaitingBytes := by
  induction h with
  | refl => exact ⟨by simp,hapart⟩
  | snoc _ hturn ih =>
    obtain ⟨hmore,hleft⟩ := hturn.apart ih.2
    exact ⟨forall_mem_append.mpr ⟨ih.1,hmore⟩,hleft⟩

def Skipped.number : Skipped → Nat
  | .count lines | .moreThan lines | .about lines => lines
  | .uncounted => 0

/-- The lines that wait and those the counts among them say. -/
def saidLines (items : List Waiting) : Nat :=
  (items.map fun item => match item with
    | .line _ (.line _) => 1
    | .skipped count => count.number
    | _ => 0).sum

/-- A count that says a number, a line that adds one to any such, or neither. -/
def isNumbered : Waiting → Bool
  | .skipped .uncounted | .line _ (.line .moreThan) => false
  | _ => true

theorem saidLines_append (a b : List Waiting) : saidLines (a++b)=saidLines a+saidLines b := by
  simp [saidLines]

theorem saidLines_dropWhile (items : List Waiting) :
    saidLines (items.dropWhile belongs)=saidLines items := by
  induction items with
  | nil => rfl
  | cons item items ih =>
    rw [dropWhile_cons]
    split
    next hbelongs =>
      match item,hbelongs with
      | .line _ .growth,_ | .cut,_ =>
        rw [ih]
        exact (Nat.zero_add _).symm
    · rfl

theorem number_withLine (before : Option Skipped) (counted : Counted)
    (hbefore : before≠some .uncounted) (hcounted : counted≠.moreThan)
    (hfew : before.elim 0 Skipped.number+1<2^32) :
    (withLine before counted).number=before.elim 0 Skipped.number+1 ∧
      withLine before counted≠.uncounted := by
  rcases before with _ | (lines | _ | lines | lines)
  case some.uncounted => cases hbefore rfl
  all_goals cases counted with
    | moreThan => cases hcounted rfl
    | exactly | about =>
      simp only [elim_none,elim_some,Skipped.number] at hfew
      simp [withLine,Skipped.plus,Skipped.number,addCounts]
      try omega

/-- Among counts that say a number a line dropped adds one to the count it joins. -/
theorem Turn.saidLines (h : Turn s drops t)
    (hnumbered : ∀ item∈s.1, isNumbered item) (hfew : saidLines s.1<2^32) :
    (∀ item∈t.1, isNumbered item) ∧ Flood.saidLines t.1=Flood.saidLines s.1 := by
  cases h with
  | growth h =>
    simp only [forall_mem_append,forall_mem_cons] at hnumbered ⊢
    refine ⟨⟨hnumbered.1,hnumbered.2.2⟩,?_⟩
    rw [saidLines_append,saidLines_append]
    simp [Flood.saidLines]
  | @line pre post before text counted group inGroup hlast h =>
    simp only [forall_mem_append,forall_mem_cons] at hnumbered ⊢
    obtain ⟨⟨hpre,hbefore⟩,hcounted,hpost⟩ := hnumbered
    have hcount : Flood.saidLines (before.toList.map .skipped)=before.elim 0 Skipped.number := by
      cases before <;> simp [Flood.saidLines]
    have hcons (item : Waiting) (items : List Waiting) : Flood.saidLines (item::items) =
        Flood.saidLines [item]+Flood.saidLines items := saidLines_append [item] items
    rw [saidLines_append,saidLines_append,hcons,hcount] at hfew
    have hline : Flood.saidLines [.line text (.line counted)]=1 := rfl
    obtain ⟨hnumber,hnot⟩ := number_withLine before counted
      (by rintro rfl; simp [isNumbered] at hbefore) (by rintro rfl; cases hcounted) (by omega)
    have hskipped : Flood.saidLines [.skipped (withLine before counted)] =
        (withLine before counted).number := rfl
    refine ⟨⟨hpre,?_,fun item hitem => hpost item ((dropWhile_sublist _).subset hitem)⟩,?_⟩
    · cases hwith : withLine before counted <;> first | rfl | exact absurd hwith hnot
    · rw [saidLines_append,saidLines_append,saidLines_append,hcons,hcons (.line _ _),hcount,
      hskipped,
        hnumber,hline,saidLines_dropWhile]
      omega

theorem chain_saidLines (h : Chain Turn s drops t) (hnumbered : ∀ item∈s.1, isNumbered item)
    (hfew : saidLines s.1<2^32) :
    Chain (fun s drops t => Turn s drops t ∧ saidLines t.1=saidLines s.1) s drops t ∧
      (∀ item∈t.1, isNumbered item) ∧ saidLines t.1=saidLines s.1 := by
  induction h with
  | refl => exact ⟨.refl,hnumbered,rfl⟩
  | snoc _ hturn ih =>
    obtain ⟨hchain,hnumbered',hsame⟩ := ih
    obtain ⟨hnumbered'',hsame'⟩ := hturn.saidLines hnumbered' (hsame ▸ hfew)
    exact ⟨hchain.snoc ⟨hturn,hsame'⟩,hnumbered'',hsame'.trans hsame⟩

/-- A growth whose line was handed on before, and the group's last line. -/
def growthAhead (growth line : Text) : List Waiting :=
  [.line growth .growth,.line line (.line .exactly)]

theorem bound_growthAhead {growth line : Text} (hline : line.bytes ≤ maxWaitingBytes)
    (hfull : maxWaitingBytes<growth.bytes+line.bytes) :
    bound (growthAhead growth line) (some 1)=((growthAhead growth line).drop 1,some 0) := by
  have hall : waitingBytes (growthAhead growth line)=growth.bytes+line.bytes := by
    simp [waitingBytes,growthAhead]
  have hleft : waitingBytes [.line line (.line .exactly)]=line.bytes := by simp [waitingBytes]
  have hturn : bound (growthAhead growth line) (some 1) =
      boundLoop 1 [.line line (.line .exactly)] (some 0) := by
    rw [bound,growthAhead,length_cons,boundLoop,← growthAhead,hall,if_neg (by omega)]
    rfl
  rw [hturn,boundLoop,hleft,if_pos hline]
  rfl

end Verbatim.Flood
