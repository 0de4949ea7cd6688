import Verbatim.Flood.OnePass
import Verbatim.Framework.Places

namespace Verbatim.Flood

open Verbatim.Terminal Verbatim.Framework List Dropping Option Nat

def linesOf (items : List Waiting) : List Text :=
  items.filterMap (fun item => match item with
    | .line text (.line _) => some text
    | _ => none)

def isExact : Waiting → Bool
  | .line _ (.line counted) => counted=.exactly
  | .skipped (.count _) => true
  | .skipped _ => false
  | _ => true

def weight : Waiting → Nat
  | .line _ (.line _) => 1
  | .skipped (.count lines) => lines
  | _ => 0

def total (items : List Waiting) : Nat := (items.map weight).sum

def countOf (lines : Nat) : List Waiting := if lines=0 then [] else [.skipped (.count lines)]

/-- A stretch of the items became one count of the lines it stood for; when it held a line, the
first `group` lines come before it. -/
def Trims (group : Nat) (old new : List Waiting) : Prop :=
  ∃ pre dropped rest, old=pre++dropped++rest ∧ new=pre++countOf (total dropped)++rest ∧
    (linesOf dropped≠[] → group≤(linesOf pre).length)

@[simp] theorem linesOf_nil : linesOf []=[] := rfl

@[simp] theorem linesOf_append (a b : List Waiting) : linesOf (a++b)=linesOf a++linesOf b :=
  filterMap_append

@[simp] theorem linesOf_countOf (lines : Nat) : linesOf (countOf lines)=[] := by
  unfold countOf
  split <;> rfl

@[simp] theorem total_nil : total []=0 := rfl

@[simp] theorem total_cons (item : Waiting) (items : List Waiting) :
    total (item::items)=weight item+total items := by
  simp [total]

@[simp] theorem total_append (a b : List Waiting) : total (a++b)=total a+total b := by
  simp [total]

theorem linesOf_cons_line (text : Text) (counted : Counted) (items : List Waiting) :
    linesOf (.line text (.line counted)::items)=text::linesOf items := rfl

variable {item : Waiting}

theorem linesOf_cons_other (h : isLine item=false) (items : List Waiting) :
    linesOf (item::items)=linesOf items := by
  cases item with
  | line text kind =>
    cases kind with
    | line counted => cases h
    | growth => rfl
  | skipped skipped | cut => rfl

theorem waitingLines_eq (items : List Waiting) : waitingLines items=(linesOf items).length := by
  induction items with
  | nil => rfl
  | cons item items ih =>
    rw [waitingLines_cons,ih]
    cases item with
    | line text kind => cases kind <;> rfl
    | skipped skipped | cut => rfl

theorem Trims.refl (group : Nat) (items : List Waiting) : Trims group items items :=
  ⟨items,[],[],by simp,by simp [countOf],fun h => absurd rfl h⟩

theorem Trims.take_lines (h : Trims group old new) :
    (linesOf new).take group=(linesOf old).take group := by
  obtain ⟨pre,dropped,rest,rfl,rfl,hgroup⟩ := h
  by_cases hdropped : linesOf dropped=[]
  · simp [hdropped]
  have hle := hgroup hdropped
  simp only [linesOf_append,linesOf_countOf,append_assoc]
  rw [take_append_of_le_length hle,take_append_of_le_length hle]

theorem Trims.length_lines (h : Trims group old new) :
    (linesOf new).length≤(linesOf old).length := by
  obtain ⟨pre,dropped,rest,rfl,rfl,-⟩ := h
  simp only [linesOf_append,linesOf_countOf,append_nil,length_append]
  omega

theorem addCounts_eq (h : a+b<2^32) : addCounts a b=a+b := by
  unfold addCounts
  omega

/-- The count so far is that of `lines` lines. -/
def Dropping.Tallies (d : Dropping) (lines : Nat) : Prop := d.skipped.getD (.count 0)=.count lines

variable {d : Dropping}

theorem Dropping.Tallies.cases (h : d.Tallies lines) :
    d.skipped=none ∧ lines=0 ∨ d.skipped=some (.count lines) := by
  unfold Dropping.Tallies at h
  cases hskipped : d.skipped with
  | none =>
    rw [hskipped] at h
    exact .inl ⟨rfl,(Skipped.count.inj h).symm⟩
  | some skipped =>
    rw [hskipped] at h
    exact .inr (congrArg some h)

theorem Dropping.Tallies.countLeft (h : d.Tallies lines) : countLeft d.skipped=countOf lines := by
  rcases h.cases with ⟨hskipped,rfl⟩ | hskipped
  · rw [hskipped]
    rfl
  · simp [hskipped,Flood.countLeft,countOf]

theorem Dropping.Tallies.drop (h : d.Tallies lines) (hexact : isExact item)
    (hfew : lines+weight item<2^32) : (d.drop item).Tallies (lines+weight item) := by
  match item with
  | .line _ (.line counted) =>
    obtain rfl : counted=.exactly := by simpa [isExact] using hexact
    simp only [Dropping.Tallies,Dropping.drop,getD_some,weight]
    rcases h.cases with ⟨hskipped,rfl⟩ | hskipped <;> rw [hskipped]
    · rfl
    · simpa [withLine,Skipped.plus] using addCounts_eq (by simpa [weight] using hfew)
  | .line _ .growth | .cut => exact h
  | .skipped (.count lines) =>
    simp only [Dropping.Tallies,Dropping.drop,getD_some,weight]
    rcases h.cases with ⟨hskipped,rfl⟩ | hskipped <;> rw [hskipped]
    · simp
    · simpa [Skipped.plus] using addCounts_eq (by simpa [weight] using hfew)

theorem Dropping.left_drop (d : Dropping) (item : Waiting) :
    (d.drop item).left=d.left-(linesOf [item]).length := by
  match item with
  | .line _ (.line _) | .line _ .growth | .skipped _ | .cut => rfl

theorem Dropping.left_pos_of_line {text : Text} {counted : Counted}
    (h : d.drops (.line text (.line counted))) : 0<d.left := by
  simpa [drops,belongs] using h

theorem Dropping.left_of_kept (h : d.drops item=false) : d.left=0 := by
  unfold drops at h
  split at h
  · exact absurd h (by simp)
  split at h
  · simp only [Bool.or_eq_false_iff,decide_eq_false_iff_not] at h
    omega
  · simp only [decide_eq_false_iff_not] at h
    omega

variable {items : List Waiting}

/-- What is dropped from the front is counted, and holds as many lines as were to drop, unless
everything was dropped. -/
theorem Dropping.run_spec (h : d.Tallies lines)
    (hexact : ∀ item∈items, isExact item) (hfew : lines+total items<2^32) :
    ∃ dropped, items=dropped++(d.run items).2 ∧
      (d.run items).1.Tallies (lines+total dropped) ∧ (linesOf dropped).length≤d.left ∧
      ((d.run items).2=[] ∨ (linesOf dropped).length=d.left) := by
  induction items generalizing d lines with
  | nil => exact ⟨[],rfl,h,zero_le _,Or.inl rfl⟩
  | cons item rest ih =>
    rw [total_cons] at hfew
    cases hdrops : d.drops item with
    | false =>
      have hrun : d.run (item::rest)=(d,item::rest) := by simp [run,hdrops]
      rw [hrun]
      exact ⟨[],rfl,h,zero_le _,Or.inr (left_of_kept hdrops).symm⟩
    | true =>
      have hrun : d.run (item::rest)=(d.drop item).run rest := by
        simp [run,hdrops]
      have hitem := h.drop (hexact item mem_cons_self) (by omega)
      obtain ⟨dropped,hrest,htallies,hleft,hends⟩ :=
        ih hitem (fun i hi => hexact i (mem_cons_of_mem _ hi)) (by omega)
      have hcount : (linesOf [item]).length≤d.left := by
        cases item with
        | line text kind =>
          cases kind with
          | line counted => exact left_pos_of_line hdrops
          | growth => exact zero_le _
        | skipped | cut => exact zero_le _
      rw [left_drop] at hleft hends
      have hlines : (linesOf (item::dropped)).length =
          (linesOf [item]).length+(linesOf dropped).length := by
        rw [← singleton_append,linesOf_append,length_append]
      refine ⟨item::dropped,?_,?_,?_,?_⟩
      · rw [hrun,cons_append,← hrest]
      · rw [hrun,total_cons,← add_assoc]
        exact htallies
      · omega
      · rw [hrun]
        exact hends.imp id fun heq => by omega

def Counts (items : List Waiting) : Prop := ∀ item∈items, ∀ skipped, item≠.skipped skipped

theorem pushAdded_eq (h : Counts items) (waiting : List Waiting) :
    items.foldl pushAdded waiting=waiting++items := by
  induction items generalizing waiting with
  | nil => simp
  | cons item items ih =>
    have hpush : pushAdded waiting item=waiting++[item] := by
      unfold pushAdded
      split
      next skipped => exact absurd rfl (h _ mem_cons_self skipped)
      · rfl
    rw [foldl_cons,hpush,ih fun i hi => h i (mem_cons_of_mem _ hi)]
    simp

/-- What is kept of items past the lines to drop: the items dropped are one count, hold no more
lines than are to go, and leave no more than are to stay. -/
theorem Dropping.kept_spec (left : Nat)
    (hexact : ∀ item∈items, isExact item) (hfew : total items<2^32) :
    ∃ dropped rest, items=dropped++rest ∧
      kept ⟨left,none,false⟩ items=countOf (total dropped)++rest ∧
      (linesOf dropped).length≤left ∧ (rest=[] ∨ (linesOf dropped).length=left) := by
  obtain ⟨dropped,hitems,htallies,hleft,hends⟩ := run_spec
    (show Dropping.Tallies ⟨left,none,false⟩ 0 from rfl) hexact (by simpa using hfew)
  rw [zero_add] at htallies
  exact ⟨dropped,_,hitems,by rw [kept,htallies.countLeft],hleft,hends⟩

variable {waiting : List Waiting}

theorem queue_trims {graphemes : Graphemes} {items : List SaidItem} (full last group : Nat)
    (hexact : ∀ item∈waiting++added graphemes items .exactly, isExact item)
    (hcounts : Counts (added graphemes items .exactly))
    (hfew : total (waiting++added graphemes items .exactly)<2^32) :
    Trims group (waiting++added graphemes items .exactly)
      (queue graphemes full last (some group) waiting items) := by
  rw [queue_eq graphemes full last (some group) waiting items rfl rfl rfl,pushAdded_eq hcounts]
  generalize waiting++added graphemes items .exactly=all at hexact hfew ⊢
  generalize hstart : backlogStart all ((some group).getD 0)=start
  split
  · exact Trims.refl _ _
  have hall := take_append_drop start all
  rw [← hall,total_append] at hfew
  have hbehind : total (all.drop start)<2^32 := by omega
  obtain ⟨dropped,rest,hitems,hkept,hleft,-⟩ := kept_spec
    (waitingLines (all.drop start)-max full last)
    (fun item hitem => hexact item (mem_of_mem_drop hitem)) hbehind
  refine ⟨all.take start,dropped,rest,?_,?_,fun hlines => ?_⟩
  · rw [append_assoc,← hitems,hall]
  · rw [hkept,append_assoc]
  have hpast := waitingLines_backlog all group
  have hsum := congrArg waitingLines hall
  rw [waitingLines_append] at hsum
  rw [← waitingLines_eq]
  rw [getD_some] at hstart
  rw [hstart] at hpast
  omega

/-- Skipping all but the newest lines trims, drops no more lines than are too many, and keeps no
more. -/
theorem skipAllBut_trims (keep : Nat) (hexact : ∀ item∈waiting, isExact item)
    (hfew : total waiting<2^32) :
    ∃ dropped rest, waiting=dropped++rest ∧
      skipAllBut waiting 0 keep=countOf (total dropped)++rest ∧
      (linesOf dropped).length≤(linesOf waiting).length-keep ∧
      (linesOf rest).length≤keep := by
  obtain ⟨dropped,rest,hitems,hkept,hleft,hends⟩ := kept_spec
    (waitingLines waiting-keep) hexact hfew
  rw [waitingLines_eq] at hleft hends
  refine ⟨dropped,rest,hitems,hkept,hleft,?_⟩
  have hlines := congrArg (fun items => (linesOf items).length) hitems
  simp only [linesOf_append,length_append] at hlines
  rcases hends with rfl | hdropped
  · exact zero_le _
  · omega

theorem total_of_belongs (h : ∀ item∈items, belongs item) : total items=0 := by
  induction items with
  | nil => rfl
  | cons item items ih =>
    have hitem := h item mem_cons_self
    rw [total_cons,ih fun i hi => h i (mem_cons_of_mem _ hi),add_zero]
    unfold belongs at hitem
    split at hitem
    · rfl
    · rfl
    · exact absurd hitem (by simp)

theorem countOf_pos (h : lines≠0) : countOf lines=[.skipped (.count lines)] := if_neg h

theorem joinCount_trims {index : Nat} (hitem : waiting[index]?=some item)
    (htext : hasText item) (hexact : ∀ item∈waiting, isExact item) (hfew : total waiting<2^32) :
    Trims 0 waiting (joinCount waiting index) := by
  have hsplit := split_of_getElem? hitem
  unfold joinCount
  rw [hitem]
  generalize waiting.take index=pre at hsplit ⊢
  generalize waiting.drop (index+1)=post at hsplit ⊢
  subst hsplit
  match item,htext with
  | .line text .growth,_ =>
    exact ⟨pre,[.line text .growth],post,by simp,by simp [countOf,weight],fun _ => zero_le _⟩
  | .line text (.line counted),_ =>
    obtain rfl : counted=.exactly := by simpa [isExact] using hexact (.line text (.line counted))
    have hbelongs : total (post.takeWhile belongs)=0 :=
      total_of_belongs fun _ hi => mem_takeWhile_imp hi
    simp only
    split
    next count hlast =>
      -- the count before it takes the line in
      obtain ⟨pre,rfl⟩ := getLast?_eq_some_iff.mp hlast
      have hcount := hexact (.skipped count) (by simp)
      match count,hcount with
      | .count n,_ =>
        refine ⟨pre,.skipped (.count n)::.line text (.line .exactly) ::
          post.takeWhile belongs,post.dropWhile belongs,?_,?_,fun _ => zero_le _⟩
        · simp
        have hn : n+1<2^32 := by
          simp only [total_append,total_cons,total_nil,weight] at hfew
          omega
        rw [total_cons,total_cons,hbelongs,countOf_pos (by simp [weight])]
        simp [withLine,Skipped.plus,weight,addCounts_eq hn]
    · refine ⟨pre,.line text (.line .exactly)::post.takeWhile belongs,post.dropWhile belongs,
        ?_,?_,fun _ => zero_le _⟩
      · simp
      · rw [total_cons,hbelongs,countOf_pos (by simp [weight])]
        simp [withLine,weight]

theorem Trims.exact (h : Trims group old new) (hexact : ∀ item∈old, isExact item) :
    ∀ item∈new, isExact item := by
  obtain ⟨pre,dropped,rest,rfl,rfl,-⟩ := h
  intro item hitem
  rcases mem_append.mp hitem with hitem | hitem
  · rcases mem_append.mp hitem with hitem | hitem
    · exact hexact item (by simp [hitem])
    unfold countOf at hitem
    split at hitem
    · exact absurd hitem not_mem_nil
    · rw [mem_singleton.mp hitem]
      rfl
  · exact hexact item (by simp [hitem])

theorem Trims.total_eq (h : Trims group old new) : total new=total old := by
  obtain ⟨pre,dropped,rest,rfl,rfl,-⟩ := h
  have hcount : total (countOf (total dropped))=total dropped := by
    by_cases hzero : total dropped=0
    · simp [countOf,hzero]
    · simp [countOf_pos hzero,weight]
  simp only [total_append,hcount]

theorem oldestText_spec {start index : Nat} (h : oldestText waiting start=some index) :
    ∃ item, waiting[index]?=some item ∧ hasText item := by
  unfold oldestText at h
  split at h
  next found hfound =>
    obtain ⟨hlt,htext,-⟩ := findIdx?_eq_some_iff_getElem.mp hfound
    obtain rfl : start+found=index := some.inj h
    rw [length_drop] at hlt
    have hget : (waiting.drop start)[found]=waiting[start+found] := getElem_drop ..
    rw [hget] at htext
    exact ⟨_,getElem?_eq_getElem (by omega),htext⟩
  · obtain ⟨hlt,htext,-⟩ := findIdx?_eq_some_iff_getElem.mp h
    rw [length_take] at hlt
    rw [getElem_take] at htext
    exact ⟨_,getElem?_eq_getElem (by omega),htext⟩

theorem boundLoop_keeps {P : List Waiting → Prop} (hP : ∀ old new, P old → Trims 0 old new → P new)
    (fuel : Nat) (group : Option Nat) (hexact : ∀ item∈waiting, isExact item)
    (hfew : total waiting<2^32) (h : P waiting) : P (boundLoop fuel waiting group).1 := by
  induction fuel generalizing waiting group with
  | zero => exact h
  | succ fuel ih =>
    unfold boundLoop
    split
    · exact h
    simp only
    split
    · exact h
    next index hindex =>
      obtain ⟨item,hitem,htext⟩ := oldestText_spec hindex
      have htrims := joinCount_trims hitem htext hexact hfew
      exact ih _ (htrims.exact hexact) (htrims.total_eq ▸ hfew) (hP _ _ h htrims)

theorem joinCount_texts {index : Nat} (hitem : waiting[index]?=some item) (htext : hasText item) :
    (joinCount waiting index).countP hasText<waiting.countP hasText := by
  have hsplit := split_of_getElem? hitem
  have hold : waiting.countP hasText=(waiting.take index).countP hasText+1 +
      (waiting.drop (index+1)).countP hasText := by
    conv_lhs => rw [hsplit]
    rw [countP_append,countP_cons_of_pos htext]
    omega
  have hrest : ((waiting.drop (index+1)).dropWhile belongs).countP hasText ≤
      (waiting.drop (index+1)).countP hasText :=
    (dropWhile_sublist belongs).countP_le
  have hpre : (waiting.take index).dropLast.countP hasText≤(waiting.take index).countP hasText :=
    (dropLast_sublist _).countP_le
  have hcount (skipped : Skipped) (rest : List Waiting) :
      (Waiting.skipped skipped::rest).countP hasText=rest.countP hasText :=
    countP_cons_of_neg (by simp [hasText])
  unfold joinCount
  split
  · split
    · rw [countP_append,hcount]
      omega
    · rw [countP_append,hcount]
      omega
  · rw [countP_append]
    omega

theorem waitingBytes_of_no_text (h : waiting.countP hasText=0) : waitingBytes waiting=0 := by
  induction waiting with
  | nil => rfl
  | cons item waiting ih =>
    cases htext : hasText item with
    | true =>
      rw [countP_cons_of_pos htext] at h
      omega
    | false =>
      rw [countP_cons_of_neg (by simp [htext])] at h
      have hzero := ih h
      match item,htext with
      | .skipped _,_ => simpa [waitingBytes] using hzero
      | .cut,_ => simpa [waitingBytes] using hzero

theorem no_text_of_oldestText {start : Nat} (h : oldestText waiting start=none) :
    waiting.countP hasText=0 := by
  unfold oldestText at h
  split at h
  · exact absurd h (by simp)
  next hdrop =>
    have htake := findIdx?_eq_none_iff.mp h
    have hdrop := findIdx?_eq_none_iff.mp hdrop
    rw [countP_eq_zero]
    intro item hitem
    rw [← take_append_drop start waiting] at hitem
    rcases mem_append.mp hitem with hmem | hmem
    · simp [htake item hmem]
    · simp [hdrop item hmem]

theorem bound_bytes (waiting : List Waiting) (group : Option Nat) :
    waitingBytes (bound waiting group).1 ≤ maxWaitingBytes := by
  have hloop (fuel : Nat) : ∀ (waiting : List Waiting) (group : Option Nat),
      waiting.countP hasText≤fuel →
        waitingBytes (boundLoop fuel waiting group).1 ≤ maxWaitingBytes := by
    induction fuel with
    | zero =>
      intro waiting group hfuel
      have hzero := waitingBytes_of_no_text (le_zero.mp hfuel)
      rw [boundLoop,hzero]
      exact zero_le _
    | succ fuel ih =>
      intro waiting group hfuel
      unfold boundLoop
      split
      · assumption
      simp only
      split
      next hnone =>
        rw [waitingBytes_of_no_text (no_text_of_oldestText hnone)]
        exact zero_le _
      next index hindex =>
        obtain ⟨item,hitem,htext⟩ := oldestText_spec hindex
        have hless := joinCount_texts hitem htext
        exact ih _ _ (by omega)
  exact hloop _ _ _ countP_le_length

theorem bound_of_within (h : waitingBytes waiting ≤ maxWaitingBytes) (group : Option Nat) :
    bound waiting group=(waiting,group) := by
  unfold bound
  cases waiting with
  | nil => rfl
  | cons item waiting => simp [boundLoop,h]

end Verbatim.Flood
