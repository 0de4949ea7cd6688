import Verbatim.Terminal.Bytes

namespace Verbatim.Terminal

open List Text

/-- The byte ranges of consecutive pieces of a text, the first from `start` on. -/
def spans : Nat → List Text → List (Nat × Nat)
  | _,[] => []
  | start,piece::pieces => (start,start+piece.bytes)::spans (start+piece.bytes) pieces

def getIn (text : Text) (range : Nat × Nat) : Option Text :=
  if range.1≤range.2 then (dropBytes text range.1).bind (takeBytes · (range.2-range.1)) else none

/-- How a line's text changed: the bytes shared at its start and end by whole graphemes, and,
compared without spaces, whether it gained text other than at its end and whether it only lost
text. -/
structure Difference where
  old : Text
  new : Text
  start : Nat
  stop : Nat
  gained : Bool
  lost : Bool
  deriving DecidableEq

namespace Difference

def of (cut : Text → List Text) (old new : Text) : Difference :=
  let (oldGraphemes,newGraphemes) := (spans 0 (cut old),spans 0 (cut new))
  let same := fun pair : (Nat × Nat) × (Nat × Nat) => decide (getIn old pair.1=getIn new pair.2)
  let shared := ((oldGraphemes.zip newGraphemes).takeWhile same).length
  let longest := min oldGraphemes.length newGraphemes.length-shared
  let endGraphemes := (((oldGraphemes.reverse.zip newGraphemes.reverse).take longest).takeWhile
    same).length
  { old
    new
    start := (newGraphemes.take shared).getLast?.elim 0 (·.2)
    stop := (newGraphemes.drop (newGraphemes.length-endGraphemes)).head?.elim 0
      (fun first => new.bytes-first.1)
    gained := (squeezed old).bytes<(squeezed new).bytes ∧ ¬squeezed old <+: squeezed new ∧
      squeezed old <+ squeezed new
    lost := lostText old new}

def removed (d : Difference) : Text := textIn d.old d.start (d.old.bytes-d.stop)

def inserted (d : Difference) : Text := textIn d.new d.start (d.new.bytes-d.stop)

end Difference

section Shared

variable {α : Type} [DecidableEq α]

/-- How many items two lists share at their start. -/
def sharedStart (xs ys : List α) : Nat := ((xs.zip ys).takeWhile fun pair => pair.1=pair.2).length

theorem sharedStart_spec (xs ys : List α) : ∃ ps os ns, xs=ps++os ∧ ys=ps++ns ∧
    ps.length=sharedStart xs ys ∧ ∀ qs, qs <+: xs → qs <+: ys → qs.length≤ps.length := by
  induction xs generalizing ys with
  | nil => exact ⟨[],[],ys,rfl,rfl,rfl,fun qs h _ => by simpa using h.length_le⟩
  | cons x xs ih =>
    cases ys with
    | nil => exact ⟨[],x::xs,[],rfl,rfl,rfl,fun qs _ h => by simpa using h.length_le⟩
    | cons y ys =>
      by_cases hxy : x=y
      · subst hxy
        obtain ⟨ps,os,ns,rfl,rfl,hlength,hmost⟩ := ih ys
        refine ⟨x::ps,os,ns,rfl,rfl,by simpa [sharedStart] using hlength,fun qs hx hy => ?_⟩
        cases qs with
        | nil => simp
        | cons q qs =>
          rw [cons_prefix_cons] at hx hy
          simpa using hmost qs hx.2 hy.2
      · refine ⟨[],x::xs,y::ys,rfl,rfl,by simp [sharedStart,hxy],fun qs hx hy => ?_⟩
        cases qs with
        | nil => simp
        | cons q qs =>
          rw [cons_prefix_cons] at hx hy
          exact absurd (hx.1.symm.trans hy.1) hxy

end Shared

theorem getIn_between (p x s : Text) :
    getIn (p++x++s) (p.bytes,bytes (p++x++s)-s.bytes)=some x ∧
      textIn (p++x++s) p.bytes (bytes (p++x++s)-s.bytes)=x := by
  have hstop : bytes (p++x++s)-s.bytes=p.bytes+x.bytes := by
    rw [bytes_append,Nat.add_sub_cancel,bytes_append]
  rw [hstop,textIn_append]
  simp [getIn,dropBytes_append,takeBytes_append]

theorem map_getIn_spans (before : Text) (pieces : List Text) (after : Text) :
    (spans before.bytes pieces).map (getIn (before++pieces.flatten++after))=pieces.map some := by
  induction pieces generalizing before with
  | nil => rfl
  | cons piece pieces ih =>
    have hrest := ih (before++piece)
    simp only [bytes_append,append_assoc] at hrest
    simp [spans,getIn,dropBytes_append,takeBytes_append,hrest]

theorem map_getIn_cut {cut : Text → List Text} {text : Text} (h : (cut text).flatten=text) :
    (spans 0 (cut text)).map (getIn text)=(cut text).map some := by
  simpa [h] using map_getIn_spans [] (cut text) []

/-- Ranges are compared as the pieces they hold. -/
theorem length_takeWhile_getIn {old new : Text} {as bs : List (Nat × Nat)} {xs ys : List Text}
    (hold : as.map (getIn old)=xs.map some) (hnew : bs.map (getIn new)=ys.map some) :
    ((as.zip bs).takeWhile fun pair => getIn old pair.1=getIn new pair.2).length =
      sharedStart xs ys := by
  induction xs generalizing as bs ys with
  | nil => simp_all [sharedStart]
  | cons x xs ih =>
    obtain ⟨a,as,rfl,ha,hold⟩ := map_eq_cons_iff.mp hold
    cases ys with
    | nil => simp_all [sharedStart]
    | cons y ys =>
      obtain ⟨b,bs,rfl,hb,hnew⟩ := map_eq_cons_iff.mp hnew
      have hrest := ih hold hnew
      by_cases hxy : x=y
      · simpa [sharedStart,ha,hb,hxy] using hrest
      · simp [sharedStart,ha,hb,hxy]

section Spans

variable (start : Nat) (ps qs : List Text)

theorem length_spans : (spans start ps).length=ps.length := by
  induction ps generalizing start with
  | nil => rfl
  | cons p ps ih => simp [spans,ih]

theorem spans_append : spans start (ps++qs)=spans start ps++spans (start+bytes ps.flatten) qs := by
  induction ps generalizing start with
  | nil => rfl
  | cons p ps ih => simp [spans,ih,Nat.add_assoc]

theorem getLast_spans : (spans start ps).getLast?.elim start (·.2)=start+bytes ps.flatten := by
  induction ps generalizing start with
  | nil => rfl
  | cons p ps ih =>
    have hrest := ih (start+p.bytes)
    rw [spans,getLast?_cons,flatten_cons,bytes_append,← Nat.add_assoc,← hrest]
    cases (spans (start+p.bytes) ps).getLast? <;> rfl

theorem head_spans : ((spans 0 (ps++qs)).drop ((spans 0 (ps++qs)).length-qs.length)).head?.elim 0
      (fun first => bytes (ps++qs).flatten-first.1)=bytes qs.flatten := by
  have hlength : (spans 0 (ps++qs)).length-qs.length=(spans 0 ps).length := by
    simp [length_spans]
  rw [hlength,spans_append,drop_left]
  cases qs with
  | nil => rfl
  | cons q qs => simp [spans]

end Spans

theorem map_getIn_end {text : Text} {as : List (Nat × Nat)} {ps qs : List Text} {m : Nat}
    (h : as.map (getIn text)=(ps++qs).map some) (hm : m≤qs.length) :
    (as.reverse.take m).map (getIn text)=(qs.reverse.take m).map some := by
  rw [map_take,map_reverse,h,← map_reverse,← map_take,reverse_append,
    take_append_of_le_length (by simpa using hm)]

/-- The shared end is counted over what follows the shared start in both texts. -/
theorem length_takeWhile_getIn_reverse {old new : Text} {as bs : List (Nat × Nat)}
    {ps os ns : List Text} (hold : as.map (getIn old)=(ps++os).map some)
    (hnew : bs.map (getIn new)=(ps++ns).map some) :
    (((as.reverse.zip bs.reverse).take (min os.length ns.length)).takeWhile
      fun pair => getIn old pair.1=getIn new pair.2).length=sharedStart os.reverse ns.reverse := by
  have hzip : os.reverse.zip ns.reverse=_ := zip_eq_zip_take_min
  rw [zip,take_zipWith,← zip,length_takeWhile_getIn (map_getIn_end hold (Nat.min_le_left _ _))
    (map_getIn_end hnew (Nat.min_le_right _ _)),sharedStart,sharedStart,hzip,length_reverse,
    length_reverse]

namespace Difference

section Splice

variable (cut : Text → List Text) (hcut : ∀ text, (cut text).flatten=text) (old new : Text)
include hcut

/-- The shared ends, as lists of graphemes. -/
theorem of_ends :
    ∃ ps os ns ss, cut old=ps++(os++ss) ∧ cut new=ps++(ns++ss) ∧
      (of cut old new).start=bytes ps.flatten ∧ (of cut old new).stop=bytes ss.flatten ∧
      (∀ qs, qs <+: cut old → qs <+: cut new → qs <+: ps) ∧
      ∀ qs, qs <:+ os++ss → qs <:+ ns++ss → qs <:+ ss := by
  obtain ⟨ps,os,ns,hold,hnew,hps,hmost⟩ := sharedStart_spec (cut old) (cut new)
  obtain ⟨rs,os',ns',hos,hns,hrs,hlast⟩ := sharedStart_spec os.reverse ns.reverse
  have hspansOld := map_getIn_cut (hcut old)
  have hspansNew := map_getIn_cut (hcut new)
  have hshared := length_takeWhile_getIn hspansOld hspansNew
  rw [← hps] at hshared
  have hend := length_takeWhile_getIn_reverse (hspansOld.trans (by rw [hold]))
    (hspansNew.trans (by rw [hnew]))
  replace hend := hend.trans (hrs.symm.trans length_reverse.symm)
  have hos : os=os'.reverse++rs.reverse := by rw [← reverse_append,← hos,reverse_reverse]
  have hns : ns=ns'.reverse++rs.reverse := by rw [← reverse_append,← hns,reverse_reverse]
  refine ⟨ps,os'.reverse,ns'.reverse,rs.reverse,hos ▸ hold,hns ▸ hnew,?_,?_,?_,?_⟩
  · rw [of,hshared,hnew,spans_append,take_left' (length_spans ..),getLast_spans,Nat.zero_add]
  · have hlongest : min (spans 0 (cut old)).length (spans 0 (cut new)).length-ps.length =
        min os.length ns.length := by
      rw [length_spans,length_spans,hold,hnew,length_append,length_append]
      omega
    have hbytes : new.bytes=bytes (ps++ns'.reverse++rs.reverse).flatten := by
      rw [append_assoc,← hns,← hnew,hcut new]
    rw [of,hshared,hlongest,hend,hbytes,hnew,hns,← append_assoc,head_spans]
  · intro qs hx hy
    exact prefix_of_prefix_length_le hx (hold ▸ prefix_append ..) (hmost qs hx hy)
  · intro qs hx hy
    rw [← hos] at hx
    rw [← hns] at hy
    have hle := hlast qs.reverse (by simpa using hx) (by simpa using hy)
    exact suffix_of_suffix_length_le hx (hos ▸ suffix_append ..) (by simpa using hle)

/-- The difference is a splice at the whole graphemes the texts share, all that they share. -/
theorem splices {d : Difference} (hd : of cut old new=d) :
    ∃ ps os ns ss, cut old=ps++(os++ss) ∧ cut new=ps++(ns++ss) ∧
      old=ps.flatten++d.removed++ss.flatten ∧ new=ps.flatten++d.inserted++ss.flatten ∧
      d.start=bytes ps.flatten ∧ d.stop=bytes ss.flatten ∧
      getIn old (d.start,old.bytes-d.stop)=some d.removed ∧
      getIn new (d.start,new.bytes-d.stop)=some d.inserted ∧
      (∀ qs, qs <+: cut old → qs <+: cut new → qs <+: ps) ∧
      (∀ qs, qs <:+ os++ss → qs <:+ ns++ss → qs <:+ ss) ∧
      (old=new ↔ d.removed=[] ∧ d.inserted=[]) := by
  obtain ⟨ps,os,ns,ss,hold,hnew,hstart,hstop,hmost,hlast⟩ := of_ends cut hcut old new
  rw [hd] at hstart hstop
  have holdText : old=ps.flatten++os.flatten++ss.flatten := by
    rw [← hcut old,hold,flatten_append,flatten_append,append_assoc]
  have hnewText : new=ps.flatten++ns.flatten++ss.flatten := by
    rw [← hcut new,hnew,flatten_append,flatten_append,append_assoc]
  have hremoved := getIn_between ps.flatten os.flatten ss.flatten
  have hinserted := getIn_between ps.flatten ns.flatten ss.flatten
  rw [← holdText,← hstart,← hstop] at hremoved
  rw [← hnewText,← hstart,← hstop] at hinserted
  have hr : d.removed=os.flatten := hd ▸ hremoved.2
  have hi : d.inserted=ns.flatten := hd ▸ hinserted.2
  rw [hr,hi]
  refine ⟨ps,os,ns,ss,hold,hnew,holdText,hnewText,hstart,hstop,hremoved.1,hinserted.1,hmost,hlast,
    fun h => ?_,fun h => by rw [holdText,hnewText,h.1,h.2]⟩
  -- equal texts are cut alike, so the shared start is all of them
  have hall := (hmost (cut old) (prefix_refl _) (h ▸ prefix_refl _)).length_le
  have hlength := congrArg length (hnew.symm.trans (h ▸ hold))
  rw [hold] at hall
  simp only [length_append] at hall hlength
  rw [length_eq_zero_iff.mp (show os.length=0 by omega),
    length_eq_zero_iff.mp (show ns.length=0 by omega)]
  exact ⟨rfl,rfl⟩

end Splice

theorem flatten_letters (text : Text) : (text.map ([·])).flatten=text := by
  induction text <;> simp_all

theorem splices_cart : ¬((of (·.map ([·])) "cat".toList "cart".toList).removed=[] ∧
    (of (·.map ([·])) "cat".toList "cart".toList).inserted=[]) := by
  intro h
  obtain ⟨_,_,_,_,_,_,_,_,_,_,_,_,_,_,hsame⟩ :=
    splices (·.map ([·])) flatten_letters "cat".toList "cart".toList rfl
  exact absurd (hsame.mpr h) (by decide)

/-- Letters that are one grapheme of the old text and two of the new are not shared. -/
theorem joined_letters_not_shared : ∃ cut : Text → List Text,
    (∀ text, (cut text).flatten=text ∧ [] ∉ cut text) ∧ ∃ old new qs rs,
      qs <+: cut old ∧ rs <+: cut new ∧ qs.flatten=rs.flatten ∧
      (of cut old new).start<bytes qs.flatten := by
  refine ⟨fun text => if text="ab".toList then [text] else text.map ([·]),fun text => ?_,
    "ab".toList,"abc".toList,["ab".toList],[['a'],['b']],by decide,by decide,by decide,by decide⟩
  by_cases h : text="ab".toList
  · simp [h]
  · simp only [if_neg h]
    simp [flatten_letters]

end Difference

end Verbatim.Terminal
