import Verbatim.Process.FramePuts

namespace Verbatim.Process

open Framework List PortReader Option Nat

def HeaderBegun (header : Bytes) : Prop :=
  position headerEnd header=none ∧ header.length ≤ maxHeaderBytes

theorem headerBegun_nil : HeaderBegun [] := ⟨rfl,zero_le _⟩

theorem scanHeader_cases {header : Bytes} (h : HeaderBegun header) (available : Bytes) :
    (∃ taken≤available.length,
      scanHeader header available=(header++available.take taken,taken,true) ∧
      position headerEnd (header++available.take taken) =
        some (header.length+taken-headerEnd.length) ∧
      header.length+taken ≤ maxHeaderBytes+1) ∨
    (∃ taken≤available.length,
      scanHeader header available=(header++available.take taken,taken,false) ∧
      position headerEnd (header++available.take taken)=none ∧
      header.length+taken=maxHeaderBytes+1) ∨
    (scanHeader header available=(header++available,available.length,false) ∧
      HeaderBegun (header++available)) := by
  induction available generalizing header with
  | nil => exact .inr (.inr ⟨by simp [scanHeader],by simpa using h⟩)
  | cons byte available ih =>
    have next := position_snoc h.1 byte
    have size : (header++[byte]).length=header.length+1 := by simp
    simp only [scanHeader]
    split
    · next ends =>
      rw [if_pos ends] at next
      exact .inl ⟨1,by simp,by simp,by simpa using next,Nat.add_le_add_right h.2 1⟩
    next ends =>
    rw [if_neg ends] at next
    split
    · next long =>
      have bound := h.2
      exact .inr (.inl ⟨1,by simp,by simp,by simpa using next,by omega⟩)
    next long =>
    have more : ∀ taken,header++(byte::available).take (taken+1) =
        header++[byte]++available.take taken := by simp
    rcases ih ⟨next,Nat.not_lt.mp long⟩ with
      ⟨taken,within,scan,found,short⟩ | ⟨taken,within,scan,absent,full⟩ | ⟨scan,begun⟩
    · refine .inl ⟨taken+1,by simpa using within,by rw [scan,more],?_,by omega⟩
      rw [more,found,size]
      congr 1
      omega
    · exact .inr (.inl ⟨taken+1,by simpa using within,by rw [scan,more],
        by rw [more,absent],by omega⟩)
    · exact .inr (.inr ⟨by simp [scan],by simpa using begun⟩)

/-- What reading a header of a stream comes to: its lengths with the rest left, refused as too
long, or the stream's end. -/
inductive HeaderRead (stream : Bytes) : Except FrameError (Option Lengths) × Buffers → Prop
  | parsed (place : Nat) (rest : Buffers) (found : position headerEnd stream=some place)
      (short : place+headerEnd.length ≤ maxHeaderBytes+1)
      (left : rest.flatten=stream.drop (place+headerEnd.length))
      (split : ∀ data∈rest,data≠[]) :
      HeaderRead stream ((parseHeader (stream.take (place+headerEnd.length))).map some,rest)
  | tooLong (rest : Buffers) (full : maxHeaderBytes<stream.length)
      (absent : position headerEnd (stream.take (maxHeaderBytes+1))=none) :
      HeaderRead stream (.error .headerTooLong,rest)
  | ended (begun : HeaderBegun stream) :
      HeaderRead stream (if stream=[] then .ok none else .error .endInHeader,[])

theorem consume_flatten (taken : Nat) (available : Bytes) (rest : Buffers) :
    (consume taken (available::rest)).flatten=available.drop taken++rest.flatten := by
  simp only [consume]
  split
  next all => simp [drop_of_length_le all]
  · rfl

variable {buffers : Buffers}

theorem consume_split (taken : Nat) (h : ∀ data∈buffers,data≠[]) :
    ∀ data∈consume taken buffers,data≠[] := by
  cases buffers with
  | nil => exact h
  | cons available rest =>
    intro data inside
    simp only [consume] at inside
    split at inside
    · exact h data (mem_cons_of_mem _ inside)
    next some_left =>
    rcases mem_cons.mp inside with rfl | later
    · exact fun empty => some_left (drop_eq_nil_iff.mp empty)
    · exact h data (mem_cons_of_mem _ later)

theorem readHeader_read (split : ∀ data∈buffers,data≠[]) {header : Bytes} (h : HeaderBegun header) :
    HeaderRead (header++buffers.flatten) (readHeader header buffers) := by
  induction buffers generalizing header with
  | nil =>
    have ended := HeaderRead.ended h
    simpa [readHeader] using ended
  | cons available rest ih =>
    cases available with
    | nil => exact absurd rfl (split [] (by simp))
    | cons byte available =>
      simp only [readHeader,flatten_cons]
      generalize byte::available=buffer at split ⊢
      rcases scanHeader_cases h buffer with
        ⟨taken,within,scan,found,short⟩ | ⟨taken,within,scan,absent,full⟩ | ⟨scan,begun⟩
      · -- the header ends in this buffer
        have fits := (position_eq_some found).1
        simp only [length_append,length_take,min_eq_left within] at fits
        have stop : header.length+taken-headerEnd.length+headerEnd.length =
            header.length+taken := by omega
        have whole : header++(buffer++rest.flatten) =
            header++buffer.take taken++(buffer.drop taken++rest.flatten) := by
          rw [append_assoc,← append_assoc (buffer.take taken),take_append_drop]
        have length : (header++buffer.take taken).length=header.length+taken := by
          simp [within]
        have read : HeaderRead (header++(buffer++rest.flatten)) _ :=
          .parsed (header.length+taken-headerEnd.length) (consume taken (buffer::rest))
            (by rw [whole]; exact position_append found _) (by omega)
            (by rw [stop,whole,drop_left' length,consume_flatten])
            (consume_split taken split)
        rw [stop,whole,take_left' length] at read
        rw [scan,whole]
        simpa using read
      · have long : maxHeaderBytes<(header++buffer.take taken).length := by
          simp only [length_append,length_take,min_eq_left within]; omega
        have window : (header++(buffer++rest.flatten)).take (maxHeaderBytes+1) =
            header++buffer.take taken := by
          rw [← full,take_length_add_append,take_append_of_le_length within]
        simp only [scan,Bool.false_eq_true,if_false,if_pos long]
        refine HeaderRead.tooLong _ ?_ (by rw [window,absent])
        simp only [length_append]
        omega
      · have short := not_lt.mpr begun.2
        have read := ih (fun data inside => split data (mem_cons_of_mem _ inside)) begun
        rw [append_assoc] at read
        simpa only [scan,Bool.false_eq_true,if_false,if_neg short] using read

theorem readExact_enough (split : ∀ data∈buffers,data≠[]) {length : Nat}
    (h : length≤buffers.flatten.length) :
    ∃ rest,readExact length buffers=(.ok (buffers.flatten.take length),rest) ∧
      rest.flatten=buffers.flatten.drop length ∧ ∀ data∈rest,data≠[] := by
  induction buffers generalizing length with
  | nil =>
    have none_read : length=0 := by simpa using h
    exact ⟨[],by simp [readExact,none_read],by simp,split⟩
  | cons available rest ih =>
    have some_data := split available (by simp)
    have later : ∀ data∈rest,data≠[] := fun d inside => split d (mem_cons_of_mem _ inside)
    simp only [readExact]
    split
    next none_read => exact ⟨available::rest,by simp [none_read],by simp [none_read],split⟩
    next some_read =>
    split
    · next inside =>
      refine ⟨available.drop length::rest,?_,?_,?_⟩
      · rw [flatten_cons,take_append_of_le_length (le_of_lt inside)]
      · rw [flatten_cons,flatten_cons,drop_append_of_le_length (le_of_lt inside)]
      intro data member
      rcases mem_cons.mp member with rfl | member
      · exact fun empty => not_le.mpr inside (drop_eq_nil_iff.mp empty)
      · exact later data member
    · next through =>
      have through_all : available.length≤length := not_lt.mp through
      simp only [flatten_cons,length_append] at h
      obtain ⟨left,read,flat,nonempty⟩ := ih later
        (by omega : length-available.length≤rest.flatten.length)
      refine ⟨left,?_,?_,nonempty⟩
      · simp [read,Except.map,take_append,take_of_length_le through_all]
      · rw [flat,flatten_cons,drop_append,drop_of_length_le through_all,nil_append]

theorem readExact_short (split : ∀ data∈buffers,data≠[]) {length : Nat}
    (h : buffers.flatten.length<length) : (readExact length buffers).1=.error .endInBody := by
  induction buffers generalizing length with
  | nil =>
    have some_read : length≠0 := by simp at h; omega
    simp [readExact,some_read]
  | cons available rest ih =>
    have some_data := split available (by simp)
    simp only [flatten_cons,length_append] at h
    have some_read : length≠0 := by omega
    have through : ¬ length<available.length := by omega
    have read := ih (fun d inside => split d (mem_cons_of_mem _ inside))
      (by omega : rest.flatten.length<length-available.length)
    simp only [readExact,if_neg some_read,if_neg some_data,if_neg through,read,Except.map]

theorem owned_parts (bytes : Bytes) (header : Nat) (lengths : Lengths) :
    (⟨(bytes.drop header).take lengths.whole,lengths.raw.map fun _ => lengths.body⟩ :
      OwnedFrame).parts=partsAt bytes header lengths := by
  obtain ⟨body,raw⟩ := lengths
  cases raw with
  | none => simp [OwnedFrame.parts,partsAt,Lengths.whole]
  | some raw =>
    simp only [OwnedFrame.parts,partsAt,Lengths.whole,map_some,getD_some,
      take_take,drop_take,drop_drop]
    rw [Nat.min_eq_left (Nat.le_add_right _ _),Nat.add_sub_cancel_left]

/-- The header's size and the lengths of the whole frame the bytes begin with. -/
def leading (bytes : Bytes) : Option (Nat × Lengths) := do
  let place ← position headerEnd bytes
  let lengths ← (parseHeader (bytes.take (place+headerEnd.length))).toOption
  if place+headerEnd.length+lengths.whole ≤ bytes.length then
    some (place+headerEnd.length,lengths) else none

/-- Behind whole frames whose headers are within the longest a reader accepts stands one whose
header is a byte longer. -/
def oversteps : Nat → Bytes → Bool
  | 0,_ => false
  | fuel+1,bytes =>
      match leading bytes with
      | none => false
      | some (header,lengths) => header=maxHeaderBytes+1 ||
          header ≤ maxHeaderBytes && oversteps fuel (bytes.drop (header+lengths.whole))

/-- What one frame read of a stream comes to, beside what the incremental reader makes of it. -/
inductive FrameRead (stream : Bytes) : Except FrameError (Option OwnedFrame) × Buffers → Prop
  /-- Both readers take the frame. -/
  | both (header : Nat) (lengths : Lengths) (frame : OwnedFrame) (rest : Buffers)
      (leads : leading stream=some (header,lengths))
      (bounds : frameBounds stream=.ok (some (header,lengths)))
      (fits : header+lengths.whole ≤ stream.length)
      (parts : frame.parts=partsAt stream header lengths)
      (left : rest.flatten=stream.drop (header+lengths.whole))
      (split : ∀ data∈rest,data≠[]) : FrameRead stream (.ok (some frame),rest)
  /-- The header is one byte longer than the longest, and the incremental reader refuses it. -/
  | longer (lengths : Lengths) (frame : OwnedFrame) (rest : Buffers)
      (leads : leading stream=some (maxHeaderBytes+1,lengths))
      (bounds : frameBounds stream=.error .headerTooLong) : FrameRead stream (.ok (some frame),rest)
  | refused (error : FrameError) (rest : Buffers)
      (never : ∀ lead∈leading stream,maxHeaderBytes+1<lead.1) (nothing : (readWhole stream).1=[])
      (failed : ∃ error,(readWhole stream).2=.error error) :
      FrameRead stream (.error error,rest)
  | ended (empty : stream=[]) (rest : Buffers) : FrameRead stream (.ok none,rest)

variable {stream : Bytes}

theorem position_absent_take (absent : position headerEnd stream=none) (n : Nat) :
    position headerEnd (stream.take n)=none := by
  cases within : position headerEnd (stream.take n) with
  | none => rfl
  | some place =>
    have same := position_append within (stream.drop n)
    rw [take_append_drop,absent] at same
    cases same

theorem frameBounds_absent (absent : position headerEnd (stream.take maxHeaderBytes)=none) :
    frameBounds stream =
      if maxHeaderBytes ≤ stream.length then .error .headerTooLong else .ok none := by
  simp only [frameBounds,absent]

theorem readWhole_refused (some_bytes : stream≠[])
    (h : (∃ error,frameBounds stream=.error error) ∨ Unfinished stream) :
    (readWhole stream).1=[] ∧ ∃ error,(readWhole stream).2=.error error := by
  rcases h with ⟨error,h⟩ | h
  · rw [readWhole_error h]
    exact ⟨rfl,error,rfl⟩
  · rw [readWhole_unfinished h]
    exact ⟨rfl,.endInFrame,if_neg some_bytes⟩

section Found

variable {place : Nat} {rest : Buffers} (found : position headerEnd stream=some place)

include found

theorem position_take {n : Nat} (short : place+headerEnd.length ≤ n) :
    position headerEnd (stream.take n)=some place := by
  have fits := (position_eq_some found).1
  rw [← take_append_drop n stream] at found
  exact position_of_append found (by simp only [length_take]; omega)

theorem frameBounds_found (short : place+headerEnd.length ≤ maxHeaderBytes) :
    frameBounds stream=(parseHeader (stream.take (place+headerEnd.length))).map
      fun lengths => some (place+headerEnd.length,lengths) := by
  simp only [frameBounds,position_take found short]

theorem frameBounds_long (past : maxHeaderBytes<place+headerEnd.length) :
    frameBounds stream=.error .headerTooLong := by
  have fits := (position_eq_some found).1
  have absent : position headerEnd (stream.take maxHeaderBytes)=none := by
    cases within : position headerEnd (stream.take maxHeaderBytes) with
    | none => rfl
    | some other =>
      have fits := (position_eq_some within).1
      have same := position_append within (stream.drop maxHeaderBytes)
      rw [take_append_drop,found,some.injEq] at same
      simp only [length_take] at fits
      omega
  rw [frameBounds_absent absent,if_pos (by omega)]

theorem ne_nil_of_found : stream≠[] := by
  have fits := (position_eq_some found).1
  rintro rfl
  simp [headerEnd] at fits

theorem read_unparsed {error : FrameError}
    (parsed : parseHeader (stream.take (place+headerEnd.length))=.error error) :
    FrameRead stream (.error error,rest) := by
  have refused : ∃ error,frameBounds stream=.error error := by
    rcases lt_or_ge maxHeaderBytes (place+headerEnd.length) with past | under
    · exact ⟨_,frameBounds_long found past⟩
    · exact ⟨error,by rw [frameBounds_found found under,parsed]; rfl⟩
  obtain ⟨nothing,failed⟩ := readWhole_refused (ne_nil_of_found found) (.inl refused)
  exact .refused error rest (by simp [leading,found,parsed,Except.toOption]) nothing failed

variable {lengths : Lengths}
  (parsed : parseHeader (stream.take (place+headerEnd.length))=.ok lengths)

include parsed

theorem leading_parsed : leading stream =
    if place+headerEnd.length+lengths.whole ≤ stream.length then
      some (place+headerEnd.length,lengths) else none := by
  simp only [leading,found,parsed,bind_eq_bind,bind_some,Except.toOption]

theorem read_cut (cut : stream.length<place+headerEnd.length+lengths.whole) (error : FrameError) :
    FrameRead stream (.error error,rest) := by
  have refused : (∃ error,frameBounds stream=.error error) ∨ Unfinished stream := by
    rcases lt_or_ge maxHeaderBytes (place+headerEnd.length) with past | under
    · exact .inl ⟨_,frameBounds_long found past⟩
    · exact .inr (.inr ⟨_,lengths,by rw [frameBounds_found found under,parsed]; rfl,cut⟩)
  obtain ⟨nothing,failed⟩ := readWhole_refused (ne_nil_of_found found) refused
  exact .refused _ rest (by simp [leading_parsed found parsed,not_le.mpr cut]) nothing failed

end Found

theorem readFrame_read (split : ∀ data∈buffers,data≠[]) :
    FrameRead buffers.flatten (readFrame buffers) := by
  have head := readHeader_read split headerBegun_nil
  rw [nil_append] at head
  generalize buffers.flatten=stream at head ⊢
  simp only [readFrame]
  generalize readHeader [] buffers=read at head ⊢
  cases head with
  | parsed place rest found short left split =>
    have fits := (position_eq_some found).1
    cases parsed : parseHeader (stream.take (place+headerEnd.length)) with
    | error error => exact read_unparsed found parsed
    | ok lengths =>
      simp only [Except.map]
      rcases lt_or_ge rest.flatten.length lengths.whole with cut | whole
      · have unread := readExact_short split cut
        generalize readExact lengths.whole rest=body at unread ⊢
        obtain ⟨result,rest'⟩ := body
        cases unread
        rw [left,length_drop] at cut
        exact read_cut found parsed (by omega) _
      obtain ⟨rest',body,flat,nonempty⟩ := readExact_enough split whole
      rw [left,length_drop] at whole
      rw [body]
      rw [left] at flat ⊢
      rw [drop_drop] at flat
      have leads := (leading_parsed found parsed).trans (if_pos (by omega))
      -- within the longest header both parse the same bytes, past it only this reader parses
      rcases lt_or_ge maxHeaderBytes (place+headerEnd.length) with past | under
      · have exactly : place+headerEnd.length=maxHeaderBytes+1 := by omega
        exact .longer lengths _ rest' (exactly ▸ leads) (frameBounds_long found past)
      · exact .both _ lengths _ rest' leads (by rw [frameBounds_found found under,parsed]; rfl)
          (by omega) (owned_parts _ _ _) flat nonempty
  | tooLong rest full absent =>
    have first : position headerEnd (stream.take maxHeaderBytes)=none := by
      have shorter := position_absent_take absent maxHeaderBytes
      rwa [take_take,min_eq_left (le_succ _)] at shorter
    have some_bytes : stream≠[] := by
      rintro rfl
      simp at full
    obtain ⟨nothing,failed⟩ := readWhole_refused some_bytes
      (.inl ⟨_,by rw [frameBounds_absent first,if_pos (le_of_lt full)]⟩)
    refine .refused _ rest (fun lead leads => ?_) nothing failed
    obtain ⟨place,found,leads⟩ := bind_eq_some_iff.mp leads
    obtain ⟨lengths,-,leads⟩ := bind_eq_some_iff.mp leads
    split at leads
    · cases leads
      by_contra short
      rw [position_take found (not_lt.mp short)] at absent
      cases absent
    · cases leads
  | ended begun =>
    by_cases empty : stream=[]
    · simp only [if_pos empty]
      exact .ended empty []
    have first := position_absent_take begun.1 maxHeaderBytes
    have refused : (∃ error,frameBounds stream=.error error) ∨ Unfinished stream := by
      rw [Unfinished,frameBounds_absent first]
      split
      · exact .inl ⟨_,rfl⟩
      · exact .inr (.inl rfl)
    obtain ⟨nothing,failed⟩ := readWhole_refused empty refused
    simp only [if_neg empty]
    exact .refused _ [] (by simp [leading,begun.1]) nothing failed

/-- Two readings of one stream hand out the same frames, each of the same bytes, and both or
neither refuse the stream after them. -/
def Agree (incremental : List (Parts × Nat) × Except FrameError Unit)
    (repeated : List (OwnedFrame × Nat) × Except FrameError Unit) : Prop :=
  incremental.1=repeated.1.map (fun frame => (frame.1.parts,frame.2)) ∧
    (incremental.2=.ok () ↔ repeated.2=.ok ())

theorem readFrames_agree (fuel : Nat) (split : ∀ data∈buffers,data≠[])
    (enough : buffers.flatten.length<fuel) :
    Agree (readWhole buffers.flatten) (readFrames fuel buffers) ↔
      oversteps fuel buffers.flatten=false := by
  induction fuel generalizing buffers with
  | zero => omega
  | succ fuel ih =>
    have read := readFrame_read split
    simp only [readFrames,oversteps]
    generalize readFrame buffers=one at read ⊢
    cases read with
    | both header lengths frame rest leads bounds fits parts left nonempty =>
      have positive := (frameBounds_bounds bounds).1
      have within := (frameBounds_bounds bounds).2.1
      have taken : buffers.flatten.length-rest.flatten.length=header+lengths.whole := by
        rw [left,length_drop]; omega
      have later := ih nonempty (by rw [left,length_drop]; omega)
      rw [left] at later
      have small : header≠maxHeaderBytes+1 := by omega
      rw [readWhole_frame bounds fits]
      simp only [taken,leads,small,within,decide_false,decide_true,Bool.false_or,Bool.true_and,
        ← later,Agree,map_cons,parts,List.cons.injEq,true_and]
    | longer lengths frame rest leads bounds =>
      -- the incremental reader hands out nothing, the other a frame
      rw [readWhole_error bounds]
      simp [leads,Agree]
    | refused error rest never nothing failed =>
      obtain ⟨why,failed⟩ := failed
      cases leads : leading buffers.flatten with
      | none => simp [Agree,nothing,failed]
      | some lead =>
        have long := never lead leads
        have apart : lead.1≠maxHeaderBytes+1 ∧ ¬ lead.1 ≤ maxHeaderBytes := by omega
        simp [Agree,nothing,failed,apart]
    | ended empty rest =>
      have none_leads : leading []=none := rfl
      simp [Agree,empty,readWhole_unfinished unfinished_nil,finish,none_leads]

theorem take_eq_readWhole {reads : List Bytes} (split : ∀ data∈reads,data≠[])
    {result : List (Parts × Nat) × Except FrameError Unit}
    (taken : result=take {} reads ∨ result=EventReader.take {} reads) :
    result=readWhole reads.flatten := by
  rw [eventReader_take_eq] at taken
  exact (or_self_iff.mp taken).trans (portReader_take_eq unfinished_nil split)

/-- Frames put in a buffer come out of the incremental readers however the bytes are split, cut
short or not, and any stream is read alike by them and by reading frame after frame, just when no
frame of its bytes has a header a byte longer than the longest. -/
theorem framing_faithful (reads : List Bytes) (split : ∀ data∈reads,data≠[])
    (result : List (Parts × Nat) × Except FrameError Unit)
    (taken : result=take {} reads ∨ result=EventReader.take {} reads) :
    (∀ frames : List Parts,(∀ frame∈frames,frame.Fits) →
      (reads.flatten=putAll frames → result.1.map Prod.fst=frames ∧ result.2=.ok ()) ∧
      (reads.flatten <+: putAll frames → ∃ n≤frames.length,
        result.1.map Prod.fst=frames.take n ∧
        (result.2=.ok () ↔ reads.flatten=putAll (frames.take n)))) ∧
    (∀ buffers : List Bytes,(∀ data∈buffers,data≠[]) → buffers.flatten=reads.flatten →
      ∀ fuel,buffers.flatten.length<fuel → (Agree result (readFrames fuel buffers) ↔
          oversteps fuel reads.flatten=false)) := by
  rw [take_eq_readWhole split taken]
  refine ⟨fun frames fit => ⟨fun same => ?_,readWhole_cut fit⟩,?_⟩
  · rw [same,readWhole_putAll fit]
    simp [Function.comp_def]
  intro buffers split' same fuel enough
  rw [← same]
  exact readFrames_agree fuel split' enough

def samplePuts : List Parts := [⟨ascii "hello",none⟩,⟨ascii "x",some [0,13,10]⟩]

def sampleReads : List Bytes := [(putAll samplePuts).take 1,(putAll samplePuts).drop 1]

theorem sampleReads_faithful :
    (take {} sampleReads).1.map Prod.fst=samplePuts ∧
      Agree (take {} sampleReads) (readFrames 200 sampleReads) := by
  have split : ∀ data∈sampleReads,data≠[] := by decide +kernel
  obtain ⟨puts,streams⟩ := framing_faithful sampleReads split _ (.inl rfl)
  refine ⟨((puts samplePuts (by decide +kernel)).1 (by decide +kernel)).1,?_⟩
  exact (streams sampleReads split rfl 200 (by decide +kernel)).mpr (by decide +kernel)

/-- A header one byte longer than the longest, its length written with leading zeros. -/
def longHeader : Bytes := headerName++List.replicate 45 48++headerEnd

/-- Reading frame after frame takes the empty frame and ends; the incremental reader refuses it. -/
theorem longHeader_disagree :
    longHeader.length=maxHeaderBytes+1 ∧
      (readFrames 100 [longHeader])=([(⟨[],none⟩,65)],.ok ()) ∧
      (take {} [longHeader])=([],.error .headerTooLong) ∧
      ¬ Agree (take {} [longHeader]) (readFrames 100 [longHeader]) := by
  have read : readFrames 100 [longHeader]=([(⟨[],none⟩,65)],.ok ()) := by decide +kernel
  have taken : take {} [longHeader]=([],.error .headerTooLong) := by decide +kernel
  refine ⟨by decide +kernel,read,taken,?_⟩
  rw [read,taken]
  simp [Agree]

end Verbatim.Process
