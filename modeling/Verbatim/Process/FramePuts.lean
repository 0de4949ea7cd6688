import Verbatim.Process.FrameReaders
import Mathlib.Algebra.Group.Nat.Defs

namespace Verbatim.Process

open Framework List Lengths Parts Option Nat

variable (width n : Nat)

theorem decimal_length : (decimal width n).length=width := by
  induction width generalizing n with
  | zero => rfl
  | succ width ih => simp [decimal,ih]

theorem digit_toNat (n : Nat) : (UInt8.ofNat (48+n%10)).toNat=48+n%10 := by
  simp only [UInt8.toNat_ofNat']
  omega

theorem isDigit_iff (byte : UInt8) : isDigit byte=true ↔ 48≤byte.toNat ∧ byte.toNat≤57 := by
  simp [isDigit,UInt8.le_iff_toNat_le]

theorem decimal_isDigit : ∀ byte∈decimal width n,isDigit byte=true := by
  induction width generalizing n with
  | zero => simp [decimal]
  | succ width ih =>
    intro byte inside
    rcases mem_append.mp inside with earlier | last
    · exact ih _ byte earlier
    · rw [mem_singleton.mp last,isDigit_iff,digit_toNat]
      omega

theorem return_not_mem_decimal : (13 : UInt8)∉decimal width n := by
  intro inside
  exact absurd (decimal_isDigit width n 13 inside) (by decide)

theorem digitsValue_decimal : digitsValue (decimal width n)=n%10 ^ width := by
  induction width generalizing n with
  | zero => simp [decimal,digitsValue,mod_one]
  | succ width ih =>
    have before := ih (n / 10)
    simp only [digitsValue] at before ⊢
    rw [decimal,foldl_append,before]
    simp only [foldl_cons,foldl_nil,digit_toNat]
    rw [pow_succ',mod_mul]
    omega

theorem lengthOf_decimal {n : Nat} (h : n ≤ maxFrameBytes) :
    lengthOf (decimal lengthDigits n)=.ok n := by
  have some_digits : decimal lengthDigits n≠[] := by
    intro empty
    have width := decimal_length lengthDigits n
    rw [empty] at width
    exact absurd width (by decide)
  have digits : (decimal lengthDigits n).all isDigit=true := all_eq_true.mpr (decimal_isDigit _ _)
  have value : digitsValue (decimal lengthDigits n)=n := by
    rw [digitsValue_decimal]
    apply mod_eq_of_lt
    simp only [maxFrameBytes,lengthDigits] at h ⊢
    omega
  simp [lengthOf,some_digits,digits,value,h]

theorem stripStart_append (start rest : Bytes) : stripStart start (start++rest)=some rest := by
  simp [stripStart]

theorem stripEnd_append (rest stop : Bytes) : stripEnd stop (rest++stop)=some rest := by
  simp [stripEnd]

theorem position_lineEnd_digits (n : Nat) (rest : Bytes) :
    position lineEnd (decimal lengthDigits n++rest) =
      (position lineEnd rest).map (·+lengthDigits) := by
  have skipped := position_skip [10] (return_not_mem_decimal lengthDigits n) rest
  rwa [decimal_length] at skipped

theorem headerLines_body (n : Nat) :
    headerLines (decimal lengthDigits n)=.ok (decimal lengthDigits n,none) := by
  have absent := position_lineEnd_digits n []
  rw [append_nil,show position lineEnd []=none from rfl,map_none] at absent
  simp only [headerLines,absent]

theorem headerLines_raw (n raw : Nat) :
    headerLines (decimal lengthDigits n++(lineEnd++rawName++decimal lengthDigits raw)) =
      .ok (decimal lengthDigits n,some (decimal lengthDigits raw)) := by
  have first : position lineEnd (lineEnd++rawName++decimal lengthDigits raw)=some 0 := by
    simp [lineEnd,position]
  have width := decimal_length lengthDigits n
  have rest : (decimal lengthDigits n++(lineEnd++rawName++decimal lengthDigits raw)).drop
      (0+lengthDigits+lineEnd.length)=rawName++decimal lengthDigits raw := by
    rw [zero_add,← drop_drop,drop_left' width,append_assoc,drop_left]
  simp only [headerLines,position_lineEnd_digits,first,map_some,rest,stripStart_append]
  rw [zero_add,take_left' width]

theorem parseHeader_header {lengths : Lengths} (h : lengths.whole ≤ maxFrameBytes) :
    parseHeader (header lengths.body lengths.raw)=.ok lengths := by
  obtain ⟨body,raw⟩ := lengths
  have fits : ¬ maxFrameBytes<(⟨body,raw⟩ : Lengths).whole := not_lt.mpr h
  cases raw with
  | none =>
    have body_fits : body ≤ maxFrameBytes := by simpa [whole] using h
    have lines : (stripStart headerName (header body none)).bind (stripEnd headerEnd) =
        some (decimal lengthDigits body) := by
      simp only [header,append_nil,append_assoc,stripStart_append,bind_some,stripEnd_append]
    simp only [parseHeader,lines,headerLines_body]
    simp [bind,Except.bind,lengthOf_decimal body_fits,fits]
  | some raw =>
    have both : body+raw ≤ maxFrameBytes := by simpa [whole] using h
    have lines : (stripStart headerName (header body (some raw))).bind (stripEnd headerEnd) =
        some (decimal lengthDigits body++(lineEnd++rawName++decimal lengthDigits raw)) := by
      rw [header,append_assoc,append_assoc,stripStart_append,bind_some,
        ← append_assoc,stripEnd_append]
    simp only [parseHeader,lines,headerLines_raw]
    simp [bind,Except.bind,Except.map,lengthOf_decimal (n := body) (by omega),
      lengthOf_decimal (n := raw) (by omega),fits]

theorem header_length (body : Nat) (raw : Option Nat) :
    (header body raw).length ≤ maxHeaderBytes := by
  have name : headerName.length=16 := by decide
  have raw_name : rawName.length=12 := by decide
  cases raw <;>
    simp [header,decimal_length,name,raw_name,lineEnd,headerEnd,lengthDigits,maxHeaderBytes]

theorem position_header (body : Nat) (raw : Option Nat) (more : Bytes) :
    position headerEnd (header body raw++more) =
      some ((header body raw).length-headerEnd.length) := by
  have name : (13 : UInt8)∉headerName := by decide
  have raw_name : (13 : UInt8)∉rawName := by decide
  have start : position headerEnd (headerEnd++more)=some 0 := by simp [headerEnd,position]
  have first : (13 : UInt8)∉headerName++decimal lengthDigits body := by
    simp [name,return_not_mem_decimal]
  cases raw with
  | none =>
    have skipped := position_skip [10,13,10] first (headerEnd++more)
    change position headerEnd _=Option.map _ (position headerEnd _) at skipped
    simp only [header,append_nil,append_assoc] at skipped ⊢
    rw [skipped,start]
    simp only [Option.map_some,length_append,Option.some.injEq]
    omega
  | some raw =>
    have second : (13 : UInt8)∉rawName++decimal lengthDigits raw := by
      simp [raw_name,return_not_mem_decimal]
    have skipped := position_skip [10,13,10] second (headerEnd++more)
    have skipped' := position_skip [10,13,10] first
      (lineEnd++(rawName++decimal lengthDigits raw++(headerEnd++more)))
    change position headerEnd _=Option.map _ (position headerEnd _) at skipped skipped'
    have line : ∀ rest : Bytes,position headerEnd (lineEnd++(rawName++rest)) =
        (position headerEnd (rawName++rest)).map (·+lineEnd.length) := by
      intro rest
      have letters : rawName=82::rawName.tail := by decide
      rw [letters]
      simp only [lineEnd,headerEnd,cons_append,nil_append]
      rw [position,if_neg (by simp [cons_prefix_cons]),position,
        if_neg (by simp [cons_prefix_cons]),Option.map_map]
      congr 1
    simp only [append_assoc] at skipped skipped' line
    rw [line,skipped,start] at skipped'
    simp only [header,append_assoc]
    rw [skipped']
    simp only [Option.map_some,length_append,Option.some.injEq]
    omega

def Parts.lengths (parts : Parts) : Lengths := ⟨parts.body.length,parts.raw.map List.length⟩

def Parts.Fits (parts : Parts) : Prop := parts.lengths.whole ≤ maxFrameBytes

instance (parts : Parts) : Decidable parts.Fits := inferInstanceAs (Decidable (_≤_))

def frameBytes (parts : Parts) : Bytes :=
  header parts.lengths.body parts.lengths.raw++(parts.body++parts.raw.getD [])

variable {parts : Parts}

theorem putParts_eq_ite (parts : Parts) (buffer : Bytes) : putParts buffer parts =
    if parts.Fits then (buffer++frameBytes parts,.ok ())
    else (buffer,.error (.overMax parts.lengths.whole)) := by
  obtain ⟨body,raw⟩ := parts
  cases raw with
  | none =>
    by_cases large : maxFrameBytes<body.length <;>
      simp [putParts,putFrame,appendFrame,Parts.Fits,large,frameBytes,lengths,whole,← not_lt]
  | some raw =>
    by_cases large : maxFrameBytes<body.length+raw.length <;>
      simp [putParts,putFrameWithRaw,appendFrame,Parts.Fits,large,frameBytes,lengths,whole,← not_lt]

theorem putParts_eq (h : parts.Fits) (buffer : Bytes) :
    putParts buffer parts=(buffer++frameBytes parts,.ok ()) :=
  (putParts_eq_ite parts buffer).trans (if_pos h)

theorem putParts_refused (h : ¬ parts.Fits) (buffer : Bytes) :
    putParts buffer parts=(buffer,.error (.overMax parts.lengths.whole)) :=
  (putParts_eq_ite parts buffer).trans (if_neg h)

def putAll (frames : List Parts) : Bytes :=
  frames.foldl (fun buffer frame => (putParts buffer frame).1) []

variable {frames : List Parts}

theorem putAll_eq (h : ∀ frame∈frames,frame.Fits) :
    putAll frames=(frames.map frameBytes).flatten := by
  suffices from_buffer : ∀ buffer,
      frames.foldl (fun buffer frame => (putParts buffer frame).1) buffer =
        buffer++(frames.map frameBytes).flatten from
    (from_buffer []).trans (nil_append _)
  induction frames with
  | nil => simp
  | cons frame frames ih =>
    intro buffer
    rw [foldl_cons,putParts_eq (h frame (by simp)),
      ih fun f inside => h f (mem_cons_of_mem _ inside)]
    simp

theorem frameBounds_put (h : parts.Fits) (more : Bytes) :
    frameBounds (frameBytes parts++more) =
      .ok (some ((header parts.lengths.body parts.lengths.raw).length,parts.lengths)) := by
  rw [frameBytes,append_assoc]
  have short := header_length parts.lengths.body parts.lengths.raw
  have stop : headerEnd.length≤(header parts.lengths.body parts.lengths.raw).length := by
    simp only [header,length_append]
    omega
  simp only [frameBounds]
  rw [take_append,take_of_length_le short,position_header]
  simp only [Nat.sub_add_cancel stop,take_left,parseHeader_header h]
  rfl

theorem frameBytes_length (parts : Parts) :
    (frameBytes parts).length =
      (header parts.lengths.body parts.lengths.raw).length+parts.lengths.whole := by
  obtain ⟨body,raw⟩ := parts
  cases raw <;> simp [frameBytes,lengths,whole]

theorem partsAt_put (parts : Parts) (more : Bytes) :
    partsAt (frameBytes parts++more) (header parts.lengths.body parts.lengths.raw).length
      parts.lengths=parts := by
  obtain ⟨body,raw⟩ := parts
  cases raw with
  | none => simp [partsAt,frameBytes,lengths]
  | some raw =>
    simp only [partsAt,frameBytes,lengths,map_some,getD_some,append_assoc,drop_left,take_left]
    rw [← drop_drop,drop_left,drop_left,take_left]

theorem readWhole_put (h : parts.Fits) (more : Bytes) :
    readWhole (frameBytes parts++more) =
      ((parts,(frameBytes parts).length)::(readWhole more).1,(readWhole more).2) := by
  have fits : (header parts.lengths.body parts.lengths.raw).length+parts.lengths.whole ≤
      (frameBytes parts++more).length := by
    rw [length_append,frameBytes_length]; omega
  rw [readWhole_frame (frameBounds_put h more) fits,partsAt_put,← frameBytes_length,drop_left]

/-- Part of a frame's bytes hands out nothing, and ends cleanly only before its first. -/
theorem readWhole_part (h : parts.Fits) {bytes : Bytes}
    (part : bytes <+: frameBytes parts) (short : bytes.length<(frameBytes parts).length) :
    (readWhole bytes).1=[] ∧ ((readWhole bytes).2=.ok () ↔ bytes=[]) := by
  obtain ⟨more,whole⟩ := part
  rcases frameBounds_cases bytes with ⟨error,refused⟩ | unfinished | ⟨header',lengths,found,fits⟩
  · have some_bytes : bytes≠[] := by
      rintro rfl
      cases refused
    simp [readWhole_error refused,some_bytes]
  · rw [readWhole_unfinished unfinished]
    by_cases empty : bytes=[] <;> simp [PortReader.finish,empty]
  · -- the header is whole, so it is the frame's, and the frame is longer than the bytes
    have known : frameBounds bytes≠.ok none := by simp [found]
    have same := (frameBounds_append known more).trans found
    have put := frameBounds_put h []
    rw [append_nil,← whole,same] at put
    simp only [Except.ok.injEq,some.injEq,Prod.mk.injEq] at put
    rw [frameBytes_length,← put.1,← put.2] at short
    omega

theorem readWhole_putAll (h : ∀ frame∈frames,frame.Fits) :
    readWhole (putAll frames) =
      (frames.map fun frame => (frame,(frameBytes frame).length),.ok ()) := by
  rw [putAll_eq h]
  induction frames with
  | nil => rfl
  | cons frame frames ih =>
    rw [map_cons,flatten_cons,readWhole_put (h frame (by simp)),
      ih fun f inside => h f (mem_cons_of_mem _ inside)]
    rfl

/-- A stream of frames cut anywhere: the frames before the cut, and a clean end only between two. -/
theorem readWhole_cut (h : ∀ frame∈frames,frame.Fits) {bytes : Bytes}
    (cut : bytes <+: putAll frames) :
    ∃ n≤frames.length,(readWhole bytes).1.map Prod.fst=frames.take n ∧
      ((readWhole bytes).2=.ok () ↔ bytes=putAll (frames.take n)) := by
  have taken : ∀ n,putAll (frames.take n)=((frames.take n).map frameBytes).flatten := fun n =>
    putAll_eq fun frame inside => h frame (mem_of_mem_take inside)
  simp only [taken]
  rw [putAll_eq h] at cut
  clear taken
  induction frames generalizing bytes with
  | nil =>
    have empty : bytes=[] := by simpa using cut
    exact ⟨0,le_rfl,by simp [empty,readWhole_unfinished unfinished_nil],by
      simp [empty,readWhole_unfinished unfinished_nil,PortReader.finish]⟩
  | cons frame frames ih =>
    have fits := h frame (by simp)
    rcases lt_or_ge bytes.length (frameBytes frame).length with short | long
    · have part : bytes <+: frameBytes frame :=
        prefix_of_prefix_length_le cut (prefix_append _ _) (le_of_lt short)
      obtain ⟨nothing,ended⟩ := readWhole_part fits part short
      exact ⟨0,zero_le _,by simp [nothing],by simpa using ended⟩
    obtain ⟨later,rfl⟩ := prefix_of_prefix_length_le (prefix_append _ _) cut long
    have cut' := (prefix_append_right_inj _).mp cut
    obtain ⟨n,within,same,ended⟩ := ih (fun f inside => h f (mem_cons_of_mem _ inside)) cut'
    refine ⟨n+1,by simpa using within,?_,?_⟩
    · simp [readWhole_put fits,same]
    · simp [readWhole_put fits,ended]

end Verbatim.Process
