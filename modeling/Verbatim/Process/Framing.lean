import Verbatim.Framework.Patterns

namespace Verbatim.Process

open Framework

abbrev Bytes := List UInt8

def ascii (text : String) : Bytes := text.toList.map fun c => UInt8.ofNat c.toNat

def maxFrameBytes : Nat := 32*1024*1024

def headerName : Bytes := ascii "Content-Length: "

def rawName : Bytes := ascii "Raw-Length: "

def lineEnd : Bytes := [13,10]

def headerEnd : Bytes := [13,10,13,10]

def lengthDigits : Nat := 10

def maxHeaderBytes : Nat := 64

structure Parts where
  body : Bytes
  raw : Option Bytes
  deriving DecidableEq

inductive ErrorKind where
  | invalidData
  | invalidInput
  | unexpectedEof
  deriving DecidableEq

inductive FrameError where
  | notHeader
  | tooLarge
  | headerTooLong
  | endInHeader
  | endInBody
  | endInFrame
  | overMax (whole : Nat)
  deriving DecidableEq

def FrameError.kind : FrameError → ErrorKind
  | .notHeader | .tooLarge | .headerTooLong => .invalidData
  | .endInHeader | .endInBody | .endInFrame => .unexpectedEof
  | .overMax _ => .invalidInput

def FrameError.message : FrameError → String
  | .notHeader => "a frame's header is not a Content-Length header"
  | .tooLarge => s!"a frame is larger than the {maxFrameBytes} bytes a frame may take"
  | .headerTooLong => "a frame's header is too long"
  | .endInHeader => "the stream ended inside a frame's header"
  | .endInBody => "failed to fill whole buffer"
  | .endInFrame => "the pipe ended inside a frame"
  | .overMax whole =>
      s!"a frame of {whole} bytes is larger than the {maxFrameBytes} a frame may take"

/-- The last `width` decimal digits of a number, its leading zeros kept. -/
def decimal : Nat → Nat → Bytes
  | 0,_ => []
  | width+1,n => decimal width (n / 10)++[UInt8.ofNat (48+n%10)]

def header (body : Nat) (raw : Option Nat) : Bytes :=
  headerName++decimal lengthDigits body ++
    (match raw with
    | some raw => lineEnd++rawName++decimal lengthDigits raw
    | none => [])++headerEnd

def appendFrame (buffer : Bytes) (putBody : Except FrameError Bytes)
    (putRaw : Option (Except FrameError Bytes)) : Except FrameError Bytes :=
  match putBody,putRaw with
  | .error error,_ => .error error
  | .ok _,some (.error error) => .error error
  | .ok body,none =>
      if maxFrameBytes<body.length then .error (.overMax body.length)
      else .ok (buffer++header body.length none++body)
  | .ok body,some (.ok raw) =>
      if maxFrameBytes<body.length+raw.length then .error (.overMax (body.length+raw.length))
      else .ok (buffer++header body.length (some raw.length)++body++raw)

def putFrame (buffer : Bytes) (putBody : Except FrameError Bytes) :
    Bytes × Except FrameError Unit :=
  match appendFrame buffer putBody none with
  | .ok buffer => (buffer,.ok ())
  | .error error => (buffer,.error error)

def putFrameWithRaw (buffer : Bytes) (putBody putRaw : Except FrameError Bytes) :
    Bytes × Except FrameError Unit :=
  match appendFrame buffer putBody (some putRaw) with
  | .ok buffer => (buffer,.ok ())
  | .error error => (buffer,.error error)

def putParts (buffer : Bytes) (parts : Parts) : Bytes × Except FrameError Unit :=
  match parts.raw with
  | none => putFrame buffer (.ok parts.body)
  | some raw => putFrameWithRaw buffer (.ok parts.body) (.ok raw)

structure Lengths where
  body : Nat
  raw : Option Nat
  deriving DecidableEq

def Lengths.whole (lengths : Lengths) : Nat := lengths.body+lengths.raw.getD 0

def stripStart (start bytes : Bytes) : Option Bytes :=
  if start <+: bytes then some (bytes.drop start.length) else none

def stripEnd (stop bytes : Bytes) : Option Bytes :=
  if stop <:+ bytes then some (bytes.take (bytes.length-stop.length)) else none

def isDigit (byte : UInt8) : Bool := 48≤byte && byte≤57

def digitsValue (digits : Bytes) : Nat :=
  digits.foldl (fun value digit => value*10+(digit.toNat-48)) 0

/-- The length digits give: more than `usize` holds is over the largest frame's too. -/
def lengthOf (digits : Bytes) : Except FrameError Nat :=
  if digits=[] ∨ digits.all isDigit=false then .error .notHeader
  else if digitsValue digits ≤ maxFrameBytes then .ok (digitsValue digits)
  else .error .tooLarge

/-- The digits of the body's length and of the raw section's between a header's name and its end. -/
def headerLines (lines : Bytes) : Except FrameError (Bytes × Option Bytes) :=
  match position lineEnd lines with
  | none => .ok (lines,none)
  | some place =>
      match stripStart rawName (lines.drop (place+lineEnd.length)) with
      | none => .error .notHeader
      | some raw => .ok (lines.take place,some raw)

def parseHeader (header : Bytes) : Except FrameError Lengths :=
  match (stripStart headerName header).bind (stripEnd headerEnd) with
  | none => .error .notHeader
  | some lines => do
      let (body,raw) ← headerLines lines
      let body ← lengthOf body
      let raw ← match raw with
        | none => .ok none
        | some raw => (lengthOf raw).map some
      if maxFrameBytes<(⟨body,raw⟩ : Lengths).whole then .error .tooLarge else .ok ⟨body,raw⟩

/-- A frame read whole and kept: its body and then its raw section, and where that starts. -/
structure OwnedFrame where
  buffer : Bytes
  raw : Option Nat
  deriving DecidableEq

def OwnedFrame.parts (frame : OwnedFrame) : Parts :=
  match frame.raw with
  | some raw => ⟨frame.buffer.take raw,some (frame.buffer.drop raw)⟩
  | none => ⟨frame.buffer,none⟩

/-- A buffered reader, as the buffers it fills: an empty one is the stream's end. -/
abbrev Buffers := List Bytes

def consume (taken : Nat) : Buffers → Buffers
  | [] => []
  | available::rest =>
      if available.length≤taken then rest else available.drop taken::rest

/-- Takes bytes of a buffer up to the header's end: the header so far, how many were taken and
whether it ended. -/
def scanHeader : Bytes → Bytes → Bytes × Nat × Bool
  | header,[] => (header,0,false)
  | header,byte::available =>
      let header := header++[byte]
      if headerEnd <:+ header then (header,1,true)
      else if maxHeaderBytes<header.length then (header,1,false)
      else
        let (header,taken,ended) := scanHeader header available
        (header,taken+1,ended)

/-- Reads a header, of which `header` was read, and the lengths it gives, or none at the end of the
stream before any of it. -/
def readHeader (header : Bytes) : Buffers → Except FrameError (Option Lengths) × Buffers
  | [] => (if header=[] then .ok none else .error .endInHeader,[])
  | []::rest => (if header=[] then .ok none else .error .endInHeader,[]::rest)
  | (byte::available)::rest =>
      let (header,taken,ended) := scanHeader header (byte::available)
      if ended then ((parseHeader header).map some,consume taken ((byte::available)::rest))
      else if maxHeaderBytes<header.length then
        (.error .headerTooLong,consume taken ((byte::available)::rest))
      -- all of the buffer was taken
      else readHeader header rest

def readExact (length : Nat) : Buffers → Except FrameError Bytes × Buffers
  | [] => (if length=0 then .ok [] else .error .endInBody,[])
  | available::rest =>
      if length=0 then (.ok [],available::rest)
      else if available=[] then (.error .endInBody,available::rest)
      else if length<available.length then
        (.ok (available.take length),available.drop length::rest)
      else
        let (bytes,rest) := readExact (length-available.length) rest
        (bytes.map (available++·),rest)

def readFrame (buffers : Buffers) : Except FrameError (Option OwnedFrame) × Buffers :=
  match readHeader [] buffers with
  | (.error error,rest) => (.error error,rest)
  | (.ok none,rest) => (.ok none,rest)
  | (.ok (some lengths),rest) =>
      match readExact lengths.whole rest with
      | (.error error,rest) => (.error error,rest)
      | (.ok buffer,rest) => (.ok (some ⟨buffer,lengths.raw.map fun _ => lengths.body⟩),rest)

/-- Reads frames until the stream ends or a frame is refused: the frames, each with how many bytes
of the stream it took, and how the reading ended. -/
def readFrames : Nat → Buffers → List (OwnedFrame × Nat) × Except FrameError Unit
  | 0,_ => ([],.ok ())
  | fuel+1,buffers =>
      match readFrame buffers with
      | (.error error,_) => ([],.error error)
      | (.ok none,_) => ([],.ok ())
      | (.ok (some frame),rest) =>
          let (frames,ended) := readFrames fuel rest
          ((frame,buffers.flatten.length-rest.flatten.length)::frames,ended)

/-- The header's length and the lengths it gives, of the frame bytes start with, once the header is
whole. -/
def frameBounds (bytes : Bytes) : Except FrameError (Option (Nat × Lengths)) :=
  match position headerEnd (bytes.take maxHeaderBytes) with
  | some place =>
      let header := place+headerEnd.length
      (parseHeader (bytes.take header)).map fun lengths => some (header,lengths)
  | none => if maxHeaderBytes≤bytes.length then .error .headerTooLong else .ok none

def partsAt (bytes : Bytes) (header : Nat) (lengths : Lengths) : Parts :=
  ⟨(bytes.drop header).take lengths.body,
    lengths.raw.map fun raw => (bytes.drop (header+lengths.body)).take raw⟩

/-- The whole frames at the start of bytes, each with how many bytes it took, and how many they took
together. -/
def wholeFramesFrom : Nat → Bytes → List (Parts × Nat) × Except FrameError Nat
  | 0,_ => ([],.ok 0)
  | fuel+1,bytes =>
      match frameBounds bytes with
      | .error error => ([],.error error)
      | .ok none => ([],.ok 0)
      | .ok (some (header,lengths)) =>
          let stop := header+lengths.whole
          if bytes.length<stop then ([],.ok 0)
          else
            let (frames,used) := wholeFramesFrom fuel (bytes.drop stop)
            ((partsAt bytes header lengths,stop)::frames,used.map (stop+·))

/-- Every frame takes a byte at least, so that many turns are enough. -/
def wholeFrames (bytes : Bytes) : List (Parts × Nat) × Except FrameError Nat :=
  wholeFramesFrom (bytes.length+1) bytes

/-- A pipe end read as its bytes come: those read and not yet handed out. -/
structure PortReader where
  pending : Bytes := []

namespace PortReader

def handOut (reader : PortReader) (data : Bytes) :
    List (Parts × Nat) × Except FrameError PortReader :=
  if reader.pending=[] then
    let (frames,used) := wholeFrames data
    (frames,used.map fun used => ⟨data.drop used⟩)
  else
    let pending := reader.pending++data
    let (frames,used) := wholeFrames pending
    (frames,used.map fun used => ⟨pending.drop used⟩)

def finish (reader : PortReader) : Except FrameError Unit :=
  if reader.pending=[] then .ok () else .error .endInFrame

def take (reader : PortReader) : List Bytes → List (Parts × Nat) × Except FrameError Unit
  | [] => ([],reader.finish)
  | []::_ => ([],reader.finish)
  | (byte::data)::reads =>
      match reader.handOut (byte::data) with
      | (frames,.error error) => (frames,.error error)
      | (frames,.ok reader) =>
          let (later,ended) := reader.take reads
          (frames++later,ended)

end PortReader

/-- A pipe end read by a thread that waits on its event. -/
structure EventReader where
  pending : Bytes := []

namespace EventReader

def finish (reader : EventReader) : Except FrameError Unit :=
  if reader.pending=[] then .ok () else .error .endInFrame

def take (reader : EventReader) : List Bytes → List (Parts × Nat) × Except FrameError Unit
  | [] => ([],reader.finish)
  | []::_ => ([],reader.finish)
  | (byte::data)::reads =>
      let pending := reader.pending++byte::data
      match wholeFrames pending with
      | (frames,.error error) => (frames,.error error)
      | (frames,.ok used) =>
          let (later,ended) := EventReader.take ⟨pending.drop used⟩ reads
          (frames++later,ended)

end EventReader

end Verbatim.Process
