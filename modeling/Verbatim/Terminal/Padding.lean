import Verbatim.Terminal.Rows
import Mathlib.Data.List.DropRight

namespace Verbatim.Terminal

open List

/-- A text's characters from its UTF-16 units, U+FFFD for each surrogate without its pair. -/
def decodeUtf16 : List UInt16 → Text
  | [] => []
  | [unit] => [if unit &&& 0xF800=0xD800 then '�' else Char.ofNat unit.toNat]
  | unit::next::units =>
      if unit &&& 0xF800≠0xD800 then Char.ofNat unit.toNat::decodeUtf16 (next::units)
      else if unit<0xDC00 ∧ 0xDC00≤next ∧ next≤0xDFFF then
        Char.ofNat (0x10000+(unit.toNat%0x400*0x400+next.toNat%0x400))::decodeUtf16 units
      else '�'::decodeUtf16 (next::units)

def crlf : Text := ['\r','\n']

/-- Adds a line's length to the runs of lines of one length. -/
def endLine (lengths : List (Nat × Nat)) (length : Nat) : List (Nat × Nat) :=
  match lengths.getLast? with
  | some (count,last) =>
      if last=length then lengths.dropLast++[(count+1,last)] else lengths++[(1,length)]
  | none => lengths++[(1,length)]

def unpaddedLine (line : Text) : Text := line.rdropWhile (· = ' ')

/-- A text without the spaces at the end of each of its lines, with the lines' lengths. -/
def ReadText.unpadded (padded : Text) : ReadText :=
  ⟨crlf.intercalate ((crlfLines padded).map unpaddedLine),
    ((crlfLines padded).map length).foldl endLine []⟩

/-- The text with each line padded again to its length. -/
def ReadText.padded (text : ReadText) : Text :=
  crlf.intercalate (text.lines.map fun (line,spaces) => line++replicate spaces ' ')

/-- A pass over a padded text: what is written, the line's length so far, the spaces after its
last other character, and whether a carriage return may begin a line break. -/
structure Unpadding where
  into : ReadText := ⟨[],[]⟩
  length : Nat := 0
  spaces : Nat := 0
  carriageReturn : Bool := false

namespace Unpadding

def push (s : Unpadding) (c : Char) : Unpadding :=
  {s with
    into.text := s.into.text++replicate s.spaces ' '++[c]
    spaces := 0
    length := s.length+1}

/-- A carriage return that began no line break is written. -/
def settled (s : Unpadding) : Unpadding :=
  if s.carriageReturn then {s with carriageReturn := false}.push '\r' else s

def take (s : Unpadding) (c : Char) : Unpadding :=
  if s.carriageReturn ∧ c = '\n' then
    {into := ⟨s.into.text++crlf,endLine s.into.lengths s.length⟩}
  else if c = '\r' then {s.settled with carriageReturn := true}
  else if c = ' ' then
    {s.settled with spaces := s.settled.spaces+1, length := s.settled.length+1}
  else s.settled.push c

def finish (s : Unpadding) : ReadText :=
  ⟨s.settled.into.text,endLine s.settled.into.lengths s.settled.length⟩

end Unpadding

def unpaddedUtf16 (units : List UInt16) : ReadText :=
  ((decodeUtf16 units).foldl Unpadding.take {}).finish

/-- The character put at the beginning of the first line. -/
def prepend (c : Char) : List Text → List Text
  | line::lines => (c::line)::lines
  | [] => [[c]]

theorem crlfLines_cons {c : Char} {rest : Text} (h : c = '\r' → '\n'∉rest.head?) :
    crlfLines (c::rest)=prepend c (crlfLines rest) := by
  rw [crlfLines]
  · unfold prepend
    split <;> simp_all
  · rintro rest' rfl rfl
    exact h rfl rfl

theorem crlfLines_ne_nil (text : Text) : crlfLines text≠[] := by
  fun_cases crlfLines text <;> simp_all

theorem unpaddedLine_push {c : Char} (hc : c≠ ' ') (before line : Text) :
    unpaddedLine (before++c::line)=before++c::unpaddedLine line := by
  unfold unpaddedLine
  induction line using reverseRecOn with
  | nil =>
    rw [rdropWhile_concat_neg _ _ _ (by simpa using hc)]
    rfl
  | append_singleton line last ih =>
    rw [← cons_append,← append_assoc,rdropWhile_concat,rdropWhile_concat,ih]
    split <;> simp

theorem intercalate_cons (line : Text) (lines : List Text) :
    crlf.intercalate (line::lines)=line++lines.flatMap (crlf++·) := by
  induction lines generalizing line with
  | nil => simp
  | cons other lines ih => simp [intercalate_cons_cons,ih]

namespace Unpadding

variable (s : Unpadding) (lines : List Text)

def owed : Text := if s.carriageReturn then ['\r'] else []

/-- What the pass comes to when `lines` are what follows, the first on its line. -/
def closing : ReadText :=
  ⟨s.into.text++unpaddedLine (replicate s.spaces ' '++lines.headD []) ++
      lines.tail.flatMap (crlf++unpaddedLine ·),
    (lines.tail.map List.length).foldl endLine
      (endLine s.into.lengths (s.length+(lines.headD []).length))⟩

theorem closing_push {c : Char} (hc : c≠ ' ') :
    (s.push c).closing lines=s.closing (prepend c lines) := by
  cases lines <;> simp [prepend,closing,push,unpaddedLine_push hc,Nat.add_right_comm,Nat.add_assoc]

theorem closing_space : {s with spaces := s.spaces+1, length := s.length+1}.closing lines =
    s.closing (prepend ' ' lines) := by
  cases lines <;> simp [prepend,closing,replicate_succ',Nat.add_right_comm,Nat.add_assoc]

theorem settled_closing {rest : Text} (hrest : s.carriageReturn=true → '\n'∉rest.head?) :
    s.settled.closing (crlfLines rest)=s.closing (crlfLines (s.owed++rest)) := by
  unfold settled owed
  split
  next hcr =>
    rw [closing_push _ _ (by decide),singleton_append,crlfLines_cons fun _ => hrest hcr]
    rfl
  · rfl

theorem settled_owed : s.settled.owed=[] := by
  unfold settled
  split
  · rfl
  next hcr => simp [owed,hcr]

theorem unpaddedLine_spaces (count : Nat) : unpaddedLine (replicate count ' ')=[] := by
  simp [unpaddedLine,rdropWhile_eq_nil_iff]

/-- A character taken is the next of the lines that follow. -/
theorem take_closing (c : Char) (rest : Text) :
    (s.take c).closing (crlfLines ((s.take c).owed++rest)) =
      s.closing (crlfLines (s.owed++c::rest)) := by
  by_cases hbreak : s.carriageReturn=true ∧ c = '\n'
  · obtain ⟨hcr,rfl⟩ := hbreak
    obtain ⟨line,lines,hlines⟩ := exists_cons_of_ne_nil (crlfLines_ne_nil rest)
    simp [take,owed,hcr,crlfLines,hlines,closing,unpaddedLine_spaces]
  rw [← s.settled_closing (fun hcr => by simpa using fun hc => hbreak ⟨hcr,hc⟩),take,if_neg hbreak]
  split
  next hc =>
    rw [hc]
    rfl
  next hc =>
    have howed : s.settled.owed++rest=rest := by rw [settled_owed,nil_append]
    rw [crlfLines_cons fun heq => absurd heq hc]
    split
    next hspace =>
      rw [hspace,← closing_space]
      exact congrArg (fun text => closing _ (crlfLines text)) howed
    next hspace =>
      rw [← closing_push _ _ hspace]
      exact congrArg (fun text => closing _ (crlfLines text)) howed

theorem foldl_finish (rest : Text) (s : Unpadding) :
    (rest.foldl take s).finish=s.closing (crlfLines (s.owed++rest)) := by
  induction rest generalizing s with
  | nil =>
    rw [← s.settled_closing (by simp)]
    simp [crlfLines,closing,unpaddedLine_spaces,finish]
  | cons c rest ih => rw [foldl_cons,ih,take_closing]

end Unpadding

theorem onePass_unpadded (text : Text) : (text.foldl Unpadding.take {}).finish=.unpadded text := by
  rw [Unpadding.foldl_finish,ReadText.unpadded]
  obtain ⟨line,lines,hlines⟩ := exists_cons_of_ne_nil (crlfLines_ne_nil text)
  simp [Unpadding.owed,Unpadding.closing,hlines,intercalate_cons,flatMap_map]

theorem intercalate_crlfLines (text : Text) : crlf.intercalate (crlfLines text)=text := by
  fun_induction crlfLines text with
  | case1 => rfl
  | case2 rest ih =>
    obtain ⟨line,lines,hlines⟩ := exists_cons_of_ne_nil (crlfLines_ne_nil rest)
    rw [hlines,intercalate_cons] at ih
    rw [hlines,intercalate_cons,flatMap_cons,append_assoc,ih]
    rfl
  | case3 c rest _ line lines hlines ih =>
    rw [hlines,intercalate_cons] at ih
    rw [intercalate_cons,cons_append,ih]
  | case4 c rest _ hlines ih => exact absurd hlines (crlfLines_ne_nil rest)

theorem unbroken_cons {c : Char} {line : Text} :
    ¬ crlf <:+: c::line ↔ (c = '\r' → '\n'∉line.head?) ∧ ¬ crlf <:+: line := by
  rw [infix_cons_iff,not_or]
  refine and_congr_left fun _ => ?_
  cases line <;> simp [crlf,cons_prefix_cons,eq_comm]

/-- No line holds a line break. -/
theorem unbroken_of_mem {text line : Text} (h : line∈crlfLines text) : ¬ crlf <:+: line := by
  have hempty : ¬ crlf <:+: ([] : Text) := by decide
  fun_induction crlfLines text generalizing line with
  | case1 => exact mem_singleton.mp h ▸ hempty
  | case2 rest ih =>
    rcases mem_cons.mp h with rfl | h
    · exact hempty
    · exact ih h
  | case3 c rest hnot first lines hlines ih =>
    rcases mem_cons.mp h with rfl | h
    · refine unbroken_cons.mpr ⟨fun hc hhead => ?_,ih (hlines ▸ mem_cons_self)⟩
      have hrest := intercalate_crlfLines rest
      rw [hlines,intercalate_cons] at hrest
      obtain ⟨more,rfl⟩ := head?_eq_some_iff.mp hhead
      exact hnot _ hc hrest.symm
    · exact ih (hlines ▸ mem_cons_of_mem _ h)
  | case4 c rest _ hlines ih => exact absurd hlines (crlfLines_ne_nil rest)

theorem crlfLines_unbroken {line : Text} (h : ¬ crlf <:+: line) :
    crlfLines line=[line] ∧ ∀ rest, crlfLines (line++crlf++rest)=line::crlfLines rest := by
  induction line with
  | nil => exact ⟨rfl,fun _ => rfl⟩
  | cons c line ih =>
    obtain ⟨hhead,hline⟩ := unbroken_cons.mp h
    obtain ⟨halone,hmore⟩ := ih hline
    refine ⟨by rw [crlfLines_cons hhead,halone]; rfl,fun rest => ?_⟩
    rw [cons_append,cons_append,crlfLines_cons,hmore]
    · rfl
    · cases line with
      | nil => exact fun _ => by simp [crlf]
      | cons d line => exact hhead

theorem crlfLines_intercalate {lines : List Text} (hsome : lines≠[])
    (h : ∀ line∈lines, ¬ crlf <:+: line) : crlfLines (crlf.intercalate lines)=lines := by
  induction lines with
  | nil => exact absurd rfl hsome
  | cons line lines ih =>
    obtain ⟨halone,hmore⟩ := crlfLines_unbroken (h line mem_cons_self)
    cases lines with
    | nil => simpa using halone
    | cons other lines =>
      have ih := ih (by simp) fun line hline => h line (mem_cons_of_mem _ hline)
      rw [intercalate_cons] at ih ⊢
      rw [flatMap_cons,append_assoc,← append_assoc,hmore,ih]

theorem expanded_endLine (lengths : List (Nat × Nat)) (length : Nat) :
    (endLine lengths length).flatMap (fun (count,length) => replicate count length) =
      lengths.flatMap (fun (count,length) => replicate count length)++[length] := by
  rcases eq_nil_or_concat lengths with rfl | ⟨lengths,⟨count,last⟩,rfl⟩
  · rfl
  rw [endLine,concat_eq_append,getLast?_concat]
  simp only
  split
  next hlast => simp [hlast,replicate_succ']
  · simp

theorem expanded_foldl (lengths : List Nat) (runs : List (Nat × Nat)) :
    (lengths.foldl endLine runs).flatMap (fun (count,length) => replicate count length) =
      runs.flatMap (fun (count,length) => replicate count length)++lengths := by
  induction lengths generalizing runs with
  | nil => simp
  | cons length lengths ih => simp [ih,expanded_endLine]

theorem padLines_unpadded (lines : List Text) :
    padLines (lines.map unpaddedLine) (lines.map length) =
      lines.map fun line => (unpaddedLine line,line.length-(unpaddedLine line).length) := by
  induction lines with
  | nil => rfl
  | cons line lines ih => simp [padLines,ih]

theorem repadded (line : Text) :
    unpaddedLine line++replicate (line.length-(unpaddedLine line).length) ' '=line := by
  have hsplit := rdropWhile_append_rtakeWhile (p := (· = ' ')) (l := line)
  have hspaces : line.rtakeWhile (· = ' ') =
      replicate (line.length-(unpaddedLine line).length) ' ' := by
    refine eq_replicate_iff.mpr ⟨?_,fun c hc => by simpa using mem_rtakeWhile_imp hc⟩
    have hlength := congrArg length hsplit
    rw [length_append] at hlength
    exact Nat.eq_sub_of_add_eq' hlength
  rw [← hspaces]
  exact hsplit

/-- The pass over UTF-16 makes of every text what splitting it into lines makes of it decoded, and
what it leaves out is padded again exactly. -/
theorem unpadding_exact (units : List UInt16) (text : Text) :
    unpaddedUtf16 units=.unpadded (decodeUtf16 units) ∧ (ReadText.unpadded text).padded=text := by
  refine ⟨onePass_unpadded _,?_⟩
  have hlines : (ReadText.unpadded text).lines=(crlfLines text).map
      fun line => (unpaddedLine line,line.length-(unpaddedLine line).length) := by
    rw [ReadText.lines,ReadText.unpadded,expanded_foldl,flatMap_nil,nil_append,
      crlfLines_intercalate (by simpa using crlfLines_ne_nil text),padLines_unpadded]
    intro line hline
    obtain ⟨whole,hwhole,rfl⟩ := mem_map.mp hline
    exact fun hin => unbroken_of_mem hwhole (hin.trans ( rdropWhile_prefix _ _).isInfix)
  rw [ReadText.padded,hlines,map_map]
  simp only [Function.comp_def,repadded,map_id_fun',id,intercalate_crlfLines]

end Verbatim.Terminal
