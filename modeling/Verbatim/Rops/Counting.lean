import Mathlib.Algebra.Order.Ring.Int

namespace Verbatim.Rops

open Function List

/-- An instruction of a remote program, its offsets counted from itself. What neither jumps nor
counts is `other`, with the registers it reads or writes. -/
inductive Instruction (Op : Type)
  | forkIfTrue (condition : Nat) (offset : Int)
  | forkIfFalse (condition : Nat) (offset : Int)
  | fork (offset : Int)
  | halt
  | newLoopBlock (breakOffset continueOffset : Int)
  | endLoopBlock
  | breakLoop
  | continueLoop
  | newTryBlock (catchOffset : Int)
  | endTryBlock
  | newInt (result : Nat) (value : Int)
  | add (target value : Nat)
  | other (op : Op) (operands : List Nat)

structure Emitted (Op L : Type) where
  instruction : Instruction Op
  location : L

structure Program (Op L : Type) where
  emitted : List (Emitted Op L)
  results : List Nat
  nextId : Nat

variable {Op L V W : Type}

namespace Instruction

def offsets : Instruction Op → List Int
  | forkIfTrue _ offset | forkIfFalse _ offset | fork offset | newTryBlock offset => [offset]
  | newLoopBlock breakOffset continueOffset => [breakOffset,continueOffset]
  | _ => []

def mapOffsets (f : Int → Int) : Instruction Op → Instruction Op
  | forkIfTrue condition offset => forkIfTrue condition (f offset)
  | forkIfFalse condition offset => forkIfFalse condition (f offset)
  | fork offset => fork (f offset)
  | newTryBlock catchOffset => newTryBlock (f catchOffset)
  | newLoopBlock breakOffset continueOffset => newLoopBlock (f breakOffset) (f continueOffset)
  | instruction => instruction

def operands : Instruction Op → List Nat
  | forkIfTrue condition _ | forkIfFalse condition _ => [condition]
  | newInt result _ => [result]
  | add target value => [target,value]
  | other _ ids => ids
  | _ => []

end Instruction

/-- A finished program: its registers were allocated, and its jumps land on its instructions. -/
structure Finished (Op L : Type) extends Program Op L where
  results_lt : ∀ id∈results, id<nextId
  operands_lt : ∀ item∈emitted, ∀ id∈item.instruction.operands, id<nextId
  lands : ∀ (i : Nat) (item : Emitted Op L), emitted[i]?=some item →
    ∀ offset∈item.instruction.offsets, 0 ≤ i+offset ∧ i+offset<emitted.length

/-- An offset counts instructions; each has an addition before it in the counting form. The offset
is an `i32`, and what passes it wraps. -/
def doubled (offset : Int) : Int := (2*offset-1).bmod (2^32)

/-- The same program counting what it executes, its registers numbered by a `u32`. -/
def Program.counting (p : Program Op L) (here : L) : Program Op L where
  emitted :=
    let one := (p.nextId+1)%2^32
    ⟨.newInt p.nextId 0,here⟩::⟨.newInt one 1,here⟩::p.emitted.flatMap fun item =>
      [⟨.add p.nextId one,item.location⟩,⟨item.instruction.mapOffsets doubled,item.location⟩]
  results := p.results++[p.nextId]
  nextId := (p.nextId+2)%2^32

/-- Where an instruction's addition stands in the counting form. -/
def before (i : Nat) : Nat := 2*i+2

/-- The loop or try a run is in, with the places it goes to. -/
inductive Block
  | loop (exit again : Nat)
  | attempt (handler : Nat)

def Block.isLoop : Block → Bool
  | loop _ _ => true
  | attempt _ => false

structure State (V W : Type) where
  pc : Nat
  regs : Nat → V
  blocks : List Block
  world : W
  stopped : Bool

/-- The platform's machine, as assumed: its values, and what its instructions do with them and with
the applications. It runs on without a limit, so the integers have none. -/
structure Machine (Op V W : Type) where
  int : Int → V
  truth : V → Option Bool
  plus : V → V → Option V
  perform : Op → List V → W → Option (List V) × W
  fault : W → W
  plus_one : ∀ n : Nat, plus (int n) (int 1)=some (int (n+1))

def setAll (regs : Nat → V) (ids : List Nat) (values : List V) : Nat → V :=
  (ids.zip values).foldl (fun regs write => update regs write.1 write.2) regs

namespace Machine

variable (m : Machine Op V W) (s : State V W)

/-- A failure goes to the innermost try's catch, or ends the run. -/
def fail (s : State V W) : State V W :=
  match s.blocks.dropWhile Block.isLoop with
  | .attempt handler::blocks => {s with pc := handler,blocks,world := m.fault s.world}
  | _ => {s with pc := s.pc+1,world := m.fault s.world,stopped := true}

def write (ids : List Nat) : Option (List V) × W → State V W
  | (none,world) => m.fail {s with world}
  | (some values,world) => {s with pc := s.pc+1,regs := setAll s.regs ids values,world}

def branch (sense : Bool) (condition target : Nat) : State V W :=
  match m.truth (s.regs condition) with
  | none => m.fail s
  | some taken => {s with pc := if taken=sense then target else s.pc+1}

/-- What an instruction does, the one at the state's place. -/
def execute : Instruction Op → State V W
  | .forkIfTrue condition offset => m.branch s true condition (s.pc+offset).toNat
  | .forkIfFalse condition offset => m.branch s false condition (s.pc+offset).toNat
  | .fork offset => {s with pc := (s.pc+offset).toNat}
  | .halt => {s with pc := s.pc+1,stopped := true}
  | .newLoopBlock breakOffset continueOffset => {s with
      pc := s.pc+1
      blocks := .loop (s.pc+breakOffset).toNat (s.pc+continueOffset).toNat::s.blocks}
  | .newTryBlock catchOffset => {s with
      pc := s.pc+1,blocks := .attempt (s.pc+catchOffset).toNat::s.blocks}
  | .endLoopBlock | .endTryBlock => {s with pc := s.pc+1,blocks := s.blocks.tail}
  | .breakLoop => match s.blocks.dropWhile (!·.isLoop) with
      | .loop exit _::blocks => {s with pc := exit,blocks}
      | _ => m.fail s
  | .continueLoop => match s.blocks.dropWhile (!·.isLoop) with
      | .loop exit again::blocks => {s with pc := again,blocks := .loop exit again::blocks}
      | _ => m.fail s
  | .newInt result value => m.write s [result] (some [m.int value],s.world)
  | .add target value => m.write s [target]
      ((m.plus (s.regs target) (s.regs value)).map ([·]),s.world)
  | .other op ids => m.write s ids (m.perform op (ids.map s.regs) s.world)

def step (code : List (Emitted Op L)) : Option (State V W) :=
  if s.stopped then none else code[s.pc]?.map fun item => m.execute s item.instruction

/-- A run of so many instructions, with the places of those executed. -/
def run (code : List (Emitted Op L)) : Nat → State V W → Option (State V W × List Nat)
  | 0,s => some (s,[])
  | n+1,s => (m.step s code).bind fun s' => (run code n s').map fun (t,trail) => (t,s.pc::trail)

end Machine

theorem getElem?_pairs {α β : Type} (f g : α → β) (items : List α) (i : Nat) :
    (items.flatMap fun x => [f x,g x])[2*i]?=items[i]?.map f ∧
      (items.flatMap fun x => [f x,g x])[2*i+1]?=items[i]?.map g := by
  induction items generalizing i with
  | nil => simp
  | cons item items ih =>
    cases i with
    | zero => simp
    | succ i => exact ih i

def Block.moved : Block → Block
  | loop exit again => loop (before exit) (before again)
  | attempt handler => attempt (before handler)

theorem Block.isLoop_moved (block : Block) : block.moved.isLoop=block.isLoop := by
  cases block <;> rfl

section Counted

variable (p : Finished Op L) (here : L) (m : Machine Op V W) (n : Nat)

/-- The registers of the counting form beside the program's. -/
def marked (regs : Nat → V) : Nat → V :=
  update (update regs p.nextId (m.int n)) (p.nextId+1) (m.int 1)

/-- The counting form's state before the addition of the instruction the program is at. -/
def counted (s : State V W) : State V W :=
  {s with pc := before s.pc,regs := marked p m n s.regs,blocks := s.blocks.map Block.moved}

/-- The counting form's state after that addition. -/
def added (s : State V W) : State V W := {counted p m n s with pc := before s.pc+1}

variable {p m n}

theorem marked_of_lt {id : Nat} (h : id<p.nextId) (regs : Nat → V) :
    marked p m n regs id=regs id := by
  rw [marked,update_of_ne (by omega),update_of_ne (by omega)]

theorem marked_counter (regs : Nat → V) : marked p m n regs p.nextId=m.int n := by
  rw [marked,update_of_ne (by omega),update_self]

theorem setAll_marked {ids : List Nat} (h : ∀ id∈ids, id<p.nextId) (values : List V)
    (regs : Nat → V) :
    setAll (marked p m n regs) ids values=marked p m n (setAll regs ids values) := by
  induction ids generalizing values regs with
  | nil => rfl
  | cons id ids ih =>
    cases values with
    | nil => rfl
    | cons value values =>
      have hid := h id mem_cons_self
      have hmarked : update (marked p m n regs) id value=marked p m n (update regs id value) := by
        rw [marked,marked,update_comm (by omega),update_comm (by omega : p.nextId≠id)]
      have hrest := ih (fun id hid => h id (mem_cons_of_mem _ hid)) values (update regs id value)
      rw [← hmarked] at hrest
      exact hrest

variable (s : State V W)

theorem fail_counted : m.fail (added p m n s)=counted p m n (m.fail s) := by
  simp only [Machine.fail,added,counted,dropWhile_map,comp_def,Block.isLoop_moved]
  cases s.blocks.dropWhile Block.isLoop with
  | nil => rfl
  | cons block blocks => cases block <;> rfl

theorem write_counted {ids : List Nat} (h : ∀ id∈ids, id<p.nextId)
    (outcome : Option (List V) × W) :
    m.write (added p m n s) ids outcome=counted p m n (m.write s ids outcome) := by
  obtain ⟨_ | values,world⟩ := outcome
  · exact fail_counted {s with world}
  · simp only [Machine.write,added,counted,setAll_marked h]
    rfl

theorem toNat_doubled {i : Nat} {offset : Int} (h : 0 ≤ i+offset ∧ doubled offset=2*offset-1) :
    ((before i+1 : Nat)+doubled offset).toNat=before (i+offset).toNat := by
  rw [h.2]
  unfold before
  omega

theorem branch_counted {condition target : Nat} (h : condition<p.nextId) (sense : Bool) :
    m.branch (added p m n s) sense condition (before target) =
      counted p m n (m.branch s sense condition target) := by
  have hcondition : (added p m n s).regs condition=s.regs condition := marked_of_lt h s.regs
  simp only [Machine.branch,hcondition]
  cases m.truth (s.regs condition) with
  | none => exact fail_counted s
  | some taken =>
    simp only [added,counted,apply_ite before]
    rfl

theorem execute_counted {instruction : Instruction Op}
    (hids : ∀ id∈instruction.operands, id<p.nextId)
    (hlands : ∀ offset∈instruction.offsets, 0 ≤ s.pc+offset ∧ doubled offset=2*offset-1) :
    m.execute (added p m n s) (instruction.mapOffsets doubled) =
      counted p m n (m.execute s instruction) := by
  have hjump {offset : Int} (h : offset∈instruction.offsets) := toNat_doubled (hlands offset h)
  cases instruction with
  | forkIfTrue condition offset | forkIfFalse condition offset =>
    exact (congrArg (m.branch _ _ condition) (hjump mem_cons_self)).trans
      (branch_counted s (hids condition mem_cons_self) _)
  | fork offset =>
    simp only [Instruction.mapOffsets,Machine.execute,added,counted,hjump mem_cons_self]
  | newTryBlock offset =>
    simp only [Instruction.mapOffsets,Machine.execute,added,counted,hjump mem_cons_self]
    rfl
  | newLoopBlock breakOffset continueOffset =>
    simp only [Instruction.mapOffsets,Machine.execute,added,counted,hjump mem_cons_self,
      hjump (mem_cons_of_mem _ mem_cons_self)]
    rfl
  | halt => rfl
  | endLoopBlock | endTryBlock =>
    simp only [Instruction.mapOffsets,Machine.execute,added,counted,map_tail]
    rfl
  | breakLoop | continueLoop =>
    simp only [Instruction.mapOffsets,Machine.execute,added,counted,dropWhile_map,comp_def,
      Block.isLoop_moved]
    cases s.blocks.dropWhile (!·.isLoop) with
    | nil => exact fail_counted s
    | cons block blocks =>
      cases block with
      | loop exit again => rfl
      | attempt handler => exact fail_counted s
  | newInt result value => exact write_counted s hids (some [m.int value],s.world)
  | add target value =>
    have htarget := hids target mem_cons_self
    have hvalue := hids value (mem_cons_of_mem _ mem_cons_self)
    simp only [Instruction.mapOffsets,Machine.execute,added,counted,marked_of_lt htarget,
      marked_of_lt hvalue]
    exact write_counted s (fun id hid => mem_singleton.mp hid ▸ htarget) _
  | other op ids =>
    have hregs : ids.map (added p m n s).regs=ids.map s.regs :=
      map_congr_left fun id hid => marked_of_lt (hids id hid) s.regs
    simp only [Instruction.mapOffsets,Machine.execute,hregs]
    exact write_counted s hids _

/-- A jump within a program of at most `2^30` instructions is doubled as it is. -/
theorem lands_doubled (hlength : p.emitted.length≤2^30) {i : Nat} {item : Emitted Op L}
    (hitem : p.emitted[i]?=some item) {offset : Int} (hoffset : offset∈item.instruction.offsets) :
    0 ≤ i+offset ∧ doubled offset=2*offset-1 := by
  have hi := (List.getElem?_eq_some_iff.mp hitem).1
  obtain ⟨hlow,hhigh⟩ := p.lands i item hitem offset hoffset
  exact ⟨hlow,Int.bmod_eq_of_le (by omega) (by omega)⟩

section

variable (hids : p.nextId+2<2^32)

include hids

theorem emitted_counting : (p.counting here).emitted =
    ⟨.newInt p.nextId 0,here⟩::⟨.newInt (p.nextId+1) 1,here⟩::p.emitted.flatMap fun item =>
      [⟨.add p.nextId (p.nextId+1),item.location⟩,
        ⟨item.instruction.mapOffsets doubled,item.location⟩] := by
  have hone : (p.nextId+1)%2^32=p.nextId+1 := Nat.mod_eq_of_lt (by omega)
  simp only [Program.counting,hone]

theorem lookup_counting (i : Nat) :
    (p.counting here).emitted[before i]? =
        p.emitted[i]?.map (fun item => ⟨.add p.nextId (p.nextId+1),item.location⟩) ∧
      (p.counting here).emitted[before i+1]? = p.emitted[i]?.map fun item =>
        ⟨item.instruction.mapOffsets doubled,item.location⟩ := by
  rw [emitted_counting here hids]
  exact getElem?_pairs _ _ p.emitted i

theorem step_counted : m.step (counted p m n s) (p.counting here).emitted =
    (m.step s p.emitted).map fun _ => added p m (n+1) s := by
  have hcount : update (marked p m n s.regs) p.nextId (m.int (n+1 : Nat)) =
      marked p m (n+1) s.regs := by
    rw [marked,update_comm (by omega),update_idem]
    rfl
  have hone : marked p m n s.regs (p.nextId+1)=m.int 1 := update_self ..
  simp only [Machine.step,counted,(lookup_counting here hids s.pc).1]
  split
  · rfl
  cases p.emitted[s.pc]? with
  | none => rfl
  | some item =>
    simp only [Option.map_some,Machine.execute,marked_counter,hone,m.plus_one]
    exact congrArg some (congrArg (fun regs => {added p m n s with regs}) hcount)

variable (hlength : p.emitted.length≤2^30)

include hlength

theorem step_added : m.step (added p m n s) (p.counting here).emitted =
    (m.step s p.emitted).map (counted p m n) := by
  simp only [Machine.step,added,counted,(lookup_counting here hids s.pc).2]
  split
  · rfl
  cases h : p.emitted[s.pc]? with
  | none => rfl
  | some item =>
    refine congrArg some (execute_counted s (p.operands_lt item (mem_of_getElem? h)) ?_)
    exact fun _ => lands_doubled hlength h

theorem run_counted (k : Nat) :
    m.run (p.counting here).emitted (2*k) (counted p m n s) = (m.run p.emitted k s).map
      fun r => (counted p m (n+k) r.1,r.2.flatMap fun i => [before i,before i+1]) := by
  induction k generalizing n s with
  | zero => rfl
  | succ k ih =>
    rw [Nat.mul_succ,Machine.run,Machine.run,step_counted here s hids]
    cases h : m.step s p.emitted with
    | none => rfl
    | some s' =>
      simp only [Option.map_some,Option.bind_some,Machine.run,step_added here s hids hlength,h,ih,
        Option.map_map]
      rw [Nat.add_assoc,Nat.add_comm 1 k]
      rfl

end

end Counted

/-- The counting form runs as the program does, an addition before each of its instructions: in two
steps more than twice as many it is in the same state with its counter at their number, it ends when
the program ends, and a jump lands on the addition before its old target. -/
theorem counting_runs (p : Finished Op L) (hlength : p.emitted.length≤2^30)
    (hids : p.nextId+2<2^32) (here : L) (m : Machine Op V W) (regs : Nat → V) (world : W)
    (n : Nat) :
    (m.run (p.counting here).emitted (2*n+2) ⟨0,regs,[],world,false⟩ =
      (m.run p.emitted n ⟨0,regs,[],world,false⟩).map fun r =>
        (counted p m n r.1,0::1::r.2.flatMap fun i => [before i,before i+1])) ∧
    (∀ s : State V W, ((m.step (counted p m n s) (p.counting here).emitted).isNone ↔
        (m.step s p.emitted).isNone) ∧
      (p.counting here).results.map (counted p m n s).regs=p.results.map s.regs++[m.int n]) ∧
    ∀ (i : Nat) item, p.emitted[i]?=some item →
      (p.counting here).emitted[before i+1]? =
        some ⟨item.instruction.mapOffsets doubled,item.location⟩ ∧
      ∀ offset∈item.instruction.offsets, ∃ (j : Nat) (next : Emitted Op L),
        p.emitted[j]?=some next ∧ (i : Int)+offset=j ∧ (before i+1 : Nat)+doubled offset=before j ∧
        (p.counting here).emitted[before j]? =
          some ⟨.add p.nextId (p.nextId+1),next.location⟩ := by
  refine ⟨?_,fun s => ⟨?_,?_⟩,fun i item hitem => ⟨?_,fun offset hoffset => ?_⟩⟩
  · have h := run_counted (m := m) (n := 0) here ⟨0,regs,[],world,false⟩ hids hlength n
    rw [Nat.zero_add,emitted_counting here hids] at h
    rw [emitted_counting here hids]
    change ((m.run _ (2*n) (counted p m 0 ⟨0,regs,[],world,false⟩)).map _).map _=_
    rw [h,Option.map_map,Option.map_map]
    rfl
  · rw [step_counted here s hids,Option.isNone_map]
  · have hcounter : (counted p m n s).regs p.nextId=m.int n := marked_counter s.regs
    simp only [Program.counting,map_append,map_cons,map_nil,hcounter]
    exact congrArg (·++_) (map_congr_left fun id hid => marked_of_lt (p.results_lt id hid) s.regs)
  · rw [(lookup_counting here hids i).2,hitem]
    rfl
  · obtain ⟨hlow,hhigh⟩ := p.lands i item hitem offset hoffset
    obtain ⟨j,hj⟩ := Int.eq_ofNat_of_zero_le hlow
    have hlt : j<p.emitted.length := by omega
    refine ⟨j,p.emitted[j],getElem?_eq_getElem hlt,hj,?_,?_⟩
    · rw [(lands_doubled hlength hitem hoffset).2]
      unfold before
      omega
    · rw [(lookup_counting here hids j).1,getElem?_eq_getElem hlt]
      rfl

inductive Sample
  | less
  | fails

/-- A machine of integers, whose world counts the failures. -/
def sampleMachine : Machine Sample Int Nat where
  int n := n
  truth v := some (v≠0)
  plus a b := some (a+b)
  perform
    | .less,[_,a,b],world => (some [if a<b then 1 else 0,a,b],world)
    | _,_,world => (none,world)
  fault world := world+1
  plus_one _ := rfl

def sampleCode : List (Emitted Sample Unit) :=
  [⟨.newInt 1 0,()⟩,⟨.newInt 2 1,()⟩,⟨.newInt 3 2,()⟩,⟨.newLoopBlock 9 1,()⟩,
    ⟨.other .less [4,1,3],()⟩,⟨.forkIfFalse 4 6,()⟩,⟨.newTryBlock 3,()⟩,⟨.other .fails [],()⟩,
    ⟨.endTryBlock,()⟩,⟨.add 1 2,()⟩,⟨.fork (-6),()⟩,⟨.breakLoop,()⟩,⟨.halt,()⟩]

/-- Counts to two in a loop, failing in a try each time round. -/
def sampleLoop : Finished Sample Unit where
  emitted := sampleCode
  results := [1]
  nextId := 5
  results_lt := by decide
  operands_lt := by decide
  lands i item hitem := by
    have hlands : ∀ place∈sampleCode.zipIdx, ∀ offset∈place.1.instruction.offsets,
        0 ≤ place.2+offset ∧ place.2+offset<sampleCode.length := by decide
    exact hlands (item,i) (mk_mem_zipIdx_iff_getElem?.mpr hitem)

theorem sampleLoop_counted :
    (sampleMachine.run (sampleLoop.counting ()).emitted 42 ⟨0,fun _ => 0,[],0,false⟩).map
      (fun r => ((sampleLoop.counting ()).results.map r.1.regs,r.1.world,r.1.stopped)) =
    some ([2,20],2,true) := by
  rw [(counting_runs sampleLoop (by decide) (by decide) () sampleMachine (fun _ => 0) 0 20).1]
  rfl

/-- A jump past `n - 1` instructions to the last. -/
def farJump (n : Nat) : Finished Sample Unit where
  emitted := ⟨.fork n,()⟩::replicate n ⟨.halt,()⟩
  results := []
  nextId := 1
  results_lt := by simp
  operands_lt := by simp [Instruction.operands]
  lands i item hitem := by
    cases i with
    | zero =>
      cases hitem
      simp [Instruction.offsets]
    | succ i =>
      obtain ⟨-,rfl⟩ := mem_replicate.mp (mem_of_getElem? hitem)
      simp [Instruction.offsets]

theorem farJump_counting (n : Nat) :
    (farJump n).emitted[0]?=some ⟨.fork n,()⟩ ∧ (farJump n).emitted.length=n+1 ∧
      ((farJump n).counting ()).emitted[before 0+1]?=some ⟨.fork (doubled n),()⟩ :=
  ⟨rfl,by simp [farJump],(lookup_counting () (by simp [farJump]) 0).2⟩

/-- In a longer program the jump's doubled offset wraps, and lands before the program. -/
theorem farJump_wraps :
    (farJump (2^30+1)).emitted.length=2^30+2 ∧
      (farJump (2^30+1)).emitted[0]?=some ⟨.fork (2^30+1 : Nat),()⟩ ∧
      ((farJump (2^30+1)).counting ()).emitted[before 0+1]? =
        some ⟨.fork (doubled (2^30+1 : Nat)),()⟩ ∧
      (before 0+1 : Nat)+doubled (2^30+1 : Nat)<0 := by
  obtain ⟨hjump,hlength,hcounting⟩ := farJump_counting (2^30+1)
  exact ⟨hlength,hjump,hcounting,by decide⟩

end Verbatim.Rops
