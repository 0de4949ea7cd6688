import Verbatim.Framework.Machine
import Verbatim.Listener.Schedule

namespace Verbatim.Listener

open Framework ReaderRules List Option Nat

/-- What one application's reading comes to: the events waiting, the thread in charge and
its generation, the read under way with its request, its event and whether it was
published, and the threads abandoned to reads that have not returned. -/
structure Desk where
  waiting : List Meta
  threaded : Bool
  generation : Nat
  reading : Option (Request × Meta × Bool)
  abandoned : Nat
  limited : Bool

namespace Desk

def new : Desk := ⟨[],false,0,none,0,false⟩

def unpublished (d : Desk) : List Meta :=
  match d.reading with
  | some (_,info,false) => [info]
  | _ => []

end Desk

/-- What is seen of one application from outside: the events and results given, and
the effects that name it. An outcome is passed over when its event was replaced by a newer
one or refused at the stop. -/
inductive Act where
  | queued (info : Meta)
  | returned (request : Request) (info : Meta)
  | outcome (info : Meta) (passed : Bool)
  | spawn (generation : Nat)
  | unwatch
  | forget
  | job (request : Request) (info : Meta)

def owed (info : Meta) (published passed : Bool) : List Act :=
  if published then [] else [.outcome info passed]

inductive Move : Desk → List Act → Desk → Prop where
  | queue (d : Desk) (info : Meta) : Move d [.queued info] {d with waiting := d.waiting++[info]}
  | refuse (d : Desk) (info : Meta) : Move d [.queued info,.outcome info true] d
  | drop (d : Desk) (before after : List Meta) (info : Meta) (passed : Bool)
      (hw : d.waiting=before++info::after)
      (hfront : passed=false → before=[] ∧ d.reading=none) :
      Move d [.outcome info passed] {d with waiting := before++after}
  | spawn (d : Desk) (ht : d.threaded=false) (hw : d.waiting≠[]) (ha : d.abandoned<abandonedLimit) :
      Move d [.spawn (d.generation+1)] {d with threaded := true, generation := d.generation+1}
  | start (d : Desk) (request : Request) (info : Meta) (rest : List Meta)
      (ht : d.threaded=true) (hr : d.reading=none) (hw : d.waiting=info::rest)
      (hg : request.generation=d.generation) :
      Move d [.job request info] {d with waiting := rest, reading := some (request,info,false)}
  | publish (d : Desk) (request : Request) (info : Meta)
      (hr : d.reading=some (request,info,false)) :
      Move d [.outcome info false] {d with reading := some (request,info,true)}
  | finish (d : Desk) (request : Request) (info : Meta) (published passed : Bool)
      (hr : d.reading=some (request,info,published)) :
      Move d (.returned request info::owed info published passed) {d with reading := none}
  | abandon (d : Desk) (request : Request) (info : Meta) (published passed : Bool)
      (hr : d.reading=some (request,info,published)) :
      Move d (.unwatch::owed info published passed)
        {d with reading := none, threaded := false, generation := d.generation+1,
                 abandoned := d.abandoned+1,
                 limited := d.limited || abandonedLimit≤d.abandoned+1}
  | regain (d : Desk) (request : Request) (info : Meta) (hg : request.generation<d.generation)
      (ha : 0<d.abandoned) :
      Move d [.returned request info]
        {d with abandoned := d.abandoned-1,limited := d.limited && abandonedLimit≤d.abandoned-1}
  | retire (d : Desk) (ht : d.threaded=true) (hr : d.reading=none) (hw : d.waiting=[]) :
      Move d [] {d with threaded := false}
  | unspawned (d : Desk) (hr : d.reading=none) : Move d [] {d with threaded := false}
  | forget (d : Desk) (ht : d.threaded=false) (hr : d.reading=none) (hw : d.waiting=[])
      (ha : d.abandoned=0) : Move d [.forget] Desk.new

def queuedOf (acts : List Act) : List Meta :=
  acts.filterMap (fun | .queued info => some info | _ => none)

def outcomesOf (acts : List Act) : List Meta :=
  acts.filterMap (fun | .outcome info _ => some info | _ => none)

def seeJob (jobs : List (Request × Meta)) : Act → List (Request × Meta)
  | .job request info => jobs++[(request,info)]
  | .returned request info => jobs.erase (request,info)
  | _ => jobs

def openJobs (jobs : List (Request × Meta)) (acts : List Act) : List (Request × Meta) :=
  acts.foldl seeJob jobs

def ReturnsOpen (jobs : List (Request × Meta)) : List Act → Prop
  | [] => True
  | .returned request info::acts =>
      (request,info)∈jobs ∧ ReturnsOpen (seeJob jobs (.returned request info)) acts
  | act::acts => ReturnsOpen (seeJob jobs act) acts

/-- The threads put in charge since the application was last forgotten: the last one's
generation, every one's, and those whose read was abandoned. -/
structure Threads where
  last : Option Nat
  spawned : List Nat
  dead : List Nat

def Threads.new : Threads := ⟨none,[],[]⟩

def Threads.see (t : Threads) : Act → Threads
  | .spawn generation => {t with last := some generation, spawned := t.spawned++[generation]}
  | .unwatch => {t with dead := t.dead++t.last.toList}
  | .forget => Threads.new
  | _ => t

def threadsOf (acts : List Act) : Threads := acts.foldl Threads.see Threads.new

@[simp] theorem queuedOf_append (as bs : List Act) :
    queuedOf (as++bs)=queuedOf as++queuedOf bs := filterMap_append

@[simp] theorem outcomesOf_append (as bs : List Act) :
    outcomesOf (as++bs)=outcomesOf as++outcomesOf bs := filterMap_append

def Desk.held (d : Desk) : List Meta := d.waiting++d.unpublished

theorem outcomesOf_owed (d : Desk) (request : Request) (info : Meta) (published passed : Bool)
    (hr : d.reading=some (request,info,published)) :
    outcomesOf (owed info published passed)=d.unpublished := by
  cases published <;> simp [owed,outcomesOf,Desk.unpublished,hr]

@[simp] theorem queuedOf_owed (info : Meta) (published passed : Bool) :
    queuedOf (owed info published passed)=[] := by
  cases published <;> rfl

variable {as : List Act} {d d' : Desk}

/-- A move keeps the books: what was held and what it queues is what is then held and
what it sends outcomes of. -/
theorem move_ledger (h : Move d as d') : (d.held++queuedOf as).Perm (d'.held++outcomesOf as) := by
  rw [perm_iff_count]
  intro m
  cases h with
  | queue info =>
    simp only [Desk.held,Desk.unpublished,queuedOf,outcomesOf,count_append,
      filterMap_cons,filterMap_nil,count_nil]
    omega
  | refuse info => simp [queuedOf,outcomesOf]
  | drop before after info passed hw hfront =>
    simp only [Desk.held,Desk.unpublished,hw,queuedOf,outcomesOf,count_append,
      count_cons,filterMap_cons,filterMap_nil,count_nil]
    omega
  | spawn ht hw ha => simp [queuedOf,outcomesOf,Desk.held,Desk.unpublished]
  | start request info rest ht hr hw hg =>
    simp only [Desk.held,Desk.unpublished,hw,hr,queuedOf,outcomesOf,count_append,
      count_cons,filterMap_cons,filterMap_nil,count_nil]
    omega
  | publish request info hr =>
    simp [Desk.held,Desk.unpublished,hr,queuedOf,outcomesOf]
  | finish request info published passed hr =>
    have ho : outcomesOf (.returned request info::owed info published passed)=d.unpublished :=
      outcomesOf_owed d request info published passed hr
    rw [ho,show queuedOf (.returned request info::owed info published passed)=[] from
      queuedOf_owed info published passed]
    simp [Desk.held,Desk.unpublished]
  | abandon request info published passed hr =>
    have ho : outcomesOf (.unwatch::owed info published passed)=d.unpublished :=
      outcomesOf_owed d request info published passed hr
    rw [ho,show queuedOf (.unwatch::owed info published passed)=[] from
      queuedOf_owed info published passed]
    simp [Desk.held,Desk.unpublished]
  | regain request info hg ha | retire ht hr hw | unspawned hr =>
    simp [queuedOf,outcomesOf,Desk.held,Desk.unpublished]
  | forget ht hr hw ha =>
    simp [queuedOf,outcomesOf,Desk.held,Desk.unpublished,hr,hw,Desk.new]

/-- Over any run of moves, every event held or queued is held then or has an outcome. -/
theorem chain_ledger (h : Chain Move d as d') :
    (d.held++queuedOf as).Perm (d'.held++outcomesOf as) := by
  refine Chain.invariant (fun as d' => (d.held++queuedOf as).Perm (d'.held++outcomesOf as))
    (by simp [queuedOf,outcomesOf]) ?_ h
  intro as d bs d' ih hm
  have hmove := move_ledger hm
  rw [perm_iff_count] at ih hmove ⊢
  intro m
  have h1 := ih m
  have h2 := hmove m
  simp only [queuedOf_append,outcomesOf_append,count_append] at h1 h2 ⊢
  omega

/-- What the counters of a desk say: a read is under way only while a thread is in charge,
under its generation, and the limit is reached exactly at the limit. -/
structure Desk.Sound (d : Desk) : Prop where
  threaded : d.reading.isSome → d.threaded=true
  request : ∀ r, d.reading=some r → r.1.generation=d.generation
  below : d.threaded=true → d.abandoned<abandonedLimit
  atMost : d.abandoned≤abandonedLimit
  limited : d.limited=true ↔ d.abandoned=abandonedLimit

theorem Desk.Sound.reading_none {d : Desk} (hs : d.Sound) (ht : d.threaded=false) :
    d.reading=none := by
  cases hr : d.reading with
  | none => rfl
  | some r => simpa [ht] using hs.threaded (by simp [hr])

theorem sound_new : Desk.new.Sound := by
  constructor <;> simp [Desk.new,abandonedLimit]

theorem move_sound (hs : d.Sound) (h : Move d as d') : d'.Sound := by
  have hnone := hs.reading_none
  obtain ⟨ht,hq,hb,ha,hl⟩ := hs
  cases h with
  | queue info | refuse info | drop before after info passed hw hfront => exact ⟨ht,hq,hb,ha,hl⟩
  | spawn hn hw hlt =>
    exact ⟨fun _ => rfl,by simp [hnone hn],fun _ => hlt,ha,hl⟩
  | start request info rest htt hr hw hg =>
    exact ⟨fun _ => htt,by simp [hg],hb,ha,hl⟩
  | publish request info hr =>
    have h1 := ht (by simp [hr])
    have h2 := hq _ hr
    exact ⟨fun _ => h1,by simpa using h2,hb,ha,hl⟩
  | finish request info published passed hr => exact ⟨by simp,by simp,hb,ha,hl⟩
  | abandon request info published passed hr =>
    have hlt := hb (ht (by simp [hr]))
    refine ⟨by simp,by simp,by simp,hlt,?_⟩
    simp only [Bool.or_eq_true,hl,decide_eq_true_eq]
    omega
  | regain request info hg hp =>
    refine ⟨ht,hq,fun hd => by have := hb hd; simp only; omega,by simp only; omega,?_⟩
    simp only [Bool.and_eq_true,decide_eq_true_eq]
    omega
  | retire htt hr hw | unspawned hr => exact ⟨by simp [hr],by simp [hr],by simp,ha,hl⟩
  | forget htt hr hw h0 => exact sound_new

theorem chain_sound (hs : d.Sound) (h : Chain Move d as d') : d'.Sound :=
  Chain.invariant (fun _ d => d.Sound) hs (fun _ _ _ _ ih hm => move_sound ih hm) h

section Jobs

variable (jobs : List (Request × Meta))

theorem openJobs_append (as bs : List Act) :
    openJobs jobs (as++bs)=openJobs (openJobs jobs as) bs := foldl_append

theorem returnsOpen_append (as bs : List Act) :
    ReturnsOpen jobs (as++bs) ↔ ReturnsOpen jobs as ∧ ReturnsOpen (openJobs jobs as) bs := by
  induction as generalizing jobs with
  | nil => simp [ReturnsOpen,openJobs]
  | cons a as ih => cases a <;> simp [ReturnsOpen,openJobs,ih,and_assoc]

@[simp] theorem openJobs_owed (info : Meta) (published passed : Bool) :
    openJobs jobs (owed info published passed)=jobs := by
  cases published <;> rfl

/-- The reads handed out and not returned are the one under way and, of earlier
generations, one for each thread abandoned. -/
structure Desk.Holds (d : Desk) (jobs : List (Request × Meta)) : Prop where
  current : ∀ request info published, d.reading=some (request,info,published) →
    jobs.count (request,info)=1
  strays : ∀ j∈jobs, j.1.generation<d.generation ∨ ∃ published, d.reading=some (j.1,j.2,published)
  length : jobs.length=d.abandoned+d.reading.toList.length

theorem holds_new : Desk.new.Holds [] := by
  constructor <;> simp [Desk.new]

variable {d : Desk} {jobs : List (Request × Meta)}

theorem Desk.Holds.stray_of_none (hj : d.Holds jobs) (hr : d.reading=none) :
    ∀ j∈jobs, j.1.generation<d.generation := by
  intro j hm
  rcases hj.strays j hm with h | ⟨published,h⟩
  · exact h
  · rw [hr] at h
    cases h

theorem Desk.Holds.abandoned_pos {request : Request} {info : Meta} (hj : d.Holds jobs)
    (hs : d.Sound) (hm : (request,info)∈jobs) (hg : request.generation<d.generation) :
    0<d.abandoned := by
  have hlen := hj.length
  cases hr : d.reading with
  | none =>
    have := length_pos_of_mem hm
    simp [hr] at hlen
    omega
  | some r =>
    obtain ⟨current,event,published⟩ := r
    have hgen : current.generation=d.generation := hs.request _ hr
    have hne : (current,event)≠(request,info) := fun heq => by
      rw [Prod.mk.injEq] at heq
      rw [heq.1] at hgen
      omega
    have hcur : (current,event)∈jobs := count_pos_iff.mp (by rw [hj.current _ _ _ hr]; omega)
    have := length_pos_of_mem ((mem_erase_of_ne hne).mpr hcur)
    rw [length_erase_of_mem hm] at this
    simp [hr] at hlen
    omega

theorem move_holds {d' : Desk} (hs : d.Sound) (hj : d.Holds jobs) (hopen : ReturnsOpen jobs as)
    (h : Move d as d') : d'.Holds (openJobs jobs as) := by
  cases h with
  | queue info | refuse info | drop before after info passed hw hfront | retire ht hr hw
  | unspawned hr =>
    exact ⟨hj.current,hj.strays,hj.length⟩
  | spawn ht hw ha =>
    have hr := hs.reading_none ht
    refine ⟨hj.current,fun j hm => ?_,hj.length⟩
    exact Or.inl (lt_succ_of_lt (hj.stray_of_none hr j hm))
  | start request info rest ht hr hw hg =>
    have hlt := hj.stray_of_none hr
    have hnew : (request,info)∉jobs := fun hm => by
      have := hlt _ hm
      simp only [hg] at this
      omega
    refine ⟨?_,?_,?_⟩
    · intro request' info' published h
      obtain ⟨rfl,rfl,-⟩ := h
      simp [openJobs,seeJob,count_eq_zero.mpr hnew]
    · intro j hm
      rcases mem_append.mp hm with h | h
      · exact Or.inl (hlt j h)
      · rw [mem_singleton] at h
        exact Or.inr ⟨false,by rw [h]⟩
    · have := hj.length
      simp [openJobs,seeJob,hr] at this ⊢
      omega
  | publish request info hr =>
    refine ⟨?_,?_,?_⟩
    · intro request' info' published h
      obtain ⟨rfl,rfl,-⟩ := h
      exact hj.current _ _ _ hr
    · intro j hm
      rcases hj.strays j hm with h | ⟨published,h⟩
      · exact Or.inl h
      rw [hr] at h
      simp only [some.injEq,Prod.mk.injEq] at h
      exact Or.inr ⟨true,by simp [h]⟩
    · simpa [hr,openJobs,seeJob] using hj.length
  | finish request info published passed hr =>
    have hone := hj.current _ _ _ hr
    have hmem : (request,info)∈jobs := count_pos_iff.mp (by omega)
    have hopened : openJobs jobs (.returned request info::owed info published passed) =
        jobs.erase (request,info) := openJobs_owed _ _ _ _
    rw [hopened]
    refine ⟨by simp,?_,?_⟩
    · intro j hm
      rcases hj.strays j (mem_of_mem_erase hm) with h | ⟨p,h⟩
      · exact Or.inl h
      rw [hr] at h
      simp only [some.injEq,Prod.mk.injEq] at h
      have hpos := count_pos_iff.mpr hm
      rw [← show (request,info)=j from Prod.ext h.1 h.2.1,count_erase_self] at hpos
      omega
    · have := hj.length
      rw [length_erase_of_mem hmem]
      simp [hr] at this ⊢
      omega
  | abandon request info published passed hr =>
    have hopened : openJobs jobs (.unwatch::owed info published passed)=jobs :=
      openJobs_owed _ _ _ _
    rw [hopened]
    refine ⟨by simp,?_,?_⟩
    · intro j hm
      rcases hj.strays j hm with h | ⟨p,h⟩
      · exact Or.inl (lt_succ_of_lt h)
      · exact Or.inl (lt_succ_of_le (hs.request _ h).le)
    · simpa [hr] using hj.length
  | regain request info hg ha =>
    have hmem : (request,info)∈jobs := hopen.1
    refine ⟨?_,?_,?_⟩
    · intro request' info' published h
      have hne : (request',info')≠(request,info) := by
        intro heq
        have := hs.request _ h
        simp only [Prod.mk.injEq] at heq
        simp only [heq.1] at this
        omega
      simpa [openJobs,seeJob,count_erase_of_ne hne] using hj.current _ _ _ h
    · intro j hm
      exact hj.strays j (mem_of_mem_erase hm)
    · have := hj.length
      simp only [openJobs,foldl_cons,foldl_nil,seeJob,length_erase_of_mem hmem]
      omega
  | forget ht hr hw ha =>
    have hnil : jobs=[] := by
      have := hj.length
      simpa [hr,ha] using this
    simpa [hnil,openJobs,seeJob] using holds_new

theorem chain_holds {d' : Desk} (hs : d.Sound) (hj : d.Holds jobs) (h : Chain Move d as d')
    (hopen : ReturnsOpen jobs as) : d'.Holds (openJobs jobs as) := by
  induction h with
  | refl => exact hj
  | snoc hc hm ih =>
    rw [returnsOpen_append] at hopen
    rw [openJobs_append]
    exact move_holds (chain_sound hs hc) (ih hopen.1) hopen.2 hm

end Jobs

@[simp] theorem foldl_see_owed (t : Threads) (info : Meta) (published passed : Bool) :
    (owed info published passed).foldl Threads.see t=t := by
  cases published <;> rfl

/-- No generation outruns the desk's: the thread in charge is the last put there, and an
abandoned one's generation is behind for good. -/
structure Desk.Leads (d : Desk) (t : Threads) : Prop where
  last : d.threaded=true → t.last=some d.generation
  lastLe : ∀ g, t.last=some g → g≤d.generation
  spawned : ∀ g∈t.spawned, g≤d.generation
  dead : ∀ g∈t.dead, g<d.generation

theorem leads_new : Desk.new.Leads Threads.new := by
  constructor <;> simp [Desk.new,Threads.new]

theorem move_leads {t : Threads} (hs : d.Sound) (hl : d.Leads t)
    (h : Move d as d') : d'.Leads (as.foldl Threads.see t) := by
  cases h with
  | queue info | refuse info | drop before after info passed hw hfront =>
    exact ⟨hl.last,hl.lastLe,hl.spawned,hl.dead⟩
  | spawn ht hw ha =>
    refine ⟨fun _ => rfl,by simp [Threads.see],?_,fun g hg => lt_succ_of_lt (hl.dead g hg)⟩
    intro g hg
    rcases mem_append.mp hg with h | h
    · exact le_succ_of_le (hl.spawned g h)
    · exact (mem_singleton.mp h).le
  | start request info rest ht hr hw hg | publish request info hr =>
    exact ⟨hl.last,hl.lastLe,hl.spawned,hl.dead⟩
  | finish request info published passed hr =>
    rw [foldl_cons,foldl_see_owed]
    exact ⟨hl.last,hl.lastLe,hl.spawned,hl.dead⟩
  | abandon request info published passed hr =>
    have hlast := hl.last (hs.threaded (by simp [hr]))
    rw [foldl_cons,foldl_see_owed]
    refine ⟨by simp,fun g hg => le_succ_of_le (hl.lastLe g hg),
      fun g hg => le_succ_of_le (hl.spawned g hg),?_⟩
    intro g hg
    simp only [Threads.see,hlast,toList_some,mem_append,mem_singleton] at hg
    rcases hg with h | h
    · exact lt_succ_of_lt (hl.dead g h)
    · exact lt_succ_of_le h.le
  | regain request info hg ha => exact ⟨hl.last,hl.lastLe,hl.spawned,hl.dead⟩
  | retire ht hr hw | unspawned hr => exact ⟨by simp,hl.lastLe,hl.spawned,hl.dead⟩
  | forget ht hr hw ha => exact leads_new

theorem chain_leads {t : Threads} (hs : d.Sound) (hl : d.Leads t)
    (h : Chain Move d as d') : d'.Leads (as.foldl Threads.see t) := by
  induction h with
  | refl => exact hl
  | snoc hc hm ih =>
    rw [foldl_append]
    exact move_leads (chain_sound hs hc) ih hm

end Verbatim.Listener
