import Verbatim.Outbound.Writes

namespace Verbatim.Outbound

variable {D : Type}

/-- The worker generation and request a node or anchor was issued or looked up under. -/
structure Tag where
  generation : Nat
  request : Nat
  deriving DecidableEq

/-- A message in the pipe, with what it names, its position as the outpost counts, and how many
messages that carry nodes were skipped before it. -/
structure Frame (D : Type) where
  message : OutpostToCore D
  touched : List Carried
  position : Nat
  skipped : Nat

/-- Core's held list: what it names, the position it acknowledges, and how many frames Core had
handled when it made it. -/
structure HeldList where
  held : List Carried
  acknowledged : Nat
  handled : Nat
  deriving DecidableEq

/-- The nodes and anchors the store keeps with their tags, the node of each anchor, and how many
nodes were numbered. -/
structure Store where
  kept : List (Carried × List Tag) := []
  anchorNodes : Nat → Option Nat := fun _ => none
  nodes : Nat := 0

namespace Store

variable (store : Store)

def keeps (carried : Carried) : Bool :=
  store.kept.any fun entry => entry.1=carried

/-- A node's number was given; an anchor's may be one its program took before its commit. -/
def issued : Carried → Bool
  | .node number => number<store.nodes
  | .anchor _ => true

def add (tag : Tag) (tags : List Tag) : List Tag := if tag∈tags then tags else tags++[tag]

def tagCarried (tag : Tag) (kept : List (Carried × List Tag)) (carried : Carried) :
    List (Carried × List Tag) :=
  if kept.any (fun entry => entry.1=carried) then
    kept.map (fun entry => if entry.1=carried then (entry.1,add tag entry.2) else entry)
  else kept++[(carried,[tag])]

def issueNode (tag : Tag) : Store :=
  {store with
    kept := tagCarried tag store.kept (.node store.nodes)
    nodes := store.nodes+1}

def tagNode (node : Nat) (tag : Tag) : Store :=
  if store.keeps (.node node) then
    {store with kept := tagCarried tag store.kept (.node node)}
  else store

/-- The anchors a commit minted or reported, tagged while the store holds their node: also those a
release freed since its program copied them. -/
def tagAnchors (node : Nat) (anchors : List Nat) (tag : Tag) : Store :=
  if store.keeps (.node node) then
    {store with
      kept := (anchors.map Carried.anchor).foldl (tagCarried tag) store.kept
      anchorNodes := fun anchor => if anchor∈anchors then some node
        else store.anchorNodes anchor}
  else store

def goesWith (gone : List Carried) : Carried → Bool
  | .node _ => false
  | .anchor number => (store.anchorNodes number).any fun node => .node node∈gone

def remove (gone : List Carried) : Store :=
  {store with
    kept := store.kept.filter (fun entry =>
      entry.1∉gone ∧ store.goesWith gone entry.1=false)
    anchorNodes := fun anchor =>
      if .anchor anchor∈gone ∨ store.goesWith gone (.anchor anchor) then none
      else store.anchorNodes anchor}

variable (reported : Carried → Option Report) (list : HeldList) (live : List Tag)

/-- No live request is tagged on it, and no message ever carried it, or none that did waits, the
position of the last is acknowledged and the list does not name it. -/
def isFree (entry : Carried × List Tag) : Bool :=
  (entry.2.filter (·∈live)).isEmpty &&
    (match reported entry.1 with
    | none => true
    | some report => report.waiting == 0 && decide (report.position≤list.acknowledged) &&
        decide (entry.1∉list.held))

def freed : List Carried :=
  (store.kept.filter (isFree reported list live)).map Prod.fst

def retainTags : Store :=
  {store with kept := store.kept.map (fun entry => (entry.1,entry.2.filter (·∈live)))}

def release : Store :=
  (store.retainTags live).remove (store.freed reported list live)

/-- Frees every node of a destroyed window, with its anchors; the queue is not told. -/
def forgetWindow (nodes : List Nat) : Store := store.remove (nodes.map Carried.node)

end Store

def waitingOf {M : Type} (carried : Carried) (queue : List (Waiting M)) : Nat :=
  (queue.flatMap Waiting.touched).count carried

/-- The outpost's queue and store, its pipe, and Core's count of the frames it reads. -/
structure World (D : Type) where
  pending : Pending (Urgent D) (OutpostToCore D) := {}
  store : Store := {}
  /-- Everything a message sent named. -/
  sent : List Carried := []
  /-- What of it the queue forgot since, and what of that a message waiting then named. -/
  forgotten : List Carried := []
  lost : List Carried := []
  /-- The pipe failed: what waited is dropped and nothing more is taken. -/
  failed : Bool := false
  /-- Every frame put in the pipe, in order. -/
  frames : List (Frame D) := []
  /-- How many messages that carry nodes were skipped. -/
  skipped : Nat := 0
  /-- The position Core gave each frame it handled, in pipe order. -/
  arrived : List Nat := []
  position : Nat := 0
  /-- A frame was not a message: Core takes no more. -/
  unreadable : Bool := false
  lists : List HeldList := []

/-- What happens to the outpost, its pipe and Core. -/
inductive WorldOp (D : Type) where
  | issueNode (tag : Tag)
  | tagNode (node : Nat) (tag : Tag)
  | tagAnchors (node : Nat) (anchors : List Nat) (tag : Tag)
  | forgetWindow (nodes : List Nat)
  | send (item : Outgoing (Urgent D) (OutpostToCore D))
  /-- The next item is written, or skipped if it cannot be encoded. -/
  | write (encoded : Bool)
  | fail
  | read (parsed : Bool)
  | makeList (held : List Carried)
  | release (list : Nat) (live : List Tag)

namespace World

/-- A message names only nodes that were issued, and nothing if it carries no nodes. -/
def namesIssued (store : Store) : Outgoing (Urgent D) (OutpostToCore D) → Bool
  | .ordinary (.message m touched) =>
      touched.all store.issued && (m.carriesNodes || touched.isEmpty)
  | _ => true

def namedBy : Outgoing (Urgent D) (OutpostToCore D) → List Carried
  | .ordinary (.message _ touched) => touched
  | _ => []

variable (w : World D)

def writeItem (pending : Pending (Urgent D) (OutpostToCore D)) (encoded : Bool) :
    Outgoing (Urgent D) (OutpostToCore D) → World D
  | .urgent message =>
      {w with
        pending := pending
        frames := if encoded then
          w.frames++[⟨message.message,[],pending.position,w.skipped⟩] else w.frames}
  | .ordinary (.flushed _) => {w with pending := pending}
  | .ordinary (.message m touched) =>
      -- numbered before it is encoded, so also when it then is skipped
      let pending := pending.number m.carriesNodes touched
      if encoded then
        {w with
          pending := pending
          frames := w.frames++[⟨m,touched,pending.position,w.skipped⟩]}
      else
        {w with
          pending := pending
          skipped := if m.carriesNodes then w.skipped+1 else w.skipped}

def readFrame (parsed : Bool) : World D :=
  match w.frames[w.arrived.length]? with
  | none => w
  | some frame =>
      if w.unreadable then w
      else if parsed then
        let position := if frame.message.carriesNodes then w.position+1 else w.position
        {w with position := position, arrived := w.arrived++[position]}
      else {w with unreadable := true}

def releaseFor (list : HeldList) (live : List Tag) : World D :=
  let store := w.store.release w.pending.reported list live
  if w.store.freed w.pending.reported list live=[] then {w with store := store}
  else
    let gone := w.sent.filter (fun carried => !store.keeps carried)
    {w with
      store := store
      pending := w.pending.forget (fun carried => !store.keeps carried)
      forgotten := w.forgotten++gone
      lost := w.lost++gone.filter (fun carried => 0<waitingOf carried w.pending.ordinary)}

def step : WorldOp D → World D
  | .issueNode tag => {w with store := w.store.issueNode tag}
  | .tagNode node tag => {w with store := w.store.tagNode node tag}
  | .tagAnchors node anchors tag => {w with store := w.store.tagAnchors node anchors tag}
  | .forgetWindow nodes => {w with store := w.store.forgetWindow nodes}
  | .send item =>
      if w.failed || !namesIssued w.store item then w
      else {w with pending := w.pending.push item, sent := w.sent++namedBy item}
  | .write encoded =>
      match w.pending.pop with
      | none => w
      | some (item,pending) => w.writeItem pending encoded item
  | .fail =>
      {w with pending := {w.pending with urgent := [], ordinary := []}, failed := true}
  | .read parsed => w.readFrame parsed
  | .makeList held => {w with lists := w.lists++[⟨held,w.position,w.arrived.length⟩]}
  | .release list live =>
      match w.lists[list]? with
      | none => w
      | some list => w.releaseFor list live

def run (ops : List (WorldOp D)) : World D := ops.foldl step w

end World

end Verbatim.Outbound
