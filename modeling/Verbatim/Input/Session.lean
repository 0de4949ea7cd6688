import Verbatim.Input.Steps

namespace Verbatim.Input

open Framework List DecisionMachine KeyEvent Option

def maskKey : KeyCode := (vkMask,false)

def isLockKey (key : KeyCode) : Bool := (ToggleKey.fromVk key.1).isSome

def KeyEvent.stroke (event : KeyEvent) : Stroke KeyCode := ⟨event.key,event.pressed⟩

def passedNow (input : KeyInput) (decision : Decision) : List (Stroke KeyCode) :=
  if decision.verdict=.pass then [input.event.stroke] else []

/-- What a decision puts in line, by place: a held press goes with its release. -/
def queued (input : KeyInput) (decision : Decision) : List (Nat × List (Stroke KeyCode)) :=
  (match decision.verdict with
    | .hold place => [(place,[⟨input.event.key,true⟩,⟨input.event.key,false⟩])]
    | .defer place => [(place,[input.event.stroke])]
    | _ => []) ++
  decision.mask.elim [] fun (press,release) =>
    [(press,[⟨maskKey,true⟩]),(release,[⟨maskKey,false⟩])]

def sent (input : KeyInput) (decision : Decision) : List (Stroke KeyCode) :=
  passedNow input decision++(queued input decision).flatMap (·.2)

/-- The machine, the keys to be sent again by place, the application's stream, and what the
machine was given and decided. -/
structure Session where
  machine : DecisionMachine
  line : List (Nat × List (Stroke KeyCode))
  app : List (Stroke KeyCode)
  log : List (KeyInput × Decision)

namespace Session

def new (config : DecisionConfig) (map : GestureMap) : Session := ⟨.new config map,[],[],[]⟩

variable (s : Session)

def type (input : KeyInput) : Session :=
  let (machine,decision) := s.machine.onKey input
  ⟨machine,s.line++queued input decision,s.app++passedNow input decision,s.log++[(input,decision)]⟩

def passOn : Session :=
  match s.line with
  | [] => s
  | (place,strokes)::rest =>
      {s with machine := s.machine.passedOn place, line := rest, app := s.app++strokes}

def typed : List (Stroke KeyCode) := s.log.map fun entry => entry.1.event.stroke

def waiting : List (Stroke KeyCode) := s.line.flatMap (·.2)

/-- Everything the decisions send, in the order of the transitions they decide. -/
def due : List (Stroke KeyCode) := s.log.flatMap fun entry => sent entry.1 entry.2

end Session

/-- The sessions of a user typing, with the line passed on in order at any time and a permit
other than none while the line is not empty. -/
inductive Typing (config : DecisionConfig) (map : GestureMap) : Session → Prop
  | new : Typing config map (.new config map)
  | type {s : Session} (input : KeyInput) : Typing config map s → input.source=.user →
      (s.machine.hasOutstanding=true → input.permit≠.none) → Typing config map (s.type input)
  | passOn {s : Session} : Typing config map s → Typing config map s.passOn

/-- A session played from its inputs, with none for the line's front passed on; it stops at an
input the permit does not allow. -/
def Session.play (s : Session) : List (Option KeyInput) → Option Session
  | [] => some s
  | none::rest => s.passOn.play rest
  | some input::rest =>
      if input.source=.user ∧ (s.machine.hasOutstanding=true → input.permit≠.none) then
        (s.type input).play rest
      else none

theorem Session.play_typing {config : DecisionConfig} {map : GestureMap} {s t : Session}
    (inputs : List (Option KeyInput)) (h : Typing config map s) (hplay : s.play inputs=some t) :
    Typing config map t := by
  induction inputs generalizing s with
  | nil =>
    cases hplay
    exact h
  | cons input rest ih =>
    cases input with
    | none => exact ih h.passOn hplay
    | some input =>
      simp only [play] at hplay
      split at hplay
      next hallowed => exact ih (h.type input hallowed.1 hallowed.2) hplay
      · cases hplay

/-- What holds of every session, whatever is typed. -/
structure Session.Kept (map : GestureMap) (s : Session) : Prop where
  places : s.machine.line.map (·.place)=s.line.map (·.1)
  sameMap : s.machine.map=map
  sees : ∀ k, s.machine.sees k=isDown k s.typed
  order : (s.app++s.waiting).filter (fun stroke => !isLockKey stroke.key) =
    s.due.filter (fun stroke => !isLockKey stroke.key)
  locks : map.SparesLockKeys → ∀ stroke∈s.waiting, isLockKey stroke.key=false

/-- What holds of a key's transitions: the application's and the line's together. -/
structure Session.Balanced (s : Session) (k : KeyCode) : Prop where
  matched : Matched k (s.app++s.waiting)
  reached : isDown k (s.app++s.waiting)=s.machine.reached k

theorem isLockKey_maskKey : isLockKey maskKey=false := rfl

theorem passedOn_front {m : DecisionMachine} {front : Waiting} {rest : List Waiting}
    (h : m.line=front::rest) : m.passedOn front.place={m with line := rest} := by
  simp [passedOn,h,dropThrough]

theorem queued_places (input : KeyInput) (decision : Decision) :
    (queued input decision).map (·.1)=decision.verdict.places ++
      decision.mask.elim [] fun (press,release) => [press,release] := by
  rw [queued,map_append]
  congr 1
  · cases decision.verdict <;> rfl
  · cases decision.mask <;> rfl

namespace Session

variable {config : DecisionConfig} {map : GestureMap} {s : Session}

theorem passOn_spec (hkept : s.Kept map) :
    s.passOn.app++s.passOn.waiting=s.app++s.waiting ∧ s.passOn.log=s.log ∧
      s.passOn.machine.keysDown=s.machine.keysDown ∧ s.passOn.machine.map=s.machine.map ∧
      s.passOn.machine.line.map (·.place)=s.passOn.line.map (·.1) ∧
      ∀ stroke∈s.passOn.waiting, stroke∈s.waiting := by
  have hplaces := hkept.places
  simp only [passOn,waiting]
  cases hline : s.line with
  | nil =>
    simp [hplaces,hline]
  | cons front rest =>
    obtain ⟨place,strokes⟩ := front
    cases hm : s.machine.line with
    | nil => simp [hm,hline] at hplaces
    | cons first others =>
      simp only [hm,hline,map_cons,List.cons.injEq] at hplaces
      obtain ⟨rfl,hrest⟩ := hplaces
      simp only [passedOn_front hm,flatMap_cons,append_assoc,hrest]
      exact ⟨trivial,trivial,trivial,trivial,trivial,fun stroke h => mem_append_right _ h⟩

variable {input : KeyInput}

theorem passedNow_overtakes_none (hkept : s.Kept map) (huser : input.source=.user)
    (hpermit : s.machine.hasOutstanding=true → input.permit≠.none) :
    passedNow input (s.machine.onKey input).2=[] ∨ isLockKey input.event.key=true ∨
      s.waiting=[] := by
  by_cases hpass : (s.machine.onKey input).2.verdict=.pass
  · have hempty : s.machine.line=[] → s.waiting=[] := by
      intro h
      have hplaces := hkept.places
      rw [h] at hplaces
      simp [waiting,map_eq_nil_iff.mp hplaces.symm]
    obtain h | h | h := (s.machine.onKey_handled input huser).pass hpass
    · refine Or.inr (Or.inr (hempty ?_))
      by_contra hne
      exact hpermit (by simpa [hasOutstanding] using hne) h
    · exact Or.inr (Or.inl h)
    · exact Or.inr (Or.inr (hempty h))
  · exact Or.inl (if_neg hpass)

/-- Seen through a filter that no stroke overtakes another in, typing only appends. -/
theorem type_filter (input : KeyInput) (p : Stroke KeyCode → Bool)
    (h : (passedNow input (s.machine.onKey input).2).filter p=[] ∨ s.waiting.filter p=[]) :
    ((s.type input).app++(s.type input).waiting).filter p =
      (s.app++s.waiting++sent input (s.machine.onKey input).2).filter p := by
  simp only [type,waiting,sent,flatMap_append,filter_append,append_assoc] at h ⊢
  obtain h | h := h <;> simp [h]

def own (input : KeyInput) (decision : Decision) : List (Stroke KeyCode) :=
  match decision.verdict with
  | .pass | .defer _ => [input.event.stroke]
  | .hold _ => [⟨input.event.key,true⟩,⟨input.event.key,false⟩]
  | .swallow => []

theorem sent_eq (input : KeyInput) (decision : Decision) :
    sent input decision=own input decision ++
      decision.mask.elim [] fun _ => [⟨maskKey,true⟩,⟨maskKey,false⟩] := by
  rw [sent,passedNow,queued,own]
  cases decision.verdict <;> cases decision.mask <;> simp

variable {decision : Decision}

theorem own_key {stroke : Stroke KeyCode}
    (h : stroke∈own input decision) : stroke.key=input.event.key := by
  revert h
  simp only [own]
  cases decision.verdict <;> simp [KeyEvent.stroke] <;> rintro (rfl | rfl) <;> rfl

theorem typed_type (input : KeyInput) : (s.type input).typed=s.typed++[input.event.stroke] := by
  simp [type,typed]

theorem due_type (input : KeyInput) :
    (s.type input).due=s.due++sent input (s.machine.onKey input).2 := by
  simp [type,due]

theorem new_kept : (new config map).Kept map := ⟨rfl,rfl,fun _ => rfl,rfl,fun _ _ h => by cases h⟩

theorem type_kept (hkept : s.Kept map) (huser : input.source=.user)
    (hpermit : s.machine.hasOutstanding=true → input.permit≠.none) :
    (s.type input).Kept map := by
  have hhandled := s.machine.onKey_handled input huser
  refine ⟨?_,hhandled.map.trans hkept.sameMap,?_,?_,?_⟩
  · simp only [type,map_append,queued_places,← hkept.places,hhandled.line,append_assoc]
  · intro k
    rw [typed_type,isDown_snoc]
    by_cases hk : input.event.stroke.key=k
    · rw [if_pos hk,← hk]
      exact hhandled.sees
    · rw [if_neg hk,← hkept.sees]
      simp only [type,sees,hhandled.others k (Ne.symm hk)]
  · rw [type_filter,filter_append,hkept.order,due_type,filter_append]
    obtain h | h | h := passedNow_overtakes_none hkept huser hpermit
    · simp [h]
    · left
      simp only [passedNow]
      split
      · simp [stroke,h]
      · rfl
    · simp [h]
  · intro hspares stroke hmem
    simp only [type,waiting,flatMap_append,mem_append] at hmem
    obtain hmem | hmem := hmem
    · exact hkept.locks hspares stroke hmem
    rw [← hkept.sameMap] at hspares
    generalize s.machine.onKey input=result at *
    obtain ⟨machine,decision⟩ := result
    simp only [queued,flatMap_append,mem_append] at hmem
    obtain hmem | hmem := hmem
    · cases hv : decision.verdict with
      | hold place =>
        have := (hhandled.hold place hv).2 hspares
        simp only [hv,flatMap_cons,flatMap_nil,append_nil,mem_cons,not_mem_nil,or_false] at hmem
        obtain rfl | rfl := hmem <;> simpa [isLockKey,key] using this
      | defer place =>
        have := hhandled.defer place hv
        simp only [hv,flatMap_cons,flatMap_nil,append_nil,mem_cons,not_mem_nil,or_false] at hmem
        subst hmem
        simpa [isLockKey,stroke,key] using this
      | pass | swallow => simp [hv] at hmem
    · cases hm : decision.mask with
      | none => simp [hm] at hmem
      | some places =>
        simp only [hm,elim_some,flatMap_cons,flatMap_nil,append_nil,
          mem_append,mem_cons,not_mem_nil,or_false] at hmem
        obtain rfl | rfl := hmem <;> exact isLockKey_maskKey

theorem passOn_kept (hkept : s.Kept map) : s.passOn.Kept map := by
  obtain ⟨htotal,hlog,hkeys,hmap,hplaces,hmem⟩ := passOn_spec hkept
  refine ⟨hplaces,hmap.trans hkept.sameMap,?_,?_,?_⟩
  · intro k
    simp only [sees,typed,hkeys,hlog]
    exact hkept.sees k
  · rw [htotal,hkept.order]
    simp only [due,hlog]
  · exact fun hspares stroke h => hkept.locks hspares stroke (hmem stroke h)

theorem typing_kept (h : Typing config map s) : s.Kept map := by
  induction h with
  | new => exact new_kept
  | type input _ huser hpermit ih => exact type_kept ih huser hpermit
  | passOn _ ih => exact passOn_kept ih

variable {k : KeyCode}

theorem own_balanced {m m' : DecisionMachine} {stream : List (Stroke KeyCode)}
    (hhandled : m.Handled m' input decision) (hmatched : Matched k stream)
    (hdown : isDown k stream=m.reached k) (hseen : input.event.stroke=⟨k,false⟩ → m.sees k=true) :
    Matched k (stream++own input decision) ∧
      isDown k (stream++own input decision)=m'.reached k := by
  by_cases hk : input.event.key=k
  · subst hk
    have hreached := hhandled.reached
    cases hp : input.event.pressed with
    | true =>
      have hstroke : input.event.stroke=⟨input.event.key,true⟩ := by
        rw [stroke,hp]
      rw [hp] at hreached
      cases hv : decision.verdict with
      | swallow =>
        simp [own,hv,hmatched,hdown,hreached,reachedAfter]
      | hold place =>
        rw [hv] at hreached
        simp only [own,hv]
        rw [hreached]
        exact hmatched.tap
      | _ =>
        rw [hv] at hreached
        simp only [own,hv]
        rw [hreached,hstroke,matched_snoc,isDown_snoc]
        simp [hmatched,reachedAfter]
    | false =>
      have hstroke : input.event.stroke=⟨input.event.key,false⟩ := by
        rw [stroke,hp]
      have hsees := hseen hstroke
      have hswallow := hhandled.release hp hsees
      have hup : m'.reached input.event.key=false := by
        rw [hreached,hp]
        rfl
      cases hv : decision.verdict with
      | swallow => simp [own,hv,hmatched,hdown,hswallow.mp hv,hup]
      | hold place => simp [(hhandled.hold place hv).1] at hp
      | _ =>
        have hwas : m.reached input.event.key=true := by
          by_contra hno
          rw [Bool.not_eq_true] at hno
          rw [hswallow.mpr hno] at hv
          cases hv
        simp only [own,hv]
        rw [hstroke,matched_snoc,isDown_snoc]
        simp [hmatched,hdown,hwas,hup]
  · have habsent : ∀ stroke∈own input decision, stroke.key≠k := by
      intro stroke h
      rwa [own_key h]
    refine ⟨hmatched.append_absent habsent,?_⟩
    rw [isDown_append_of_absent habsent,hdown]
    simp only [reached,hhandled.others k (Ne.symm hk)]

theorem sent_balanced {m m' : DecisionMachine} {stream : List (Stroke KeyCode)}
    (hhandled : m.Handled m' input decision) (hmatched : Matched k stream)
    (hdown : isDown k stream=m.reached k) (hseen : input.event.stroke=⟨k,false⟩ → m.sees k=true)
    (hmask : k=maskKey → input.event.key≠k ∧ m.sees k=false) :
    Matched k (stream++sent input decision) ∧
      isDown k (stream++sent input decision)=m'.reached k := by
  obtain ⟨hmatched,hdown'⟩ := own_balanced hhandled hmatched hdown hseen
  rw [sent_eq,← append_assoc]
  cases decision.mask with
  | none => simpa using ⟨hmatched,hdown'⟩
  | some places =>
    by_cases hk : k=maskKey
    · obtain ⟨hother,hunseen⟩ := hmask hk
      have hup : m'.reached k=false := by
        have := reached_of_not_sees hunseen
        simpa only [reached,hhandled.others k (Ne.symm hother)] using this
      rw [hup,← hk]
      exact hmatched.tap
    · have habsent : ∀ stroke∈[(⟨maskKey,true⟩ : Stroke KeyCode),⟨maskKey,false⟩],stroke.key≠k := by
        simp [Ne.symm hk]
      exact ⟨hmatched.append_absent habsent,(isDown_append_of_absent habsent).trans hdown'⟩

theorem type_balanced (hkept : s.Kept map) (hbalanced : s.Balanced k) (huser : input.source=.user)
    (hpermit : s.machine.hasOutstanding=true → input.permit≠.none)
    (hseen : Matched k (s.type input).typed)
    (hmask : k=maskKey → ∀ stroke∈(s.type input).typed, stroke.key≠k)
    (hlock : isLockKey k=true → map.SparesLockKeys) : (s.type input).Balanced k := by
  have hswap : (passedNow input (s.machine.onKey input).2).filter (·.key=k)=[] ∨
      s.waiting.filter (·.key=k)=[] := by
    obtain h | h | h := passedNow_overtakes_none hkept huser hpermit
    · simp [h]
    · by_cases hk : input.event.key=k
      · right
        rw [filter_eq_nil_iff]
        intro stroke hmem heq
        have hspares := hlock (hk ▸ h)
        have hnot := hkept.locks hspares stroke hmem
        rw [of_decide_eq_true heq,← hk,h] at hnot
        cases hnot
      · left
        simp only [passedNow]
        split
        · simp [stroke,hk]
        · rfl
    · simp [h]
  have hfilter := type_filter input (·.key=k) hswap
  rw [typed_type] at hseen hmask
  have hunmasked : k=maskKey → input.event.key≠k ∧ s.machine.sees k=false := by
    intro hk
    refine ⟨hmask hk input.event.stroke (by simp),?_⟩
    have hnever : isDown k ([]++s.typed)=isDown k [] :=
      isDown_append_of_absent fun stroke h => hmask hk stroke (mem_append_left _ h)
    rw [hkept.sees]
    exact hnever
  obtain ⟨hm,hd⟩ := sent_balanced (s.machine.onKey_handled input huser) hbalanced.matched
    hbalanced.reached (fun h => (hkept.sees k).trans ((matched_snoc.mp hseen).2 h)) hunmasked
  refine ⟨?_,?_⟩
  · rw [← matched_filter,hfilter,matched_filter]
    exact hm
  · rw [← isDown_filter,hfilter,isDown_filter]
    exact hd

theorem passOn_balanced (hkept : s.Kept map) (hbalanced : s.Balanced k) : s.passOn.Balanced k := by
  obtain ⟨htotal,-,hkeys,-⟩ := passOn_spec hkept
  refine ⟨by rw [htotal]; exact hbalanced.matched,?_⟩
  rw [htotal,hbalanced.reached]
  simp only [reached,hkeys]

theorem typing_balanced (h : Typing config map s) (hseen : Matched k s.typed)
    (hmask : k=maskKey → ∀ stroke∈s.typed, stroke.key≠k)
    (hlock : isLockKey k=true → map.SparesLockKeys) : s.Balanced k := by
  induction h with
  | new => exact ⟨matched_nil k,rfl⟩
  | @type s input h huser hpermit ih =>
    have hseen' : Matched k s.typed := Matched.of_append (typed_type input ▸ hseen)
    have hmask' : k=maskKey → ∀ stroke∈s.typed, stroke.key≠k := by
      intro hk stroke hmem
      exact hmask hk stroke (typed_type input ▸ mem_append_left _ hmem)
    exact type_balanced (typing_kept h) (ih hseen' hmask') huser hpermit hseen hmask hlock
  | @passOn s h ih =>
    have htyped : s.passOn.typed=s.typed := by
      simp only [typed,(passOn_spec (typing_kept h)).2.1]
    rw [htyped] at hseen hmask
    exact passOn_balanced (typing_kept h) (ih hseen hmask)

end Session

/-- No key is left stuck and none overtakes another. In the application's stream every release
of a key follows a press not yet released, and a key that is up is up there once the line has
drained; the transitions of keys other than lock keys that are not swallowed arrive in the order
they happened. Swallowed are the presses the rules swallow and the releases of keys whose press did
not reach the application. -/
theorem keys_matched_in_order {config : DecisionConfig} {map : GestureMap} {s : Session}
    (h : Typing config map s) :
    (∀ k, Matched k s.typed → (k=maskKey → ∀ stroke∈s.typed, stroke.key≠k) →
      (isLockKey k=true → map.SparesLockKeys) →
      Matched k s.app ∧ (isDown k s.typed=false → s.machine.line=[] → isDown k s.app=false)) ∧
    (s.app++s.waiting).filter (fun stroke => !isLockKey stroke.key) =
      s.due.filter (fun stroke => !isLockKey stroke.key) ∧
    (∀ input : KeyInput, input.source=.user →
      (input.event.pressed=true → ((s.machine.onKey input).2.verdict=.swallow ↔
        (s.machine.rules input).2.verdict=.swallow)) ∧
      (input.event.pressed=false → isDown input.event.key s.typed=true →
        ((s.machine.onKey input).2.verdict=.swallow ↔
          s.machine.reached input.event.key=false))) := by
  have hkept := Session.typing_kept h
  refine ⟨?_,hkept.order,fun input huser => ?_⟩
  · intro k hseen hmask hlock
    obtain ⟨hmatched,hreached⟩ := Session.typing_balanced h hseen hmask hlock
    refine ⟨hmatched.of_append,?_⟩
    intro hup hline
    have hplaces := hkept.places
    rw [hline] at hplaces
    have hdrained : s.waiting=[] := by
      simp [Session.waiting,map_eq_nil_iff.mp hplaces.symm]
    rw [hdrained,append_nil] at hreached
    rw [hreached]
    exact reached_of_not_sees ((hkept.sees k).trans hup)
  · have hhandled := s.machine.onKey_handled input huser
    exact ⟨hhandled.swallow,fun hp hdown => hhandled.release hp ((hkept.sees _).trans hdown)⟩

def keyAt (vk : Nat) (extended pressed : Bool) (permit : HoldPermit) : Option KeyInput :=
  some ⟨⟨vk,extended,pressed⟩,0,false,.user,permit,true⟩

def heldArrow : List (Option KeyInput) :=
  [keyAt 0x41 false true .holdAndDefer,keyAt 0x25 true true .holdAndDefer,
    keyAt 0x41 false false .defer,keyAt 0x25 true false .defer,none,none]

theorem heldArrow_matched_in_order :
    ∃ s, (Session.new {} (GestureMap.withHeld (.new []) [⟨"kb",["leftarrow"]⟩])).play heldArrow =
        some s ∧
      s.app=[⟨(0x41,false),true⟩,⟨(0x25,true),true⟩,⟨(0x25,true),false⟩,⟨(0x41,false),false⟩] ∧
      Matched (0x41,false) s.app ∧ isDown (0x41,false) s.app=false ∧
      (s.app++s.waiting).filter (fun stroke => !isLockKey stroke.key) =
        s.due.filter fun stroke => !isLockKey stroke.key := by
  have heval : ((Session.new {} (GestureMap.withHeld (.new []) [⟨"kb",["leftarrow"]⟩])).play
      heldArrow).any (fun s => decide (s.app=[⟨(0x41,false),true⟩,⟨(0x25,true),true⟩,
        ⟨(0x25,true),false⟩,⟨(0x41,false),false⟩] ∧ Matched (0x41,false) s.typed ∧
        isDown (0x41,false) s.typed=false ∧ s.machine.line=[]))=true := by decide +kernel
  obtain ⟨s,hplay,hs⟩ := (any_eq_true _ _).mp heval
  obtain ⟨happ,hseen,hup,hline⟩ := of_decide_eq_true hs
  obtain ⟨hkeys,horder,-⟩ := keys_matched_in_order (Session.play_typing heldArrow .new hplay)
  obtain ⟨hmatched,hdown⟩ := hkeys (0x41,false) hseen (fun h => by cases h) fun h => by cases h
  exact ⟨s,hplay,happ,hmatched,hdown hup hline,horder⟩

/-- Alt and the unknown key down, then a bound gesture: its mask releases the unknown key. -/
def maskedUnknown : List (Option KeyInput) :=
  [keyAt 0x12 false true .none,keyAt 0xFF false true .none,keyAt 0x14 false true .none,
    keyAt 0x56 false true .none,none,none,keyAt 0xFF false false .none]

/-- Num Lock held, repeated while no key may be held, then let go. -/
def heldNumLock : List (Option KeyInput) :=
  [keyAt 0x90 false true .holdAndDefer,keyAt 0x90 false true .defer,none,
    keyAt 0x90 false false .none]

/-- Two keys are released twice in the application: the key masks are made of, pressed by the
user while a mask goes by, and a lock key of a map that holds it back. -/
theorem released_twice :
    (∃ s, Typing {} (.new [⟨"kb",["alt","v","verbatim"]⟩]) s ∧
      (Session.new {} (.new [⟨"kb",["alt","v","verbatim"]⟩])).play maskedUnknown=some s ∧
      Matched maskKey s.typed ∧ ¬ Matched maskKey s.app) ∧
    (∃ s, Typing {} (GestureMap.withHeld (.new []) [⟨"kb",["numlock"]⟩]) s ∧
      (Session.new {} (GestureMap.withHeld (.new []) [⟨"kb",["numlock"]⟩])).play heldNumLock =
        some s ∧
      Matched (0x90,false) s.typed ∧ ¬ Matched (0x90,false) s.app) := by
  have hmask : ((Session.new {} (.new [⟨"kb",["alt","v","verbatim"]⟩])).play maskedUnknown).any
      (fun s => decide (Matched maskKey s.typed ∧ ¬ Matched maskKey s.app))=true := by
    decide +kernel
  have hlock : ((Session.new {} (GestureMap.withHeld (.new []) [⟨"kb",["numlock"]⟩])).play
      heldNumLock).any (fun s => decide (Matched (0x90,false) s.typed ∧
        ¬ Matched (0x90,false) s.app))=true := by
    decide +kernel
  obtain ⟨s,hs,h⟩ := (any_eq_true _ _).mp hmask
  obtain ⟨t,ht,h'⟩ := (any_eq_true _ _).mp hlock
  exact ⟨⟨s,Session.play_typing _ .new hs,hs,of_decide_eq_true h⟩,
    ⟨t,Session.play_typing _ .new ht,ht,of_decide_eq_true h'⟩⟩

end Verbatim.Input
