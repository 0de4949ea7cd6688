import Verbatim.Input.Machine
import Verbatim.Framework.Strokes

namespace Verbatim.Input

open Framework DecisionMachine ToggleKey Option

theorem mem_parts_of_parse {parts : List String} {name : String} {gesture : GestureId}
    (hplus : '+' ∉ name.toList) (hlower : name.toLower=name)
    (h : GestureId.parse ("kb:" ++ "+".intercalate (parts++[name]))=.ok gesture) :
    name∈gesture.parts := by
  have hmem : name.toList∈("+".intercalate (parts++[name])).toList.splitOn '+' := by
    by_cases hparts : parts=[]
    · simp [hparts,List.splitOn_eq_singleton hplus]
    rw [String.intercalate_append_of_ne_nil hparts (by simp),String.intercalate_singleton,
      String.toList_append,String.toList_append]
    have hsep : "+".toList=['+'] := by decide +kernel
    rw [hsep,List.append_assoc,List.singleton_append,List.splitOn_append_cons_self,
      List.splitOn_eq_singleton hplus]
    simp
  have hkb : ("kb:" ++ "+".intercalate (parts++[name])).toList =
      'k' :: 'b' :: ':' :: ("+".intercalate (parts++[name])).toList := by
    rw [String.toList_append]
    rfl
  simp only [GestureId.parse,hkb] at h
  simp only [List.dropWhile,ne_eq,Char.reduceEq,not_false_eq_true,decide_true,
    not_true_eq_false,decide_false] at h
  split at h
  · simp at h
  split at h
  · simp at h
  obtain rfl := Except.ok.inj h
  rw [List.mem_insertionSort,List.mem_map]
  exact ⟨name.toList,hmem,by rw [String.ofList_toList,hlower]⟩

def Verdict.places : Verdict → List Nat
  | .hold place | .defer place => [place]
  | _ => []

namespace DecisionMachine

def reached (m : DecisionMachine) (k : KeyCode) : Bool := (m.keysDown k).any (·.reached)

def sees (m : DecisionMachine) (k : KeyCode) : Bool := (m.keysDown k).isSome

theorem reached_of_not_sees {m : DecisionMachine} {k : KeyCode} (h : m.sees k=false) :
    m.reached k=false := by
  simp only [sees,isSome_eq_false_iff,isNone_iff_eq_none] at h
  simp [reached,h]

/-- The rules neither touch the line nor what of any key reached the application. -/
structure Quiet (m m' : DecisionMachine) (key : KeyCode) : Prop where
  line : m'.line=m.line
  lastPlace : m'.lastPlace=m.lastPlace
  map : m'.map=m.map
  others : ∀ k, k≠key → m'.keysDown k=m.keysDown k
  reached : m'.reached key=m.reached key

namespace Quiet

theorem refl (m : DecisionMachine) (key : KeyCode) : Quiet m m key :=
  ⟨rfl,rfl,rfl,fun _ _ => rfl,rfl⟩

theorem trans {m m' m'' : DecisionMachine} {key : KeyCode} (h : Quiet m m' key)
    (h' : Quiet m' m'' key) : Quiet m m'' key :=
  ⟨h'.line.trans h.line,h'.lastPlace.trans h.lastPlace,h'.map.trans h.map,
    fun k hk => (h'.others k hk).trans (h.others k hk),h'.reached.trans h.reached⟩

end Quiet

variable (m : DecisionMachine) (key : KeyCode)

theorem setKey_quiet (change : KeyDown → KeyDown)
    (h : ∀ down, (change down).reached=down.reached) : Quiet m (m.setKey key change) key := by
  refine ⟨rfl,rfl,rfl,fun k hk => Function.update_of_ne hk _ _,?_⟩
  cases hd : m.keysDown key <;> simp [reached,setKey,hd,h]

theorem setSwallowed_quiet :
    Quiet m (m.setKey key fun down => {down with swallowedGesture := true}) key :=
  setKey_quiet m key _ fun _ => rfl

theorem countPress_quiet (gesture : GestureId) (key : KeyCode) (now : Nat) :
    Quiet m (m.countPress gesture key now).1 key := by
  simp only [countPress]
  split
  · exact Quiet.refl m key
  · exact ⟨rfl,rfl,rfl,fun _ _ => rfl,rfl⟩

/-- What the rules give: a transition passed without a gesture raised, or a press swallowed
without one observed; an observed gesture is the one its key's name completes. -/
structure Ruled (m m' : DecisionMachine) (key : KeyCode) (decision : Decision) : Prop where
  quiet : Quiet m m' key
  mask : decision.mask=none
  verdict : decision.verdict=.pass ∧ decision.emitted=none ∨ decision.verdict=.swallow
  observed : ∀ raised, decision.observed=some raised →
    ∃ (held : DecisionMachine) (name : String), nameFromVk key.1 key.2=some name ∧
      held.buildGesture key name=some raised.gesture

theorem pressNamed_ruled (now : Nat) (handsToOs : Bool) (role : KeyRole)
    (mainName : String) (hname : role≠.modifier → nameFromVk key.1 key.2=some mainName) :
    Ruled m (m.pressNamed key now handsToOs role mainName).1 key
      (m.pressNamed key now handsToOs role mainName).2 := by
  simp only [pressNamed]
  generalize hm : (if role=.modifier ∨ isNormalModifier key.1=true then
    {m with heldModifiers := m.heldModifiers.insert key} else m)=held
  have hheld : Quiet m held key := by
    subst hm
    split
    · exact ⟨rfl,rfl,rfl,fun _ _ => rfl,rfl⟩
    · exact Quiet.refl m key
  split
  next gesture _ =>
    refine ⟨hheld.trans ((countPress_quiet held gesture key now).trans
      (setSwallowed_quiet _ key)),rfl,Or.inr rfl,?_⟩
    intro raised h
    cases h
  generalize hm' : (if role≠.modifier ∧ (!isNormalModifier key.1)=true then
    {held with lastGesture := none} else held)=ended
  have hended : Quiet m ended key := by
    subst hm'
    split
    · exact hheld.trans ⟨rfl,rfl,rfl,fun _ _ => rfl,rfl⟩
    · exact hheld
  split
  · split
    · exact ⟨hended,rfl,Or.inl ⟨rfl,rfl⟩,fun raised h => by cases h⟩
    · exact ⟨hended.trans (setSwallowed_quiet _ key),rfl,Or.inr rfl,fun raised h => by cases h⟩
  next hrole =>
    split
    · exact ⟨hended,rfl,Or.inl ⟨rfl,rfl⟩,fun raised h => by cases h⟩
    split
    next gesture hobserved =>
      refine ⟨hended,rfl,Or.inl ⟨rfl,rfl⟩,?_⟩
      intro raised h
      cases h
      exact ⟨held,mainName,hname hrole,(filter_eq_some_iff.mp hobserved).1⟩
    · exact ⟨hended,rfl,Or.inl ⟨rfl,rfl⟩,fun raised h => by cases h⟩

variable (event : KeyEvent)

theorem onPress_ruled (now : Nat) (numLock : Bool) :
    Ruled m (m.onPress event now numLock).1 event.key (m.onPress event now numLock).2 := by
  simp only [onPress]
  generalize m.loneModifier.handsPressToOs event.key now m.config.multiPressTimeout=handsToOs
  have hlone (lone : LoneModifier) (last : Option (GestureId × Nat)) :
      Quiet m {m with loneModifier := lone, lastGesture := last} event.key :=
    ⟨rfl,rfl,rfl,fun _ _ => rfl,rfl⟩
  have hpass (lone : LoneModifier) :
      Ruled m {m with loneModifier := lone, lastGesture := none} event.key Decision.pass :=
    ⟨hlone lone none,rfl,Or.inl ⟨rfl,rfl⟩,fun raised h => by cases h⟩
  have hnamed (lone : LoneModifier) (role : KeyRole) (mainName : String)
      (hname : role≠.modifier → nameFromVk event.key.1 event.key.2=some mainName) :=
    pressNamed_ruled {m with loneModifier := lone} event.key now handsToOs role mainName hname
  cases hrole : m.roleOf event.key handsToOs with
  | modifier =>
    obtain ⟨hq,hm,hv,ho⟩ := hnamed (.afterPress event.key handsToOs .modifier) .modifier
      verbatimModifierName fun h => absurd rfl h
    exact ⟨(hlone _ _).trans hq,hm,hv,ho⟩
  | named name =>
    have hname : nameFromVk event.key.1 event.key.2=some name := by
      simp only [roleOf] at hrole
      split at hrole
      · cases hrole
      split at hrole
      next h =>
        cases hrole
        exact h
      · cases hrole
    dsimp only
    split
    · exact hpass _
    obtain ⟨hq,hm,hv,ho⟩ := hnamed (.afterPress event.key handsToOs (.named name))
      (.named name) name fun _ => hname
    exact ⟨(hlone _ _).trans hq,hm,hv,ho⟩
  | unnamed => exact hpass _

theorem rules_ruled (input : KeyInput) :
    Ruled m (m.rules input).1 input.event.key (m.rules input).2 := by
  simp only [rules]
  split
  · obtain ⟨hq,hm,hv,ho⟩ := onPress_ruled m input.event input.now input.numLock
    exact ⟨hq,hm,hv,ho⟩
  · exact ⟨⟨rfl,rfl,rfl,fun _ _ => rfl,rfl⟩,rfl,Or.inl ⟨rfl,rfl⟩,fun raised h => by cases h⟩

theorem rules_release {m : DecisionMachine} {input : KeyInput} (h : input.event.pressed=false) :
    (m.rules input).1.keysDown=m.keysDown ∧ (m.rules input).2=.pass := by
  simp [rules,h,onRelease]

def reachedAfter (pressed : Bool) (verdict : Verdict) (reached : Bool) : Bool :=
  match pressed,verdict with
  | true,.swallow => reached
  | true,.hold _ => false
  | true,_ => true
  | false,_ => false

structure Placed (m m' : DecisionMachine) (event : KeyEvent) (permit : HoldPermit)
    (decision : Decision) (verdict : Verdict) : Prop where
  others : ∀ k, k≠event.key → m'.keysDown k=m.keysDown k
  sees : m'.sees event.key=event.pressed
  reached : m'.reached event.key=reachedAfter event.pressed verdict (m.reached event.key)
  line : m'.line.map (·.place)=m.line.map (·.place)++verdict.places
  map : m'.map=m.map
  swallow : event.pressed=true → (verdict=.swallow ↔ decision.verdict=.swallow)
  release : event.pressed=false → m.sees event.key=true →
    (verdict=.swallow ↔ m.reached event.key=false)
  pass : verdict=.pass → permit=.none ∨ (fromVk event.vk).isSome ∨ m.line=[]
  defer : ∀ place, verdict=.defer place → (fromVk event.vk).isNone
  hold : ∀ place, verdict=.hold place → event.pressed=true ∧
    ∃ raised, decision.observed=some raised ∧ m.map.holds raised.gesture=true

theorem placePassed_spec (permit : HoldPermit) :
    (m.placePassed event .user permit).1.keysDown=m.keysDown ∧
    (m.placePassed event .user permit).1.map=m.map ∧
    ((m.placePassed event .user permit).2=.pass ∧
        (permit=.none ∨ (fromVk event.vk).isSome ∨ m.line=[]) ∧
        (m.placePassed event .user permit).1.line=m.line ∨
      ∃ place, (m.placePassed event .user permit).2=.defer place ∧
        (fromVk event.vk).isNone ∧ (m.placePassed event .user permit).1.line =
          m.line++[⟨place,some (event.vk,event.pressed)⟩]) := by
  simp only [placePassed]
  split
  next h => exact ⟨rfl,rfl,Or.inr ⟨_,rfl,h.2.1,rfl⟩⟩
  next h =>
    refine ⟨rfl,rfl,Or.inl ⟨rfl,?_,rfl⟩⟩
    by_contra hc
    simp only [not_or,not_isSome_iff_eq_none] at hc
    exact h ⟨trivial,by simp [hc.2.1],hc.1,hc.2.2⟩

theorem placePassed_placed {m m' : DecisionMachine} {event : KeyEvent} {permit : HoldPermit}
    {decision : Decision} (hline : m'.line=m.line) (hmap : m'.map=m.map)
    (hothers : ∀ k, k≠event.key → m'.keysDown k=m.keysDown k)
    (hsees : m'.sees event.key=event.pressed) (hreached : m'.reached event.key=event.pressed)
    (hpass : event.pressed=true → decision.verdict≠.swallow)
    (hrelease : event.pressed=false → m.sees event.key=true → m.reached event.key=true) :
    Placed m (m'.placePassed event .user permit).1 event permit decision
      (m'.placePassed event .user permit).2 := by
  obtain ⟨hkeys,hmap',hcase⟩ := placePassed_spec m' event permit
  generalize m'.placePassed event .user permit=result at hkeys hmap' hcase
  obtain ⟨m'',verdict⟩ := result
  dsimp only at hkeys hmap' hcase ⊢
  have hnot : verdict≠.swallow := by
    obtain ⟨rfl,-⟩ | ⟨place,rfl,-⟩ := hcase <;> exact Verdict.noConfusion
  have hafter : reachedAfter event.pressed verdict (m.reached event.key)=event.pressed := by
    obtain ⟨rfl,-⟩ | ⟨place,rfl,-⟩ := hcase <;> cases event.pressed <;> rfl
  refine ⟨fun k hk => by rw [hkeys,hothers k hk],by rw [← hsees,sees,sees,hkeys],?_,?_,
    hmap'.trans hmap,fun hp => ⟨fun h => absurd h hnot,fun h => absurd h (hpass hp)⟩,
    fun hp hs => ⟨fun h => absurd h hnot,fun h => by simp [hrelease hp hs] at h⟩,?_,?_,?_⟩
  · rw [hafter,← hreached]
    simp only [reached,hkeys]
  · obtain ⟨rfl,-,hl⟩ | ⟨place,rfl,-,hl⟩ := hcase <;> simp [hl,hline,Verdict.places]
  · rintro rfl
    obtain ⟨-,h,-⟩ | ⟨place,h,-⟩ := hcase
    · rwa [hline] at h
    · cases h
  · rintro place rfl
    obtain ⟨h,-⟩ | ⟨place,h,hnone,-⟩ := hcase
    · cases h
    · exact hnone
  · rintro place rfl
    obtain ⟨h,-⟩ | ⟨place,h,-⟩ := hcase <;> cases h

theorem place_placed (permit : HoldPermit) (decision : Decision) :
    Placed m (m.place event .user permit decision).1 event permit decision
      (m.place event .user permit decision).2 := by
  have hupdate (down : Option KeyDown) (k : KeyCode) (hk : k≠event.key) :
      Function.update m.keysDown event.key down k=m.keysDown k := Function.update_of_ne hk _ _
  cases hp : event.pressed with
  | true =>
    have hrelease {P : Prop} (h : event.pressed=false) : P := by simp [hp] at h
    simp only [place,hp,↓reduceIte]
    split
    next hs =>
      obtain ⟨hl,-,hm,ho,hr⟩ := setKey_quiet m event.key id fun _ => rfl
      exact ⟨ho,by simp [sees,setKey,hp],by rw [hr,hp]; rfl,by simp [hl,Verdict.places],hm,
        fun _ => ⟨fun _ => hs,fun _ => rfl⟩,fun h => hrelease h,nofun,nofun,nofun⟩
    next hs =>
      generalize hheld : decide (True ∧ permit=.holdAndDefer ∧
        decision.observed.any (fun observed => m.map.holds observed.gesture)=true)=held
      cases held with
      | true =>
        refine ⟨hupdate _,by simp [sees,setKey,queue,hp],?_,
          by simp [setKey,queue,Verdict.places],rfl,
          fun _ => ⟨nofun,fun h => absurd h hs⟩,fun h => hrelease h,nofun,nofun,?_⟩
        · simp [reached,setKey,queue,hp,reachedAfter]
        intro _ _
        obtain ⟨-,-,hany⟩ := of_decide_eq_true hheld
        obtain ⟨raised,hraised,hholds⟩ := (any_eq_true _ _).mp hany
        exact ⟨hp,raised,hraised,hholds⟩
      | false =>
        refine placePassed_placed rfl rfl (hupdate _) (by simp [sees,setKey,hp]) ?_
          (fun _ => hs) fun h => hrelease h
        simp [reached,setKey,hp]
  | false =>
    have hpress {P : Prop} (h : event.pressed=true) : P := by simp [hp] at h
    simp only [place,hp,Bool.false_eq_true,↓reduceIte]
    split
    next hs =>
      have hr : m.reached event.key=false := by
        obtain ⟨down,hd,hr⟩ := (any_eq_true _ _).mp hs
        simpa [reached,hd] using hr
      exact ⟨hupdate _,by simp [sees,hp],by simp [reached,hp,reachedAfter],
        by simp [Verdict.places],rfl,fun h => hpress h,
        fun _ _ => ⟨fun _ => hr,fun _ => rfl⟩,nofun,nofun,nofun⟩
    next hs =>
      refine placePassed_placed rfl rfl (hupdate _) (by simp [sees,hp])
        (by simp [reached,hp]) (fun h => hpress h) ?_
      intro _ hsees
      obtain ⟨down,hd⟩ := isSome_iff_exists.mp hsees
      simpa [reached,hd] using hs

theorem nameFromVk_lock {vk : Nat} (h : (fromVk vk).isSome) (extended : Bool) :
    ∃ name∈["capslock","numlock","scrolllock"], nameFromVk vk extended=some name := by
  revert h
  simp only [fromVk]
  split
  · exact fun _ => ⟨"capslock",by decide,by cases extended <;> decide +kernel⟩
  · exact fun _ => ⟨"numlock",by decide,by cases extended <;> decide +kernel⟩
  · exact fun _ => ⟨"scrolllock",by decide,by cases extended <;> decide +kernel⟩
  · intro h
    cases h

theorem buildGesture_not_held {m : DecisionMachine} {map : GestureMap} {key : KeyCode}
    {name : String} {gesture : GestureId} (hspares : map.SparesLockKeys)
    (hlock : (fromVk key.1).isSome) (hname : nameFromVk key.1 key.2=some name)
    (hbuilt : m.buildGesture key name=some gesture) : map.holds gesture=false := by
  obtain ⟨lock,hlocks,hlockName⟩ := nameFromVk_lock hlock key.2
  obtain rfl : lock=name := some.inj (hlockName.symm.trans hname)
  have hplain : ∀ name∈["capslock","numlock","scrolllock"],
      '+' ∉ name.toList ∧ name.toLower=name := by decide +kernel
  have hok {result : Except GestureParseError GestureId}
      (h : result.toOption=some gesture) : result=.ok gesture := by
    cases result with
    | error _ => cases h
    | ok built => exact congrArg Except.ok (some.inj h)
  have hmem : lock∈gesture.parts :=
    mem_parts_of_parse (hplain lock hlocks).1 (hplain lock hlocks).2 (hok hbuilt)
  simp only [GestureMap.holds,decide_eq_false_iff_not]
  exact fun hheld => hspares gesture hheld lock hlocks hmem

structure Handled (m m' : DecisionMachine) (input : KeyInput) (decision : Decision) : Prop where
  others : ∀ k, k≠input.event.key → m'.keysDown k=m.keysDown k
  sees : m'.sees input.event.key=input.event.pressed
  reached : m'.reached input.event.key =
    reachedAfter input.event.pressed decision.verdict (m.reached input.event.key)
  line : m'.line.map (·.place)=m.line.map (·.place)++decision.verdict.places ++
    decision.mask.elim [] (fun (press,release) => [press,release])
  map : m'.map=m.map
  swallow : input.event.pressed=true →
    (decision.verdict=.swallow ↔ (m.rules input).2.verdict=.swallow)
  release : input.event.pressed=false → m.sees input.event.key=true →
    (decision.verdict=.swallow ↔ m.reached input.event.key=false)
  pass : decision.verdict=.pass → input.permit=.none ∨ (fromVk input.event.vk).isSome ∨ m.line=[]
  defer : ∀ place, decision.verdict=.defer place → (fromVk input.event.vk).isNone
  hold : ∀ place, decision.verdict=.hold place → input.event.pressed=true ∧
    (m.map.SparesLockKeys → (fromVk input.event.vk).isNone)

theorem onKey_handled (input : KeyInput) (huser : input.source=.user) :
    Handled m (m.onKey input).1 input (m.onKey input).2 := by
  obtain ⟨hquiet,hmask,hverdict,hobserved⟩ := rules_ruled m input
  have hsees (h : input.event.pressed=false) :
      (m.rules input).1.sees input.event.key=m.sees input.event.key := by
    simp only [sees,(rules_release h).1]
  obtain ⟨hothers,hsees',hreached,hline,hmap,hswallow,hrelease,hpass,hdefer,hhold⟩ :=
    place_placed (m.rules input).1 input.event input.permit (m.rules input).2
  simp only [onKey,huser]
  generalize hruled : m.rules input=ruled at *
  obtain ⟨m1,decision⟩ := ruled
  dsimp only at *
  generalize m1.place input.event .user input.permit decision=placed at *
  obtain ⟨m2,verdict⟩ := placed
  have hverdict' : (report input.event .user {decision with verdict := verdict}).verdict =
      verdict := rfl
  have hmask' : (report input.event .user {decision with verdict := verdict}).mask=none := hmask
  generalize report input.event .user {decision with verdict := verdict}=reported at *
  have hkeep : Handled m m2 input reported := by
    subst hverdict'
    refine ⟨fun k hk => (hothers k hk).trans (hquiet.others k hk),hsees',
      by rw [hreached,hquiet.reached],by simp [hline,hquiet.line,hmask'],hmap.trans hquiet.map,
      fun hp => by rw [hruled,hswallow hp],fun hp hs => ?_,fun h => hquiet.line ▸ hpass h,hdefer,
        fun place h => ?_⟩
    · rw [← hquiet.reached]
      exact hrelease hp ((hsees hp).trans hs)
    obtain ⟨hp,raised,hraised,hholds⟩ := hhold place h
    refine ⟨hp,fun hspares => ?_⟩
    obtain ⟨held,name,hname,hbuilt⟩ := hobserved raised hraised
    by_contra hlock
    have hlock' : (fromVk input.event.key.1).isSome := by
      simpa [KeyEvent.key,isSome_iff_ne_none] using hlock
    rw [hquiet.map,buildGesture_not_held hspares hlock' hname hbuilt] at hholds
    cases hholds
  split
  · obtain ⟨hothers,hsees,hreached,hline,hmap,hswallow,hrelease,hpass,hdefer,hhold⟩ := hkeep
    exact ⟨hothers,hsees,hreached,by simp [queue,hline,hmask'],hmap,hswallow,hrelease,hpass,hdefer,
      hhold⟩
  · exact hkeep

end DecisionMachine

end Verbatim.Input
