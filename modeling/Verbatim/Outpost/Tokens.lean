import Verbatim.Outpost.Follow

namespace Verbatim.Outpost

open List

def Target.tokens (target : Target) : List Nat := target.element.toList++target.slider.toList

/-- A target with no focus wanted has no element, and one with no element no slider's. -/
def Target.Formed (target : Target) : Prop :=
  (target.wanted=none → target.element=none) ∧ (target.element=none → target.slider=none)

def Change.tokens (change : Change) : List Nat :=
  change.follow.toList.flatMap (·.target.tokens)++change.element.toList.flatMap (·.2.tokens)

def Subscription.tokens (subscription : Subscription) : List Nat :=
  subscription.newest.toList.map (·.1)++subscription.slider.toList++subscription.kept.map (·.1)

namespace FollowState

variable {follow follow' : FollowState} {applied : Applied} {token : Nat} {target : Target}

def tokens (follow : FollowState) : List Nat :=
  follow.followedElement.toList++follow.followedSlider.toList++follow.keptGroups.map (·.2.2)

theorem follows_iff : follow.follows token=true ↔ token∈follow.tokens := by
  simp [follows,tokens,or_assoc]

theorem mem_unfollow (tokens : List Nat) : token∈(follow.unfollow tokens applied).unfollowed ↔
    token∈applied.unfollowed ∨ token∈tokens ∧ token∉follow.tokens := by
  have hfold : ∀ unfollowed : List Nat, token∈tokens.foldl (fun unfollowed token =>
      if !follow.follows token && token∉unfollowed then unfollowed++[token] else unfollowed)
        unfollowed ↔ token∈unfollowed ∨ token∈tokens ∧ token∉follow.tokens := by
    induction tokens with
    | nil => simp
    | cons first rest ih =>
      intro unfollowed
      have hfirst : follow.follows first=true ↔ first∈follow.tokens := follows_iff
      grind
  exact hfold applied.unfollowed

/-- What the moves keep: one group for each older node, none for the newest. -/
structure Tidy (follow : FollowState) : Prop where
  once : (follow.keptGroups.map (·.1)).Nodup
  apart : ∀ newest, follow.followed=some newest → newest.1∉follow.keptGroups.map (·.1)
  formed : Target.Formed ⟨follow.followed,follow.followedElement,follow.followedSlider⟩

def Names (subscription : Subscription) (follow : FollowState) : Prop :=
  ∀ token, token∈subscription.tokens ↔ token∈follow.tokens

theorem Tidy.names (h : follow.Tidy) : Names follow.subscription follow := by
  intro token
  obtain ⟨hwanted,helement⟩ := h.formed
  have hkept : follow.subscription.kept.map (·.1)=follow.keptGroups.map (·.2.2) := by
    simp [subscription]
  rw [Subscription.tokens,hkept,tokens]
  cases hnode : follow.followed <;> cases hfound : follow.followedElement <;>
    simp_all [subscription]

/-- A move of what is followed: it lets go of exactly the tokens followed or given that it no
longer follows. -/
structure Moves (follow : FollowState) (given : List Nat) (applied : Applied)
    (after : FollowState × Applied) : Prop where
  tidy : after.1.Tidy
  unfollowed : ∀ token, token∈after.2.unfollowed ↔ token∈applied.unfollowed ∨
    (token∈follow.tokens ∨ token∈given) ∧ token∉after.1.tokens
  tokens : ∀ token∈after.1.tokens, token∈follow.tokens ∨ token∈given
  subscribes : (∀ subscription, applied.subscribe=some subscription → Names subscription follow) →
    ∀ subscription, after.2.subscribe=some subscription → Names subscription after.1

theorem Moves.still {given : List Nat} (htidy : follow'.Tidy)
    (hsame : ∀ token, token∈follow'.tokens ↔ token∈follow.tokens)
    (hgiven : ∀ token∈given, token∈follow.tokens) : Moves follow given applied (follow',applied) :=
  ⟨htidy,by grind,by grind,fun hnames subscription hsub token =>
    (hnames subscription hsub token).trans (hsame token).symm⟩

theorem Moves.letGo {given dropped : List Nat} (htidy : follow'.Tidy)
    (hsplit : ∀ token, token∈follow.tokens ∨ token∈given ↔ token∈follow'.tokens ∨ token∈dropped) :
    Moves follow given applied (follow',
      {follow'.unfollow dropped applied with subscribe := some follow'.subscription}) := by
  refine ⟨htidy,fun token => ?_,by grind,fun _ subscription hsub => ?_⟩
  · simp only [mem_unfollow]
    grind
  · cases hsub
    exact htidy.names

theorem keepGroup_spec (kept : List (NodeId × Group × Nat)) (node : NodeId) (group : Group)
    (element : Nat) (honce : (kept.map (·.1)).Nodup) :
    ((keepGroup kept node group element).1.map (·.1)).Nodup ∧
    (∀ other, other∈(keepGroup kept node group element).1.map (·.1) ↔
      other∈kept.map (·.1) ∨ other=node) ∧
    ∀ token, (token∈(keepGroup kept node group element).1.map (·.2.2) ∨
        token∈(keepGroup kept node group element).2.toList) ↔
      token∈kept.map (·.2.2) ∨ token=element := by
  induction kept with
  | nil => simp [keepGroup]
  | cons row rest ih =>
    obtain ⟨hfresh,hrest⟩ := nodup_cons.mp honce
    obtain ⟨hnodup,hnodes,htokens⟩ := ih hrest
    unfold keepGroup
    split
    next hrow =>
      subst hrow
      exact ⟨honce,by simp,by simp; grind⟩
    next hrow =>
      refine ⟨nodup_cons.mpr ⟨fun hmem => ?_,hnodup⟩,?_,?_⟩
      · obtain hmem | hmem := (hnodes row.1).mp hmem
        · exact hfresh hmem
        · exact hrow hmem
      · intro other
        simp only [map_cons,mem_cons,hnodes,or_assoc]
      · intro token
        simp only [map_cons,mem_cons,or_assoc,htokens]

def movedTo (follow : FollowState) (target : Target) (kept : List (NodeId × Group × Nat)) :
    FollowState :=
  {follow with
    followed := target.wanted
    followedElement := target.element
    followedSlider := target.slider
    keptGroups := kept.filter (fun row => !target.wanted.any fun wanted => row.1=wanted.1)}

theorem movedTo_moves (hformed : target.Formed) (applied : Applied)
    {kept : List (NodeId × Group × Nat)} {replaced : Option Nat} (honce : (kept.map (·.1)).Nodup)
    (htokens : ∀ token, (token∈kept.map (·.2.2) ∨ token∈replaced.toList) ↔
      token∈follow.keptGroups.map (·.2.2) ∨ token∈follow.followedElement.toList) :
    Moves follow target.tokens applied (follow.movedTo target kept,
      {(follow.movedTo target kept).unfollow (follow.followedSlider.toList++replaced.toList ++
          (kept.filter fun row => target.wanted.any fun wanted => row.1=wanted.1).map (·.2.2))
          applied with subscribe := some (follow.movedTo target kept).subscription}) := by
  have htidy : (follow.movedTo target kept).Tidy := by
    refine ⟨honce.sublist (filter_sublist.map _),fun newest hnewest hmem => ?_,hformed⟩
    obtain ⟨row,hrow,hnode⟩ := mem_map.mp hmem
    have hapart := (mem_filter.mp hrow).2
    change target.wanted=some newest at hnewest
    simp [hnewest,hnode] at hapart
  refine .letGo htidy fun token => ?_
  have := htokens token
  simp only [tokens,movedTo,Target.tokens,mem_append,mem_map,mem_filter] at this ⊢
  grind

theorem moveTo_moves (h : follow.Tidy) (hformed : target.Formed) (applied : Applied) :
    Moves follow target.tokens applied (follow.moveTo target applied) := by
  unfold moveTo
  cases hnode : follow.followed with
  | none =>
    have helement : follow.followedElement=none := h.formed.1 hnode
    exact movedTo_moves hformed applied h.once (by simp [helement])
  | some newest =>
    cases helement : follow.followedElement with
    | none => exact movedTo_moves hformed applied h.once (by simp [helement])
    | some element =>
      obtain ⟨hnodup,-,htokens⟩ :=
        keepGroup_spec follow.keptGroups newest.1 newest.2.1 element h.once
      exact movedTo_moves hformed applied hnodup (by simpa [helement,eq_comm] using htokens)

theorem retarget_moves (h : follow.Tidy) (hformed : target.Formed) (applied : Applied) :
    Moves follow target.tokens applied (follow.retarget target applied) := by
  unfold retarget
  split
  next hat =>
    simp only [isAt,Bool.and_eq_true,decide_eq_true_eq] at hat
    refine .still h (fun token => Iff.rfl) fun token => ?_
    simp only [Target.tokens,← hat.2,← hat.1.2,tokens,mem_append]
    exact .inl
  next hat => exact moveTo_moves h hformed applied

theorem letGo_moves {dropped : List Nat} (htidy : follow'.Tidy)
    (hsplit : ∀ token, token∈follow.tokens ↔ token∈follow'.tokens ∨ token∈dropped) :
    Moves follow [] applied (if dropped.isEmpty then (follow',applied) else (follow',
      {follow'.unfollow dropped applied with subscribe := some follow'.subscription})) := by
  split
  next hempty =>
    rw [List.isEmpty_iff.mp hempty] at hsplit
    exact .still htidy (fun token => by simpa using (hsplit token).symm) (by simp)
  next hsome => exact .letGo htidy (by simpa using hsplit)

theorem releaseGroups_moves (h : follow.Tidy) (released : List NodeId) (applied : Applied) :
    Moves follow [] applied (follow.releaseGroups released applied) := by
  have honce : ((follow.keptGroups.filter fun row => row.1∉released).map (·.1)).Nodup :=
    h.once.sublist (filter_sublist.map _)
  unfold releaseGroups
  by_cases hnewest : follow.followed.any fun followed => followed.1∈released
  · have htidy : Tidy {follow with
        keptGroups := follow.keptGroups.filter (fun row => row.1∉released)
        followed := none
        followedElement := none
        followedSlider := none} := ⟨honce,by simp,⟨fun _ => rfl,fun _ => rfl⟩⟩
    simp only [hnewest,if_true]
    refine letGo_moves htidy fun token => ?_
    simp only [tokens,mem_append,mem_map,mem_filter]
    grind
  · have htidy : Tidy {follow with
        keptGroups := follow.keptGroups.filter (fun row => row.1∉released)} :=
      ⟨honce,fun newest hsome hmem => h.apart newest hsome ((filter_sublist.map _).subset hmem),
        h.formed⟩
    simp only [hnewest,if_false,Bool.false_eq_true]
    refine letGo_moves htidy fun token => ?_
    simp only [tokens,mem_append,mem_map,mem_filter]
    grind

/-- What of a move the tokens depend on. -/
def following (after : FollowState × Applied) :=
  (after.1.followed,after.1.followedElement,after.1.followedSlider,after.1.keptGroups,
    after.2.unfollowed,after.2.subscribe)

theorem Moves.of_following {given : List Nat} {after after' : FollowState × Applied}
    (h : Moves follow given applied after) (hsame : following after'=following after) :
    Moves follow given applied after' := by
  obtain ⟨⟨_,_,_,_,_,_,_,_,_⟩,⟨_,_,_,_,_,_,_⟩⟩ := after
  cases hsame
  exact ⟨⟨h.tidy.once,h.tidy.apart,h.tidy.formed⟩,h.unfollowed,h.tokens,h.subscribes⟩

theorem Moves.trans {given more : List Nat} {after last : FollowState × Applied}
    (h : Moves follow given applied after) (h' : Moves after.1 more after.2 last)
    (hlost : ∀ token∈more, token∉after.2.unfollowed) : Moves follow (given++more) applied last where
  tidy := h'.tidy
  unfollowed := by
    intro token
    have := h.unfollowed token
    have := h'.unfollowed token
    have := h'.tokens token
    have := h.tokens token
    grind
  tokens := by
    intro token hmem
    have := h.tokens token
    have := h'.tokens token hmem
    grind
  subscribes := h'.subscribes∘h.subscribes

theorem Moves.refl (h : follow.Tidy) : Moves follow [] applied (follow,applied) :=
  .still h (fun _ => Iff.rfl) (by simp)

variable {given : List Nat} {held : Applied}

theorem endWatchElsewhere_following (node : NodeId) :
    following (follow.endWatchElsewhere node applied)=following (follow,applied) := by
  unfold endWatchElsewhere
  split <;> rfl

theorem applyFollow_moves {facts : Facts} (h : Moves follow given applied (facts.follow,held))
    (change : Option Follow) (hformed : ∀ f∈change, f.target.Formed)
    (hlost : held.unfollowed=[]) :
    Moves follow (given++change.toList.flatMap (·.target.tokens)) applied
      ((applyFollow facts change held).1.follow,(applyFollow facts change held).2) := by
  cases change with
  | none => simpa [applyFollow] using h
  | some f =>
    have hadopt : following ((if f.adopt then adopt facts f held else (facts,held)).1.follow,
        (if f.adopt then adopt facts f held else (facts,held)).2) =
        following (facts.follow,held) := by
      split
      · exact endWatchElsewhere_following f.node
      · rfl
    unfold applyFollow
    simp only
    generalize (if f.adopt=true then adopt facts f held else (facts,held))=adopted at hadopt ⊢
    have h := h.of_following hadopt
    have hnone : adopted.2.unfollowed=[] :=
      (congrArg (fun fields => fields.2.2.2.2.1) hadopt).trans hlost
    have hmoves := h.trans (retarget_moves h.tidy (hformed f rfl) adopted.2) (by simp [hnone])
    rw [Option.toList_some,flatMap_cons,flatMap_nil,append_nil]
    exact hmoves.of_following rfl

theorem applyElement_moves (h : Moves follow given applied (follow',held))
    (change : Option (NodeId × Target)) (hformed : ∀ late∈change, late.2.Formed)
    (hlost : ∀ late∈change, ∀ token∈late.2.tokens, token∉held.unfollowed) :
    Moves follow (given++change.toList.flatMap (·.2.tokens)) applied
      (applyElement follow' change held) := by
  cases change with
  | none => simpa [applyElement] using h
  | some late =>
    simp only [applyElement,Option.toList_some,flatMap_cons,flatMap_nil,append_nil]
    split
    · exact h.trans (retarget_moves h.tidy (hformed late rfl) held) (hlost late rfl)
    refine h.trans ⟨h.tidy,fun token => ?_,fun token => .inl,id⟩ (hlost late rfl)
    rw [mem_unfollow]
    simp only [Target.tokens]
    grind

theorem applyForeground_following (change : Option (NodeId × Role × Nat)) :
    following (applyForeground follow change applied)=following (follow,applied) := by
  cases change with
  | none => rfl
  | some change => exact endWatchElsewhere_following change.1

theorem applyWatch_following (watch : Watch) (change : Option WatchChange) (clock : Clock) :
    following (follow,(applyWatch watch change clock applied).2)=following (follow,applied) := by
  unfold applyWatch
  split
  · rfl
  · rfl
  · rfl
  · split <;> rfl

theorem applyOwedDone_following (generation : Nat) (done : Option NodeId) :
    following (applyOwedDone follow generation done,applied)=following (follow,applied) := by
  unfold applyOwedDone
  split
  · split <;> rfl
  · rfl

variable (facts : Facts)

/-- A commit up to its focus, and up to its late element. -/
def beforeFollow (change : Change) : Facts × Applied :=
  let (text,ranges) := facts.text.applyAll change.text
  let (follow,applied) := applyReplaced facts.follow change.replaced {ranges}
  let follow := {follow with
    tracking := {follow.tracking with dialog := change.dialog.getD follow.tracking.dialog}}
  ({facts with text, follow},applied)

@[inherit_doc beforeFollow]
def beforeElement (change : Change) : FollowState × Applied :=
  let (facts,applied) := beforeFollow facts change
  let (facts,applied) := applyFollow facts change.follow applied
  let follow := {facts.follow with
    focusPath := change.focusPath.or facts.follow.focusPath
    tracking := {facts.follow.tracking with
      valueFromSelection :=
        change.valueFromSelection.getD facts.follow.tracking.valueFromSelection}}
  applyForeground follow change.foreground applied

theorem apply_following (generation : Nat) (change : Change) (clock : Clock) :
    following ((apply facts generation change clock).1.follow,
        (apply facts generation change clock).2) =
      following (applyElement (beforeElement facts change).1 change.element
        (beforeElement facts change).2) :=
  (applyWatch_following _ _ _).trans (applyOwedDone_following _ _)

theorem apply_moves {facts : Facts} (h : facts.follow.Tidy) (generation : Nat) (change : Change)
    (clock : Clock) (hfollow : ∀ f∈change.follow, f.target.Formed)
    (helement : ∀ late∈change.element, late.2.Formed ∧ ∀ token∈late.2.tokens,
      token∉(apply facts generation {change with element := none} clock).2.unfollowed) :
    Moves facts.follow change.tokens {} ((apply facts generation change clock).1.follow,
      (apply facts generation change clock).2) := by
  have hsame : following ((beforeFollow facts change).1.follow,(beforeFollow facts change).2) =
      following (facts.follow,{}) := by
    change following (applyReplaced facts.follow change.replaced
      {ranges := (facts.text.applyAll change.text).2})=_
    unfold applyReplaced
    split
    · split <;> rfl
    · rfl
  have hbefore : Moves facts.follow (change.follow.toList.flatMap (·.target.tokens)) {}
      (beforeElement facts change) :=
    (applyFollow_moves ((Moves.refl h).of_following hsame) change.follow hfollow
      (congrArg (fun fields => fields.2.2.2.2.1) hsame)).of_following
      ((applyForeground_following change.foreground).trans rfl)
  have hlost : (beforeElement facts change).2.unfollowed =
      (apply facts generation {change with element := none} clock).2.unfollowed :=
    congrArg (fun fields => fields.2.2.2.2.1)
      (apply_following facts generation {change with element := none} clock).symm
  have hfresh : ∀ late∈change.element, ∀ token∈late.2.tokens,
      token∉(beforeElement facts change).2.unfollowed := by
    rw [hlost]
    exact fun late hlate => (helement late hlate).2
  exact (applyElement_moves hbefore change.element (fun late hlate => (helement late hlate).1)
    hfresh).of_following (apply_following facts generation change clock)

end FollowState

open FollowState

inductive TokenOp where
  | commit (generation : Nat) (change : Change) (clock : Clock)
  | release (released : List NodeId)

/-- The outpost's facts, with the tokens given to it and not let go of. -/
structure Holding where
  facts : Facts := {}
  out : List Nat := []

namespace Holding

def step (s : Holding) : TokenOp → Holding × Applied
  | .commit generation change clock =>
      let (facts,applied) := apply s.facts generation change clock
      (⟨facts,(s.out++change.tokens).filter (·∉applied.unfollowed)⟩,applied)
  | .release released =>
      let (follow,applied) := s.facts.follow.releaseGroups released {}
      (⟨{s.facts with follow},s.out.filter (·∉applied.unfollowed)⟩,applied)

/-- A commit's targets are formed, and its late element gives no token the rest of the commit lets
go of. -/
def Fits (s : Holding) : TokenOp → Prop
  | .commit generation change clock => (∀ f∈change.follow, f.target.Formed) ∧
      ∀ late∈change.element, late.2.Formed ∧ ∀ token∈late.2.tokens,
        token∉(apply s.facts generation {change with element := none} clock).2.unfollowed
  | .release _ => True

inductive Run : Holding → Prop where
  | new : Run {}
  | step {s : Holding} {op : TokenOp} (h : Run s) (hfits : s.Fits op) : Run (s.step op).1

variable {s : Holding}

theorem step_moves (h : s.facts.follow.Tidy) {op : TokenOp} (hfits : s.Fits op) :
    ∃ given, (s.step op).1.out=(s.out++given).filter (·∉(s.step op).2.unfollowed) ∧
      Moves s.facts.follow given {} ((s.step op).1.facts.follow,(s.step op).2) := by
  cases op with
  | commit generation change clock =>
    exact ⟨change.tokens,rfl,apply_moves h generation change clock hfits.1 hfits.2⟩
  | release released =>
    exact ⟨[],by rw [append_nil]; rfl,releaseGroups_moves h released {}⟩

theorem Run.kept (h : Run s) : s.facts.follow.Tidy ∧
    ∀ token, token∈s.out ↔ token∈s.facts.follow.tokens := by
  induction h with
  | new => exact ⟨⟨nodup_nil,by simp,⟨fun _ => rfl,fun _ => rfl⟩⟩,by simp [FollowState.tokens]⟩
  | step _ hfits ih =>
    obtain ⟨given,hout,hmoves⟩ := step_moves ih.1 hfits
    refine ⟨hmoves.tidy,fun token => ?_⟩
    have := hmoves.unfollowed token
    have := hmoves.tokens token
    grind

/-- Along every run the tokens given and not let go of are those followed, one group is kept for
each older node, and every next step lets go of none still followed and subscribes to exactly what
is followed. -/
theorem tokens_conserved (h : Run s) :
    (∀ token, token∈s.out ↔ s.facts.follow.follows token=true) ∧
    (s.facts.follow.keptGroups.map (·.1)).Nodup ∧
    (∀ newest, s.facts.follow.followed=some newest → newest.1∉s.facts.follow.keptGroups.map (·.1)) ∧
    ∀ op, s.Fits op → (∀ token∈(s.step op).2.unfollowed,
        (s.step op).1.facts.follow.follows token=false) ∧
      ∀ subscription, (s.step op).2.subscribe=some subscription → ∀ token,
        token∈subscription.tokens ↔ (s.step op).1.facts.follow.follows token=true := by
  obtain ⟨htidy,hout⟩ := h.kept
  simp only [follows_iff,← Bool.not_eq_true]
  refine ⟨hout,htidy.once,htidy.apart,fun op hfits => ?_⟩
  obtain ⟨given,-,hmoves⟩ := step_moves htidy hfits
  refine ⟨fun token hmem => ?_,hmoves.subscribes (by simp)⟩
  exact (((hmoves.unfollowed token).mp hmem).resolve_left not_mem_nil).2

def targeting (node : NodeId) (element slider : Option Nat) : Target :=
  ⟨some (node,.base,none),element,slider⟩

def focusing (node : NodeId) (element slider : Option Nat) : Change :=
  {follow := some ⟨node,0,none,none,[],0,false,false,false,targeting node element slider,none,0,0,
      true⟩}

theorem tokens_conserved_of_focus :
    1∈(step {} (.commit 1 (focusing 7 (some 1) (some 2)) none)).1.out ↔
      (step {} (.commit 1 (focusing 7 (some 1) (some 2)) none)).1.facts.follow.follows 1=true :=
  (tokens_conserved (.step .new (by simp [Fits,focusing,targeting,Target.Formed]))).1 1

/-- A commit whose late element gives back the token its focus lets go of. -/
def regiven : Holding × Applied :=
  (step {} (.commit 1 (focusing 7 (some 1) none) none)).1.step (.commit 2
    {focusing 7 (some 3) none with element := some (7,targeting 7 (some 1) none)} none)

/-- A slider's token without an element is followed and not subscribed to, and a token given back
in the same commit is listed though it is followed. -/
theorem slider_not_subscribed :
    ((step {} (.commit 1 (focusing 7 none (some 2)) none)).1.facts.follow.follows 2=true ∧
      (step {} (.commit 1 (focusing 7 none (some 2)) none)).2.subscribe.map (·.tokens)=some []) ∧
    regiven.1.facts.follow.follows 1=true ∧ 1∈regiven.2.unfollowed := by
  decide

end Holding

end Verbatim.Outpost
