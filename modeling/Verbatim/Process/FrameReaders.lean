import Verbatim.Process.Framing

namespace Verbatim.Process

open Framework List Option Nat

section Bounds

variable {bytes : Bytes} {header : Nat} {lengths : Lengths}

theorem frameBounds_bounds (h : frameBounds bytes=.ok (some (header,lengths))) :
    0<header ∧ header ≤ maxHeaderBytes ∧ header≤bytes.length := by
  simp only [frameBounds] at h
  split at h
  · next place found =>
    have fits := (position_eq_some found).1
    simp only [length_take] at fits
    cases parsed : parseHeader (bytes.take (place+headerEnd.length)) with
    | error error => simp [parsed,Except.map] at h
    | ok parsed' =>
      simp only [parsed,Except.map,Except.ok.injEq,some.injEq,Prod.mk.injEq] at h
      have positive : 0<headerEnd.length := by decide
      omega
  · split at h <;> simp at h

theorem frameBounds_append (h : frameBounds bytes≠.ok none) (more : Bytes) :
    frameBounds (bytes++more)=frameBounds bytes := by
  simp only [frameBounds] at h ⊢
  have window : (bytes++more).take maxHeaderBytes =
      bytes.take maxHeaderBytes++more.take (maxHeaderBytes-bytes.length) := take_append
  cases found : position headerEnd (bytes.take maxHeaderBytes) with
  | some place =>
    have fits := (position_eq_some found).1
    simp only [length_take] at fits
    have inside : place+headerEnd.length≤bytes.length := by omega
    simp only [window,position_append found,take_append_of_le_length inside]
  | none =>
    simp only [found] at h
    have long : maxHeaderBytes≤bytes.length := by
      by_contra short
      exact h (if_neg short)
    have rest : more.take (maxHeaderBytes-bytes.length)=[] := by
      simp [Nat.sub_eq_zero_of_le long]
    simp only [window,rest,append_nil,found,length_append,if_pos long,
      if_pos (Nat.le_add_right_of_le long)]

theorem partsAt_append (fits : header+lengths.whole≤bytes.length) (more : Bytes) :
    partsAt (bytes++more) header lengths=partsAt bytes header lengths := by
  obtain ⟨body,raw⟩ := lengths
  cases raw with
  | none =>
    simp only [Lengths.whole,getD_none] at fits
    simp only [partsAt,map_none]
    rw [drop_append_of_le_length (by omega),
      take_append_of_le_length (by simp only [length_drop]; omega)]
  | some raw =>
    simp only [Lengths.whole,getD_some] at fits
    simp only [partsAt,map_some]
    rw [drop_append_of_le_length (by omega),
      take_append_of_le_length (by simp only [length_drop]; omega),
      drop_append_of_le_length (by omega),
      take_append_of_le_length (by simp only [length_drop]; omega)]

end Bounds

theorem wholeFramesFrom_enough (fuel : Nat) (bytes : Bytes) (h : bytes.length<fuel) :
    wholeFramesFrom fuel bytes=wholeFrames bytes := by
  suffices same : ∀ fuel fuel' : Nat, ∀ bytes : Bytes, bytes.length<fuel →
      bytes.length<fuel' → wholeFramesFrom fuel bytes=wholeFramesFrom fuel' bytes from
    same _ _ _ h (lt_succ_self _)
  intro fuel
  induction fuel with
  | zero => intro fuel' bytes h; omega
  | succ fuel ih =>
    intro fuel' bytes h h'
    cases fuel' with
    | zero => omega
    | succ fuel' =>
      simp only [wholeFramesFrom]
      cases bounds : frameBounds bytes with
      | error error => rfl
      | ok found =>
        rcases found with _ | ⟨header,lengths⟩
        · rfl
        have positive := (frameBounds_bounds bounds).1
        by_cases short : bytes.length<header+lengths.whole
        · simp only [if_pos short]
        simp only [if_neg short]
        rw [ih fuel' _ (by simp only [length_drop]; omega) (by simp only [length_drop]; omega)]

def Unfinished (bytes : Bytes) : Prop :=
  frameBounds bytes=.ok none ∨
    ∃ header lengths, frameBounds bytes=.ok (some (header,lengths)) ∧
      bytes.length<header+lengths.whole

variable {bytes : Bytes}

theorem wholeFrames_error {error : FrameError}
    (h : frameBounds bytes=.error error) : wholeFrames bytes=([],.error error) := by
  simp only [wholeFrames,wholeFramesFrom,h]

theorem wholeFrames_unfinished (h : Unfinished bytes) : wholeFrames bytes=([],.ok 0) := by
  rcases h with h | ⟨header,lengths,h,short⟩
  · simp only [wholeFrames,wholeFramesFrom,h]
  · simp only [wholeFrames,wholeFramesFrom,h,if_pos short]

theorem wholeFrames_frame {header : Nat} {lengths : Lengths}
    (h : frameBounds bytes=.ok (some (header,lengths))) (fits : header+lengths.whole≤bytes.length) :
    wholeFrames bytes =
      ((partsAt bytes header lengths,header+lengths.whole) ::
          (wholeFrames (bytes.drop (header+lengths.whole))).1,
        (wholeFrames (bytes.drop (header+lengths.whole))).2.map (header+lengths.whole+·)) := by
  have positive := (frameBounds_bounds h).1
  rw [wholeFrames]
  simp only [wholeFramesFrom,h,if_neg (not_lt.mpr fits)]
  rw [wholeFramesFrom_enough _ _ (by simp only [length_drop]; omega)]

theorem frameBounds_cases (bytes : Bytes) :
    (∃ error, frameBounds bytes=.error error) ∨ Unfinished bytes ∨
      ∃ header lengths, frameBounds bytes=.ok (some (header,lengths)) ∧
        header+lengths.whole≤bytes.length := by
  cases bounds : frameBounds bytes with
  | error error => exact .inl ⟨error,rfl⟩
  | ok found =>
    rcases found with _ | ⟨header,lengths⟩
    · exact .inr (.inl (.inl bounds))
    rcases lt_or_ge bytes.length (header+lengths.whole) with short | fits
    · exact .inr (.inl (.inr ⟨header,lengths,bounds,short⟩))
    · exact .inr (.inr ⟨header,lengths,rfl,fits⟩)

theorem wholeFrames_induction {motive : Bytes → Prop}
    (refused : ∀ bytes error, frameBounds bytes=.error error → motive bytes)
    (unfinished : ∀ bytes, Unfinished bytes → motive bytes)
    (frame : ∀ bytes header lengths, frameBounds bytes=.ok (some (header,lengths)) →
      header+lengths.whole≤bytes.length →
      motive (bytes.drop (header+lengths.whole)) → motive bytes) (bytes : Bytes) :
    motive bytes := by
  induction size : bytes.length using Nat.strong_induction_on generalizing bytes with
  | _ size ih =>
    rcases frameBounds_cases bytes with ⟨error,h⟩ | h | ⟨header,lengths,h,fits⟩
    · exact refused bytes error h
    · exact unfinished bytes h
    have positive := (frameBounds_bounds h).1
    exact frame bytes header lengths h fits (ih _ (by simp only [length_drop]; omega) _ rfl)

theorem wholeFrames_left (bytes : Bytes) (used : Nat) (h : (wholeFrames bytes).2=.ok used) :
    used≤bytes.length ∧ Unfinished (bytes.drop used) := by
  induction bytes using wholeFrames_induction generalizing used with
  | refused bytes error bounds => simp [wholeFrames_error bounds] at h
  | unfinished bytes short =>
    simp only [wholeFrames_unfinished short,Except.ok.injEq] at h
    subst h
    exact ⟨zero_le _,short⟩
  | frame bytes header lengths bounds fits ih =>
    rw [wholeFrames_frame bounds fits] at h
    cases later : (wholeFrames (bytes.drop (header+lengths.whole))).2 with
    | error error => simp [later,Except.map] at h
    | ok more =>
      simp only [later,Except.map,Except.ok.injEq] at h
      obtain ⟨within,left⟩ := ih more later
      simp only [length_drop] at within
      rw [drop_drop,h] at left
      exact ⟨by omega,left⟩

/-- The frames of bytes and of what follows them: those of the bytes first, unless refused there. -/
theorem wholeFrames_append (bytes more : Bytes) :
    (∃ frames error, wholeFrames bytes=(frames,.error error) ∧
      wholeFrames (bytes++more)=(frames,.error error)) ∨
    ∃ frames used, wholeFrames bytes=(frames,.ok used) ∧
      wholeFrames (bytes++more) =
        (frames++(wholeFrames (bytes.drop used++more)).1,
          (wholeFrames (bytes.drop used++more)).2.map (used+·)) := by
  induction bytes using wholeFrames_induction with
  | refused bytes error bounds =>
    have known : frameBounds bytes≠.ok none := by simp [bounds]
    have same := (frameBounds_append known more).trans bounds
    exact .inl ⟨[],error,wholeFrames_error bounds,wholeFrames_error same⟩
  | unfinished bytes short =>
    refine .inr ⟨[],0,wholeFrames_unfinished short,?_⟩
    cases ended : wholeFrames (bytes++more) with
    | mk frames used => cases used <;> simp [ended,Except.map]
  | frame bytes header lengths bounds fits ih =>
    have known : frameBounds bytes≠.ok none := by simp [bounds]
    have same := (frameBounds_append known more).trans bounds
    have fits' : header+lengths.whole≤(bytes++more).length := by
      simp only [length_append]; omega
    have first := wholeFrames_frame bounds fits
    have whole := wholeFrames_frame same fits'
    rw [drop_append_of_le_length fits,partsAt_append fits] at whole
    rcases ih with ⟨frames,error,part,all⟩ | ⟨frames,used,part,all⟩
    · exact .inl ⟨_,error,by simpa [part,Except.map] using first,
        by simpa [all,Except.map] using whole⟩
    refine .inr ⟨_,header+lengths.whole+used,by simpa [part,Except.map] using first,?_⟩
    rw [whole,all,drop_drop]
    cases (wholeFrames (bytes.drop (header+lengths.whole+used)++more)).2 <;>
      simp [Except.map,Nat.add_assoc]

def readWhole (bytes : Bytes) : List (Parts × Nat) × Except FrameError Unit :=
  ((wholeFrames bytes).1,
    (wholeFrames bytes).2.bind fun used => (⟨bytes.drop used⟩ : PortReader).finish)

theorem readWhole_unfinished (h : Unfinished bytes) :
    readWhole bytes=([],(⟨bytes⟩ : PortReader).finish) := by
  simp [readWhole,wholeFrames_unfinished h,Except.bind]

theorem readWhole_error {error : FrameError}
    (h : frameBounds bytes=.error error) : readWhole bytes=([],.error error) := by
  simp [readWhole,wholeFrames_error h,Except.bind]

theorem readWhole_frame {header : Nat} {lengths : Lengths}
    (h : frameBounds bytes=.ok (some (header,lengths))) (fits : header+lengths.whole≤bytes.length) :
    readWhole bytes =
      ((partsAt bytes header lengths,header+lengths.whole) ::
          (readWhole (bytes.drop (header+lengths.whole))).1,
        (readWhole (bytes.drop (header+lengths.whole))).2) := by
  simp only [readWhole,wholeFrames_frame h fits]
  cases (wholeFrames (bytes.drop (header+lengths.whole))).2 <;>
    simp [Except.map,Except.bind,drop_drop]

/-- One read: its frames are handed out and the rest of the stream is read after what is left, or
the stream is refused. -/
theorem readWhole_append (bytes more : Bytes) :
    (∃ frames error, wholeFrames bytes=(frames,.error error) ∧
      readWhole (bytes++more)=(frames,.error error)) ∨
    ∃ frames used, wholeFrames bytes=(frames,.ok used) ∧ Unfinished (bytes.drop used) ∧
      readWhole (bytes++more) =
        (frames++(readWhole (bytes.drop used++more)).1,(readWhole (bytes.drop used++more)).2) := by
  rcases wholeFrames_append bytes more with ⟨frames,error,part,all⟩ | ⟨frames,used,part,all⟩
  · exact .inl ⟨frames,error,part,by simp [readWhole,all,Except.bind]⟩
  obtain ⟨within,left⟩ := wholeFrames_left bytes used (by simp [part])
  refine .inr ⟨frames,used,part,left,?_⟩
  simp only [readWhole,all]
  cases (wholeFrames (bytes.drop used++more)).2 with
  | error error => rfl
  | ok later =>
    simp only [Except.map,Except.bind]
    rw [← drop_drop,drop_append_of_le_length within]

theorem handOut_eq (pending data : Bytes) :
    PortReader.handOut ⟨pending⟩ data =
      ((wholeFrames (pending++data)).1,
        (wholeFrames (pending++data)).2.map fun used => ⟨(pending++data).drop used⟩) := by
  simp only [PortReader.handOut]
  split
  next empty => simp [empty]
  · rfl

theorem portReader_take_eq {reads : List Bytes} {pending : Bytes} (h : Unfinished pending)
    (split : ∀ data∈reads,data≠[]) :
    PortReader.take ⟨pending⟩ reads=readWhole (pending++reads.flatten) := by
  induction reads generalizing pending with
  | nil => simp [PortReader.take,readWhole_unfinished h]
  | cons data reads ih =>
    have later : ∀ data∈reads,data≠[] := fun d inside => split d (mem_cons_of_mem _ inside)
    cases data with
    | nil => exact absurd rfl (split [] (by simp))
    | cons byte data =>
      rw [flatten_cons,← append_assoc]
      simp only [PortReader.take,handOut_eq]
      rcases readWhole_append (pending++byte::data) reads.flatten with
        ⟨frames,error,part,all⟩ | ⟨frames,used,part,left,all⟩
      · rw [all]; simp only [part,Except.map]
      · rw [all]; simp only [part,Except.map,ih left later]

/-- The two incremental readers read alike. -/
theorem eventReader_take_eq (reads : List Bytes) (pending : Bytes) :
    EventReader.take ⟨pending⟩ reads=PortReader.take ⟨pending⟩ reads := by
  induction reads generalizing pending with
  | nil => rfl
  | cons data reads ih =>
    cases data with
    | nil => rfl
    | cons byte data =>
      simp only [EventReader.take,PortReader.take,handOut_eq]
      rcases wholeFrames (pending++byte::data) with ⟨frames,used⟩
      cases used with
      | error error => rfl
      | ok used => simp only [Except.map,ih]

theorem unfinished_nil : Unfinished [] := .inl rfl

end Verbatim.Process
