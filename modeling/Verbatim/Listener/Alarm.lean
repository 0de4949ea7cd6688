import Verbatim.Listener.Runs

namespace Verbatim.Listener

open Framework ReaderRules List Schedule ScheduleEffect

variable {J R F : Type}

section Due

variable {s : Schedule J}

theorem mem_values {app : App J} : app∈s.values ↔ ∃ pid : Pid, s.apps[pid]?=some app := by
  simp only [values,mem_map,Prod.exists,exists_eq_right]
  exact ⟨fun ⟨pid,h⟩ => ⟨pid,Std.ExtTreeMap.mem_toList_iff_getElem?_eq_some.mp h⟩,
    fun ⟨pid,h⟩ => ⟨pid,Std.ExtTreeMap.mem_toList_iff_getElem?_eq_some.mpr h⟩⟩

theorem due_eq_some {t : Nat} : s.due=some t ↔
    (∃ (pid : Pid) (app : App J), s.apps[pid]?=some app ∧ t∈app.dues s.deadline) ∧
      ∀ (pid : Pid) (app : App J), s.apps[pid]?=some app → ∀ t'∈app.dues s.deadline, t≤t' := by
  rw [due,min?_eq_some_iff]
  simp only [mem_flatMap,mem_values]
  constructor
  · rintro ⟨⟨app,⟨pid,happ⟩,ht⟩,hleast⟩
    exact ⟨⟨pid,app,happ,ht⟩,fun pid' app' happ' t' ht' => hleast t' ⟨app',⟨pid',happ'⟩,ht'⟩⟩
  · rintro ⟨⟨pid,app,happ,ht⟩,hleast⟩
    exact ⟨⟨app,⟨pid,happ⟩,ht⟩,fun t' ⟨app',⟨pid',happ'⟩,ht'⟩ => hleast pid' app' happ' t' ht'⟩

theorem foldl_alarmOf (es : List (ScheduleEffect J R F)) (alarm : Option Nat)
    (h : Silent es) : es.foldl alarmOf alarm=alarm := by
  induction es with
  | nil => rfl
  | cons e es ih =>
    have hkeep : alarmOf alarm e=alarm := by
      have he := h e mem_cons_self
      cases e with
      | alarm change =>
        cases change with
        | set due => cases he
        | now => rfl
      | _ => rfl
    rw [foldl_cons,hkeep]
    exact ih fun e' he' => h e' (mem_cons_of_mem _ he')

theorem setAlarm_due (s : Schedule J) (hstop : s.stopping=false) :
    (@setAlarm J R F s).1.alarmDue=(@setAlarm J R F s).1.due ∧
      (@setAlarm J R F s).2.foldl alarmOf s.alarmDue =
        (@setAlarm J R F s).1.alarmDue := by
  unfold setAlarm
  rw [hstop]
  by_cases hdue : s.due=s.alarmDue
  · simp [hdue]
  · simp only [ne_eq,hdue,not_false_eq_true,if_true]
    exact ⟨rfl,rfl⟩

/-- After every step that does not stop the listener, the timer is set to what is due. -/
theorem run_alarm {deadline : Nat} {log : Log J R F} (h : Run deadline log s)
    (hstop : s.stopping=false) : (Shell.of log).alarm=s.alarmDue ∧ s.alarmDue=s.due := by
  induction h with
  | start => exact ⟨rfl,rfl⟩
  | @step log s input now hrun ha ih =>
    have hsteps := (run_kept hrun).steps now ha
    have hbefore : s.stopping=false :=
      (Bool.or_eq_false_iff.mp (hsteps.stopping.symm.trans hstop)).2
    have hhandles := handle_handles s input now (run_kept hrun).sound (run_kept hrun).holds
      ((run_kept hrun).fits ha)
    have hhandled : (s.handle input now).1.stopping=false := by
      rw [← hstop]
      exact (setAlarm_apps (s.handle input now).1).2.1.symm
    obtain ⟨hdue,hset⟩ := setAlarm_due (s.handle input now).1 hhandled
    refine ⟨?_,hdue⟩
    rw [shell_snoc]
    change ((s.handle input now).2++(s.handle input now).1.setAlarm.2).foldl alarmOf
      (unspent (Shell.of log).alarm input)=_
    rw [foldl_append,foldl_alarmOf _ _ hhandles.silent,(ih hbefore).1,
      show unspent s.alarmDue input=(s.handle input now).1.alarmDue from hhandles.alarmDue.symm]
    exact hset

end Due

end Verbatim.Listener
