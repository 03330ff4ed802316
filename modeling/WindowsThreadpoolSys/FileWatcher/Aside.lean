import WindowsThreadpoolSys.FileWatcher.Watcher

/-! Callbacks that begin, the questions of the fault loop and of a volume change, their answers, and routes
that leave: none of these moves the gate, the endpoint or a queue. What they leave as it is, is said here
once for all of them. -/
namespace WindowsThreadpoolSys.FileWatcher
open Library List Watcher

variable {P : Type} {w w' w'' : Watcher P}

def Task.aside : Task → Bool
  | .arm | .askFault _ | .schedule _ | .reopen | .resolveFaultSuccess | .recordStop
  | .resolveVolumeChange | .leaveFault _ | .leaveVolumeChange _ => true
  | .enterFault _ | .register _ _ | .widen | .install _ | .stopTeardown => false

/-- The steps that are aside from the endpoint. A reopen is only while it asks about no volume. -/
def Event.aside : Event P → Bool
  | .completion _ | .activation _ | .askFault _ | .schedule _ | .answer _ _ | .timer
  | .resolveFaultSuccess | .recordStop | .answerVolumeChange _ _ | .resolveVolumeChange
  | .removeRoute _ | .leaveFault _ | .leaveVolumeChange _ | .takeRoutes => true
  | .reopen found => decide (found ≠ .opened true)
  | _ => false

namespace Watcher

structure Aside (w w' : Watcher P) : Prop where
  gate : w'.gate = w.gate
  endpoint : w'.endpoint = w.endpoint
  installing : w'.installing = w.installing
  arming : w'.arming = w.arming
  sessions : w'.sessions = w.sessions
  prods : w'.prods = w.prods
  resumes : w'.resumes = w.resumes
  routes : Table.Sub w'.routes w.routes
  tasks : ∀ t, t.aside = false → t ∈ w.tasks → t ∈ w'.tasks
  stops : Task.stopTeardown ∈ w'.tasks → Task.stopTeardown ∈ w.tasks

theorem Aside.refl (w : Watcher P) : Aside w w :=
  ⟨rfl,rfl,rfl,rfl,rfl,rfl,rfl,.refl _,fun _ _ h=>h,fun h=>h⟩

theorem Aside.trans (h : Aside w w') (h' : Aside w' w'') : Aside w w'' where
  gate := h'.gate.trans h.gate
  endpoint:=h'.endpoint.trans h.endpoint
  installing:=h'.installing.trans h.installing
  arming:=h'.arming.trans h.arming
  sessions:=h'.sessions.trans h.sessions
  prods:=h'.prods.trans h.prods
  resumes:=h'.resumes.trans h.resumes
  routes:=fun k v hget=>h.routes k v (h'.routes k v hget)
  tasks:=fun t ht hmem=>h'.tasks t ht (h.tasks t ht hmem)
  stops:=fun hmem=>h.stops (h'.stops hmem)

theorem Aside.spawn (w : Watcher P) {t : Task} (ht : Task.stopTeardown ≠ t) : Aside w (w.spawn t) where
  gate := rfl
  endpoint:=rfl
  installing:=rfl
  arming:=rfl
  sessions:=rfl
  prods:=rfl
  resumes:=rfl
  routes:=.refl _
  tasks:=fun _ _ h=>mem_cons_of_mem _ h
  stops:=fun h=>(mem_cons.mp h).elim (fun heq=>absurd heq ht) fun h=>h

theorem Aside.done (w : Watcher P) {t : Task} (ht : t.aside=true) : Aside w (w.done t) where
  gate := rfl
  endpoint:=rfl
  installing:=rfl
  arming:=rfl
  sessions:=rfl
  prods:=rfl
  resumes:=rfl
  routes:=.refl _
  tasks:=by
    intro t' ht' hmem
    refine (mem_erase_of_ne ?_).mpr hmem
    intro heq
    rw [heq,ht] at ht'
    cases ht'
  stops:=mem_of_mem_erase

theorem Aside.fields (w : Watcher P) (fault : Option FaultState)
    (volumeChange : Option VolumeChangeState) (stopped : Bool) (timer : Option ℕ) : Aside w { w with
      fault := fault,volumeChange := volumeChange,stopped := stopped,timer := timer } :=
  ⟨rfl,rfl,rfl,rfl,rfl,rfl,rfl,.refl _,fun _ _ h=>h,fun h=>h⟩

theorem Aside.leave (w : Watcher P) {routes : Table WatchId Route} (h : Table.Sub routes w.routes) :
    Aside w { w with routes := routes } :=
  ⟨rfl,rfl,rfl,rfl,rfl,rfl,rfl,h,fun _ _ h=>h,fun h=>h⟩

theorem empty_sub (t : Table WatchId Route) : Table.Sub Table.empty t := fun _ _ h=>by cases h

theorem Aside.onCompletion (w : Watcher P) (outcome : Completion) :
    Aside w (w.onCompletion outcome) := by
  cases outcome
  · exact refl w
  · exact spawn w Task.noConfusion
  · exact spawn w Task.noConfusion

theorem Aside.onActivation (w : Watcher P) (reset : Bool) : Aside w (w.onActivation reset) := by
  unfold Watcher.onActivation
  split_ifs
  · exact spawn w Task.noConfusion
  · exact spawn w Task.noConfusion

theorem Aside.askFault (w : Watcher P) (operation : FaultOperation) :
    Aside w (w.askFault operation) := by
  unfold Watcher.askFault
  simp only
  split_ifs
  · exact (fields w _ w.volumeChange w.stopped w.timer).trans (spawn _ Task.noConfusion)
  · exact fields w _ w.volumeChange w.stopped w.timer

theorem Aside.settleFault (w : Watcher P) (watch : WatchId) (candidate : FaultState → ℕ) :
    Aside w (w.settleFault watch candidate) := by
  unfold Watcher.settleFault
  split
  · exact refl w
  · split_ifs
    · simp only
      split_ifs
      · exact (fields w _ w.volumeChange w.stopped w.timer).trans (spawn _ Task.noConfusion)
      · exact fields w _ w.volumeChange w.stopped w.timer
    · exact refl w

theorem Aside.retryReestablish (w : Watcher P) : Aside w w.retryReestablish := by
  unfold Watcher.retryReestablish
  split_ifs
  · exact refl w
  · exact spawn w Task.noConfusion

theorem Aside.reopen (w : Watcher P) {found : Reopened} (h : found ≠ .opened true) :
    Aside w (w.reopen found) := by
  unfold Watcher.reopen
  split
  · exact spawn w Task.noConfusion
  · exact spawn w Task.noConfusion
  · exact spawn w Task.noConfusion
  · exact absurd rfl h

theorem Aside.recordStop (w : Watcher P) : Aside w w.recordStop := by
  unfold Watcher.recordStop
  split_ifs
  · exact refl w
  · exact fields w none w.volumeChange true w.timer

theorem Aside.settleVolumeChange (w : Watcher P) (watch : WatchId)
    (decisions : List (WatchId × VolumeChangeDecision)) :
    Aside w (w.settleVolumeChange watch decisions) := by
  unfold Watcher.settleVolumeChange
  split
  · exact refl w
  · split_ifs
    · simp only
      split_ifs
      · exact (fields w w.fault _ w.stopped w.timer).trans (spawn _ Task.noConfusion)
      · exact fields w w.fault _ w.stopped w.timer
    · exact refl w

theorem Aside.resolveVolumeChange (h : w.resolveVolumeChange=some w') : Aside w w' := by
  unfold Watcher.resolveVolumeChange at h
  split at h
  · cases h
  · rename_i v hv
    cases h
    have hleft:=(fields w w.fault none w.stopped w.timer).trans (leave _ (Table.sub_filter w.routes
      fun watch _=>decide ((watch,VolumeChangeDecision.stop) ∉ v.decisions)))
    split_ifs
    · exact hleft
    · exact hleft.trans (spawn _ Task.noConfusion)

theorem Aside.next {t : Task} {free : Bool} {go : Watcher P → Watcher P}
    (h : w.next t free (fun w => some (go w))=some w') (ht : t.aside=true)
    (hgo : ∀ w,Aside w (go w)) : Aside w w' := by
  obtain ⟨-, -,rfl⟩:=next_some h
  exact (done w ht).trans (hgo _)

theorem Aside.step {event : Event P} (hstep : w.step event=some w') (h : event.aside=true) :
    Aside w w' := by
  cases event with
  | completion outcome =>
    cases hstep
    exact onCompletion w outcome
  | activation reset =>
    cases hstep
    exact onActivation w reset
  | askFault operation =>
    simp only [Watcher.step] at hstep
    exact next hstep rfl fun w=>askFault w operation
  | schedule delay =>
    simp only [Watcher.step] at hstep
    exact next hstep rfl fun w=>fields w w.fault w.volumeChange w.stopped _
  | answer watch delay =>
    cases hstep
    exact settleFault w watch _
  | timer =>
    obtain ⟨-,⟨⟩⟩:=Option.ite_none_right_eq_some.mp hstep
    exact (fields w w.fault w.volumeChange w.stopped none).trans (retryReestablish _)
  | reopen found =>
    simp only [Watcher.step] at hstep
    exact next hstep rfl fun w=>reopen w (of_decide_eq_true h)
  | resolveFaultSuccess =>
    simp only [Watcher.step] at hstep
    exact next hstep rfl fun w=>fields w none w.volumeChange w.stopped w.timer
  | recordStop =>
    simp only [Watcher.step] at hstep
    exact next hstep rfl recordStop
  | answerVolumeChange watch decision =>
    cases hstep
    exact settleVolumeChange w watch _
  | resolveVolumeChange =>
    simp only [Watcher.step,Watcher.next] at hstep
    split_ifs at hstep
    exact (done w rfl).trans (resolveVolumeChange hstep)
  | removeRoute watch =>
    obtain ⟨-,⟨⟩⟩:=Option.ite_none_right_eq_some.mp hstep
    exact (leave w (Table.sub_erase w.routes watch)).trans (spawn _ Task.noConfusion)
  | leaveFault watch =>
    simp only [Watcher.step] at hstep
    exact next hstep rfl fun w=>(settleFault w watch _).trans (spawn _ Task.noConfusion)
  | leaveVolumeChange watch =>
    simp only [Watcher.step] at hstep
    exact next hstep rfl fun w=>settleVolumeChange w watch _
  | takeRoutes =>
    obtain ⟨-,⟨⟩⟩:=Option.ite_none_right_eq_some.mp hstep
    exact leave w (empty_sub _)
  | _=>cases h

end Watcher

end WindowsThreadpoolSys.FileWatcher
