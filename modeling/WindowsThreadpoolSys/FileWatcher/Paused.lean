import WindowsThreadpoolSys.FileWatcher.Aside

/-! A watcher pauses when the look that decides it finds no room at any route's sink. From then on a sink
that gets room returns the watcher to be prodded, if the watcher is registered with it, and nothing but
an arm uses up the resume that follows. `add_route` registers after it has inserted the route and does
not look for room: a route that joins a paused watcher with room at its sink wakes nobody. -/
namespace WindowsThreadpoolSys.FileWatcher
open Library List Table Option Watcher

variable {P : Type} {w w' w'' : Watcher P}

namespace Watcher

/-! ## What is kept -/

def Registered (w : Watcher P) (sink : SessionId) : Prop :=
  ∃ c, w.sessions.get sink = some c ∧ watcherId ∈ c.resumers

def Registering (w : Watcher P) (sink : SessionId) : Prop :=
  ∃ widen, Task.register sink widen ∈ w.tasks

def LookedAt (w : Watcher P) (watch : WatchId) : Prop :=
  (w.gate = .backpressured ∧ w.arming = none) ∨
    ∃ caller todo, w.arming = some ⟨caller, .looking true todo⟩ ∧ watch ∉ todo

structure Covered (w : Watcher P) (watch : WatchId) (sink : SessionId) : Prop where
  registered : w.Registered sink
  waker : w.LookedAt watch → w.hasRoom sink = true → 0 < w.prods + w.resumes

structure PausedOk (w : Watcher P) : Prop where
  routes : ∀ watch r, w.routes.get watch = some r →
    w.Registering r.sink ∨ w.Covered watch r.sink
  submitting : ∀ caller, w.arming = some ⟨caller, .submit⟩ → w.gate ≠ .backpressured

/-! ## Steps that pause nothing -/

structure Frame (w w' : Watcher P) : Prop where
  routes : Table.Sub w'.routes w.routes
  sessions : w'.sessions = w.sessions
  wakers : w.prods + w.resumes ≤ w'.prods + w'.resumes
  looked : ∀ watch, w'.LookedAt watch → w.LookedAt watch
  submitting : (∀ caller, w.arming = some ⟨caller, .submit⟩ → w.gate ≠ .backpressured) →
    ∀ caller, w'.arming = some ⟨caller, .submit⟩ → w'.gate ≠ .backpressured
  registers : ∀ sink widen, Task.register sink widen ∈ w.tasks → Task.register sink widen ∈ w'.tasks

theorem Frame.refl (w : Watcher P) : Frame w w :=
  ⟨.refl _,rfl,le_rfl,fun _ h=>h,fun h=>h,fun _ _ h=>h⟩

theorem Frame.trans (h : Frame w w') (h' : Frame w' w'') : Frame w w'' where
  routes := fun k v hget=>h.routes k v (h'.routes k v hget)
  sessions:=h'.sessions.trans h.sessions
  wakers:=h.wakers.trans h'.wakers
  looked:=fun watch hl=>h.looked watch (h'.looked watch hl)
  submitting:=fun hs=>h'.submitting (h.submitting hs)
  registers:=fun sink widen ht=>h'.registers sink widen (h.registers sink widen ht)

theorem Frame.of (hroutes : Table.Sub w'.routes w.routes) (hsessions : w'.sessions=w.sessions)
    (hwakers : w.prods+w.resumes ≤ w'.prods+w'.resumes) (harming : w'.arming=w.arming)
    (hgate : w'.gate=.backpressured → w.gate=.backpressured)
    (htasks : ∀ sink widen,Task.register sink widen ∈ w.tasks →
      Task.register sink widen ∈ w'.tasks) : Frame w w' where
  routes := hroutes
  sessions:=hsessions
  wakers:=hwakers
  looked:=by
    intro watch hlooked
    unfold LookedAt at hlooked ⊢
    rw [harming] at hlooked
    exact hlooked.imp (fun h=>⟨hgate h.1,h.2⟩) fun h=>h
  submitting:=by
    intro hs caller harm hpaused
    rw [harming] at harm
    exact hs caller harm (hgate hpaused)
  registers:=htasks

theorem Frame.arming {a : Arming} (hlook : ∀ todo,a.phase ≠ .looking true todo)
    (hsubmit : a.phase=.submit → w.gate ≠ .backpressured) : Frame w { w with arming := some a } where
  routes := .refl _
  sessions:=rfl
  wakers:=le_rfl
  looked:=by
    rintro watch (⟨-,hnone⟩ | ⟨caller,todo,hsome, -⟩)
    · cases hnone
    · cases hsome
      exact absurd rfl (hlook todo)
  submitting:=by
    intro _ caller hsome
    cases hsome
    exact hsubmit rfl
  registers:=fun _ _ h=>h

theorem Frame.release
    (h : w.gate ≠ .backpressured ∨ ∃ caller,w.arming=some ⟨caller,.looking true []⟩) :
    Frame w { w with arming := none } where
  routes := .refl _
  sessions:=rfl
  wakers:=le_rfl
  looked:=by
    rintro watch (⟨hgate, -⟩ | ⟨caller,todo,hsome, -⟩)
    · rcases h with hopen | ⟨caller,harm⟩
      · exact absurd hgate hopen
      · exact .inr ⟨caller,[],harm,not_mem_nil⟩
    · cases hsome
  submitting:=by
    intro _ caller hsome
    cases hsome
  registers:=fun _ _ h=>h

theorem Frame.spawn (w : Watcher P) (t : Task) : Frame w (w.spawn t) :=
  .of (.refl _) rfl le_rfl rfl id fun _ _ h=>mem_cons_of_mem _ h

theorem Frame.done (w : Watcher P) {t : Task} (ht : ∀ sink widen,Task.register sink widen ≠ t) :
    Frame w (w.done t) :=
  .of (.refl _) rfl le_rfl rfl id fun sink widen h=>(mem_erase_of_ne (ht sink widen)).mpr h

theorem Frame.aside (h : Aside w w') : Frame w w' :=
  .of h.routes h.sessions (by rw [h.prods,h.resumes]) h.arming (fun hg=>h.gate ▸ hg)
    fun _ _ ht=>h.tasks _ rfl ht

theorem Frame.setGate (w : Watcher P) {g : ArmGate} (hg : g ≠ .backpressured) :
    Frame w { w with gate := g } :=
  .of (.refl _) rfl le_rfl rfl (fun h=>absurd h hg) fun _ _ h=>h

theorem Frame.setInstalling (w : Watcher P) (i : Option Installing) :
    Frame w { w with installing := i } :=
  .of (.refl _) rfl le_rfl rfl id fun _ _ h=>h

theorem Frame.setEndpoint (w : Watcher P) (e : Option Endpoint) : Frame w { w with endpoint := e } :=
  .of (.refl _) rfl le_rfl rfl id fun _ _ h=>h

theorem Frame.setVolumeChange (w : Watcher P) (v : Option VolumeChangeState) :
    Frame w { w with volumeChange := v } :=
  .of (.refl _) rfl le_rfl rfl id fun _ _ h=>h

theorem Frame.setTimer (w : Watcher P) (t : Option ℕ) : Frame w { w with timer := t } :=
  .of (.refl _) rfl le_rfl rfl id fun _ _ h=>h

theorem Frame.setRoutes (w : Watcher P) {routes : Table WatchId Route}
    (h : Table.Sub routes w.routes) : Frame w { w with routes := routes } :=
  .of h rfl le_rfl rfl id fun _ _ h=>h

theorem Frame.abandon (w : Watcher P) : Frame w w.abandon :=
  (((setGate w (by decide)).trans (setEndpoint _ none)).trans (setRoutes _ (empty_sub _))).trans
    (release (.inl ArmGate.noConfusion))

theorem Frame.finishInstall (w : Watcher P) (caller : InstallCaller) (ok : Bool) :
    Frame w (w.finishInstall caller ok) := by
  have h:=setInstalling w none
  cases caller <;> cases ok
  · exact h.trans (abandon _)
  · exact h
  · exact h.trans (spawn _ _)
  · exact h
  · exact h.trans (spawn _ _)
  · exact h.trans (spawn _ _)

theorem Frame.install (w : Watcher P) (caller : InstallCaller) : Frame w (w.install caller) := by
  unfold Watcher.install
  split_ifs
  · exact finishInstall w caller true
  · exact (setGate w (by decide)).trans (setInstalling _ _)

theorem Frame.installArmed (w : Watcher P) (result : ArmResult) : Frame w (w.installArmed result) := by
  unfold Watcher.installArmed
  split
  · cases result
    · exact finishInstall w _ true
    · exact setInstalling w _
    · exact finishInstall w _ false
  · exact finishInstall w _ _
  · exact refl w

theorem Frame.finishArm (caller : ArmCaller) (result : ArmResult)
    (h : w.gate ≠ .backpressured ∨ ∃ caller,w.arming=some ⟨caller,.looking true []⟩) :
    Frame w (w.finishArm caller result) := by
  have hrelease:=release h
  cases caller with
  | callback =>
    unfold Watcher.finishArm
    simp only
    split_ifs
    · exact hrelease
    · exact hrelease.trans (spawn _ _)
  | install=>exact hrelease.trans (installArmed _ result)

theorem Frame.teardown (h : w.teardown=some w') : Frame w w' := by
  unfold Watcher.teardown at h
  split at h <;> cases h
  · exact (setEndpoint w none).trans (setInstalling _ _)
  · exact (setEndpoint w none).trans (setInstalling _ _)

theorem Frame.establishDetailed {ok : Bool} (h : w.establishDetailed ok=some w') : Frame w w' := by
  unfold Watcher.establishDetailed at h
  split at h <;> cases h
  split_ifs
  · exact (setEndpoint w (some (.detailed none))).trans (setInstalling _ _)
  · exact finishInstall w _ false

theorem Frame.openCoarse (h : w.openCoarse=some w') : Frame w w' := by
  unfold Watcher.openCoarse at h
  split at h <;> cases h
  exact setInstalling w _

theorem Frame.establishCoarse {ok : Bool} (h : w.establishCoarse ok=some w') : Frame w w' := by
  unfold Watcher.establishCoarse at h
  split at h
  · rename_i caller subtree hinstalling
    cases h
    split_ifs
    · exact (setEndpoint w (some (.coarse subtree))).trans (setInstalling _ _)
    · exact finishInstall w caller false
  · cases h

theorem Frame.startArm (w : Watcher P) (caller : ArmCaller) :
    Frame w { w with arming := some ⟨caller,.look false⟩ } :=
  arming (fun _=>ArmPhase.noConfusion) ArmPhase.noConfusion

theorem Frame.armAfterInstall (h : w.armAfterInstall=some w') : Frame w w' := by
  unfold Watcher.armAfterInstall at h
  split at h <;> cases h <;> split_ifs
  · exact finishInstall w _ true
  · exact startArm w _
  · exact finishInstall w _ true
  · exact startArm w _

theorem Frame.arm (w : Watcher P) : Frame w w.arm := by
  unfold Watcher.arm
  split_ifs
  · exact refl w
  · exact startArm w _

theorem Frame.submit {outcome : ArmResult} (h : w.submit outcome=some w')
    (hs : ∀ caller,w.arming=some ⟨caller,.submit⟩ → w.gate ≠ .backpressured) : Frame w w' := by
  unfold Watcher.submit at h
  split at h
  · rename_i caller harm
    have hopen:=hs caller harm
    cases hend : w.endpoint with
    | none =>
      rw [hend] at h
      cases h
      exact finishArm _ _ (.inl hopen)
    | some e =>
      rw [hend] at h
      cases e with
      | coarse subtree =>
        cases h
        exact finishArm _ _ (.inl hopen)
      | detailed firstRead =>
        cases outcome <;> cases h
        · exact (setEndpoint w _).trans (finishArm _ _ (.inl hopen))
        · exact finishArm _ _ (.inl hopen)
        · exact finishArm _ _ (.inl hopen)
  · cases h

theorem Frame.enterFault (w : Watcher P) (operation : FaultOperation) :
    Frame w (w.enterFault operation) := by
  unfold Watcher.enterFault
  split_ifs
  · exact refl w
  · exact (setGate w (by decide)).trans (spawn _ _)

theorem Frame.reopen (w : Watcher P) (found : Reopened) : Frame w (w.reopen found) := by
  unfold Watcher.reopen
  split
  · exact spawn w _
  · exact spawn w _
  · exact spawn w _
  · split_ifs
    · exact spawn w _
    · exact refl w
    · exact (setGate w (by decide)).trans (setVolumeChange _ _)

theorem Frame.widen (w : Watcher P) : Frame w w.widen := by
  unfold Watcher.widen
  split_ifs
  · exact spawn w _
  · exact refl w

theorem PausedOk.frame (h : PausedOk w) (hframe : Frame w w') : PausedOk w' where
  routes := by
    intro watch r hr
    refine (h.routes watch r (hframe.routes watch r hr)).imp ?_ fun hc=>⟨?_,fun hlooked hroom=>?_⟩
    · rintro ⟨widen,hw⟩
      exact ⟨widen,hframe.registers _ _ hw⟩
    · unfold Registered
      rw [hframe.sessions]
      exact hc.registered
    · unfold hasRoom at hroom
      rw [hframe.sessions] at hroom
      exact (hc.waker (hframe.looked watch hlooked) hroom).trans_le hframe.wakers
  submitting:=hframe.submitting h.submitting

theorem PausedOk.look (h : PausedOk w) {order : List WatchId} (hstep : w.look order=some w') :
    PausedOk w' := by
  unfold Watcher.look at hstep
  split at hstep
  · rename_i caller again harm
    split_ifs at hstep with hperm
    cases hstep
    refine ⟨fun watch r hr=>(h.routes watch r hr).imp id fun hc=>⟨hc.registered,?_⟩,?_⟩
    · rintro (⟨-,hnone⟩ | ⟨caller',todo,hsome,hnot⟩)
      · cases hnone
      · cases hsome
        have hkey : watch ∈ w.routes.keys:=Table.mem_keys.mpr ⟨r,hr⟩
        exact absurd ((isPerm_iff.mp hperm).mem_iff.mpr hkey) hnot
    · intro caller' hsome
      cases hsome
  · cases hstep

theorem PausedOk.lookAt (h : PausedOk w) (hstep : w.lookAt=some w') : PausedOk w' := by
  unfold Watcher.lookAt at hstep
  split at hstep
  · rename_i caller again watch rest harm
    cases hstep
    split_ifs with hroom
    · exact h.frame ((Frame.setGate w (by decide)).trans
        (Frame.arming (fun _=>ArmPhase.noConfusion) fun _=>ArmGate.noConfusion))
    · refine ⟨fun watch' r hr=>(h.routes watch' r hr).imp id fun hc=>⟨hc.registered,?_⟩,?_⟩
      · rintro (⟨-,hnone⟩ | ⟨caller',todo,hsome,hnot⟩) hhas
        · cases hnone
        · cases hsome
          by_cases hsame : watch'=watch
          · subst hsame
            simp only [routeHasRoom,hr] at hroom
            exact absurd hhas hroom
          · refine hc.waker (.inr ⟨caller,watch::rest,harm,fun hmem=>?_⟩) hhas
            exact (mem_cons.mp hmem).elim hsame hnot
      · intro caller' hsome
        cases hsome
  · rename_i caller harm
    cases hstep
    refine ⟨fun watch r hr=>(h.routes watch r hr).imp id fun hc=>⟨hc.registered,?_⟩,?_⟩
    · rintro (⟨-,hnone⟩ | ⟨caller',todo,hsome,hnot⟩)
      · cases hnone
      · cases hsome
    · intro caller' hsome
      cases hsome
  · rename_i caller harm
    cases hstep
    exact h.frame (Frame.finishArm _ _ (.inr ⟨caller,harm⟩))
  · cases hstep

theorem PausedOk.resumeArm (h : PausedOk w) (hfree : w.arming=none) :
    PausedOk (resumeArm { w with resumes := w.resumes-1 }) := by
  unfold Watcher.resumeArm
  simp only
  split_ifs with hgate
  · refine ⟨fun watch r hr=>(h.routes watch r hr).imp id fun hc=>⟨hc.registered,?_⟩,?_⟩
    · rintro (⟨-,hnone⟩ | ⟨caller',todo,hsome,hnot⟩)
      · cases hnone
      · cases hsome
    · intro caller' hsome
      cases hsome
  · refine ⟨fun watch r hr=>(h.routes watch r hr).imp id fun hc=>⟨hc.registered,?_⟩,?_⟩
    · rintro (⟨hpaused, -⟩ | ⟨caller',todo,hsome,hnot⟩)
      · exact absurd hpaused hgate
      · rw [hfree] at hsome
        cases hsome
    · intro caller' hsome
      rw [hfree] at hsome
      cases hsome

theorem PausedOk.session (h : PausedOk w) {id : SessionId} (bound : ℕ)
    (hnew : w.sessions.get id=none) :
    PausedOk { w with sessions := w.sessions.insert id (.new bound) } := by
  refine ⟨fun watch r hr=>(h.routes watch r hr).imp (fun h=>h) fun hc=>?_,h.submitting⟩
  obtain ⟨c,hget,hmem⟩:=hc.registered
  have hother : r.sink≠id:=by
    intro heq
    rw [heq,hnew] at hget
    cases hget
  have hsame : (w.sessions.insert id (.new bound)).get r.sink=w.sessions.get r.sink :=
    get_insert_of_ne _ _ hother
  refine ⟨⟨c,hsame.trans hget,hmem⟩,fun hlooked hroom=>hc.waker hlooked ?_⟩
  simpa only [hasRoom,hsame] using hroom

theorem PausedOk.callQueue (h : PausedOk w) {id : SessionId} {call : Call P}
    {dead : List ProducerId} (hstep : w.callQueue id call dead=some w') : PausedOk w' := by
  unfold Watcher.callQueue at hstep
  split at hstep
  · cases hstep
  · rename_i c hc
    split_ifs at hstep with hallowed
    cases hcall : c.step dead call with
    | error e =>
      rw [hcall] at hstep
      cases hstep
    | ok result =>
      obtain ⟨awake,c'⟩:=result
      rw [hcall] at hstep
      cases hstep
      refine ⟨fun watch r hr=>(h.routes watch r hr).imp (fun h=>h) fun hcov=>?_,h.submitting⟩
      by_cases hsink : r.sink=id
      · obtain ⟨c₀,hget,hmem⟩:=hcov.registered
        rw [hsink,hc] at hget
        cases hget
        have hnow : (w.sessions.insert id c').get r.sink=some c':=by
          rw [get_insert,if_pos hsink]
        refine ⟨⟨c',hnow,Channel.step_resumers hcall hallowed.1 hmem⟩,fun hlooked hroom=>?_⟩
        simp only [hasRoom,hnow,State.hasRoom,decide_eq_true_eq] at hroom
        by_cases hfull : c.room=0
        · obtain ⟨-,hawake⟩:=Channel.step_edge hcall hfull hroom
          have hprod : 0 < awake.count watcherId:=by
            rw [count_pos_iff,hawake]
            exact mem_filter.mpr ⟨hmem,decide_eq_true hallowed.1⟩
          simp only
          omega
        · have hbefore : w.hasRoom r.sink=true:=by
            simp only [hasRoom,hsink,hc,State.hasRoom,decide_eq_true_eq]
            exact Nat.pos_of_ne_zero hfull
          have hwaker:=hcov.waker hlooked hbefore
          simp only
          omega
      · have hsame : (w.sessions.insert id c').get r.sink=w.sessions.get r.sink :=
          get_insert_of_ne _ _ hsink
        obtain ⟨c₀,hget,hmem⟩:=hcov.registered
        refine ⟨⟨c₀,hsame.trans hget,hmem⟩,fun hlooked hroom=>?_⟩
        have hwaker:=hcov.waker hlooked (by simpa only [hasRoom,hsame] using hroom)
        simp only
        omega

theorem PausedOk.addRoute (h : PausedOk w) (route : Route) : PausedOk (w.addRoute route) := by
  refine ⟨fun watch r hr=>?_,h.submitting⟩
  rcases of_insert hr with ⟨-,rfl⟩ | hr
  · exact .inl ⟨_,mem_cons_self⟩
  · refine (h.routes watch r hr).imp ?_ fun hc=>⟨hc.registered,hc.waker⟩
    rintro ⟨widen,hw⟩
    exact ⟨widen,mem_cons_of_mem _ hw⟩

/-- The sink a route joins with has no room, or the watcher is not paused and is not being armed. -/
def JoinsUnpaused (w : Watcher P) (sink : SessionId) : Prop :=
  w.hasRoom sink = false ∨ (w.gate ≠ .backpressured ∧ w.arming = none)

instance (w : Watcher P) (sink : SessionId) : Decidable (w.JoinsUnpaused sink) :=
  inferInstanceAs (Decidable (_ ∨ _))

theorem PausedOk.register (h : PausedOk w) {sink : SessionId} {widen : Bool}
    (hjoins : w.JoinsUnpaused sink) (hexists : (w.sessions.get sink).isSome) :
    PausedOk ((w.done (.register sink widen)).register sink widen) := by
  obtain ⟨c,hc⟩:=isSome_iff_exists.mp hexists
  -- The state without the widening that may follow, which is a frame.
  suffices hreg : PausedOk
      { w.done (.register sink widen) with
        sessions:=w.sessions.modify sink (·.registerResume watcherId) } by
    unfold Watcher.register
    simp only
    split_ifs
    · exact hreg.frame (Frame.spawn _ _)
    · exact hreg
  refine ⟨fun watch r hr=>?_,h.submitting⟩
  by_cases hsink : r.sink=sink
  · have hnow : (w.sessions.modify sink (·.registerResume watcherId)).get r.sink =
        some (c.registerResume watcherId):=by
      rw [get_modify,if_pos hsink,hsink,hc]
      rfl
    refine .inr ⟨⟨_,hnow,?_⟩,fun hlooked hroom=>?_⟩
    · simp [Channel.registerResume]
    · have hroom' : w.hasRoom sink=true:=by
        simp only [hasRoom,hnow] at hroom
        simp only [hasRoom,hc]
        exact hroom
      rcases hjoins with hfull | ⟨hgate,hfree⟩
      · rw [hfull] at hroom'
        cases hroom'
      · rcases hlooked with ⟨hpaused, -⟩ | ⟨caller,todo,hsome, -⟩
        · exact absurd hpaused hgate
        · exact absurd (hfree.symm.trans hsome) (by simp)
  · have hsame : (w.sessions.modify sink (·.registerResume watcherId)).get r.sink =
        w.sessions.get r.sink:=by
      rw [get_modify,if_neg hsink]
    refine (h.routes watch r hr).imp ?_ fun hcov=>?_
    · rintro ⟨widen',hw⟩
      refine ⟨widen',(mem_erase_of_ne ?_).mpr hw⟩
      intro heq
      cases heq
      exact hsink rfl
    · obtain ⟨c₀,hget,hmem⟩:=hcov.registered
      refine ⟨⟨c₀,hsame.trans hget,hmem⟩,fun hlooked hroom=>hcov.waker hlooked ?_⟩
      simpa only [hasRoom,hsame] using hroom

end Watcher

/-- A route that `add_route` registers at this step joins unpaused. -/
def WatcherTick.JoinsUnpaused (t : WatcherTick P) : Prop :=
  match t.event with
  | .register sink _ => t.before.JoinsUnpaused sink
  | _ => True

instance (t : WatcherTick P) : Decidable t.JoinsUnpaused := by
  unfold WatcherTick.JoinsUnpaused
  split <;> infer_instance

namespace Watcher

theorem PausedOk.step (h : PausedOk w) {event : Event P} (hstep : w.step event=some w')
    (hjoins : WatcherTick.JoinsUnpaused ⟨w,event,w'⟩) : PausedOk w' := by
  cases event with
  | session id bound =>
    obtain ⟨hnew,⟨⟩⟩:=ite_none_right_eq_some.mp hstep
    exact h.session bound (isNone_iff_eq_none.mp hnew.1)
  | call id call dead=>exact h.callQueue hstep
  | prod =>
    obtain ⟨-,⟨⟩⟩:=ite_none_right_eq_some.mp hstep
    exact h.frame (.of (.refl _) rfl (by simp only; omega) rfl id fun _ _ h=>h)
  | completion outcome | activation reset | askFault operation | schedule delay
  | answer watch delay | timer | resolveFaultSuccess | recordStop
  | answerVolumeChange watch decision | resolveVolumeChange | removeRoute watch
  | leaveFault watch | leaveVolumeChange watch | takeRoutes=>exact h.frame (.aside (.step hstep rfl))
  | arm =>
    obtain ⟨-, -,rfl⟩:=next_some hstep
    exact h.frame ((Frame.done w fun _ _=>Task.noConfusion).trans (.arm _))
  | resumeArm =>
    obtain ⟨hfree,⟨⟩⟩:=ite_none_right_eq_some.mp hstep
    exact h.resumeArm (isNone_iff_eq_none.mp hfree.2)
  | look order=>exact h.look hstep
  | lookAt=>exact h.lookAt hstep
  | submit outcome=>exact h.frame (.submit hstep h.submitting)
  | enterFault operation =>
    simp only [Watcher.step] at hstep
    obtain ⟨-, -,rfl⟩:=next_some hstep
    exact h.frame ((Frame.done w fun _ _=>Task.noConfusion).trans (.enterFault _ _))
  | reopen found =>
    simp only [Watcher.step] at hstep
    obtain ⟨-, -,rfl⟩:=next_some hstep
    exact h.frame ((Frame.done w fun _ _=>Task.noConfusion).trans (.reopen _ _))
  | addRoute route =>
    obtain ⟨-,⟨⟩⟩:=ite_none_right_eq_some.mp hstep
    exact h.addRoute route
  | register sink widen =>
    simp only [Watcher.step,next] at hstep
    split_ifs at hstep with hfree
    cases hstep
    exact h.register hjoins hfree.2
  | widen =>
    obtain ⟨-, -,rfl⟩:=next_some hstep
    exact h.frame ((Frame.done w fun _ _=>Task.noConfusion).trans (.widen _))
  | install caller =>
    simp only [Watcher.step] at hstep
    obtain ⟨-, -,rfl⟩:=next_some hstep
    exact h.frame ((Frame.done w fun _ _=>Task.noConfusion).trans (.install _ _))
  | teardown=>exact h.frame (.teardown hstep)
  | establishDetailed ok=>exact h.frame (.establishDetailed hstep)
  | armAfterInstall =>
    obtain ⟨-,hstep⟩:=ite_none_right_eq_some.mp hstep
    exact h.frame (.armAfterInstall hstep)
  | openCoarse =>
    obtain ⟨-,hstep⟩:=ite_none_right_eq_some.mp hstep
    exact h.frame (.openCoarse hstep)
  | establishCoarse ok=>exact h.frame (.establishCoarse hstep)
  | stop =>
    obtain ⟨-,⟨⟩⟩:=ite_none_right_eq_some.mp hstep
    exact h.frame ((Frame.setGate w (by decide)).trans (.spawn _ _))
  | stopTeardown =>
    obtain ⟨-, -,rfl⟩:=next_some hstep
    exact h.frame ((Frame.done w fun _ _=>Task.noConfusion).trans ((Frame.setEndpoint _ none).trans (.setTimer _ _)))

theorem PausedOk.start (sessions : Table SessionId (Channel P)) (route : Route) (forceCoarse : Bool)
    (hsink : (sessions.get route.sink).isSome) :
    PausedOk (Watcher.start sessions route forceCoarse) := by
  obtain ⟨c,hc⟩:=isSome_iff_exists.mp hsink
  refine ⟨fun watch r hr=>.inr ⟨⟨c.registerResume watcherId,?_,?_⟩,?_⟩,?_⟩
  · rcases of_insert hr with ⟨-,rfl⟩ | hr
    · simp only [Watcher.start,get_modify,if_true,hc,map_some]
    · cases hr
  · simp [Channel.registerResume]
  · rintro (⟨hgate, -⟩ | ⟨caller,todo,hsome, -⟩)
    · cases hgate
    · cases hsome
  · intro caller hsome
    cases hsome

end Watcher

open Watcher

theorem WatcherRun.pausedOk {ticks : List (WatcherTick P)} (run : WatcherRun ticks w)
    (hjoins : ∀ t ∈ ticks,t.JoinsUnpaused) : PausedOk w := by
  induction run with
  | start hinit =>
    obtain ⟨sessions,route,forceCoarse,hsink,rfl⟩:=hinit
    exact .start sessions route forceCoarse hsink
  | next run event hstep ih =>
    have hbefore:=ih fun t ht=>hjoins t (mem_cons_of_mem _ ht)
    exact hbefore.step hstep (hjoins _ mem_cons_self)

/-- When routes only join unpaused, a settled watcher that is paused with room at a route's sink has a
resume queued. Whoever joins, a step of a queue that makes room where there was none returns every
producer registered and alive. -/
theorem paused_has_waker {ticks : List (WatcherTick P)} (run : WatcherRun ticks w)
    (hjoins : ∀ t ∈ ticks, t.JoinsUnpaused) :
    (w.Settled → w.gate = .backpressured → ∀ watch r, w.routes.get watch = some r →
      w.hasRoom r.sink = true → 0 < w.resumes) ∧
    ∀ (c c' : Channel P) (dead awake : List ProducerId) (call : Call P),
      c.step dead call = .ok (awake, c') → c.room = 0 → c'.room = 1 →
      awake = c.resumers.filter fun who => decide (who ∉ dead) := by
  refine ⟨fun ⟨htasks,harming,_,hprods⟩ hgate watch r hr hroom=>?_,?_⟩
  · rcases (run.pausedOk hjoins).routes watch r hr with ⟨widen,hw⟩ | hcovered
    · rw [htasks] at hw
      cases hw
    · have hwaker:=hcovered.waker (.inl ⟨hgate,harming⟩) hroom
      omega
  · intro c c' dead awake call hstep hfull hone
    exact (Channel.step_edge hstep hfull (hone ▸ Nat.one_pos)).2

/-! ## A watcher that pauses -/

def directRoute (watch : WatchId) (sink : SessionId) (subtree : Bool) : Route :=
  { watch := watch
    scope := .directory subtree
    sink := sink
    retry := .defaults
    onVolumeChange := .continue_
    faultSlot := none }

def twoSessions : Table SessionId (Channel Unit) :=
  (Table.empty.insert 0 (.new 1)).insert 1 (.new 1)

def oneWatch : Watcher Unit := .start twoSessions (directRoute 1 0 false) false

/-- The start, a first completion whose batch fills the session's queue, and a second one, after which
the watcher finds no room. -/
def pausing : List (Event Unit) :=
  [.install .start, .teardown, .establishDetailed true, .armAfterInstall, .look [1], .lookAt,
    .submit .ok, .completion .done, .arm, .look [1], .lookAt, .submit .ok,
    .call 0 (.send (.other 1 ())) [], .completion .done, .arm, .look [1], .lookAt, .lookAt, .look [1],
    .lookAt, .lookAt]

theorem oneWatch_run : WatcherRun [] oneWatch := .start ⟨_,_,_,rfl,rfl⟩

/-- A route of the other session, whose queue is empty, joins the paused watcher: no resume is queued,
and no step of its queue makes room that is not there already. -/
theorem paused_without_waker :
    ∃ (ticks : List (WatcherTick Unit)) (w : Watcher Unit), WatcherRun ticks w ∧ w.Settled ∧
      w.gate = .backpressured ∧ w.resumes = 0 ∧
      w.routes.get 2 = some (directRoute 2 1 false) ∧ w.hasRoom 1 = true := by
  obtain ⟨ticks,w,run,hcheck⟩:=oneWatch_run.play (plainly _) named_allows
    (pausing++[.addRoute (directRoute 2 1 false),.register 1 false])
    (fun _ w=>decide (w.Settled ∧ w.gate=.backpressured ∧ w.resumes=0 ∧
      w.routes.get 2=some (directRoute 2 1 false) ∧ w.hasRoom 1=true)) (by decide +kernel)
  exact ⟨ticks,w,run,of_decide_eq_true hcheck⟩

/-- A route of the same session joins the paused watcher, and the client drains the queue. -/
theorem paused_has_waker_drained :
    ∃ (ticks : List (WatcherTick Unit)) (w : Watcher Unit), WatcherRun ticks w ∧
      (∀ t ∈ ticks, t.JoinsUnpaused) ∧ w.Settled ∧ w.gate = .backpressured ∧
      w.routes.get 2 = some (directRoute 2 0 false) ∧ w.hasRoom 0 = true ∧ 0 < w.resumes := by
  obtain ⟨ticks,w,run,hcheck⟩:=oneWatch_run.play (plainly _) named_allows
    (pausing++[.addRoute (directRoute 2 0 false),.register 0 false,.call 0 .take [],.prod,.prod])
    (fun (ticks : List (WatcherTick Unit)) w=>decide ((∀ t ∈ ticks,t.JoinsUnpaused) ∧ w.Settled ∧ w.gate=.backpressured ∧
      w.routes.get 2=some (directRoute 2 0 false) ∧ w.hasRoom 0=true)) (by decide +kernel)
  obtain ⟨hjoins,hsettled,hgate,hroute,hroom⟩:=of_decide_eq_true hcheck
  exact ⟨ticks,w,run,hjoins,hsettled,hgate,hroute,hroom,
    (paused_has_waker run hjoins).1 hsettled hgate 2 _ hroute hroom⟩

end WindowsThreadpoolSys.FileWatcher
