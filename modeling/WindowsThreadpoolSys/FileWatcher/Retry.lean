import WindowsThreadpoolSys.FileWatcher.Aside

/-! A fault asks its interactive routes how long to wait, and has the retry timer set once the last of them has
answered or left. Until another fault is entered the timer is set for it at most once: when nobody is
awaited any more, unless a recovery or a permanent stop has cleared the fault before. A recovery that ends
late clears a fault that is not its own, and that fault is never retried. -/
namespace WindowsThreadpoolSys.FileWatcher
open Library List Table Option

variable {P : Type} {w w' w'' : Watcher P}

def Task.delay : Task → Option ℕ
  | .schedule delay => some delay
  | _ => none

def Watcher.scheduling (w : Watcher P) : List ℕ := w.tasks.filterMap Task.delay

def Event.sets : Event P → Option ℕ
  | .schedule delay => some delay
  | _ => none

def Event.aboutFault : Event P → Bool
  | .askFault _ | .resolveFaultSuccess | .recordStop => true
  | _ => false

def Event.asks : Event P → Bool
  | .askFault _ => true
  | _ => false

/-- Whether the fault there is, if any, ends in this step: by a recovery or by a stop, the first one recorded. -/
def WatcherTick.clears (t : WatcherTick P) : Bool :=
  match t.event with
  | .resolveFaultSuccess => true
  | .recordStop => !t.before.stopped
  | _ => false

/-- Whether this step is `watch` answering or leaving, and the delay it asks for if any. -/
def Event.settles (watch : WatchId) : Event P → Option (Option ℕ)
  | .answer watch' delay => if watch' = watch then some delay else none
  | .leaveFault watch' => if watch' = watch then some none else none
  | _ => none

/-- The first that `watch` said, the latest step being first. -/
def reply (watch : WatchId) : List (WatcherTick P) → Option (Option ℕ)
  | [] => none
  | t :: earlier => (reply watch earlier).or (t.event.settles watch)

def unanswered (asked : List WatchId) (ticks : List (WatcherTick P)) : List WatchId :=
  asked.filter fun watch => (reply watch ticks).isNone

def resolved (operation : FaultOperation) (asked : List WatchId) (ticks : List (WatcherTick P)) : ℕ :=
  (asked.filterMap fun watch => (reply watch ticks).join).foldr min operation.defaultDelay

/-- The fault was cleared while a route that was asked had neither answered nor left. -/
def clearedEarly (asked : List WatchId) : List (WatcherTick P) → Bool
  | [] => false
  | t :: earlier => clearedEarly asked earlier || t.clears && decide (unanswered asked earlier ≠ [])

/-! ## Steps that leave the fault alone -/

namespace Watcher

def Keyed (w : Watcher P) : Prop := ∀ k r, w.routes.get k = some r → r.watch = k

structure Beside (w w' : Watcher P) : Prop where
  fault : w'.fault = w.fault
  scheduling : w'.scheduling = w.scheduling
  keyed : w.Keyed → w'.Keyed

theorem Beside.trans (h : Beside w w') (h' : Beside w' w'') : Beside w w'' :=
  ⟨h'.fault.trans h.fault,h'.scheduling.trans h.scheduling,fun hkeyed=>h'.keyed (h.keyed hkeyed)⟩

theorem Beside.done (w : Watcher P) {t : Task} (ht : t.delay=none) : Beside w (w.done t) := by
  refine ⟨rfl,?_,id⟩
  show (w.tasks.erase t).filterMap Task.delay=w.tasks.filterMap Task.delay
  induction w.tasks with
  | nil=>rfl
  | cons t' rest ih =>
    rw [erase_cons]
    split_ifs with heq
    · rw [filterMap_cons,eq_of_beq heq,ht]
    · rw [filterMap_cons,filterMap_cons,ih]

theorem Beside.next {t : Task} {free : Bool} {go : Watcher P → Watcher P}
    (h : w.next t free (fun w => some (go w))=some w') (ht : t.delay=none)
    (hgo : ∀ w,Beside w (go w)) : Beside w w' := by
  obtain ⟨-, -,rfl⟩:=next_some h
  exact (done w ht).trans (hgo _)

theorem Beside.leave (w : Watcher P) {routes : Table WatchId Route} (h : Table.Sub routes w.routes) :
    Beside w { w with routes := routes } :=
  ⟨rfl,rfl,fun hkeyed k r hget=>hkeyed k r (h k r hget)⟩

theorem Beside.finishInstall (w : Watcher P) (caller : InstallCaller) (ok : Bool) :
    Beside w (w.finishInstall caller ok) := by
  cases caller <;> cases ok
  case start.false=>exact ⟨rfl,rfl,fun _ k r hget=>by cases hget⟩
  all_goals exact ⟨rfl,rfl,id⟩

theorem Beside.installArmed (w : Watcher P) (result : ArmResult) : Beside w (w.installArmed result) := by
  unfold Watcher.installArmed
  split
  · cases result
    · exact finishInstall w _ true
    · exact ⟨rfl,rfl,id⟩
    · exact finishInstall w _ false
  · exact finishInstall w _ _
  · exact ⟨rfl,rfl,id⟩

theorem Beside.finishArm (w : Watcher P) (caller : ArmCaller) (result : ArmResult) :
    Beside w (w.finishArm caller result) := by
  cases caller with
  | callback =>
    unfold Watcher.finishArm
    simp only
    split_ifs <;> exact ⟨rfl,rfl,id⟩
  | install =>
    have harmed : Beside w { w with arming:=none }:=⟨rfl,rfl,id⟩
    exact harmed.trans (installArmed _ result)

theorem Beside.settleVolumeChange (w : Watcher P) (watch : WatchId)
    (decisions : List (WatchId × VolumeChangeDecision)) :
    Beside w (w.settleVolumeChange watch decisions) := by
  unfold Watcher.settleVolumeChange
  split
  · exact ⟨rfl,rfl,id⟩
  · split_ifs
    · simp only
      split_ifs <;> exact ⟨rfl,rfl,id⟩
    · exact ⟨rfl,rfl,id⟩

theorem Beside.step {event : Event P} (hfault : event.aboutFault=false) (hsets : event.sets=none)
    (hsettles : ∀ watch,event.settles watch=none) (hstep : w.step event=some w') : Beside w w' := by
  cases event with
  | askFault | resolveFaultSuccess | recordStop=>cases hfault
  | schedule=>cases hsets
  | answer watch | leaveFault watch =>
    have hnone:=hsettles watch
    simp [Event.settles] at hnone
  | completion outcome =>
    cases hstep
    cases outcome <;> exact ⟨rfl,rfl,id⟩
  | activation reset =>
    cases hstep
    cases reset <;> exact ⟨rfl,rfl,id⟩
  | answerVolumeChange watch decision =>
    cases hstep
    exact settleVolumeChange w watch _
  | leaveVolumeChange watch =>
    simp only [Watcher.step] at hstep
    exact next hstep rfl fun w=>settleVolumeChange w watch []
  | resolveVolumeChange =>
    simp only [Watcher.step,Watcher.next] at hstep
    split_ifs at hstep
    simp only [Watcher.resolveVolumeChange] at hstep
    split at hstep <;> cases hstep
    rename_i v _
    have hleft:=(done w (t:=.resolveVolumeChange) rfl).trans (leave _ (sub_filter w.routes
      fun watch _=>decide ((watch,VolumeChangeDecision.stop) ∉ v.decisions)))
    split_ifs <;> exact hleft.trans ⟨rfl,rfl,id⟩
  | addRoute route =>
    obtain ⟨-,⟨⟩⟩:=ite_none_right_eq_some.mp hstep
    refine ⟨rfl,rfl,fun hkeyed k r hget=>?_⟩
    rcases of_insert hget with ⟨rfl,rfl⟩ | hget
    · rfl
    · exact hkeyed k r hget
  | removeRoute watch =>
    obtain ⟨-,⟨⟩⟩:=ite_none_right_eq_some.mp hstep
    exact (leave w (sub_erase w.routes watch)).trans ⟨rfl,rfl,id⟩
  | takeRoutes =>
    obtain ⟨-,⟨⟩⟩:=ite_none_right_eq_some.mp hstep
    exact leave w (empty_sub _)
  | arm | enterFault | widen | register | install | stopTeardown | reopen =>
    simp only [Watcher.step] at hstep
    refine next hstep rfl fun w=>?_
    simp only [Watcher.arm,Watcher.enterFault,Watcher.widen,Watcher.register,Watcher.install,
      Watcher.stopTeardown,Watcher.reopen]
    repeat' split
    all_goals first | exact ⟨rfl,rfl,id⟩ | exact finishInstall _ _ true
  | _ =>
    -- Each branch ends an install, ends an arm, or moves fields that are not read here.
    simp only [Watcher.step,callQueue,resumeArm,look,lookAt,
      submit,retryReestablish,teardown,establishDetailed,
      armAfterInstall,openCoarse,establishCoarse,stop] at hstep
    repeat' split at hstep
    all_goals cases hstep
    all_goals first
      | exact ⟨rfl,rfl,id⟩
      | exact finishInstall w _ _
      | exact finishArm w _ _
      | refine .trans ?_ (finishArm _ _ _)
        exact ⟨rfl,rfl,id⟩

end Watcher

/-! ## A fault that stands -/

variable {t : WatcherTick P} {asked : List WatchId} {later : List (WatcherTick P)} {operation : FaultOperation}
  {watch : WatchId} {delay : Option ℕ}

theorem le_resolved {y : ℕ} : y ≤ resolved operation asked later ↔ y ≤ operation.defaultDelay ∧
    ∀ watch ∈ asked,∀ z,reply watch later=some (some z) → y ≤ z := by
  unfold resolved
  induction asked with
  | nil=>simp
  | cons watch rest ih =>
    rw [filterMap_cons]
    rcases hreply : reply watch later with - | - | z <;> simp [hreply,ih]
    tauto

theorem unsettled (hsettles : ∀ watch,t.event.settles watch=none) :
    unanswered asked (t::later)=unanswered asked later ∧
      resolved operation asked (t::later)=resolved operation asked later := by
  have hreply : ∀ watch,reply watch (t::later)=reply watch later:=fun watch=>by
    rw [reply,hsettles,or_none]
  simp only [unanswered,resolved,hreply,and_self]

section Settle

variable (hsettles : ∀ watch', t.event.settles watch' = if watch = watch' then some delay else none)

include hsettles

theorem unanswered_settle (hnodup : asked.Nodup) :
    unanswered asked (t::later)=(unanswered asked later).erase watch := by
  rw [unanswered,unanswered,(hnodup.filter _).erase_eq_filter,List.filter_filter]
  refine filter_congr fun watch' _=>?_
  rw [reply,hsettles]
  by_cases heq : watch=watch'
  · subst heq
    cases reply watch later <;> simp
  · cases reply watch' later <;> simp [heq,Ne.symm heq]

theorem resolved_settle (hmem : watch ∈ unanswered asked later) :
    resolved operation asked (t::later) =
      min (delay.getD operation.defaultDelay) (resolved operation asked later) := by
  obtain ⟨hasked,hnone⟩:=mem_filter.mp hmem
  rw [isNone_iff_eq_none] at hnone
  refine eq_of_forall_le_iff fun y=>?_
  rw [le_min_iff,le_resolved,le_resolved]
  constructor
  · rintro ⟨hdefault,hall⟩
    refine ⟨?_,hdefault,fun watch' hwatch' z hz=>hall watch' hwatch' z ?_⟩
    · cases delay with
      | none=>exact hdefault
      | some z=>exact hall watch hasked z (by rw [reply,hnone,hsettles,if_pos rfl]; rfl)
    · rw [reply,hz]
      rfl
  · rintro ⟨hdelay,hdefault,hall⟩
    refine ⟨hdefault,fun watch' hwatch' z hz=>?_⟩
    rw [reply,hsettles] at hz
    cases hreply : reply watch' later with
    | some said=>exact hall watch' hwatch' z (by rw [← hz,hreply]; rfl)
    | none =>
      rw [hreply,none_or] at hz
      split_ifs at hz
      rw [Option.some.inj hz] at hdelay
      exact hdelay

theorem resolved_settled (hnot : watch ∉ unanswered asked later) :
    resolved operation asked (t::later)=resolved operation asked later := by
  unfold resolved
  congr 1
  refine filterMap_congr fun watch' hwatch'=>?_
  rw [reply,hsettles]
  cases hreply : reply watch' later with
  | some said=>rfl
  | none =>
    rw [if_neg]
    · rfl
    · rintro rfl
      exact hnot (mem_filter.mpr ⟨hwatch',by rw [hreply]; rfl⟩)

end Settle

/-! ## A fault that was cleared -/

theorem clearedEarly_quiet (hclears : t.clears=false) : clearedEarly asked (t::later)=clearedEarly asked later := by
  rw [clearedEarly,hclears,Bool.false_and,Bool.or_false]

theorem clearedEarly_none (h : later.any WatcherTick.clears=false) : clearedEarly asked later=false := by
  induction later with
  | nil=>rfl
  | cons t later ih =>
    obtain ⟨hclears,hrest⟩:=(Bool.or_eq_false_iff).mp h
    rw [clearedEarly_quiet hclears,ih hrest]

/-- What was answered when the fault was cleared stays so. -/
theorem unanswered_cleared (hcleared : later.any WatcherTick.clears=true)
    (hkept : clearedEarly asked later=false) : unanswered asked later=[] := by
  induction later with
  | nil=>cases hcleared
  | cons t later ih =>
    obtain ⟨hearlier,hnow⟩:=(Bool.or_eq_false_iff).mp hkept
    have hnil : unanswered asked later=[]:=by
      cases hclears : t.clears with
      | true => simpa [hclears] using hnow
      | false => exact ih (by simpa [hclears] using hcleared) hearlier
    rw [unanswered,filter_eq_nil_iff] at hnil ⊢
    intro watch hwatch hnone
    refine hnil watch hwatch ?_
    rw [isNone_iff_eq_none] at hnone ⊢
    exact (or_eq_none_iff.mp hnone).1

/-- The delay the fault has had the timer set for, or is about to. -/
def owed (operation : FaultOperation) (asked : List WatchId) (later : List (WatcherTick P)) : List ℕ :=
  if unanswered asked later = [] ∧ clearedEarly asked later = false then [resolved operation asked later] else []

theorem owed_early (h : clearedEarly asked later=true) : owed operation asked later=[] := by simp [owed,h]

/-- The fault asked these routes for this operation, with `before` the delays the timer was about to be set
for then. -/
structure Stands (asked : List WatchId) (operation : FaultOperation) (before : List ℕ)
    (later : List (WatcherTick P)) (w : Watcher P) : Prop where
  fault : w.fault = if later.any WatcherTick.clears then none else
    some ⟨operation, unanswered asked later, resolved operation asked later⟩
  sets : (later.filterMap (fun t => t.event.sets) ++ w.scheduling).Perm (owed operation asked later ++ before)

variable {before : List ℕ}

theorem Stands.beside (h : Stands asked operation before later w) (hbeside : w.Beside w')
    (hclears : t.clears=false) (hsets : t.event.sets=none) (hsettles : ∀ watch,t.event.settles watch=none) :
    Stands asked operation before (t::later) w' := by
  obtain ⟨hunanswered,hresolved⟩:=unsettled hsettles
  refine ⟨?_,?_⟩
  · rw [hbeside.fault,h.fault,hunanswered,hresolved,any_cons,hclears,Bool.false_or]
  · rw [owed,hunanswered,hresolved,clearedEarly_quiet hclears,hbeside.scheduling,filterMap_cons,hsets]
    exact h.sets

theorem Stands.clear (h : Stands asked operation before later w) (hclears : t.clears=true)
    (hsets : t.event.sets=none) (hsettles : ∀ watch,t.event.settles watch=none) (hfault : w'.fault=none)
    (hscheduling : w'.scheduling=w.scheduling) : Stands asked operation before (t::later) w' := by
  obtain ⟨hunanswered,hresolved⟩:=unsettled hsettles
  refine ⟨by rw [hfault,any_cons,hclears]; rfl,?_⟩
  have howed : owed operation asked (t::later)=owed operation asked later:=by
    rw [owed,owed,hunanswered,hresolved,clearedEarly,hclears,Bool.true_and]
    by_cases hnil : unanswered asked later=[] <;> simp [hnil]
  rw [howed,hscheduling,filterMap_cons,hsets]
  exact h.sets

theorem Stands.settle (h : Stands asked operation before later w) (hnodup : asked.Nodup)
    (hclears : t.clears=false) (hsets : t.event.sets=none)
    (hsettles : ∀ watch',t.event.settles watch'=if watch=watch' then some delay else none)
    {candidate : FaultState → ℕ} (hcandidate : ∀ awaiting earliest,earliest ≤ operation.defaultDelay →
      min (candidate ⟨operation,awaiting,earliest⟩) earliest =
        min (delay.getD operation.defaultDelay) earliest) :
    Stands asked operation before (t::later) (w.settleFault watch candidate) := by
  have hsaid:=h.sets
  have hfault:=h.fault
  have hunanswered : unanswered asked (t::later)=_:=unanswered_settle hsettles hnodup
  have hle:=(le_resolved (y:=resolved operation asked later)).mp le_rfl
  by_cases hmem : watch ∈ unanswered asked later
  · cases hcleared : later.any WatcherTick.clears with
    | true =>
      have hearly : clearedEarly asked later=true:=by
        by_contra hkept
        rw [unanswered_cleared hcleared (Bool.eq_false_iff.mpr hkept)] at hmem
        cases hmem
      rw [hcleared,if_pos rfl] at hfault
      rw [owed_early hearly] at hsaid
      unfold Watcher.settleFault
      simp only [hfault]
      refine ⟨by rw [hfault,any_cons,hcleared,Bool.or_true,if_pos rfl],?_⟩
      rw [owed_early ((clearedEarly_quiet hclears).trans hearly),filterMap_cons,hsets]
      exact hsaid
    | false =>
      have hresolved : resolved operation asked (t::later)=_:=resolved_settle hsettles hmem
      have hkept : clearedEarly asked (t::later)=false :=
        (clearedEarly_quiet hclears).trans (clearedEarly_none hcleared)
      rw [owed,if_neg fun hnone=>ne_nil_of_mem hmem hnone.1] at hsaid
      rw [hcleared,if_neg Bool.false_ne_true] at hfault
      have hany : (t::later).any WatcherTick.clears=false:=by rw [any_cons,hclears,hcleared,Bool.or_false]
      unfold Watcher.settleFault
      simp only [hfault,if_pos hmem,hcandidate _ _ hle.1]
      split_ifs with hlast
      · refine ⟨by rw [hany,hunanswered,hresolved]; rfl,?_⟩
        rw [owed,hunanswered,if_pos ⟨hlast,hkept⟩,hresolved,filterMap_cons,hsets]
        exact perm_middle.trans (hsaid.cons _)
      · refine ⟨by rw [hany,hunanswered,hresolved]; rfl,?_⟩
        rw [owed,hunanswered,if_neg fun hnone=>hlast hnone.1,filterMap_cons,hsets]
        exact hsaid
  · rw [erase_of_not_mem hmem] at hunanswered
    have hresolved : resolved operation asked (t::later)=_:=resolved_settled hsettles hmem
    have hsame : w.settleFault watch candidate=w:=by
      unfold Watcher.settleFault
      rw [hfault]
      split_ifs
      · rfl
      · simp only [if_neg hmem]
    rw [hsame]
    refine ⟨by rw [hfault,hunanswered,hresolved,any_cons,hclears,Bool.false_or],?_⟩
    rw [owed,hunanswered,hresolved,clearedEarly_quiet hclears,filterMap_cons,hsets]
    exact hsaid

theorem Stands.step (h : Stands asked operation before later t.before) (hnodup : asked.Nodup)
    (hasks : t.event.asks=false) (hstep : t.before.step t.event=some w') :
    Stands asked operation before (t::later) w' := by
  obtain ⟨w,event,after⟩:=t
  cases event with
  | askFault=>cases hasks
  | resolveFaultSuccess =>
    obtain ⟨-, -,rfl⟩:=Watcher.next_some hstep
    exact h.clear rfl rfl (fun _=>rfl) rfl (Watcher.Beside.done w rfl).scheduling
  | recordStop =>
    obtain ⟨-, -,rfl⟩:=Watcher.next_some hstep
    have hdone:=Watcher.Beside.done w (t:=.recordStop) rfl
    unfold Watcher.recordStop
    split_ifs with hstopped
    · exact h.beside hdone (by simp [WatcherTick.clears,show w.stopped=true from hstopped]) rfl fun _=>rfl
    · exact h.clear (by simp [WatcherTick.clears,show ¬w.stopped=true from hstopped]) rfl (fun _=>rfl) rfl
        hdone.scheduling
  | schedule delay =>
    simp only [Watcher.step] at hstep
    obtain ⟨hin, -,rfl⟩:=Watcher.next_some hstep
    have hset:=(perm_cons_erase hin).filterMap Task.delay
    obtain ⟨hunanswered,hresolved⟩:=unsettled (t:=⟨w,.schedule delay,after⟩) fun _=>rfl
    have hquiet : clearedEarly asked (⟨w,.schedule delay,after⟩::later)=_:=clearedEarly_quiet rfl
    refine ⟨by rw [hunanswered,hresolved]; exact h.fault,?_⟩
    rw [owed,hunanswered,hresolved,hquiet]
    refine List.Perm.trans ?_ h.sets
    exact perm_middle.symm.trans (List.Perm.append_left _ hset.symm)
  | answer watch delay =>
    cases hstep
    refine h.settle hnodup rfl rfl (fun _=>rfl) fun _ earliest hle=>?_
    rfl
  | leaveFault watch =>
    simp only [Watcher.step] at hstep
    obtain ⟨-, -,rfl⟩:=Watcher.next_some hstep
    have hdone:=Watcher.Beside.done w (t:=.leaveFault watch) rfl
    have hat : Stands asked operation before later (w.done (.leaveFault watch)) :=
      ⟨hdone.fault.trans h.fault,by rw [hdone.scheduling]; exact h.sets⟩
    have hsettled : Stands asked operation before (⟨w,.leaveFault watch,after⟩::later)
        ((w.done (.leaveFault watch)).settleFault watch (·.earliest)) :=
      hat.settle hnodup rfl rfl (fun _=>rfl) fun _ earliest hle=>by
        rw [min_self,getD_none,min_eq_right hle]
    exact ⟨hsettled.fault,hsettled.sets⟩
  | _=>exact h.beside (.step rfl rfl (fun _=>rfl) hstep) rfl rfl fun _=>rfl

theorem WatcherRun.keyed {ticks : List (WatcherTick P)} (run : WatcherRun ticks w) : w.Keyed := by
  induction run with
  | start hinit =>
    obtain ⟨sessions,route,forceCoarse, -,rfl⟩:=hinit
    intro k r hget
    rcases of_insert hget with ⟨rfl,rfl⟩ | hget
    · rfl
    · cases hget
  | next run event hstep ih =>
    by_cases haside : event.aside=true
    · exact fun k r hget=>ih k r ((Watcher.Aside.step hstep haside).routes k r hget)
    · refine (Watcher.Beside.step ?_ ?_ (fun _=>?_) hstep).keyed ih <;>
        cases event <;> first | rfl | exact absurd rfl haside

theorem Watcher.Keyed.interactive_nodup (h : w.Keyed) : w.interactiveRoutes.Nodup := by
  have hkeys : w.routes.vals.map (·.watch)=w.routes.keys:=by
    rw [Table.vals,List.map_map,Table.keys]
    exact map_congr_left fun e he=>h e.1 e.2 (mem_entries.mp he)
  exact (hkeys ▸ w.routes.keys_nodup).sublist (filter_sublist.map _)

theorem WatcherRun.stands {found found' : Watcher P} {earlier : List (WatcherTick P)}
    (run : WatcherRun (later++⟨found,.askFault operation,found'⟩::earlier) w)
    (hasks : ∀ t ∈ later,t.event.asks=false) :
    found.interactiveRoutes.Nodup ∧ Stands found.interactiveRoutes operation found.scheduling later w := by
  induction later generalizing w with
  | nil =>
    cases run with
    | next run _ hstep =>
    have hasked : found.step (.askFault operation)=some found':=hstep
    simp only [Watcher.step] at hasked
    obtain ⟨-, -,rfl⟩:=Watcher.next_some hasked
    refine ⟨(WatcherRun.keyed run).interactive_nodup,?_⟩
    have hdone:=(Watcher.Beside.done found (t:=.askFault operation) rfl).scheduling
    have hnone : unanswered found.interactiveRoutes ([] : List (WatcherTick P))=found.interactiveRoutes :=
      filter_eq_self.mpr fun _ _=>rfl
    have hdefault : resolved operation found.interactiveRoutes ([] : List (WatcherTick P)) =
        operation.defaultDelay :=
      le_antisymm (le_resolved.mp le_rfl).1 (le_resolved.mpr ⟨le_rfl,fun _ _ _ hz=>by cases hz⟩)
    unfold Watcher.askFault
    simp only
    split_ifs with hnobody
    · refine ⟨by rw [hnone,hdefault]; rfl,?_⟩
      rw [owed,hnone,hdefault,if_pos ⟨show found.interactiveRoutes=[] from hnobody,rfl⟩,← hdone]
      rfl
    · refine ⟨by rw [hnone,hdefault]; rfl,?_⟩
      rw [owed,hnone,if_neg fun h=>hnobody h.1,← hdone]
      rfl
  | cons t later ih =>
    cases run with
    | next run event hstep =>
    obtain ⟨hnodup,h⟩:=ih run fun t ht=>hasks t (mem_cons_of_mem _ ht)
    exact ⟨hnodup,h.step hnodup (hasks _ mem_cons_self) hstep⟩

/-- Until the next fault is entered, the timer is set for a fault exactly once if every route asked has answered
or left and the fault was not cleared before the last of them, and not at all otherwise; and never for
less than 50 ms. -/
theorem fault_retried_once {found found' : Watcher P} {earlier : List (WatcherTick P)}
    (run : WatcherRun (later ++ ⟨found, .askFault operation, found'⟩ :: earlier) w)
    (hasks : ∀ t ∈ later, t.event.asks = false) :
    (later.filterMap (fun t => t.event.sets) ++ w.scheduling).Perm
      ((if unanswered found.interactiveRoutes later = [] ∧
          clearedEarly found.interactiveRoutes later = false then
        [resolved operation found.interactiveRoutes later] else []) ++ found.scheduling) ∧
    ∀ (w₁ w₂ : Watcher P) (delay : ℕ), w₁.step (.schedule delay) = some w₂ → w₂.timer = some (max delay 50) := by
  refine ⟨(WatcherRun.stands run hasks).2.sets,fun w₁ w₂ delay hstep=>?_⟩
  simp only [Watcher.step] at hstep
  obtain ⟨-, -,rfl⟩:=Watcher.next_some hstep
  rfl

def askedWatch : Watcher Unit :=
  .start (Table.empty.insert 0 (.new 1))
    { watch := 1, scope := .directory false, sink := 0, retry := .interactive, onVolumeChange := .continue_,
      faultSlot := some 0 } false

def failingInstall (caller : InstallCaller) : List (Event Unit) :=
  [.install caller, .teardown, .establishDetailed true, .armAfterInstall, .look [1], .lookAt, .submit .ok,
    .completion .failed, .enterFault .arm, .askFault .arm]

theorem askedWatch_run : WatcherRun [] askedWatch := .start ⟨_,_,_,rfl,rfl⟩

/-- The last `n` steps are those since a fault was asked, and have `p` with the watcher that asked it. -/
def sinceFault (n : ℕ) (p : List (WatcherTick Unit) → Watcher Unit → Bool)
    (ticks : List (WatcherTick Unit)) : Bool :=
  match ticks.drop n with
  | ⟨found, .askFault .arm, _⟩ :: _ => p (ticks.take n) found
  | _ => false

theorem of_sinceFault {n : ℕ} {p : List (WatcherTick Unit) → Watcher Unit → Bool}
    {ticks : List (WatcherTick Unit)} (h : sinceFault n p ticks=true) : ∃ later found found' earlier,
      ticks=later++⟨found,.askFault .arm,found'⟩::earlier ∧ p later found=true := by
  unfold sinceFault at h
  split at h
  · rename_i hdrop
    exact ⟨ticks.take n,_,_,_,by rw [← hdrop,take_append_drop],h⟩
  · cases h

def recovering : List (Event Unit) :=
  failingInstall .start ++ [.answer 1 (some 20), .schedule 20, .timer, .reopen (.opened false)]

/-- The route asks for 20 ms, the retry succeeds and clears the fault, and the route answers once more. -/
theorem fault_retried_once_recovered : ∃ (later : List (WatcherTick Unit)) (found found' : Watcher Unit)
    (earlier : List (WatcherTick Unit)) (w : Watcher Unit),
    WatcherRun (later ++ ⟨found, .askFault .arm, found'⟩ :: earlier) w ∧ w.fault = none ∧
      later.filterMap (fun t => t.event.sets) ++ w.scheduling = [20] := by
  obtain ⟨ticks,w,run,hcheck⟩:=askedWatch_run.play (plainly _) named_allows
    (recovering++[.install .reopen,.teardown,.establishDetailed true,.armAfterInstall,.look [1],.lookAt,
      .submit .ok,.resolveFaultSuccess,.answer 1 (some 5)])
    (fun ticks w=>decide (w.fault=none) && sinceFault 13 (fun later found=>decide (
      (∀ t ∈ later,t.event.asks=false) ∧ unanswered found.interactiveRoutes later=[] ∧
      clearedEarly found.interactiveRoutes later=false ∧
      resolved .arm found.interactiveRoutes later=20 ∧ found.scheduling=[])) ticks) (by decide +kernel)
  obtain ⟨hcleared,hsince⟩:=(Bool.and_eq_true _ _).mp hcheck
  obtain ⟨later,found,found',earlier,rfl,hlater⟩:=of_sinceFault hsince
  obtain ⟨hasks,hunanswered,hkept,hresolved,hbefore⟩:=of_decide_eq_true hlater
  have hset:=(fault_retried_once run hasks).1
  rw [if_pos ⟨hunanswered,hkept⟩,hresolved,hbefore] at hset
  exact ⟨later,found,found',earlier,w,run,of_decide_eq_true hcleared,perm_singleton.mp hset⟩

/-- The fault is retried and the directory reopened, and the read armed on it fails at once. The route is asked
again, the recovery of the first fault ends and clears the second, and the answer finds nothing to settle. -/
theorem fault_not_retried : ∃ (later : List (WatcherTick Unit)) (found found' : Watcher Unit)
    (earlier : List (WatcherTick Unit)) (w : Watcher Unit),
    WatcherRun (later ++ ⟨found, .askFault .arm, found'⟩ :: earlier) w ∧
      (∀ t ∈ later, t.event.asks = false) ∧ unanswered found.interactiveRoutes later = [] ∧
      later.filterMap (fun t => t.event.sets) = [] ∧ w.gate = .faulted ∧ w.timer = none ∧ w.tasks = [] := by
  obtain ⟨ticks,w,run,hcheck⟩:=askedWatch_run.play (plainly _) named_allows
    (recovering++failingInstall .reopen++[.resolveFaultSuccess,.answer 1 (some 20)])
    (fun ticks w=>decide (w.gate=.faulted ∧ w.timer=none ∧ w.tasks=[]) &&
      sinceFault 2 (fun later found=>decide ((∀ t ∈ later,t.event.asks=false) ∧
        unanswered found.interactiveRoutes later=[] ∧ later.filterMap (fun t=>t.event.sets)=[])) ticks)
    (by decide +kernel)
  obtain ⟨hstuck,hsince⟩:=(Bool.and_eq_true _ _).mp hcheck
  obtain ⟨later,found,found',earlier,rfl,hlater⟩:=of_sinceFault hsince
  obtain ⟨hasks,hunanswered,hsets⟩:=of_decide_eq_true hlater
  exact ⟨later,found,found',earlier,w,run,hasks,hunanswered,hsets,of_decide_eq_true hstuck⟩

end WindowsThreadpoolSys.FileWatcher
