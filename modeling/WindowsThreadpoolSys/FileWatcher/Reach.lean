import WindowsThreadpoolSys.FileWatcher.Paused

/-! The reach of a detailed handle is fixed by the first read armed on it, that of a coarse one by its open.
Both are read off the routes when they are fixed, so a route that is there then is served. A recursive
route that joins later has the directory reopened, if `add_route` finds the gate open. When it finds the
gate closed it leaves the reopening to whoever opens the gate again, and the resume that ends a pause
arms the handle there is. -/
namespace WindowsThreadpoolSys.FileWatcher
open Library List Option Watcher InstallPhase

variable {P : Type} {w w' w'' : Watcher P}

def Task.reopens : Task → Bool
  | .register _ widens => widens
  | .widen | .install _ | .enterFault _ => true
  | _ => false

variable {t : Task}

theorem Task.aside_of_reopens (h : t.reopens=true) : t.aside=false := by
  cases t <;> first | rfl | cases h

namespace Watcher

/-! ## What is kept -/

/-- The handle reaches the subtree, or will once it is armed. -/
def Wide (w : Watcher P) : Prop := ∀ e, w.endpoint = some e → e.reach ≠ some false

def Ready (w : Watcher P) : Prop := ∃ e, w.endpoint = some e ∧ e.reach.isSome

/-- The directory is about to be reopened for a recursive route. -/
def Widening (w : Watcher P) : Prop :=
  (∃ sink, Task.register sink true ∈ w.tasks) ∨ Task.widen ∈ w.tasks ∨
    Task.install .addRoute ∈ w.tasks ∨ ∃ caller, w.installing = some ⟨caller, .teardown⟩

def Mending (w : Watcher P) : Prop :=
  (∃ operation, Task.enterFault operation ∈ w.tasks) ∨ w.installing ≠ none ∨
    Task.install .start ∈ w.tasks

/-- What the gate is while an arm holds its lock. -/
def Held (w : Watcher P) : Prop :=
  match w.arming with
  | none => True
  | some ⟨_, .look true⟩ => w.gate = .backpressured
  | some ⟨_, .looking true _⟩ => w.gate = .backpressured
  | some _ => w.gate ≠ .tornDown

structure ReachOk (w : Watcher P) : Prop where
  reach : w.gate ≠ .tornDown → w.anyRecursive = true → w.Wide ∨ w.Widening
  coarse : ∀ caller, w.installing = some ⟨caller, .establishCoarse false⟩ → w.gate ≠ .tornDown →
    w.anyRecursive = true → w.Widening
  ready : w.gate = .opened → w.arming = none → w.Ready ∨ w.Mending
  stops : Task.stopTeardown ∈ w.tasks → w.gate = .tornDown
  arms : ∀ phase, w.arming = some ⟨.install, phase⟩ →
    ∃ caller, w.installing = some ⟨caller, .armDetailed⟩ ∨ w.installing = some ⟨caller, .armCoarse⟩
  held : w.Held

theorem anyRecursive_iff : w.anyRecursive=true ↔
    ∃ watch r,w.routes.get watch=some r ∧ r.scope.needsKernelSubtree=true := by
  simp only [anyRecursive,List.any_eq_true,Table.mem_vals]
  constructor
  · rintro ⟨r,⟨watch,hr⟩,hneeds⟩
    exact ⟨watch,r,hr,hneeds⟩
  · rintro ⟨watch,r,hr,hneeds⟩
    exact ⟨r,⟨watch,hr⟩,hneeds⟩

theorem anyRecursive_of_sub (h : Table.Sub w'.routes w.routes) (hany : w'.anyRecursive=true) :
    w.anyRecursive=true := by
  obtain ⟨watch,r,hr,hneeds⟩:=anyRecursive_iff.mp hany
  exact anyRecursive_iff.mpr ⟨watch,r,h watch r hr,hneeds⟩

theorem ReachOk.of_torn (hgate : w.gate=.tornDown) (hfree : w.arming=none) : ReachOk w where
  reach := fun h=>absurd hgate h
  coarse:=fun _ _ h=>absurd hgate h
  ready:=fun h=>absurd (hgate.symm.trans h) (by decide)
  stops:=fun _=>hgate
  arms:=fun phase h=>absurd (hfree.symm.trans h) (by simp)
  held:=by simp only [Held,hfree]

theorem ReachOk.free_of_torn (h : ReachOk w) (hgate : w.gate=.tornDown) : w.arming=none := by
  have hheld:=h.held
  unfold Held at hheld
  split at hheld
  · assumption
  · exact absurd (hgate.symm.trans hheld) (by decide)
  · exact absurd (hgate.symm.trans hheld) (by decide)
  · exact absurd hgate hheld

/-! ## Threads that are to reopen, or to enter a fault -/

structure TasksKept (w w' : Watcher P) : Prop where
  stops : Task.stopTeardown ∈ w'.tasks → Task.stopTeardown ∈ w.tasks
  widening : w.Widening → w'.Widening
  mending : w.Mending → w'.Mending

theorem TasksKept.of (hinst : w'.installing=w.installing)
    (hstops : Task.stopTeardown ∈ w'.tasks → Task.stopTeardown ∈ w.tasks)
    (htasks : ∀ t,t.reopens=true → t ∈ w.tasks → t ∈ w'.tasks) : TasksKept w w' where
  stops := hstops
  widening:=by
    rintro (⟨sink,ht⟩ | ht | ht | ⟨caller,hc⟩)
    · exact .inl ⟨sink,htasks _ rfl ht⟩
    · exact .inr (.inl (htasks _ rfl ht))
    · exact .inr (.inr (.inl (htasks _ rfl ht)))
    · exact .inr (.inr (.inr ⟨caller,hinst.trans hc⟩))
  mending:=by
    rintro (⟨operation,ht⟩ | hc | ht)
    · exact .inl ⟨operation,htasks _ rfl ht⟩
    · exact .inr (.inl (hinst ▸ hc))
    · exact .inr (.inr (htasks _ rfl ht))

theorem TasksKept.spawn (w : Watcher P) (ht : Task.stopTeardown ≠ t) : TasksKept w (w.spawn t) :=
  .of rfl (fun hs=>(mem_cons.mp hs).resolve_left ht) fun _ _ hmem=>mem_cons_of_mem _ hmem

theorem mem_done {u : Task} (ht : t.reopens=true) (hu : u.reopens=false) (h : t ∈ w.tasks) :
    t ∈ (w.done u).tasks := by
  refine (mem_erase_of_ne ?_).mpr h
  intro heq
  rw [heq,hu] at ht
  cases ht

theorem TasksKept.done (w : Watcher P) (ht : t.reopens=false) : TasksKept w (w.done t) :=
  .of rfl mem_of_mem_erase fun _ hu hmem=>mem_done hu ht hmem

theorem Widening.of_tasks (h : w.Widening) (hphase : ∀ caller,w.installing ≠ some ⟨caller,.teardown⟩)
    (htasks : ∀ t,t.reopens=true → t ∈ w.tasks → t ∈ w'.tasks) : w'.Widening := by
  rcases h with ⟨sink,ht⟩ | ht | ht | ⟨caller,hc⟩
  · exact .inl ⟨sink,htasks _ rfl ht⟩
  · exact .inr (.inl (htasks _ rfl ht))
  · exact .inr (.inr (.inl (htasks _ rfl ht)))
  · exact absurd hc (hphase caller)

/-! ## Steps that leave the endpoint -/

structure Still (w w' : Watcher P) : Prop where
  endpoint : w'.endpoint = w.endpoint
  installing : w'.installing = w.installing
  torn : w.gate = .tornDown → w'.gate = .tornDown
  routes : Table.Sub w'.routes w.routes
  ready : w'.gate = .opened → w'.arming = none → w.gate = .opened ∧ w.arming = none
  arms : ∀ phase, w'.arming = some ⟨.install, phase⟩ → ∃ phase', w.arming = some ⟨.install, phase'⟩
  held : w'.Held
  stops : Task.stopTeardown ∈ w'.tasks → Task.stopTeardown ∈ w.tasks
  widening : w'.gate ≠ .tornDown → w.Widening → w'.Widening
  mending : w'.gate = .opened → w.Mending → w'.Mending

section

variable (h : ReachOk w)
include h

theorem ReachOk.still (hs : Still w w') : ReachOk w' where
  reach := by
    intro hgate hany
    have hwas : w.gate≠.tornDown:=fun ht=>hgate (hs.torn ht)
    refine (h.reach hwas (anyRecursive_of_sub hs.routes hany)).imp ?_ (hs.widening hgate)
    intro hwide
    unfold Wide
    rw [hs.endpoint]
    exact hwide
  coarse:=by
    intro caller hinst hgate hany
    have hwas : w.gate≠.tornDown:=fun ht=>hgate (hs.torn ht)
    rw [hs.installing] at hinst
    exact hs.widening hgate (h.coarse caller hinst hwas (anyRecursive_of_sub hs.routes hany))
  ready:=by
    intro hgate hfree
    obtain ⟨hopen,hwas⟩:=hs.ready hgate hfree
    refine (h.ready hopen hwas).imp ?_ (hs.mending hgate)
    intro hready
    unfold Ready
    rw [hs.endpoint]
    exact hready
  stops:=fun hstop=>hs.torn (h.stops (hs.stops hstop))
  arms:=by
    intro phase harm
    obtain ⟨phase',hwas⟩:=hs.arms phase harm
    rw [hs.installing]
    exact h.arms phase' hwas
  held:=hs.held

theorem ReachOk.same (hendpoint : w'.endpoint=w.endpoint)
    (hinst : w'.installing=w.installing) (harming : w'.arming=w.arming)
    (hgate : w'.gate=w.gate) (hroutes : Table.Sub w'.routes w.routes)
    (htasks : TasksKept w w') : ReachOk w' :=
  h.still
    { endpoint:=hendpoint
      installing:=hinst
      torn:=fun ht=>hgate.trans ht
      routes:=hroutes
      ready:=fun hopen hfree=>⟨hgate.symm.trans hopen,harming.symm.trans hfree⟩
      arms:=fun phase harm=>⟨phase,harming.symm.trans harm⟩
      held:=by
        have hheld:=h.held
        unfold Held at hheld ⊢
        rw [harming,hgate]
        exact hheld
      stops:=htasks.stops
      widening:=fun _=>htasks.widening
      mending:=fun _=>htasks.mending }

theorem ReachOk.aside (ha : Aside w w') : ReachOk w' :=
  h.same ha.endpoint ha.installing ha.arming ha.gate ha.routes
    (.of ha.installing ha.stops fun t ht=>ha.tasks t (Task.aside_of_reopens ht))

theorem ReachOk.close {g : ArmGate} (hclosed : g ≠ .opened) (hlive : w.gate ≠ .tornDown)
    (hfree : w.arming=none) : ReachOk { w with gate := g } :=
  h.still
    { endpoint:=rfl
      installing:=rfl
      torn:=fun ht=>absurd ht hlive
      routes:=.refl _
      ready:=fun hopen _=>absurd hopen hclosed
      arms:=fun phase harm=>⟨phase,harm⟩
      held:=by simp only [Held,hfree]
      stops:=id
      widening:=fun _=>id
      mending:=fun _=>id }

theorem ReachOk.arming {caller : ArmCaller} {phase : ArmPhase} {g : ArmGate}
    (hcaller : caller=.install → ∃ phase,w.arming=some ⟨.install,phase⟩)
    (hlive : w.gate ≠ .tornDown) (hheld : Held { w with gate := g,arming := some ⟨caller,phase⟩ }) :
    ReachOk { w with gate := g,arming := some ⟨caller,phase⟩ } :=
  h.still
    { endpoint:=rfl
      installing:=rfl
      torn:=fun ht=>absurd ht hlive
      routes:=.refl _
      ready:=fun _ hfree=>(by cases hfree)
      arms:=by
        intro phase harm
        cases harm
        exact hcaller rfl
      held:=hheld
      stops:=id
      widening:=fun _=>id
      mending:=fun _=>id }

theorem ReachOk.startArm (hlive : w.gate ≠ .tornDown) :
    ReachOk { w with arming := some ⟨.callback,.look false⟩ } :=
  h.arming (fun hc=>by cases hc) hlive hlive

theorem ReachOk.arm : ReachOk w.arm := by
  unfold Watcher.arm
  split_ifs with hclosed
  · exact h
  · exact h.startArm fun ht=>hclosed (.inl ht)

theorem ReachOk.resumeArm : ReachOk w.resumeArm := by
  unfold Watcher.resumeArm
  split_ifs with hpaused
  · exact h.startArm fun ht=>absurd (hpaused.symm.trans ht) (by decide)
  · exact h

theorem ReachOk.look {order : List WatchId} (hstep : w.look order=some w') : ReachOk w' := by
  unfold Watcher.look at hstep
  split at hstep
  · rename_i caller again harm
    split_ifs at hstep
    cases hstep
    have hheld:=h.held
    unfold Held at hheld
    rw [harm] at hheld
    refine h.arming (g:=w.gate) (fun hc=>?_) (fun ht=>?_) ?_
    · exact ⟨_,hc ▸ harm⟩
    · exact absurd (h.free_of_torn ht) (by rw [harm]; simp)
    · cases again <;> exact hheld
  · cases hstep

theorem ReachOk.enterFault (operation : FaultOperation) (hfree : w.arming=none) :
    ReachOk ((w.done (.enterFault operation)).enterFault operation) := by
  unfold Watcher.enterFault
  split_ifs with htorn
  · exact .of_torn htorn hfree
  · exact h.still
      { endpoint:=rfl
        installing:=rfl
        torn:=fun ht=>absurd ht htorn
        routes:=.refl _
        ready:=fun hopen _=>(by cases hopen)
        arms:=fun phase harm=>⟨phase,harm⟩
        held:=by simp only [Held,done,hfree]
        stops:=fun hs=>mem_of_mem_erase
          ((mem_cons.mp hs).resolve_left Task.noConfusion)
        widening:=by
          rintro-(⟨sink,ht⟩ | ht | ht | ⟨caller,hc⟩)
          · exact .inl ⟨sink,mem_cons_of_mem _ ((mem_erase_of_ne Task.noConfusion).mpr ht)⟩
          · exact .inr (.inl (mem_cons_of_mem _ ((mem_erase_of_ne Task.noConfusion).mpr ht)))
          · exact .inr (.inr (.inl (mem_cons_of_mem _ ((mem_erase_of_ne Task.noConfusion).mpr ht))))
          · exact .inr (.inr (.inr ⟨caller,hc⟩))
        mending:=fun hopen=>(by cases hopen) }

/-! ## Routes that join -/

theorem ReachOk.addRoute (route : Route) : ReachOk (w.addRoute route) := by
  have hkept : TasksKept w (w.addRoute route) :=
    .of rfl (fun hs=>(mem_cons.mp hs).resolve_left Task.noConfusion)
      fun _ _ ht=>mem_cons_of_mem _ ht
  have hjoin : (w.addRoute route).anyRecursive=true →
      w.anyRecursive=true ∨ (w.addRoute route).Widening:=by
    intro hany
    by_cases hwas : w.anyRecursive=true
    · exact .inl hwas
    obtain ⟨watch,r,hr,hneeds⟩:=anyRecursive_iff.mp hany
    rcases Table.of_insert hr with ⟨-,rfl⟩ | hr
    · refine .inr (.inl ⟨r.sink,mem_cons.mpr (.inl ?_)⟩)
      rw [Bool.not_eq_true] at hwas
      rw [hneeds,hwas]
      rfl
    · exact absurd (anyRecursive_iff.mpr ⟨watch,r,hr,hneeds⟩) hwas
  refine ⟨fun hgate hany=>?_,fun caller hinst hgate hany=>?_,fun hopen hfree=>?_,
    fun hs=>h.stops (hkept.stops hs),h.arms,h.held⟩
  · rcases hjoin hany with hwas | hw
    · exact (h.reach hgate hwas).imp (fun hwide=>hwide) hkept.widening
    · exact .inr hw
  · rcases hjoin hany with hwas | hw
    · exact hkept.widening (h.coarse caller hinst hgate hwas)
    · exact hw
  · exact (h.ready hopen hfree).imp (fun hready=>hready) hkept.mending

theorem ReachOk.register (sink : SessionId) (widen : Bool) :
    ReachOk ((w.done (.register sink widen)).register sink widen) := by
  cases widen with
  | false =>
    have hkept:=TasksKept.done w (t:=.register sink false) rfl
    exact h.same rfl rfl rfl rfl (.refl _) ⟨hkept.stops,hkept.widening,hkept.mending⟩
  | true =>
    have hleft : ∀ {t},t≠.register sink true → t ∈ w.tasks →
        t ∈ Task.widen::w.tasks.erase (.register sink true) :=
      fun hne hmem=>mem_cons_of_mem _ ((mem_erase_of_ne hne).mpr hmem)
    refine h.same rfl rfl rfl rfl (.refl _) ⟨fun hs=>?_,?_,?_⟩
    · exact mem_of_mem_erase ((mem_cons.mp hs).resolve_left Task.noConfusion)
    · rintro (⟨sink',ht⟩ | ht | ht | ⟨caller,hc⟩)
      · exact .inr (.inl mem_cons_self)
      · exact .inr (.inl mem_cons_self)
      · exact .inr (.inl mem_cons_self)
      · exact .inr (.inl mem_cons_self)
    · rintro (⟨operation,ht⟩ | hc | ht)
      · exact .inl ⟨operation,hleft Task.noConfusion ht⟩
      · exact .inr (.inl hc)
      · exact .inr (.inr (hleft Task.noConfusion ht))

theorem ReachOk.widen (hopen : w.gate=.opened) : ReachOk ((w.done .widen).widen) := by
  unfold Watcher.widen
  rw [if_pos (show (w.done .widen).gate=.opened from hopen)]
  have hleft : ∀ {t},t≠.widen → t ∈ w.tasks →
      t ∈ Task.install .addRoute::w.tasks.erase .widen :=
    fun hne hmem=>mem_cons_of_mem _ ((mem_erase_of_ne hne).mpr hmem)
  refine h.same rfl rfl rfl rfl (.refl _) ⟨fun hs=>?_,fun _=>?_,?_⟩
  · exact mem_of_mem_erase ((mem_cons.mp hs).resolve_left Task.noConfusion)
  · exact .inr (.inr (.inl mem_cons_self))
  · rintro (⟨operation,ht⟩ | hc | ht)
    · exact .inl ⟨operation,hleft Task.noConfusion ht⟩
    · exact .inr (.inl hc)
    · exact .inr (.inr (hleft Task.noConfusion ht))

/-! ## Installing -/

theorem ReachOk.finishInstall (caller : InstallCaller) (ok : Bool)
    (hphase : ∀ caller,w.installing ≠ some ⟨caller,.teardown⟩)
    (harms : ∀ phase,w.arming ≠ some ⟨.install,phase⟩)
    (hready : ok=true → w.gate=.opened → w.arming=none → w.Ready) :
    ReachOk (w.finishInstall caller ok) := by
  have hended : ok=true → ReachOk { w with installing:=none }:=by
    intro hok
    refine ⟨fun hgate hany=>?_,fun _ hinst=>?_,fun hopen hfree=>?_,h.stops,
      fun phase harm=>absurd harm (harms phase),h.held⟩
    · exact (h.reach hgate hany).imp (fun hwide=>hwide) fun hw=>hw.of_tasks hphase fun _ _ ht=>ht
    · cases hinst
    · exact .inl (hready hok hopen hfree)
  have hfails : ReachOk (Watcher.spawn { w with installing:=none } (.enterFault .arm)):=by
    refine ⟨fun hgate hany=>?_,fun _ hinst=>?_,fun _ _=>?_,fun hs=>?_,
      fun phase harm=>absurd harm (harms phase),h.held⟩
    · exact (h.reach hgate hany).imp (fun hwide=>hwide) fun hw =>
        hw.of_tasks hphase fun _ _ ht=>mem_cons_of_mem _ ht
    · cases hinst
    · exact .inr (.inl ⟨.arm,mem_cons_self⟩)
    · exact h.stops ((mem_cons.mp hs).resolve_left Task.noConfusion)
  cases caller <;> cases ok
  · exact .of_torn rfl rfl
  · exact hended rfl
  · exact hfails
  · exact hended rfl
  · exact hfails
  · exact (hended rfl).aside (.spawn _ Task.noConfusion)

theorem ReachOk.install (caller : InstallCaller) (hfree : w.arming=none) :
    ReachOk ((w.done (.install caller)).install caller) := by
  unfold Watcher.install
  split_ifs with htorn
  · have hgate : ((w.done (.install caller)).finishInstall caller true).gate=.tornDown:=by
      cases caller <;> exact htorn
    have hstill : ((w.done (.install caller)).finishInstall caller true).arming=none:=by
      cases caller <;> exact hfree
    exact .of_torn hgate hstill
  · refine ⟨fun _ _=>?_,fun _ hinst=>?_,fun hopen=>?_,fun hs=>?_,
      fun phase harm=>?_,?_⟩
    · exact .inr (.inr (.inr (.inr ⟨caller,rfl⟩)))
    · cases hinst
    · cases hopen
    · exact absurd (h.stops (mem_of_mem_erase hs)) htorn
    · exact absurd (hfree.symm.trans harm) (by simp)
    · simp only [Held,done,hfree]

variable {caller : InstallCaller} {p : InstallPhase}

theorem ReachOk.not_arming (hinst : w.installing=some ⟨caller,p⟩)
    (hdetailed : p ≠ .armDetailed) (hcoarse : p ≠ .armCoarse) (phase : ArmPhase) :
    w.arming ≠ some ⟨.install,phase⟩ := by
  intro harm
  obtain ⟨caller',hphase | hphase⟩:=h.arms phase harm
  · rw [hinst] at hphase
    cases hphase
    exact hdetailed rfl
  · rw [hinst] at hphase
    cases hphase
    exact hcoarse rfl

theorem ReachOk.installs {q : InstallPhase} {e : Option Endpoint}
    (hinst : w.installing=some ⟨caller,p⟩) (hdetailed : p ≠ .armDetailed)
    (hcoarse : p ≠ .armCoarse) (hreach : w.gate ≠ .tornDown → w.anyRecursive=true →
      (∀ e',e=some e' → e'.reach ≠ some false) ∨ ((p ≠ .teardown) ∧ w.Widening))
    (hopens : q=.establishCoarse false → w.anyRecursive=false) :
    ReachOk { w with endpoint := e,installing := some ⟨caller,q⟩ } := by
  refine ⟨fun hgate hany=>?_,fun _ hq _ hany=>?_,fun _ _=>?_,h.stops,
    fun phase harm=>absurd harm (h.not_arming hinst hdetailed hcoarse phase),h.held⟩
  · refine (hreach hgate hany).imp (fun hwide=>hwide) fun hw=>?_
    refine hw.2.of_tasks (fun caller' hc=>?_) fun _ _ ht=>ht
    rw [hinst] at hc
    cases hc
    exact hw.1 rfl
  · cases hq
    have hsome : w.anyRecursive=true:=hany
    rw [hopens rfl] at hsome
    cases hsome
  · exact .inr (.inr (.inl (by simp)))

theorem ReachOk.teardown (hstep : w.teardown=some w') : ReachOk w' := by
  unfold Watcher.teardown at hstep
  split at hstep
  · rename_i caller hinst
    cases hstep
    refine h.installs hinst InstallPhase.noConfusion InstallPhase.noConfusion
      (fun _ _=>.inl fun _ he=>by cases he) fun hq=>?_
    split_ifs at hq
  · rename_i caller hinst
    cases hstep
    exact h.installs hinst InstallPhase.noConfusion InstallPhase.noConfusion
      (fun _ _=>.inl fun _ he=>by cases he) InstallPhase.noConfusion
  · cases hstep

theorem ReachOk.failsInstall (hinst : w.installing=some ⟨caller,p⟩)
    (hteardown : p ≠ .teardown) (hdetailed : p ≠ .armDetailed) (hcoarse : p ≠ .armCoarse) :
    ReachOk (w.finishInstall caller false) := by
  refine h.finishInstall caller false (fun caller' hc=>?_) (h.not_arming hinst hdetailed hcoarse)
    fun hok=>(by cases hok)
  rw [hinst] at hc
  cases hc
  exact hteardown rfl

theorem ReachOk.establishDetailed {ok : Bool}
    (hstep : w.establishDetailed ok=some w') : ReachOk w' := by
  unfold Watcher.establishDetailed at hstep
  split at hstep
  · rename_i caller hinst
    cases hstep
    split_ifs
    · refine h.installs hinst InstallPhase.noConfusion InstallPhase.noConfusion
        (fun _ _=>.inl fun e he=>?_) InstallPhase.noConfusion
      cases he
      decide
    · exact h.failsInstall hinst InstallPhase.noConfusion InstallPhase.noConfusion
        InstallPhase.noConfusion
  · cases hstep

theorem ReachOk.openCoarse (hstep : w.openCoarse=some w') : ReachOk w' := by
  unfold Watcher.openCoarse at hstep
  split at hstep
  · rename_i caller hinst
    cases hstep
    refine h.installs hinst InstallPhase.noConfusion InstallPhase.noConfusion
      (fun hgate hany=>?_) fun hq=>InstallPhase.establishCoarse.inj hq
    exact (h.reach hgate hany).imp (fun hwide=>hwide) fun hw=>⟨InstallPhase.noConfusion,hw⟩
  · cases hstep

theorem ReachOk.establishCoarse {ok : Bool}
    (hstep : w.establishCoarse ok=some w') : ReachOk w' := by
  unfold Watcher.establishCoarse at hstep
  split at hstep
  · rename_i caller subtree hinst
    cases hstep
    split_ifs
    · refine h.installs hinst InstallPhase.noConfusion InstallPhase.noConfusion
        (fun hgate hany=>?_) InstallPhase.noConfusion
      cases subtree with
      | false=>exact .inr ⟨InstallPhase.noConfusion,h.coarse caller hinst hgate hany⟩
      | true =>
        refine .inl fun e he=>?_
        cases he
        decide
    · exact h.failsInstall hinst InstallPhase.noConfusion InstallPhase.noConfusion
        InstallPhase.noConfusion
  · cases hstep

/-! ## Arming -/

theorem ReachOk.armAfterInstall (hfree : w.arming=none)
    (hstep : w.armAfterInstall=some w') : ReachOk w' := by
  have hgo : ∀ caller phase,w.installing=some ⟨caller,phase⟩ →
      (phase=.armDetailed ∨ phase=.armCoarse) →
      ReachOk (if w.gate=.tornDown then w.finishInstall caller true
        else { w with arming:=some ⟨.install,.look false⟩ }):=by
    intro caller phase hinst hphase
    split_ifs with htorn
    · refine h.finishInstall caller true (fun caller' hc=>?_) (fun p harm=>?_) fun _ hopen=>?_
      · rw [hinst] at hc
        cases hc
        rcases hphase with hp | hp <;> cases hp
      · exact absurd (hfree.symm.trans harm) (by simp)
      · exact absurd (htorn.symm.trans hopen) (by decide)
    · refine ⟨h.reach,h.coarse,fun _ hnone=>?_,h.stops,fun p _=>⟨caller,?_⟩,htorn⟩
      · cases hnone
      · rcases hphase with hp | hp
        · exact .inl (hp ▸ hinst)
        · exact .inr (hp ▸ hinst)
  unfold Watcher.armAfterInstall at hstep
  split at hstep
  · rename_i caller hinst
    cases hstep
    exact hgo caller _ hinst (.inl rfl)
  · rename_i caller hinst
    cases hstep
    exact hgo caller _ hinst (.inr rfl)
  · cases hstep

theorem ReachOk.finishArm {caller : ArmCaller} {phase : ArmPhase} (result : ArmResult)
    (harm : w.arming=some ⟨caller,phase⟩)
    (hready : result=.ok → w.gate=.opened → w.Ready) : ReachOk (w.finishArm caller result) := by
  have hbase : ∀ (hr : w.gate=.opened → w.Ready ∨ w.Mending),
      ReachOk { w with arming:=none }:=fun hr =>
    ⟨h.reach,h.coarse,fun hopen _=>hr hopen,h.stops,fun p hp=>(by cases hp),trivial⟩
  cases caller with
  | callback =>
    unfold Watcher.finishArm
    simp only
    split_ifs with hok
    · exact hbase fun hopen=>.inl (hready hok hopen)
    · have hkept : TasksKept w (w.spawn (.enterFault .arm)):=.spawn w Task.noConfusion
      refine ⟨fun hgate hany=>?_,fun c hinst hgate hany=>?_,fun _ _=>?_,fun hs=>?_,
        fun p hp=>(by cases hp),trivial⟩
      · exact (h.reach hgate hany).imp (fun hwide=>hwide) hkept.widening
      · exact hkept.widening (h.coarse c hinst hgate hany)
      · exact .inr (.inl ⟨.arm,mem_cons_self⟩)
      · exact h.stops (hkept.stops hs)
  | install =>
    obtain ⟨c,hinst⟩:=h.arms phase harm
    have hsome : w.installing≠none:=by rcases hinst with hi | hi <;> rw [hi] <;> simp
    have hreleased:=hbase fun _=>.inr (.inr (.inl hsome))
    have hends : ∀ ok,(ok=true → result=.ok) → (∀ caller,w.installing≠some ⟨caller,.teardown⟩) →
        ReachOk (Watcher.finishInstall { w with arming:=none } c ok):=fun ok hok hphase =>
      hreleased.finishInstall c ok hphase (fun p hp=>(by cases hp)) fun hk hopen _ =>
        hready (hok hk) hopen
    unfold Watcher.finishArm installArmed
    rcases hinst with hi | hi
    · have hphase : ∀ caller,w.installing≠some ⟨caller,.teardown⟩:=by
        intro caller hc
        rw [hi] at hc
        cases hc
      simp only [hi]
      cases result with
      | ok=>exact hends true (fun _=>rfl) hphase
      | failed=>exact hends false (fun hk=>by cases hk) hphase
      | unsupported =>
        refine ⟨fun hgate hany=>?_,fun _ hq=>?_,fun _ _=>?_,h.stops,
          fun p hp=>(by cases hp),trivial⟩
        · exact (h.reach hgate hany).imp (fun hwide=>hwide) fun hw =>
            hw.of_tasks hphase fun _ _ ht=>ht
        · cases hq
        · exact .inr (.inr (.inl (by simp)))
    · simp only [hi]
      refine hends (decide (result=.ok)) of_decide_eq_true fun caller hc=>?_
      rw [hi] at hc
      cases hc

theorem ReachOk.firstRead {a : Arming} {firstRead : Option Bool}
    (harm : w.arming=some a) (hend : w.endpoint=some (.detailed firstRead)) :
    ReachOk { w with endpoint := some (.detailed (some (firstRead.getD w.anyRecursive))) } := by
  refine ⟨fun hgate hany=>?_,h.coarse,fun _ hfree=>?_,h.stops,h.arms,h.held⟩
  · cases firstRead with
    | none =>
      refine .inl fun e he=>?_
      have hsome : w.anyRecursive=true:=hany
      cases he
      simp only [Endpoint.reach,getD_none,hsome]
      decide
    | some reach =>
      refine (h.reach hgate hany).imp (fun hwide e he=>?_) fun hw=>hw
      cases he
      exact hwide _ hend
  · exact absurd (harm.symm.trans hfree) (by simp)

theorem ReachOk.submit {outcome : ArmResult} (hstep : w.submit outcome=some w') : ReachOk w' := by
  unfold Watcher.submit at hstep
  split at hstep
  · rename_i caller harm
    cases hend : w.endpoint with
    | none =>
      rw [hend] at hstep
      cases hstep
      exact h.finishArm .failed harm fun hok=>by cases hok
    | some e =>
      rw [hend] at hstep
      cases e with
      | coarse subtree =>
        cases hstep
        exact h.finishArm .ok harm fun _ _=>⟨_,hend,rfl⟩
      | detailed firstRead =>
        cases outcome with
        | ok =>
          cases hstep
          exact (h.firstRead harm hend).finishArm .ok harm fun _ _=>⟨_,rfl,rfl⟩
        | unsupported =>
          cases hstep
          exact h.finishArm .unsupported harm fun hok=>by cases hok
        | failed =>
          cases hstep
          exact h.finishArm .failed harm fun hok=>by cases hok
  · cases hstep

theorem ReachOk.lookAt (hstep : w.lookAt=some w') : ReachOk w' := by
  have hlive : ∀ {a},w.arming=some a → w.gate≠.tornDown:=by
    intro a harm ht
    exact absurd (harm.symm.trans (h.free_of_torn ht)) (by simp)
  unfold Watcher.lookAt at hstep
  split at hstep
  · rename_i caller again watch rest harm
    cases hstep
    have hcaller : caller=.install → ∃ phase,w.arming=some ⟨.install,phase⟩:=fun hc=>⟨_,hc ▸ harm⟩
    split_ifs
    · exact h.arming hcaller (hlive harm) ArmGate.noConfusion
    · have hheld:=h.held
      unfold Held at hheld
      rw [harm] at hheld
      refine h.arming (g:=w.gate) hcaller (hlive harm) ?_
      cases again <;> exact hheld
  · rename_i caller harm
    cases hstep
    exact h.arming (fun hc=>⟨_,hc ▸ harm⟩) (hlive harm) rfl
  · rename_i caller harm
    cases hstep
    have hheld:=h.held
    unfold Held at hheld
    rw [harm] at hheld
    exact h.finishArm .ok harm fun _ hopen=>absurd (hheld.symm.trans hopen) (by decide)
  · cases hstep

theorem ReachOk.reopen (hfree : w.arming=none) : ReachOk (w.reopen (.opened true)) := by
  unfold Watcher.reopen
  simp only
  split_ifs with hnobody htorn
  · exact h.aside (.spawn w Task.noConfusion)
  · exact h
  · exact (h.close (g:=.volumeChangePending) ArmGate.noConfusion htorn hfree).aside
      (.fields _ w.fault _ w.stopped w.timer)

theorem ReachOk.queues (sessions : Table SessionId (Channel P)) (prods resumes : ℕ) :
    ReachOk { w with sessions := sessions,prods := prods,resumes := resumes } :=
  h.same rfl rfl rfl rfl (.refl _) ⟨id,id,id⟩

theorem ReachOk.callQueue {id : SessionId} {call : Call P} {dead : List ProducerId}
    (hstep : w.callQueue id call dead=some w') : ReachOk w' := by
  unfold Watcher.callQueue at hstep
  split at hstep
  · cases hstep
  · split_ifs at hstep
    split at hstep
    · cases hstep
    · cases hstep
      exact h.queues _ _ w.resumes

end

end Watcher

/-- A thread that looks at the gate to widen, at this step, finds it open. -/
def WatcherTick.WidensOpen (t : WatcherTick P) : Prop :=
  match t.event with
  | .widen => t.before.gate = .opened
  | _ => True

instance (t : WatcherTick P) : Decidable t.WidensOpen :=
  decidable_of_iff (t.event matches .widen → t.before.gate = .opened) (by
    cases h : t.event <;> simp [WatcherTick.WidensOpen, h])

namespace Watcher

theorem ReachOk.step (h : ReachOk w) {event : Event P} (hstep : w.step event=some w')
    (hwidens : WatcherTick.WidensOpen ⟨w,event,w'⟩) : ReachOk w' := by
  cases event with
  | session id bound =>
    obtain ⟨-,⟨⟩⟩:=ite_none_right_eq_some.mp hstep
    exact h.queues _ w.prods w.resumes
  | call id call dead=>exact h.callQueue hstep
  | prod =>
    obtain ⟨-,⟨⟩⟩:=ite_none_right_eq_some.mp hstep
    exact h.queues w.sessions _ _
  | completion outcome | activation reset | askFault operation | schedule delay
  | answer watch delay | timer | resolveFaultSuccess | recordStop
  | answerVolumeChange watch decision | resolveVolumeChange | removeRoute watch
  | leaveFault watch | leaveVolumeChange watch | takeRoutes=>exact h.aside (.step hstep rfl)
  | arm =>
    obtain ⟨-, -,rfl⟩:=next_some hstep
    exact (h.aside (.done w rfl)).arm
  | resumeArm =>
    obtain ⟨-,⟨⟩⟩:=ite_none_right_eq_some.mp hstep
    exact (h.queues w.sessions w.prods _).resumeArm
  | look order=>exact h.look hstep
  | lookAt=>exact h.lookAt hstep
  | submit outcome=>exact h.submit hstep
  | enterFault operation =>
    simp only [Watcher.step] at hstep
    obtain ⟨-,hfree,rfl⟩:=next_some hstep
    exact h.enterFault operation (isNone_iff_eq_none.mp hfree)
  | reopen found =>
    by_cases hvolume : found=.opened true
    · subst hvolume
      simp only [Watcher.step] at hstep
      obtain ⟨-,hfree,rfl⟩:=next_some hstep
      simp only [ne_eq,not_true_eq_false,decide_false,Bool.or_false] at hfree
      exact (h.aside (.done w rfl)).reopen (isNone_iff_eq_none.mp hfree)
    · exact h.aside (.step hstep (decide_eq_true hvolume))
  | addRoute route =>
    obtain ⟨-,⟨⟩⟩:=ite_none_right_eq_some.mp hstep
    exact h.addRoute route
  | register sink widen =>
    simp only [Watcher.step] at hstep
    obtain ⟨-, -,rfl⟩:=next_some hstep
    exact h.register sink widen
  | widen =>
    obtain ⟨-, -,rfl⟩:=next_some hstep
    exact h.widen hwidens
  | install caller =>
    simp only [Watcher.step] at hstep
    obtain ⟨-,hfree,rfl⟩:=next_some hstep
    rw [Bool.and_eq_true] at hfree
    exact h.install caller (isNone_iff_eq_none.mp hfree.2)
  | teardown=>exact h.teardown hstep
  | establishDetailed ok=>exact h.establishDetailed hstep
  | armAfterInstall =>
    obtain ⟨hfree,hstep⟩:=ite_none_right_eq_some.mp hstep
    exact h.armAfterInstall (isNone_iff_eq_none.mp hfree) hstep
  | openCoarse =>
    obtain ⟨-,hstep⟩:=ite_none_right_eq_some.mp hstep
    exact h.openCoarse hstep
  | establishCoarse ok=>exact h.establishCoarse hstep
  | stop =>
    obtain ⟨hfree,⟨⟩⟩:=ite_none_right_eq_some.mp hstep
    exact .of_torn rfl (isNone_iff_eq_none.mp hfree)
  | stopTeardown =>
    obtain ⟨hmem, -,rfl⟩:=next_some hstep
    have htorn:=h.stops hmem
    exact .of_torn htorn (h.free_of_torn htorn)

theorem ReachOk.start (sessions : Table SessionId (Channel P)) (route : Route) (forceCoarse : Bool) :
    ReachOk (Watcher.start sessions route forceCoarse) where
  reach := fun _ _=>.inl fun _ he=>by cases he
  coarse:=fun _ hinst=>by cases hinst
  ready:=fun _ _=>.inr (.inr (.inr mem_cons_self))
  stops:=fun hs=>absurd (mem_singleton.mp hs) Task.noConfusion
  arms:=fun _ harm=>by cases harm
  held:=trivial

end Watcher

open Watcher

theorem WatcherRun.reachOk {ticks : List (WatcherTick P)} (run : WatcherRun ticks w)
    (hwidens : ∀ t ∈ ticks,t.WidensOpen) : ReachOk w := by
  induction run with
  | start hinit =>
    obtain ⟨sessions,route,forceCoarse, -,rfl⟩:=hinit
    exact .start sessions route forceCoarse
  | next run event hstep ih =>
    have hbefore:=ih fun t ht=>hwidens t (mem_cons_of_mem _ ht)
    exact hbefore.step hstep (hwidens _ mem_cons_self)

/-- When every first recursive route finds the gate open, a settled watcher whose gate is open and that
has a recursive route has an endpoint that reaches the subtree. -/
theorem recursive_is_reached {ticks : List (WatcherTick P)} (run : WatcherRun ticks w)
    (hwidens : ∀ t ∈ ticks, t.WidensOpen) (hsettled : w.Settled) (hopen : w.gate = .opened)
    (hany : w.anyRecursive = true) : ∃ e, w.endpoint = some e ∧ e.reach = some true := by
  obtain ⟨htasks,hfree,hinst, -⟩:=hsettled
  have h:=run.reachOk hwidens
  have hready : w.Ready:=by
    refine (h.ready hopen hfree).resolve_right ?_
    rintro (⟨operation,ht⟩ | hc | ht)
    · rw [htasks] at ht
      cases ht
    · exact hc hinst
    · rw [htasks] at ht
      cases ht
  have hwide : w.Wide:=by
    refine (h.reach (by rw [hopen]; decide) hany).resolve_right ?_
    rintro (⟨sink,ht⟩ | ht | ht | ⟨caller,hc⟩)
    · rw [htasks] at ht
      cases ht
    · rw [htasks] at ht
      cases ht
    · rw [htasks] at ht
      cases ht
    · rw [hinst] at hc
      cases hc
  obtain ⟨e,hend,hsome⟩:=hready
  obtain ⟨reach,hreach⟩:=isSome_iff_exists.mp hsome
  cases reach with
  | false=>exact absurd hreach (hwide e hend)
  | true=>exact ⟨e,hend,hreach⟩

/-! ## A handle that stays shallow -/

/-- A recursive route joins while the watcher is paused. The client drains the queue, and the resume arms
the handle that was armed shallow at the start. -/
theorem recursive_on_shallow_handle :
    ∃ (ticks : List (WatcherTick Unit)) (w : Watcher Unit), WatcherRun ticks w ∧ w.Settled ∧
      w.gate = .opened ∧ w.anyRecursive = true ∧ w.endpoint = some (.detailed (some false)) := by
  obtain ⟨ticks,w,run,hcheck⟩:=oneWatch_run.play (plainly _) named_allows
    (pausing++[.addRoute (directRoute 2 0 true),.register 0 true,.widen,.call 0 .take [],.prod,
      .prod,.resumeArm,.look [1,2],.lookAt,.submit .ok,.resumeArm])
    (fun _ w=>decide (w.Settled ∧ w.gate=.opened ∧ w.anyRecursive=true ∧
      w.endpoint=some (.detailed (some false)))) (by decide +kernel)
  exact ⟨ticks,w,run,of_decide_eq_true hcheck⟩

/-- A recursive route joins while the gate is open: the directory is reopened, and detailed watching
turns out not to be supported any more. -/
theorem recursive_is_reached_widened :
    ∃ (ticks : List (WatcherTick Unit)) (w : Watcher Unit), WatcherRun ticks w ∧
      (∀ t ∈ ticks, t.WidensOpen) ∧ w.Settled ∧ w.gate = .opened ∧ w.anyRecursive = true ∧
      ∃ e, w.endpoint = some e ∧ e.reach = some true := by
  obtain ⟨ticks,w,run,hcheck⟩:=oneWatch_run.play (plainly _) named_allows
    [.install .start,.teardown,.establishDetailed true,.armAfterInstall,.look [1],.lookAt,
      .submit .ok,.addRoute (directRoute 2 1 true),.register 1 true,.widen,.install .addRoute,
      .teardown,.establishDetailed true,.armAfterInstall,.look [2,1],.lookAt,.submit .unsupported,
      .teardown,.openCoarse,.establishCoarse true,.armAfterInstall,.look [1,2],.lookAt,.submit .ok]
    (fun (ticks : List (WatcherTick Unit)) w=>decide ((∀ t ∈ ticks,t.WidensOpen) ∧ w.Settled ∧ w.gate=.opened ∧
      w.anyRecursive=true)) (by decide +kernel)
  obtain ⟨hwidens,hsettled,hopen,hany⟩:=of_decide_eq_true hcheck
  exact ⟨ticks,w,run,hwidens,hsettled,hopen,hany,
    recursive_is_reached run hwidens hsettled hopen hany⟩

end WindowsThreadpoolSys.FileWatcher
