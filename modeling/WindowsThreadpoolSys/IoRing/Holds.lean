import WindowsThreadpoolSys.IoRing.Ledger

/-! A pop lets go of the operation whose completion it took and of nothing else; a rundown is such pops; a
ring dropped before its rundown succeeded leaks what it holds; and a registration is freed only when no
held operation addresses it. -/
namespace WindowsThreadpoolSys.IoRing
open Library List Table

variable {T X G : Type} {s s' : State T X G}

/-! ## What a step pops -/

/-- The completion a step pops: a pop's, or one drained by a rundown. -/
def State.pops (s : State T X G) : Event T X G → Option Completion
  | .tryPop false => s.completionQueue.head?
  | .turn turn =>
    match s.call with
    | some (.popWithin .pop) | some (.runDown _ (.drain _)) =>
      if turn.fails then none else s.completionQueue.head?
    | _ => none
  | _ => none

/-- The operation a completion answers, with what it was queued with; none for a raw push. -/
def State.answered (s : State T X G) (c : Completion) : Option (ℕ × Entry T X G) :=
  s.queued.find? fun q => q.1 = c.userData

/-- From `s` to `s'` the completion is popped, and the operation it answers let go of. -/
def Releases (s : State T X G) (completion : Option Completion) (s' : State T X G) : Prop :=
  s'.popped = completion.toList ++ s.popped ∧
    s'.released = (completion.bind s.answered).toList ++ s.released

/-! ## The kernel's queues -/

theorem Ok.queues (h : Ok s) (submissionQueue submitted : List ℕ) (completionQueue : List Completion)
    (hperm : s.unanswered.Perm
      (submissionQueue++submitted++completionQueue.map Completion.userData)) :
    Ok { s with submissionQueue,submitted,completionQueue } :=
    { h with flight:=h.flight.trans hperm }

theorem Ok.submit (h : Ok s) (fails : Bool) :
    Ok (s.submit fails) ∧ Releases s none (s.submit fails) := by
  unfold State.submit
  split_ifs
  · exact ⟨h,rfl,rfl⟩
  · refine ⟨h.queues [] (s.submitted++s.submissionQueue) s.completionQueue ?_,rfl,rfl⟩
    exact perm_append_comm.append_right _

theorem Ok.complete (h : Ok s) {userData : ℕ} (hin : userData ∈ s.submitted) (succeeded : Bool) :
    Ok { s with
      submitted := s.submitted.erase userData
      completionQueue := s.completionQueue++[⟨userData,succeeded⟩] } := by
  refine h.queues s.submissionQueue (s.submitted.erase userData)
    (s.completionQueue++[⟨userData,succeeded⟩]) ?_
  unfold State.unanswered
  rw [map_append,append_assoc,append_assoc]
  refine List.Perm.append_left _ ?_
  rw [← append_assoc]
  exact ((perm_cons_erase hin).append_right _).trans (perm_append_singleton _ _).symm

variable {rest : List Completion} {c : Completion}

theorem Ok.head_in_flight (h : Ok s)
    (hqueue : s.completionQueue=c::rest) : c.userData ∈ s.inFlight := by
  refine h.flight.mem_iff.mpr (mem_append_right _ ?_)
  rw [hqueue]
  exact mem_cons_self

theorem Ok.flight_erase (h : Ok s) (hqueue : s.completionQueue=c::rest) :
    (s.inFlight.erase c.userData).Perm
      (s.submissionQueue++s.submitted++rest.map Completion.userData) := by
  have hflight:=h.flight
  unfold State.unanswered at hflight
  rw [hqueue,map_cons] at hflight
  have herased:=(hflight.trans perm_middle).erase c.userData
  rwa [erase_cons_head] at herased

theorem reclaim_eq (s : State T X G) (c : Completion) (rest : List Completion) :
    s.reclaim c rest=(s.inventory.get c.userData,{ s with
      completionQueue := rest
      popped := c::s.popped
      inFlight := s.inFlight.erase c.userData
      inventory := s.inventory.erase c.userData
      panicked := s.panicked || decide (c.userData ∉ s.inFlight)
      released := ((s.inventory.get c.userData).map (c.userData,·)).toList++s.released
      counts := (s.reclaim c rest).2.counts }) := by
  unfold State.reclaim
  dsimp only
  cases s.inventory.get c.userData with
  | none=>rfl
  | some e =>
    unfold State.letGo
    dsimp only
    rw [dropHeld_eq]
    rfl

theorem Ok.reclaim_counts (h : Ok s) (c : Completion) (rest : List Completion) (r i : ℕ) :
    ((s.reclaim c rest).2.counts (r,i)).outstanding =
        (s.inventory.erase c.userData).count (fun _ e=>e.held.addresses r i) ∧
      ((s.reclaim c rest).2.counts (r,i)).kernelWrites =
        (s.inventory.erase c.userData).count fun _ e=>e.held.reads r i := by
  unfold State.reclaim
  dsimp only
  cases hget : s.inventory.get c.userData with
  | none =>
    rw [erase_of_none hget]
    exact ⟨h.outstanding r i,h.kernelWrites r i⟩
  | some e =>
    have hout:=h.outstanding r i
    have hwrites:=h.kernelWrites r i
    rw [State.addressing,count_erase _ hget] at hout
    rw [State.reading,count_erase _ hget] at hwrites
    obtain ⟨h1,h2⟩:=dropHeld_counts (s:={ s with
        completionQueue:=rest
        popped:=c::s.popped
        inFlight:=s.inFlight.erase c.userData
        inventory:=s.inventory.erase c.userData
        panicked:=s.panicked || decide (c.userData ∉ s.inFlight)
        released:=(c.userData,e)::s.released }) e.held (fun use huse=>(h.inRange _ e hget use huse).1) r i
    refine ⟨h1.trans ?_,h2.trans ?_⟩
    · exact (congrArg (·-_) hout).trans (Nat.add_sub_cancel _ _)
    · exact (congrArg (·-_) hwrites).trans (Nat.add_sub_cancel _ _)

theorem Ok.reclaim (h : Ok s) (hqueue : s.completionQueue=c::rest) : Ok (s.reclaim c rest).2 := by
  have hin:=h.head_in_flight hqueue
  have hnot : c.userData ∉ s.inFlight.erase c.userData:=h.nodup.not_mem_erase
  have hinventory : ∀ id e,(s.inventory.erase c.userData).get id=some e →
      s.inventory.get id=some e ∧ id ∈ s.inFlight.erase c.userData:=by
    intro id e hget
    rw [get_erase] at hget
    split_ifs at hget with hne
    exact ⟨hget,(mem_erase_of_ne hne).mpr (h.inventory id e hget)⟩
  rw [reclaim_eq]
  exact { h with
    flight:=h.flight_erase hqueue
    nodup:=h.nodup.erase _
    below:=fun id hid=>h.below id (mem_of_mem_erase hid)
    popped:=fun c' hc'=>by
      obtain rfl | hold:=mem_cons.mp hc'
      · exact ⟨h.below _ hin,hnot⟩
      · exact ⟨(h.popped c' hold).1,fun hmem=>(h.popped c' hold).2 (mem_of_mem_erase hmem)⟩
    poppedNodup:=by
      refine nodup_cons.mpr ⟨fun hmem=>?_,h.poppedNodup⟩
      obtain ⟨c',hc',heq⟩:=mem_map.mp hmem
      exact (h.popped c' hc').2 (heq ▸ hin)
    inventory:=fun id e he=>(hinventory id e he).2
    queued:=by
      show s.queued.Perm ((s.inventory.erase c.userData).entries++
        (((s.inventory.get c.userData).map (c.userData,·)).toList++s.released))
      cases hget : s.inventory.get c.userData with
      | none =>
        rw [erase_of_none hget]
        exact h.queued
      | some e =>
        exact (h.queued.trans ((perm_of_get hget).append_right s.released)).trans
          perm_middle.symm
    released:=fun q hq=>by
      obtain hnew | hold:=mem_append.mp hq
      · obtain ⟨e,_,rfl⟩:=Option.map_eq_some_iff.mp (Option.mem_toList.mp hnew)
        exact ⟨c,mem_cons_self,rfl⟩
      · obtain ⟨c',hc',heq⟩:=h.released q hold
        exact ⟨c',mem_cons_of_mem _ hc',heq⟩
    outstanding:=fun r i=>(h.reclaim_counts c rest r i).1
    kernelWrites:=fun r i=>(h.reclaim_counts c rest r i).2
    inRange:=fun id e he=>h.inRange id e (hinventory id e he).1
    owned:=fun hkind id hid=>by
      obtain ⟨e,hget⟩:=h.owned hkind id (mem_of_mem_erase hid)
      refine ⟨e,?_⟩
      show (s.inventory.erase c.userData).get id=some e
      rw [get_erase,if_neg (by rintro rfl; exact hnot hid)]
      exact hget
    calm:=by simp [h.calm,hin] }

theorem Ok.answered (h : Ok s) (hin : c.userData ∈ s.inFlight) :
    s.answered c=(s.inventory.get c.userData).map (c.userData,·) := by
  unfold State.answered
  cases hfind : s.queued.find? fun q=>q.1=c.userData with
  | none =>
    cases hget : s.inventory.get c.userData with
    | none=>rfl
    | some e =>
      have hqueued:=h.queued.mem_iff.mpr (mem_append_left _ (mem_entries.mpr hget))
      exact absurd (find?_eq_none.mp hfind _ hqueued) (by simp)
  | some q =>
    have hid : q.1=c.userData:=by simpa using find?_some hfind
    obtain hheld | hreleased:=mem_append.mp (h.queued.mem_iff.mp (mem_of_find?_eq_some hfind))
    · rw [← hid,mem_entries.mp hheld]
      rfl
    · obtain ⟨c',hc',heq⟩:=h.released q hreleased
      exact absurd (heq.trans hid ▸ hin) (h.popped c' hc').2

theorem Ok.reclaim_releases (h : Ok s) (hqueue : s.completionQueue=c::rest) :
    (s.reclaim c rest).1=(s.answered c).map Prod.snd ∧ Releases s (some c) (s.reclaim c rest).2 := by
  have hanswered:=h.answered (h.head_in_flight hqueue)
  rw [reclaim_eq]
  refine ⟨?_,rfl,?_⟩
  · rw [hanswered,Option.map_map]
    exact Option.map_id'.symm
  · show _=(s.answered c).toList++s.released
    rw [hanswered]

theorem Ok.reclaim_some (h : Ok s) (hqueue : s.completionQueue=c::rest)
    (hkind : s.kind=some .owned) : (s.reclaim c rest).1.isNone=false := by
  obtain ⟨e,hget⟩:=h.owned hkind _ (h.head_in_flight hqueue)
  rw [reclaim_eq,hget]
  rfl

theorem Ok.tryPop (h : Ok s) :
    Ok (s.tryPop false) ∧ Releases s s.completionQueue.head? (s.tryPop false) := by
  unfold State.tryPop
  rw [if_neg Bool.false_ne_true]
  split
  · rename_i hqueue
    rw [hqueue]
    exact ⟨h,rfl,rfl⟩
  · rename_i c rest hqueue
    rw [hqueue]
    have hok:=h.reclaim hqueue
    refine ⟨hok.frame _ _ _ _ id (le_refl _) ?_,(h.reclaim_releases hqueue).2⟩
    rw [hok.calm,Bool.false_or,show (s.reclaim c rest).2.kind=s.kind by rw [reclaim_eq]]
    by_cases hkind : s.kind=some .owned
    · rw [h.reclaim_some hqueue hkind,Bool.false_and]
    · simp [hkind]

theorem Ok.actPop (h : Ok s) (turn : Turn) {pc : PopPc} (hcall : s.call=some (.popWithin pc)) :
    Ok (s.actPop turn pc) ∧ Releases s (s.pops (.turn turn)) (s.actPop turn pc) := by
  unfold State.pops
  rw [hcall]
  cases pc with
  | pop =>
    simp only [State.actPop]
    split_ifs
    · exact ⟨h.done,rfl,rfl⟩
    all_goals
      have hpop:=h.tryPop
      cases hqueue : s.completionQueue with
      | nil=>first | exact ⟨h.done,rfl,rfl⟩ | exact ⟨h.at_ _,rfl,rfl⟩
      | cons c rest =>
        rw [hqueue] at hpop
        exact ⟨hpop.1.done,hpop.2⟩
  | wait =>
    simp only [State.actPop]
    split_ifs
    · exact ⟨h.done,rfl,rfl⟩
    · exact ⟨(h.submit false).1.at_ _,(h.submit false).2⟩

theorem Ok.inventory_empty (h : Ok s) (hquiet : s.inFlight=[]) : s.inventory=Table.empty := by
  refine Table.ext_get fun id=>?_
  cases hget : s.inventory.get id with
  | none=>rfl
  | some e =>
    have hin:=h.inventory id e hget
    rw [hquiet] at hin
    cases hin

theorem Ok.runDownEnds (h : Ok s) (dropping succeeded : Bool) :
    Ok (s.runDownEnds dropping succeeded) ∧ Releases s none (s.runDownEnds dropping succeeded) := by
  have hclosed : Ok { s with kind:=none,call:=none } :=
    h.frame none none s.nextUserData s.panicked (by simp) (le_refl _) h.calm
  unfold State.runDownEnds State.close
  dsimp only
  split_ifs with _ hquiet
  · have hempty:=h.inventory_empty hquiet.2
    rw [show s.inventory.entries=[] by rw [hempty]; rfl,foldl_nil]
    rw [← hempty]
    exact ⟨hclosed,rfl,rfl⟩
  · exact ⟨hclosed,rfl,rfl⟩
  · exact ⟨h.done,rfl,rfl⟩

theorem Ok.actRunDown (h : Ok s) (turn : Turn) {dropping : Bool} {pc : RunDownPc}
    (hcall : s.call=some (.runDown dropping pc)) : Ok (s.actRunDown turn dropping pc) ∧
      Releases s (s.pops (.turn turn)) (s.actRunDown turn dropping pc) := by
  unfold State.pops
  rw [hcall]
  cases pc with
  | top =>
    simp only [State.actRunDown]
    split_ifs
    · exact h.runDownEnds _ _
    · exact ⟨h.done,rfl,rfl⟩
    · exact ⟨h.at_ _,rfl,rfl⟩
  | drain again =>
    simp only [State.actRunDown]
    split_ifs
    · exact h.runDownEnds _ _
    all_goals
      cases hqueue : s.completionQueue with
      | cons c rest=>exact ⟨h.reclaim hqueue,(h.reclaim_releases hqueue).2⟩
      | nil=>first | exact ⟨h.at_ _,rfl,rfl⟩ | exact h.runDownEnds _ _
  | wait =>
    simp only [State.actRunDown]
    split_ifs
    · exact h.runDownEnds _ _
    · exact ⟨(h.submit false).1.at_ _,(h.submit false).2⟩

/-! ## Registrations -/

theorem Ok.setStatus (h : Ok s) (r : ℕ) (status : BufferStatus) (hr : r < s.nextUserData)
    (hused : ∀ id e use,s.inventory.get id=some e → e.held.registration=some use →
      use.registration=r → status=.registered ∨ status=.leaked) : Ok (s.setStatus r status) :=
  { h with
    inRange:=by
      intro id e hget use huse
      obtain ⟨hlt,hstatus⟩:=h.inRange id e hget use huse
      have hsame:=hused id e use hget huse
      simp only [State.setStatus,State.lens] at hlt ⊢
      by_cases heq : use.registration=r
      · subst heq
        rw [Function.update_self]
        exact ⟨hlt,hsame rfl⟩
      · rw [Function.update_of_ne heq]
        exact ⟨hlt,hstatus⟩
    registered:=by
      intro r' hr'
      simp only [State.setStatus] at hr' ⊢
      by_cases heq : r'=r
      · subst heq
        exact hr
      · rw [Function.update_of_ne heq] at hr'
        exact h.registered r' hr' }

variable {e : Entry T X G}

theorem Ok.counted (h : Ok s) {id : ℕ} {use : RegisteredUse}
    (hget : s.inventory.get id=some e) (huse : e.held.registration=some use) :
    0<(s.counts (use.registration,use.index)).outstanding := by
  rw [h.outstanding]
  refine countP_pos_iff.mpr ⟨(id,e),mem_entries.mpr hget,?_⟩
  simp [Held.addresses,huse]

theorem Ok.dropBuffers (h : Ok s) {r : ℕ} (hr : (s.registrations r).status=.registered) :
    Ok (s.dropBuffers r) ∧ Releases s none (s.dropBuffers r) := by
  have hlt:=h.registered r (by rw [hr]; simp)
  unfold State.dropBuffers
  split_ifs with hany
  · exact ⟨h.setStatus r .leaked hlt fun _ _ _ _ _ _=>.inr rfl,rfl,rfl⟩
  · refine ⟨h.setStatus r .freed hlt fun id e use hget huse heq=>?_,rfl,rfl⟩
    subst heq
    refine absurd (any_eq_true.mpr ⟨use.index,?_,?_⟩) hany
    · exact mem_range.mpr (h.inRange id e hget use huse).1
    · exact decide_eq_true (h.counted hget huse)

theorem Ok.pending_unused (h : Ok s) {r : ℕ} (hr : (s.registrations r).status=.pending) :
    ∀ id e use,s.inventory.get id=some e → e.held.registration=some use → use.registration ≠ r := by
  rintro id e use hget huse rfl
  have hstatus:=(h.inRange id e hget use huse).2
  rw [hr] at hstatus
  simp at hstatus

theorem Ok.intoOwned (h : Ok s) (hlength : s.inFlight.length=s.inventory.size) :
    Ok { s with kind := some .owned } := by
  have hsub : s.inventory.keys ⊆ s.inFlight:=by
    intro id hid
    obtain ⟨e,hget⟩:=Table.mem_keys.mp hid
    exact h.inventory id e hget
  have hkeys : s.inventory.keys.length=s.inventory.size:=length_map _
  have hperm:=(subperm_of_subset s.inventory.keys_nodup hsub).perm_of_length_le (by omega)
  exact {
    h with owned:=fun _ id hid=>Table.mem_keys.mp (hperm.mem_iff.mpr hid) }

theorem Ok.skip (h : Ok s) {n : ℕ} (hn : n=s.nextUserData ∨ n=s.nextUserData+1) :
    Ok { s with nextUserData := n } :=
  h.frame s.kind s.call n s.panicked id (by omega) h.calm

theorem Ok.pushRaw (h : Ok s) (usizeMax : ℕ) (built : Bool) (hkind : s.kind=some .open_) :
    Ok (s.pushRaw usizeMax built) ∧ Releases s none (s.pushRaw usizeMax built) := by
  unfold State.pushRaw
  obtain hnone | hsome:=h.reserve usizeMax
  · rw [hnone]
    exact ⟨h,rfl,rfl⟩
  · rw [hsome]
    cases built with
    | true =>
      have hok:=h.queueRaw (by simp [hkind]) s.registeredBuffers s.registrations (.inl rfl)
      exact ⟨hok,rfl,rfl⟩
    | false =>
      simp only [State.cancelReservation,erase_cons_head]
      exact ⟨h.skip (.inr rfl),rfl,rfl⟩

theorem Ok.registerBuffers (h : Ok s) (usizeMax : ℕ) (lens : List ℕ) (built : Bool)
    (hkind : s.kind=some .open_) : Ok (s.registerBuffers usizeMax lens built) ∧
      Releases s none (s.registerBuffers usizeMax lens built) := by
  unfold State.registerBuffers
  split
  · exact ⟨h,rfl,rfl⟩
  · obtain hnone | hsome:=h.reserve usizeMax
    · rw [hnone]
      exact ⟨h,rfl,rfl⟩
    · rw [hsome]
      cases built with
      | true=>exact ⟨h.queueRaw (by simp [hkind]) _ _ (.inr ⟨lens,rfl⟩),rfl,rfl⟩
      | false =>
        simp only [State.cancelReservation,erase_cons_head]
        exact ⟨h.skip (.inr rfl),rfl,rfl⟩

theorem Ok.push (h : Ok s) (usizeMax : ℕ) (p : Push T X G) (built : Bool)
    (hregistered : ∀ r ∈ p.registered,(s.registrations r.1).status=.registered) :
    Ok (s.push usizeMax p built).2 ∧ Releases s none (s.push usizeMax p built).2 := by
  obtain ⟨n,hn,heq⟩ | ⟨heq,huse⟩:=h.push_cases usizeMax p built hregistered
  · rw [heq]
    exact ⟨h.skip hn,rfl,rfl⟩
  · rw [heq]
    exact ⟨h.queueOwned p huse,rfl,rfl⟩

theorem Ok.step (h : Ok s) {usizeMax : ℕ} {event : Event T X G}
    (hstep : s.step usizeMax event=some s') : Ok s' ∧ Releases s (s.pops event) s' := by
  cases event with
  | push p built =>
    obtain ⟨hguard,⟨⟩⟩:=Option.ite_none_right_eq_some.mp hstep
    rw [Bool.and_eq_true] at hguard
    refine h.push usizeMax p built fun r hr=>?_
    rw [Option.mem_def.mp hr] at hguard
    simpa using hguard.2
  | pushRaw built =>
    obtain ⟨hguard,⟨⟩⟩:=Option.ite_none_right_eq_some.mp hstep
    rw [Bool.and_eq_true,decide_eq_true_eq] at hguard
    exact h.pushRaw usizeMax built hguard.2
  | registerBuffers lens built =>
    obtain ⟨hguard,⟨⟩⟩:=Option.ite_none_right_eq_some.mp hstep
    rw [Bool.and_eq_true,decide_eq_true_eq] at hguard
    exact h.registerBuffers usizeMax lens built hguard.2
  | submit fails =>
    obtain ⟨-,⟨⟩⟩:=Option.ite_none_right_eq_some.mp hstep
    exact h.submit fails
  | tryPop fails =>
    obtain ⟨-,⟨⟩⟩:=Option.ite_none_right_eq_some.mp hstep
    cases fails with
    | true=>exact ⟨h,rfl,rfl⟩
    | false=>exact h.tryPop
  | popWithin | runDownWithin | dropRing =>
    obtain ⟨-,⟨⟩⟩:=Option.ite_none_right_eq_some.mp hstep
    exact ⟨h.at_ _,rfl,rfl⟩
  | intoOwned =>
    simp only [State.step] at hstep
    split_ifs at hstep with hguard hlength
    · cases hstep
      exact ⟨h,rfl,rfl⟩
    · cases hstep
      exact ⟨h.intoOwned (not_not.mp hlength),rfl,rfl⟩
  | turn turn =>
    simp only [State.step] at hstep
    split at hstep
    · cases hstep
    · rename_i hcall
      cases hstep
      exact h.actPop turn hcall
    · rename_i hcall
      cases hstep
      exact h.actRunDown turn hcall
  | claim r c =>
    obtain ⟨hguard,⟨⟩⟩:=Option.ite_none_right_eq_some.mp hstep
    have hlt:=h.registered r (by rw [hguard.1]; simp)
    exact ⟨h.setStatus r _ hlt fun id e use hget huse heq =>
      absurd heq (h.pending_unused hguard.1 id e use hget huse),rfl,rfl⟩
  | dropPending r =>
    obtain ⟨hguard,⟨⟩⟩:=Option.ite_none_right_eq_some.mp hstep
    have hlt:=h.registered r (by rw [hguard]; simp)
    exact ⟨h.setStatus r _ hlt fun _ _ _ _ _ _=>.inr rfl,rfl,rfl⟩
  | dropBuffers r =>
    obtain ⟨hguard,⟨⟩⟩:=Option.ite_none_right_eq_some.mp hstep
    exact h.dropBuffers hguard
  | complete userData succeeded =>
    obtain ⟨hin,⟨⟩⟩:=Option.ite_none_right_eq_some.mp hstep
    exact ⟨h.complete hin succeeded,rfl,rfl⟩

theorem Run.ok {usizeMax : ℕ} {taken : List (Taken (State T X G) (Event T X G))}
    (run : Run usizeMax taken s) : Ok s := by
  induction run with
  | start hinit=>exact hinit ▸ Ok.new
  | next run event hstep ih=>exact (ih.step hstep).1

theorem Ok.held_of_unanswered (h : Ok s) {id : ℕ} (hqueued : (id,e) ∈ s.queued)
    (hid : id ∈ s.unanswered) : s.inventory.get id=some e := by
  obtain hheld | hreleased:=mem_append.mp (h.queued.mem_iff.mp hqueued)
  · exact mem_entries.mp hheld
  · obtain ⟨c,hc,heq⟩:=h.released _ hreleased
    have hnot:=(h.popped c hc).2
    rw [heq] at hnot
    exact absurd (h.flight.mem_iff.mpr hid) hnot

theorem Ok.addresses_pos (h : Ok s) {id : ℕ} (hget : s.inventory.get id=some e)
    {r i : ℕ} (haddresses : e.held.addresses r i=true) : 0<(s.counts (r,i)).outstanding := by
  rw [h.outstanding]
  exact countP_pos_iff.mpr ⟨(id,e),mem_entries.mpr hget,haddresses⟩

theorem Ok.reads_pos (h : Ok s) {id : ℕ} (hget : s.inventory.get id=some e)
    {r i : ℕ} (hreads : e.held.reads r i=true) : 0<(s.counts (r,i)).kernelWrites := by
  rw [h.kernelWrites]
  exact countP_pos_iff.mpr ⟨(id,e),mem_entries.mpr hget,hreads⟩

theorem Ok.popped_released (h : Ok s) (hc : c ∈ s.popped) (hqueued : (c.userData,e) ∈ s.queued) :
    (c.userData,e) ∈ s.released := by
  obtain hheld | hreleased:=mem_append.mp (h.queued.mem_iff.mp hqueued)
  · exact absurd (h.inventory _ e (mem_entries.mp hheld)) (h.popped c hc).2
  · exact hreleased

/-- One buffer of 16 bytes is registered, a read of 8 into it submitted, answered, and popped or not. -/
def registeredRead (popped : Bool) : List (Event ℕ Unit ℕ) :=
  [.registerBuffers [16] true, .submit false, .complete 0 true, .tryPop false, .claim 0 ⟨0, true⟩,
    .push (.readRegisteredOwned true 7 0 ⟨0, 0, 8⟩ ()) true, .submit false, .complete 1 true,
    .tryPop (!popped)]

end WindowsThreadpoolSys.IoRing
