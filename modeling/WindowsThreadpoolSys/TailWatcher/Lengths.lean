import WindowsThreadpoolSys.TailWatcher.ReadEngine
import WindowsThreadpoolSys.Library.Spans

/-! For a registration whose file never shrinks, the attentions written are linked: each begins at the length
the one before it reported, the first at the starting offset. A poll copies a registration once, and only
its own report changes the length last known, so what a poll reports still fits when it is written, however
long the report waited for room. -/
namespace WindowsThreadpoolSys.TailWatcher
open Library List Table Watcher PollPhase

variable {T : Type}

def SqEntry.span (r : ℕ) : SqEntry (Tracked T) → Option (ℕ × ℕ)
  | .attention a => if a.value.registration = r then some (a.lastKnown, a.current) else none
  | _ => none

namespace PollPhase

def changes : PollPhase → List Change
  | .probe _ changed => changed
  | .report changed => changed
  | _ => []

def pending : PollPhase → List (ℕ × ℕ)
  | .idle => []
  | .snapshot _ items => items.map fun item => (item.id, item.lastKnown)
  | .probe items changed =>
    (changed.map fun c => (c.id, c.lastKnown)) ++ items.map fun item => (item.id, item.lastKnown)
  | .report changed => changed.map fun c => (c.id, c.lastKnown)

theorem mem_pending_of_changes {phase : PollPhase} {c : Change} (h : c ∈ phase.changes) :
    (c.id,c.lastKnown) ∈ phase.pending := by
  cases phase with
  | idle | snapshot after items=>cases h
  | probe items changed=>exact mem_append_left _ (mem_map_of_mem h)
  | report changed=>exact mem_map_of_mem h

end PollPhase

namespace Watcher

structure PollOk (w : Watcher (Tracked T)) (r : ℕ) (phase : PollPhase) : Prop where
  once : (phase.pending.map Prod.fst).Nodup
  ids : ∀ p ∈ phase.pending, p.1 < w.nextId
  after : ∀ after items, phase = .snapshot after items → ∀ p ∈ phase.pending, ∃ a, after = some a ∧ p.1 ≤ a
  known : ∀ p ∈ phase.pending, p.1 = r → p.2 ≤ w.lengths r ∧
    ∀ entry, w.entries.get r = some entry → p.2 = entry.lastKnown
  changes : ∀ c ∈ phase.changes, c.id = r → ∀ current, c.outcome = .changed current →
    c.lastKnown ≤ current ∧ current ≤ w.lengths r

structure Lengths (w : Watcher (Tracked T)) (r : ℕ) (spans : List (ℕ × ℕ)) : Prop where
  entries : ∀ id entry, w.entries.get id = some entry → entry.value.registration = id ∧ id < w.nextId
  poll : w.PollOk r w.phase
  linked : Linked (w.starts r) spans
  last : ∀ entry, w.entries.get r = some entry →
    entry.lastKnown = spansEnd (w.starts r) spans ∧ entry.lastKnown ≤ w.lengths r
  fresh : w.nextId ≤ r → spans = []

section

variable {w w' : Watcher (Tracked T)} {r : ℕ} {spans : List (ℕ × ℕ)} {phase : PollPhase}

theorem PollOk.sublist (h : w.PollOk r phase) {phase' : PollPhase}
    (hpending : phase'.pending.Sublist phase.pending) (hchanges : ∀ c ∈ phase'.changes,c ∈ phase.changes)
    (hafter : ∀ after items,phase' ≠ .snapshot after items) : w.PollOk r phase' where
  once := h.once.sublist (hpending.map _)
  ids:=fun p hp=>h.ids p (hpending.subset hp)
  after:=fun after items heq=>absurd heq (hafter after items)
  known:=fun p hp=>h.known p (hpending.subset hp)
  changes:=fun c hc=>h.changes c (hchanges c hc)

theorem Lengths.setPhase (h : w.Lengths r spans) (hpoll : w.PollOk r phase) :
    ({ w with phase := phase } : Watcher (Tracked T)).Lengths r spans :=
  ⟨h.entries,⟨hpoll.once,hpoll.ids,hpoll.after,hpoll.known,hpoll.changes⟩,h.linked,h.last,h.fresh⟩

theorem Lengths.setSq (h : w.Lengths r spans) (sq : List (SqEntry (Tracked T))) (stop : Bool) :
    ({ w with sq := sq,stop := stop } : Watcher (Tracked T)).Lengths r spans :=
  ⟨h.entries,⟨h.poll.once,h.poll.ids,h.poll.after,h.poll.known,h.poll.changes⟩,h.linked,h.last,h.fresh⟩

theorem Lengths.setEntries (h : w.Lengths r spans) (entries : Table ℕ (Entry (Tracked T)))
    (hsame : ∀ id entry,entries.get id=some entry →
      ∃ old,w.entries.get id=some old ∧ entry.value=old.value ∧ entry.lastKnown=old.lastKnown) :
    ({ w with entries := entries } : Watcher (Tracked T)).Lengths r spans where
  entries := fun id entry hget=>by
    obtain ⟨old,hold,hvalue, -⟩:=hsame id entry hget
    rw [hvalue]
    exact h.entries id old hold
  poll :=
    { once:=h.poll.once
      ids:=h.poll.ids
      after:=h.poll.after
      known:=fun p hp hr=>⟨(h.poll.known p hp hr).1,fun entry hget=>by
        obtain ⟨old,hold, -,hlast⟩:=hsame r entry hget
        rw [hlast]
        exact (h.poll.known p hp hr).2 old hold⟩
      changes:=h.poll.changes }
  linked:=h.linked
  last:=fun entry hget=>by
    obtain ⟨old,hold, -,hlast⟩:=hsame r entry hget
    rw [hlast]
    exact h.last old hold
  fresh:=h.fresh

theorem Lengths.markTerminal (h : w.Lengths r spans) (id code : ℕ) :
    (w.markTerminal id code).1.Lengths r spans := by
  unfold Watcher.markTerminal
  split
  · rename_i entry hget
    split_ifs
    · exact h
    · refine h.setEntries _ fun id' entry' hget'=>?_
      rcases of_insert hget' with ⟨hsame,rfl⟩ | hget'
      · subst hsame
        exact ⟨entry,hget,rfl,rfl⟩
      · exact ⟨entry',hget',rfl,rfl⟩
  · exact h

theorem Lengths.register (h : w.Lengths r spans) (offset len : ℕ) (value : T) :
    (w.register offset len fun id => ⟨value,id⟩).Lengths r spans := by
  unfold Watcher.register
  split_ifs with hbeyond
  · exact h
  · by_cases hr : r=w.nextId
    · -- Nothing was written, copied or reported for `r` before.
      subst hr
      have hspans:=h.fresh le_rfl
      have hnone : ∀ p ∈ w.phase.pending,p.1≠w.nextId:=fun p hp=>(h.poll.ids p hp).ne
      refine ⟨fun id entry hget=>?_,⟨h.poll.once,fun p hp=>(h.poll.ids p hp).trans (Nat.lt_succ_self _),
        h.poll.after,fun p hp hp'=>absurd hp' (hnone p hp),fun c hc hc'=>?_⟩,?_,fun entry hget=>?_,
        fun hle=>absurd hle (Nat.not_succ_le_self _)⟩
      · rcases of_insert hget with ⟨hsame,rfl⟩ | hget
        · exact ⟨hsame.symm,hsame ▸ Nat.lt_succ_self _⟩
        · obtain ⟨hvalue,hlt⟩:=h.entries id entry hget
          exact ⟨hvalue,hlt.trans (Nat.lt_succ_self _)⟩
      · exact absurd hc' (hnone _ (mem_pending_of_changes hc))
      · rw [hspans]
        trivial
      · simp only [get_insert_self,Option.some.injEq] at hget
        subst hget
        simp only [Function.update_self,hspans,spansEnd,true_and]
        omega
    · have hget' : ∀ entry,(w.entries.insert w.nextId
          { value:=⟨value,w.nextId⟩,startOffset:=offset,lastKnown:=offset,terminal:=none }).get r =
            some entry → w.entries.get r=some entry:=by
        intro entry hget
        rw [get_insert_of_ne _ _ hr] at hget
        exact hget
      refine ⟨fun id entry hget=>?_,⟨h.poll.once,fun p hp=>(h.poll.ids p hp).trans (Nat.lt_succ_self _),
        h.poll.after,fun p hp hp'=>?_,fun c hc hc'=>?_⟩,?_,fun entry hget=>?_,
        fun hle=>h.fresh ((Nat.le_succ _).trans hle)⟩
      · rcases of_insert hget with ⟨hsame,rfl⟩ | hget
        · exact ⟨hsame.symm,hsame ▸ Nat.lt_succ_self _⟩
        · obtain ⟨hvalue,hlt⟩:=h.entries id entry hget
          exact ⟨hvalue,hlt.trans (Nat.lt_succ_self _)⟩
      · simp only [Function.update_of_ne hr]
        exact ⟨(h.poll.known p hp hp').1,fun entry hget=>(h.poll.known p hp hp').2 entry (hget' entry hget)⟩
      · simp only [Function.update_of_ne hr]
        exact h.poll.changes c hc hc'
      · simp only [Function.update_of_ne hr]
        exact h.linked
      · simp only [Function.update_of_ne hr]
        exact h.last entry (hget' entry hget)

/-! ## The poll -/

theorem nextEntry_some {after : Option ℕ} {id : ℕ} {entry : Entry (Tracked T)}
    (h : w.nextEntry after=some (id,entry)) :
    w.entries.get id=some entry ∧ ∀ a,after=some a → a < id := by
  have hmem:=List.mem_of_find?_eq_some h
  have hafter:=List.find?_some h
  refine ⟨mem_entries.mp hmem,?_⟩
  rintro a rfl
  simpa using hafter

theorem Lengths.snapshotStep (h : w.Lengths r spans) {look : Bool} {after : Option ℕ}
    {items : List SnapshotItem} (hphase : w.phase=.snapshot after items) :
    (w.snapshotStep look after items).Lengths r spans := by
  have hpoll:=h.poll
  rw [hphase] at hpoll
  have hprobe : w.PollOk r (.probe items []) :=
    ⟨hpoll.once,hpoll.ids,fun _ _ heq=>(by cases heq),hpoll.known,fun c hc=>(by cases hc)⟩
  unfold Watcher.snapshotStep
  split_ifs
  · exact h.setPhase hprobe
  · split
    · exact h.setPhase hprobe
    · rename_i id entry hnext
      obtain ⟨hget,hlater⟩:=nextEntry_some hnext
      have hbefore : ∀ p ∈ (snapshot after items).pending,p.1 < id:=by
        intro p hp
        obtain ⟨a,ha,hle⟩:=hpoll.after after items rfl p hp
        exact hle.trans_lt (hlater a ha)
      apply h.setPhase
      split_ifs
      · have hpending : (snapshot (some id) (items++[⟨id,entry.lastKnown⟩])).pending =
            (snapshot after items).pending++[(id,entry.lastKnown)]:=by
          simp [pending]
        refine ⟨?_,fun p hp=>?_,fun after' items' heq p hp=>?_,fun p hp hr=>?_,fun c hc=>by cases hc⟩
        · rw [hpending,map_append]
          refine hpoll.once.append (nodup_singleton _) fun p hp hp'=>?_
          obtain ⟨q,hq,rfl⟩:=mem_map.mp hp
          have hlt:=hbefore q hq
          have heq : q.1=id:=by simpa using hp'
          omega
        · rw [hpending] at hp
          rcases mem_append.mp hp with hold | hnew
          · exact hpoll.ids p hold
          · rw [mem_singleton.mp hnew]
            exact (h.entries id entry hget).2
        · cases heq
          rw [hpending] at hp
          refine ⟨id,rfl,?_⟩
          rcases mem_append.mp hp with hold | hnew
          · exact (hbefore p hold).le
          · rw [mem_singleton.mp hnew]
        · rw [hpending] at hp
          rcases mem_append.mp hp with hold | hnew
          · exact hpoll.known p hold hr
          · obtain rfl:=mem_singleton.mp hnew
            have hid : id=r:=hr
            subst hid
            refine ⟨(h.last entry hget).2,fun entry' hget'=>?_⟩
            rw [hget] at hget'
            cases hget'
            rfl
      · exact ⟨hpoll.once,hpoll.ids,fun after' items' heq p hp=>by
          cases heq
          exact ⟨id,rfl,(hbefore p hp).le⟩,hpoll.known,fun c hc=>by cases hc⟩

/-- The length a probe of `r` reads is no less than the one last seen. -/
def Grows (w : Watcher (Tracked T)) (r : ℕ) (items : List SnapshotItem) (read : Except (Option ℕ) ℕ) : Bool :=
  match items, read with
  | item :: _, .ok current => decide (w.stop = false → item.id = r → w.lengths r ≤ current)
  | _, _ => true

theorem probed_pending (item : SnapshotItem) (read : Except (Option ℕ) ℕ) :
    ((probed item read).map fun c => (c.id,c.lastKnown)).Sublist [(item.id,item.lastKnown)] := by
  unfold probed
  split
  · split_ifs <;> simp
  · split_ifs <;> simp
  · simp

theorem mem_probed {item : SnapshotItem} {read : Except (Option ℕ) ℕ} {c : Change}
    (h : c ∈ probed item read) : c.id=item.id ∧ c.lastKnown=item.lastKnown ∧
      ∀ current,c.outcome=.changed current → read=.ok current := by
  unfold probed at h
  split at h
  · split_ifs at h
    · obtain rfl:=mem_singleton.mp h
      exact ⟨rfl,rfl,fun current heq=>by cases heq; rfl⟩
    · cases h
  · split_ifs at h
    · obtain rfl:=mem_singleton.mp h
      exact ⟨rfl,rfl,fun current heq=>by cases heq⟩
    · cases h
  · cases h

theorem Lengths.see (h : w.Lengths r spans) (id : ℕ) {current : ℕ} (hgrows : id=r → w.lengths r ≤ current) :
    ({ w with lengths := Function.update w.lengths id current } : Watcher (Tracked T)).Lengths r spans := by
  have hle : w.lengths r ≤ Function.update w.lengths id current r:=by
    by_cases hid : r=id
    · subst hid
      simpa using hgrows rfl
    · simp [Function.update_of_ne hid]
  refine ⟨h.entries,⟨h.poll.once,h.poll.ids,h.poll.after,fun p hp hr=>?_,fun c hc hr current hout=>?_⟩,
    h.linked,fun entry hget=>?_,h.fresh⟩
  · exact ⟨(h.poll.known p hp hr).1.trans hle,(h.poll.known p hp hr).2⟩
  · obtain ⟨hlow,hhigh⟩:=h.poll.changes c hc hr current hout
    exact ⟨hlow,hhigh.trans hle⟩
  · exact ⟨(h.last entry hget).1,(h.last entry hget).2.trans hle⟩

theorem Lengths.probeStep (h : w.Lengths r spans) {items : List SnapshotItem} {changed : List Change}
    {read : Except (Option ℕ) ℕ} (hphase : w.phase=.probe items changed)
    (hgrows : w.Grows r items read=true) : (w.probeStep read changed items).Lengths r spans := by
  have hpoll:=h.poll
  rw [hphase] at hpoll
  cases items with
  | nil =>
    exact h.setPhase (hpoll.sublist (by simp [pending]) (fun c hc=>hc) fun _ _ heq=>by cases heq)
  | cons item rest =>
    unfold Watcher.probeStep
    split_ifs with hstop
    · refine h.setPhase (hpoll.sublist ?_ (fun c hc=>hc) fun _ _ heq=>by cases heq)
      exact (List.Sublist.refl _).append (sublist_cons_self _ _)
    · -- The new change takes the place of what was copied.
      have hseen : ∀ current,read=.ok current → item.id=r → w.lengths r ≤ current:=by
        rintro current rfl hid
        exact of_decide_eq_true hgrows (Bool.eq_false_iff.mpr hstop) hid
      have hitem : (item.id,item.lastKnown) ∈ (probe (item::rest) changed).pending :=
        mem_append_right _ mem_cons_self
      have hpending : (probe rest (changed++probed item read)).pending.Sublist
          (probe (item::rest) changed).pending:=by
        simp only [pending,map_append,append_assoc,map_cons]
        exact (List.Sublist.refl _).append ((probed_pending item read).append (List.Sublist.refl _))
      have hfinish : ∀ w' : Watcher (Tracked T),w'.Lengths r spans → w'.phase=w.phase →
          (∀ current,read=.ok current → item.id=r → item.lastKnown ≤ current ∧ current ≤ w'.lengths r) →
          ({ w' with phase:=.probe rest (changed++probed item read) } : Watcher (Tracked T)).Lengths r spans:=by
        intro w' h' hsame hread
        have hpoll':=h'.poll
        rw [hsame,hphase] at hpoll'
        refine h'.setPhase ⟨hpoll'.once.sublist (hpending.map _),fun p hp=>hpoll'.ids p (hpending.subset hp),
          fun _ _ heq=>(by cases heq),fun p hp=>hpoll'.known p (hpending.subset hp),?_⟩
        intro c hc hr current hout
        rcases mem_append.mp hc with hold | hnew
        · exact hpoll'.changes c hold hr current hout
        · obtain ⟨hid,hlast,hok⟩:=mem_probed hnew
          rw [hlast]
          exact hread current (hok current hout) (hid ▸ hr)
      cases read with
      | error code=>exact hfinish w h rfl fun current heq=>by cases heq
      | ok current =>
        refine hfinish _ (h.see item.id (hseen current rfl)) rfl fun current' heq hid=>?_
        cases heq
        subst hid
        simp only [Function.update_self,le_refl,and_true]
        exact (hpoll.known _ hitem rfl).1.trans (hseen current rfl rfl)

theorem Lengths.writeChange (h : w.Lengths r spans) {change : Change} {rest : List Change}
    (hphase : w.phase=.report (change::rest)) {entry : Entry (Tracked T)}
    (hget : w.entries.get change.id=some entry) :
    ∃ added,(w.writeChange entry change).sq=w.sq++added ∧
      ({ w.writeChange entry change with phase := .report rest } : Watcher (Tracked T)).Lengths r
        (spans++added.filterMap (SqEntry.span r)) := by
  have hpoll:=h.poll
  rw [hphase] at hpoll
  obtain ⟨hvalue,hlt⟩:=h.entries _ entry hget
  have hrest : w.PollOk r (.report rest) :=
    hpoll.sublist (sublist_cons_self _ _) (fun c hc=>mem_cons_of_mem _ hc)
      fun _ _ heq=>(by cases heq)
  cases houtcome : change.outcome with
  | terminal code =>
    refine ⟨[.terminal ⟨entry.value,code,change.lastKnown⟩],by rw [Watcher.writeChange,houtcome],?_⟩
    have hspan : [SqEntry.terminal (⟨entry.value,code,change.lastKnown⟩ : Terminal (Tracked T))].filterMap
        (SqEntry.span r)=[]:=rfl
    rw [hspan,append_nil,Watcher.writeChange,houtcome]
    have hmarked:=(h.setPhase hrest).setEntries (w.entries.insert change.id
      { entry with terminal:=some code }) fun id' entry' hget'=>by
        rcases of_insert hget' with ⟨hsame,rfl⟩ | hget'
        · subst hsame
          exact ⟨entry,hget,rfl,rfl⟩
        · exact ⟨entry',hget',rfl,rfl⟩
    exact hmarked.setSq _ _
  | changed current =>
    refine ⟨[.attention ⟨entry.value,change.lastKnown,current⟩],by rw [Watcher.writeChange,houtcome],?_⟩
    rw [Watcher.writeChange,houtcome]
    have hentries : ∀ id entry',(w.entries.insert change.id { entry with lastKnown:=current }).get id =
        some entry' → entry'.value.registration=id ∧ id < w.nextId:=by
      intro id entry' hget'
      rcases of_insert hget' with ⟨hsame,rfl⟩ | hget'
      · subst hsame
        exact ⟨hvalue,hlt⟩
      · exact h.entries id entry' hget'
    by_cases hr : change.id=r
    · subst hr
      have hmem : (change.id,change.lastKnown) ∈ (report (change::rest)).pending:=mem_cons_self
      have hknown:=(hpoll.known _ hmem rfl).2 entry hget
      obtain ⟨hlow,hhigh⟩:=hpoll.changes change mem_cons_self rfl current houtcome
      have hspan : [SqEntry.attention (⟨entry.value,change.lastKnown,current⟩ :
          Attention (Tracked T))].filterMap (SqEntry.span change.id)=[(change.lastKnown,current)]:=by
        simp [SqEntry.span,hvalue]
      have hlast:=(h.last entry hget).1
      have hnone : ∀ p ∈ (report rest).pending,p.1≠change.id:=by
        intro p hp heq
        have hnodup : (change.id::(report rest).pending.map Prod.fst).Nodup:=hpoll.once
        exact (nodup_cons.mp hnodup).1 (mem_map.mpr ⟨p,hp,heq⟩)
      rw [hspan]
      refine ⟨hentries,⟨hrest.once,hrest.ids,hrest.after,fun p hp hp'=>absurd hp' (hnone p hp),
        hrest.changes⟩,?_,fun entry' hget'=>?_,fun hle=>absurd hlt (Nat.not_lt.mpr hle)⟩
      · exact h.linked.concat (hknown.trans hlast) hlow
      · simp only [get_insert_self,Option.some.injEq] at hget'
        subst hget'
        exact ⟨(spansEnd_concat (w.starts change.id) spans (change.lastKnown,current)).symm,hhigh⟩
    · have hspan : [SqEntry.attention (⟨entry.value,change.lastKnown,current⟩ :
          Attention (Tracked T))].filterMap (SqEntry.span r)=[]:=by
        simp [SqEntry.span,hvalue,hr]
      have hother : ∀ entry',(w.entries.insert change.id { entry with lastKnown:=current }).get r =
          some entry' → w.entries.get r=some entry':=by
        intro entry' hget'
        rw [get_insert_of_ne _ _ (Ne.symm hr)] at hget'
        exact hget'
      rw [hspan,append_nil]
      exact ⟨hentries,⟨hrest.once,hrest.ids,hrest.after,fun p hp hp' =>
        ⟨(hrest.known p hp hp').1,fun entry' hget'=>(hrest.known p hp hp').2 entry' (hother entry' hget')⟩,
        hrest.changes⟩,h.linked,fun entry' hget'=>h.last entry' (hother entry' hget'),h.fresh⟩

theorem Lengths.quiet (hsq : w'.sq=w.sq) (h : w'.Lengths r spans) :
    ∃ added,w'.sq=w.sq++added ∧ w'.Lengths r (spans++added.filterMap (SqEntry.span r)) :=
  ⟨[],by rw [hsq,append_nil],by simpa using h⟩

theorem Lengths.reportStep (h : w.Lengths r spans) {changed : List Change}
    (hphase : w.phase=.report changed) : ∃ added,(w.reportStep changed).sq=w.sq++added ∧
      (w.reportStep changed).Lengths r (spans++added.filterMap (SqEntry.span r)) := by
  have hpoll:=h.poll
  rw [hphase] at hpoll
  have hempty : ∀ phase : PollPhase,phase.pending=[] → phase.changes=[] →
      (∀ after items,phase≠.snapshot after items) → w.PollOk r phase:=by
    intro phase hpending hchanges hafter
    exact hpoll.sublist (by simp [hpending]) (by simp [hchanges]) hafter
  unfold Watcher.reportStep
  split
  · split_ifs
    · exact quiet rfl (h.setPhase (hempty _ rfl rfl fun _ _ heq=>by cases heq))
    · have hdone:=h.setPhase (hempty .idle rfl rfl fun _ _ heq=>by cases heq)
      refine ⟨[.pollDone],rfl,?_⟩
      have hspan : [(SqEntry.pollDone : SqEntry (Tracked T))].filterMap (SqEntry.span r)=[]:=rfl
      rw [hspan,append_nil]
      exact hdone.setSq _ _
  · rename_i change rest hchanges
    have hchanged : changed=change::rest:=by
      split_ifs at hchanges
      exact hchanges
    subst hchanged
    have hskip : w.PollOk r (.report rest) :=
      hpoll.sublist (sublist_cons_self _ _) (fun c hc=>mem_cons_of_mem _ hc)
        fun _ _ heq=>(by cases heq)
    split
    · rename_i entry hget
      split_ifs
      · exact quiet rfl (h.setPhase hskip)
      · exact quiet rfl h
      · exact h.writeChange hphase hget
    · exact quiet rfl (h.setPhase hskip)

/-- The condition that a step of the poll never sees `r`'s file shorter than before. -/
def growsOn (w : Watcher (Tracked T)) (r : ℕ) : WatcherEvent → Bool
  | .probe read =>
    match w.phase with
    | .probe items _ => w.Grows r items read
    | _ => true
  | _ => true

theorem Lengths.step (h : w.Lengths r spans) {event : WatcherEvent} (hgrows : w.growsOn r event=true)
    (hstep : w.step event=some w') :
    ∃ added,w'.sq=w.sq++added ∧ w'.Lengths r (spans++added.filterMap (SqEntry.span r)) := by
  cases event with
  | drop id =>
    cases hstep
    exact quiet rfl (h.setEntries _ fun id' entry hget=>⟨entry,get_of_erase hget,rfl,rfl⟩)
  | shutdown =>
    cases hstep
    exact quiet rfl (h.setSq _ _)
  | poll =>
    simp only [Watcher.step] at hstep
    split at hstep
    · split_ifs at hstep
      cases hstep
      refine quiet rfl (h.setPhase ⟨nodup_nil,fun p hp=>?_,fun _ _ _ p hp=>?_,fun p hp=>?_,
        fun c hc=>?_⟩)
      · cases hp
      · cases hp
      · cases hp
      · cases hc
    · cases hstep
  | snapshot look =>
    simp only [Watcher.step] at hstep
    split at hstep
    · rename_i after items hphase
      cases hstep
      refine quiet ?_ (h.snapshotStep hphase)
      unfold Watcher.snapshotStep
      split_ifs
      · rfl
      · split <;> rfl
    · cases hstep
  | probe read =>
    simp only [Watcher.step] at hstep
    split at hstep
    · rename_i items changed hphase
      cases hstep
      rw [growsOn,hphase] at hgrows
      refine quiet ?_ (h.probeStep hphase hgrows)
      unfold Watcher.probeStep
      split
      · rfl
      · split_ifs <;> rfl
    · cases hstep
  | report =>
    simp only [Watcher.step] at hstep
    split at hstep
    · rename_i changed hphase
      cases hstep
      exact h.reportStep hphase
    · cases hstep

theorem Lengths.new (capacity r : ℕ) : (Watcher.new capacity : Watcher (Tracked T)).Lengths r [] where
  entries := fun id entry hget=>by cases hget
  poll :=
    { once:=nodup_nil
      ids:=fun p hp=>by cases hp
      after:=fun _ _ _ p hp=>by cases hp
      known:=fun p hp=>by cases hp
      changes:=fun c hc=>by cases hc }
  linked:=trivial
  last:=fun entry hget=>by cases hget
  fresh:=fun _=>rfl

end

end Watcher

end WindowsThreadpoolSys.TailWatcher
