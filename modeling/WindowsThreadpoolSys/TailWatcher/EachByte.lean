import WindowsThreadpoolSys.TailWatcher.PollDone

/-! Of a file that never shrinks the attentions are linked, so each offset is announced once. Once a poll's
poll-done is delivered none of what it announced is planned or held, so it was all read and, each read
having returned what it asked for, delivered. -/
namespace WindowsThreadpoolSys.TailWatcher
open Library List Option

variable {T : Type}

/-! ## What a step makes of a registration -/

/-- The entry is data of `r` with the offset `x`, of a poll up to `k`. -/
def Note.has (r k x : ℕ) (n : Note T) : Bool :=
  decide (n.registration = some r ∧ n.poll ≤ k) &&
    match n.entry with
    | .data d => spanHas x (d.start, d.stop)
    | _ => false

namespace Tick

def grows (r : ℕ) (t : Tick T) : Bool :=
  match t.event with
  | .watcher event => t.before.watcher.growsOn r event
  | _ => true

/-- A read of `r` that this step completes returned all the bytes it asked for. -/
def whole (r : ℕ) (t : Tick T) : Bool :=
  match t.event with
  | .pop (.completion index result) =>
    (t.before.held[index]?).all fun p => decide (p.registration = r → result.toOption = some p.len)
  | _ => true

def unstopped (t : Tick T) : Bool :=
  match t.event with
  | .requestStop => false
  | _ => true

/-- This step does not have a read of `r` refused, other than for a full queue. -/
def unrefused (r : ℕ) (t : Tick T) : Bool :=
  match t.event with
  | .push (.refused _) => t.before.current.all fun c => decide (c.registration ≠ r)
  | _ => true

end Tick

theorem failureNote_has {w : Watcher (Tracked T)} {refusal : Refusal T} {r k x : ℕ} :
    (failureNote w refusal).toList.countP (Note.has r k x)=0 := by
  refine countP_eq_zero.mpr fun n hn=>?_
  obtain ⟨code, -,hnote⟩:=bind_eq_some_iff.mp (mem_toList.mp hn)
  split_ifs at hnote
  cases hnote
  simp [Note.has]

theorem readNote_has {w : Watcher (Tracked T)} {p : Pending T} {result : Except (Option ℕ) ℕ} {r k x : ℕ}
    (hwhole : p.registration=r → result.toOption=some p.len) :
    (readNote w p result).toList.countP (Note.has r k x)=if p.has r k x then 1 else 0 := by
  cases result with
  | error code =>
    have hr : p.registration≠r:=fun hr=>by cases hwhole hr
    simp only [readNote,Pending.has,hr]
    split_ifs <;> simp_all [failureNote_has]
  | ok read =>
    simp only [readNote]
    by_cases hr : p.registration=r
    · obtain rfl : read=p.len:=Option.some.inj (hwhole hr)
      by_cases hzero : p.len=0
      · simp [hzero,Pending.has,spanHas]
      · rw [if_neg hzero,toList_some,countP_singleton]
        simp [Note.has,Pending.has]
    · split_ifs <;> simp_all [Note.has,Pending.has]

theorem Tick.made_has {K : Config} {t : Tick T} {r k x : ℕ} (hwhole : t.whole r=true) :
    (t.made K).countP (Note.has r k x) =
      (t.before.settles t.event).toList.countP fun s => s.1.has r k x := by
  have howed : (t.takes.filterMap (owed K)).countP (Note.has r k x)=0:=by
    refine countP_eq_zero.mpr fun n hn=>?_
    obtain ⟨⟨poll,entry⟩, -,htaken⟩:=mem_filterMap.mp hn
    cases entry with
    | attention a =>
      by_cases hshrink : a.current < a.lastKnown <;> simp [owed,split,plan,hshrink] at htaken
      simp [← htaken,Note.has]
    | terminal a =>
      cases htaken
      simp [Note.has]
    | pollDone=>cases htaken
  have hfailed : ((t.before.refusal t.event).bind (failureNote t.before.watcher)).toList.countP
      (Note.has r k x)=0:=by
    cases t.before.refusal t.event with
    | none=>rfl
    | some refusal=>exact failureNote_has
  rw [Tick.made,countP_append,countP_append,howed,hfailed,Nat.zero_add,Nat.add_zero]
  cases hs : t.before.settles t.event with
  | none=>rfl
  | some s =>
    rw [bind_some,toList_some,countP_singleton]
    refine readNote_has fun hr=>?_
    unfold ReadEngine.settles at hs
    unfold Tick.whole at hwhole
    split at hs
    · rename_i index result hevent
      obtain ⟨p,hget,rfl⟩:=map_eq_some_iff.mp hs
      rw [hevent] at hwhole
      simp only [hget,all_some,decide_eq_true_eq] at hwhole
      exact hwhole hr
    · cases hs

namespace ReadEngine

variable {K : Config} {r : ℕ} {e e' : ReadEngine T} {c : Current T} {event : Event T}

theorem markTerminal_sq (w : Watcher (Tracked T)) (id code : ℕ) : (w.markTerminal id code).1.sq=w.sq := by
  unfold Watcher.markTerminal
  split
  · split_ifs <;> rfl
  · rfl

theorem has_of_front_none (h : c.reads.front=none) (r k x : ℕ) : c.has r k x=false := by
  unfold Reads.front at h
  split_ifs at h with hend
  simp only [Current.has,spanHas,Bool.and_eq_false_iff,decide_eq_false_iff_not]
  exact .inr (by omega)

/-! ## The attentions of a registration -/

def spans (e : ReadEngine T) (r : ℕ) : List (ℕ × ℕ) :=
  (e.taken.map Prod.snd ++ e.watcher.sq).filterMap (SqEntry.span r)

structure Bytes (r : ℕ) (e : ReadEngine T) : Prop where
  stop : e.stop = false
  refused : ∀ pushed refusal, e.phase = .submitting pushed (.refused refusal) →
    ∀ c, e.current = some c → c.registration ≠ r
  lengths : e.watcher.Lengths r (e.spans r)
  sorted : e.taken.Pairwise fun a b => a.1 ≤ b.1
  taken : ∀ t ∈ e.taken, t.1 ≤ e.polls

theorem Bytes.of_eq (h : e.Bytes r) (htaken : e'.taken=e.taken)
    (hmarks : Marks e.watcher e'.watcher) (hstop : e'.stop=e.stop)
    (hrefused : ∀ pushed refusal,e'.phase=.submitting pushed (.refused refusal) →
      ∀ c,e'.current=some c → c.registration ≠ r) : e'.Bytes r := by
  refine ⟨hstop.trans h.stop,hrefused,?_,htaken ▸ h.sorted,?_⟩
  · rw [spans,htaken]
    rcases hmarks with hsame | ⟨id,code,hmark⟩
    · rw [hsame]
      exact h.lengths
    · rw [hmark,markTerminal_sq]
      exact h.lengths.markTerminal id code
  · rw [polls,htaken]
    exact h.taken

theorem Bytes.take (h : e.Bytes r) {entry : SqEntry (Tracked T)} {rest : List (SqEntry (Tracked T))}
    (hsq : e.watcher.sq=entry::rest) (htaken : e'.taken=e.taken++[(e.polls,entry)])
    (hwatcher : e'.watcher={ e.watcher with sq := rest }) (hstop : e'.stop=e.stop)
    (hphase : e'.phase=.deliver) : e'.Bytes r := by
  refine ⟨hstop.trans h.stop,fun _ _ hat=>?_,?_,?_,fun t ht=>?_⟩
  · cases hphase.symm.trans hat
  · have hspans : e'.spans r=e.spans r:=by simp [spans,htaken,hwatcher,hsq]
    rw [hspans,hwatcher]
    exact h.lengths.setSq rest e.watcher.stop
  · rw [htaken]
    refine pairwise_append.mpr ⟨h.sorted,pairwise_singleton _ _,fun a ha b hb=>?_⟩
    rw [mem_singleton.mp hb]
    exact h.taken a ha
  · rw [polls,htaken,polls_concat]
    rw [htaken] at ht
    rcases mem_append.mp ht with hold | hnew
    · exact (h.taken t hold).trans (Nat.le_add_right _ _)
    · rw [mem_singleton.mp hnew]
      exact Nat.le_add_right _ _

theorem Bytes.does (h : e.Bytes r) (hdoes : e.Does K event e')
    (hunrefused : Tick.unrefused r ⟨e,event,e'⟩=true) : e'.Bytes r := by
  cases hdoes with
  | move hphase hrefused =>
    refine h.of_eq rfl (.inl rfl) rfl fun pushed refusal hat c hc=>?_
    obtain ⟨code,rfl⟩:=hrefused pushed refusal hat
    have hc' : e.current=some c:=hc
    simpa [Tick.unrefused,hc'] using hunrefused
  | deliver | push=>exact h.of_eq rfl (.inl rfl) rfl fun _ _ hat=>by cases hat
  | pollDone _ _ hat=>exact h.of_eq rfl (.inl rfl) rfl h.refused
  | finish _ _ hmarks=>exact h.of_eq rfl hmarks rfl fun _ _ hat=>by cases hat
  | @take entry rest hnone hsq =>
    obtain ⟨groups,current,heq, -⟩:=takeEntry_spec (K:=K) (e:={ e with
      current:=none,watcher:={ e.watcher with sq:=rest } }) hnone rfl entry
    rw [heq]
    exact h.take hsq rfl rfl rfl rfl
  | drop _ _ _ _ _ hmarks=>exact h.of_eq rfl hmarks rfl fun _ _ _ _ hc=>by cases hc

theorem Bytes.step (h : e.Bytes r) (hok : e.Ok K) (hgrows : Tick.grows r ⟨e,event,e'⟩=true)
    (hunstopped : Tick.unstopped ⟨e,event,e'⟩=true) (hunrefused : Tick.unrefused r ⟨e,event,e'⟩=true)
    (hstep : e.step K event=some e') : e'.Bytes r := by
  have hrun (hstep : e.runStep K e.phase event=some e') : e'.Bytes r :=
    h.does (does_runStep hok.phase (fun c hc=>(hok.core.current c hc).2.1) hstep) hunrefused
  cases event with
  | register offset len value =>
    cases hstep
    refine ⟨h.stop,h.refused,?_,h.sorted,h.taken⟩
    have hsq : (e.watcher.register offset len fun id=>⟨value,id⟩).sq=e.watcher.sq:=by
      unfold Watcher.register
      split_ifs <;> rfl
    simp only [spans,hsq]
    exact h.lengths.register offset len value
  | watcher event =>
    obtain ⟨watcher,hwatcher,rfl⟩:=map_eq_some_iff.mp hstep
    obtain ⟨added,hsq,hlengths⟩:=h.lengths.step hgrows hwatcher
    refine ⟨h.stop,h.refused,?_,h.sorted,h.taken⟩
    show watcher.Lengths r ((e.taken.map Prod.snd++watcher.sq).filterMap (SqEntry.span r))
    rw [hsq,← append_assoc,filterMap_append]
    exact hlengths
  | requestStop=>cases hunstopped
  | _=>exact hrun hstep

theorem Bytes.new (K : Config) (r : ℕ) : (ReadEngine.new K : ReadEngine T).Bytes r where
  stop := rfl
  refused:=fun _ _ hphase=>by cases hphase
  lengths:=Watcher.Lengths.new _ r
  sorted:=List.Pairwise.nil
  taken:=fun t ht=>by cases ht

end ReadEngine

section Runs

variable {K : Config} {r : ℕ} {ticks : List (Tick T)} {e : ReadEngine T}

theorem Run.bytes (run : Run K ticks e) (hgrows : ∀ t ∈ ticks,t.grows r=true)
    (hunstopped : ∀ t ∈ ticks,t.unstopped=true) (hunrefused : ∀ t ∈ ticks,t.unrefused r=true) :
    e.Bytes r := by
  induction run with
  | start hinit=>exact hinit ▸ ReadEngine.Bytes.new K r
  | next run event hstep ih =>
    obtain ⟨hnow,hbefore⟩:=forall_mem_cons.mp hgrows
    obtain ⟨hunstopped,hunstoppedBefore⟩:=forall_mem_cons.mp hunstopped
    obtain ⟨hunrefused,hunrefusedBefore⟩:=forall_mem_cons.mp hunrefused
    exact (ih hbefore hunstoppedBefore hunrefusedBefore).step (Run.ok run) hnow hunstopped hunrefused hstep

/-- No plan of `r` is given up. -/
theorem Run.drops_none (run : Run K ticks e) (hgrows : ∀ t ∈ ticks,t.grows r=true)
    (hunstopped : ∀ t ∈ ticks,t.unstopped=true) (hunrefused : ∀ t ∈ ticks,t.unrefused r=true) (k x : ℕ) :
    (ticks.flatMap fun t => t.before.drops t.after).countP (Current.has r k x)=0 := by
  refine countP_eq_zero.mpr fun c hc=>?_
  obtain ⟨t,ht,hc⟩:=mem_flatMap.mp hc
  obtain ⟨earlier,hsuffix,hrun,hstep⟩:=run.of_mem ht
  have hbytes : t.before.Bytes r:=Run.bytes hrun (fun s hs=>hgrows s (hsuffix.subset hs))
    (fun s hs=>hunstopped s (hsuffix.subset hs)) fun s hs=>hunrefused s (hsuffix.subset hs)
  have hcurrent : t.before.current=some c:=by
    unfold ReadEngine.drops at hc
    split_ifs at hc
    · exact mem_toList.mp hc
    · cases hc
  rcases run.books.drops t ht c hc with hfront | hstop | hrefused
  · simp [ReadEngine.has_of_front_none hfront]
  · rw [hbytes.stop] at hstop
    cases hstop
  · have hr : c.registration≠r:=by
      have hunrefused:=hunrefused t ht
      unfold Tick.unrefused at hunrefused
      unfold ReadEngine.refusal at hrefused
      split at hrefused
      · rename_i code hevent
        simpa [hevent,hcurrent] using hunrefused
      · split at hrefused
        · rename_i pushed ended hphase
          cases ended with
          | refused refusal=>exact hbytes.refused pushed refusal hphase c hcurrent
          | _=>cases hrefused
        · cases hrefused
      · cases hrefused
    simp [Current.has,hr]

theorem made_has {ticks : List (Tick T)} {k x : ℕ} (hwhole : ∀ t ∈ ticks,t.whole r=true) :
    (ticks.reverse.flatMap (Tick.made K)).countP (Note.has r k x) =
      (ticks.filterMap fun t => t.before.settles t.event).countP fun s => s.1.has r k x := by
  induction ticks with
  | nil=>rfl
  | cons t ticks ih =>
    obtain ⟨hthis,hrest⟩:=forall_mem_cons.mp hwhole
    have hmade:=Tick.made_has (K:=K) (k:=k) (x:=x) hthis
    rw [reverse_cons,flatMap_append,countP_append,ih hrest,flatMap_singleton,hmade,filterMap_cons]
    cases t.before.settles t.event with
    | none=>rfl
    | some s=>simp [countP_cons]

def ReadEngine.spansUpTo (e : ReadEngine T) (r k : ℕ) : List (ℕ × ℕ) :=
  (e.taken.filter fun t => decide (t.1 ≤ k)).filterMap fun t => t.2.span r

/-- The length last reported for `r` in the polls up to `k`, or its starting offset. -/
def ReadEngine.reported (e : ReadEngine T) (r k : ℕ) : ℕ := spansEnd (e.watcher.starts r) (e.spansUpTo r k)

theorem ReadEngine.announced_eq (e : ReadEngine T) (r k x : ℕ) :
    e.taken.countP (takenHas r k x)=(e.spansUpTo r k).countP (spanHas x) := by
  unfold spansUpTo
  induction e.taken with
  | nil=>rfl
  | cons t rest ih =>
    rw [countP_cons,ih]
    by_cases hk : t.1 ≤ k
    · rw [filter_cons_of_pos (by simpa using hk),filterMap_cons]
      cases hspan : t.2.span r with
      | none=>simp [takenHas,hspan]
      | some span=>simp [takenHas,hspan,hk,countP_cons]
    · rw [filter_cons_of_neg (by simpa using hk)]
      simp [takenHas,hk]

theorem ReadEngine.Bytes.linked (h : e.Bytes r) (k : ℕ) : Linked (e.watcher.starts r) (e.spansUpTo r k) := by
  obtain ⟨more,hmore⟩:=filter_le_isPrefix h.sorted k
  have hspans : e.spans r=e.spansUpTo r k ++
      (more.map Prod.snd++e.watcher.sq).filterMap (SqEntry.span r):=by
    have hmap : ∀ l : List (ℕ × SqEntry (Tracked T)),
        (l.map Prod.snd).filterMap (SqEntry.span r)=l.filterMap fun t=>t.2.span r:=fun l=>by
      rw [filterMap_map]
      rfl
    rw [spans,spansUpTo,filterMap_append,filterMap_append,hmap,hmap,
      ← append_assoc,← filterMap_append,hmore]
  have hlinked:=h.lengths.linked
  rw [hspans] at hlinked
  exact hlinked.of_append

/-- Of a file that never shrinks, once a poll-done is delivered each offset up to the length last
reported was delivered once, and no other. -/
theorem each_byte_once (run : Run K ticks e) (hgrows : ∀ t ∈ ticks, t.grows r = true)
    (hwhole : ∀ t ∈ ticks, t.whole r = true) (hunstopped : ∀ t ∈ ticks, t.unstopped = true)
    (hunrefused : ∀ t ∈ ticks, t.unrefused r = true) {k : ℕ}
    (hdone : ∃ n ∈ e.delivered, n.isPollDone = true ∧ n.poll = k) (x : ℕ) :
    e.delivered.countP (Note.has r k x) =
      if e.watcher.starts r ≤ x ∧ x < e.reported r k then 1 else 0 := by
  have hcore:=run.ok.core
  have h:=run.bytes hgrows hunstopped hunrefused
  obtain ⟨n,hn,hpollDone,hpoll⟩:=hdone
  have hk : k < e.groups.first:=hpoll ▸ hcore.delivered_lt hn hpollDone
  -- Nothing of the polls up to `k` is waiting, held or planned.
  have hundelivered : e.undelivered.toList.countP (Note.has r k x)=0:=by
    refine countP_eq_zero.mpr fun n hn=>?_
    have hle:=(hcore.undelivered n (mem_toList.mp hn)).2.1
    have hnot : ¬ n.poll ≤ k:=by omega
    simp [Note.has,hnot]
  have hheld : e.held.countP (Pending.has r k x)=0:=by
    refine countP_eq_zero.mpr fun p hp=>?_
    obtain ⟨hgroup,hle, -⟩:=hcore.held p hp
    have hnot : ¬ p.poll ≤ k:=by omega
    simp [Pending.has,hnot]
  have hplanned : e.current.toList.countP (Current.has r k x)=0:=by
    refine countP_eq_zero.mpr fun c hc=>?_
    obtain ⟨-,hpoll, -⟩:=hcore.current c (mem_toList.mp hc)
    have hfirst:=hcore.groups.first
    have hnot : ¬ c.poll ≤ k:=by omega
    simp [Current.has,hnot]
  have hoffsets:=run.books.offsets r k x
  rw [hplanned,hheld,run.drops_none hgrows hunstopped hunrefused,ReadEngine.announced_eq] at hoffsets
  have hnotes : e.delivered.countP (Note.has r k x)=e.notes.countP (Note.has r k x):=by
    rw [ReadEngine.notes,countP_append,hundelivered,countP_filter,Nat.add_zero]
    refine countP_congr fun n _=>?_
    cases hentry : n.entry <;> simp [Note.has,Note.isPollDone,hentry]
  rw [Nat.add_zero,Nat.zero_add] at hoffsets
  rw [hnotes,run.books.notes,made_has hwhole,← hoffsets]
  exact (h.linked k).countP_spanHas x

theorem each_byte_once_ten_bytes : ∃ ticks e, Run (T := ℕ) smallConfig ticks e ∧
    (∀ t ∈ ticks, t.grows 0 = true) ∧ (∀ t ∈ ticks, t.whole 0 = true) ∧
    (∀ t ∈ ticks, t.unstopped = true) ∧ (∀ t ∈ ticks, t.unrefused 0 = true) ∧
    (∃ n ∈ e.delivered, n.isPollDone = true ∧ n.poll = 0) ∧ e.reported 0 0 = 10 ∧
    ∀ x, e.delivered.countP (Note.has 0 0 x) =
      if e.watcher.starts 0 ≤ x ∧ x < e.reported 0 0 then 1 else 0 := by
  obtain ⟨ticks,e,run,hcheck⟩:=smallRun.play (plainly _) named_allows tenBytes
    (fun (ticks : List (Tick ℕ)) e=>decide ((∀ t ∈ ticks,t.grows 0=true) ∧ (∀ t ∈ ticks,t.whole 0=true) ∧
      (∀ t ∈ ticks,t.unstopped=true) ∧ (∀ t ∈ ticks,t.unrefused 0=true) ∧
      (∃ n ∈ e.delivered,n.isPollDone=true ∧ n.poll=0) ∧ e.reported 0 0=10)) (by decide +kernel)
  obtain ⟨hgrows,hwhole,hunstopped,hunrefused,hdone,hlength⟩:=of_decide_eq_true hcheck
  exact ⟨ticks,e,run,hgrows,hwhole,hunstopped,hunrefused,hdone,hlength,
    each_byte_once run hgrows hwhole hunstopped hunrefused hdone⟩

/-- The file of ten bytes again, with a stop request before its reads are submitted. -/
def stoppedPoll : List (Event ℕ) :=
  [.register 0 0 5, .watcher .poll, .watcher (.snapshot true), .watcher (.snapshot true),
    .watcher (.probe (.ok 10)), .watcher (.probe (.ok 0)), .watcher .report, .watcher .report,
    .run, .go, .go, .go, .pop .none, .go, .requestStop, .go, .go, .pop .none, .go, .go, .clientPush true]

/-- A stop request leaves announced bytes unread, and the poll-done is delivered. -/
theorem stop_leaves_bytes : ∃ ticks e, Run (T := ℕ) smallConfig ticks e ∧
    (∀ t ∈ ticks, t.grows 0 = true) ∧ (∀ t ∈ ticks, t.whole 0 = true) ∧
    (∀ t ∈ ticks, t.unrefused 0 = true) ∧ (∃ n ∈ e.delivered, n.isPollDone = true ∧ n.poll = 0) ∧
    ¬ ∀ x, e.delivered.countP (Note.has 0 0 x) =
      if e.watcher.starts 0 ≤ x ∧ x < e.reported 0 0 then 1 else 0 := by
  obtain ⟨ticks,e,run,hcheck⟩:=smallRun.play (plainly _) named_allows stoppedPoll
    (fun (ticks : List (Tick ℕ)) e=>decide ((∀ t ∈ ticks,t.grows 0=true) ∧ (∀ t ∈ ticks,t.whole 0=true) ∧
      (∀ t ∈ ticks,t.unrefused 0=true) ∧ (∃ n ∈ e.delivered,n.isPollDone=true ∧ n.poll=0) ∧
      e.delivered.countP (Note.has 0 0 0) ≠
        if e.watcher.starts 0≤0 ∧ 0 < e.reported 0 0 then 1 else 0)) (by decide +kernel)
  obtain ⟨hgrows,hwhole,hunrefused,hdone,hbyte⟩:=of_decide_eq_true hcheck
  exact ⟨ticks,e,run,hgrows,hwhole,hunrefused,hdone,fun hall=>hbyte (hall 0)⟩

end Runs

end WindowsThreadpoolSys.TailWatcher
