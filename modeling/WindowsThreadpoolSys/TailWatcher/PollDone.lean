import WindowsThreadpoolSys.TailWatcher.Steps

/-! The groups are a window over the polls: the closed ones are the polls whose poll-done was taken and not
delivered, in order, and at most one more is open, for the poll being taken. A group counts the reads of its
poll that the ring holds, so none of its reads is held when its poll-done goes to the client; and what is
waiting for the client goes before any poll-done. -/
namespace WindowsThreadpoolSys.TailWatcher
open Library List Option ReadEngine

variable {T : Type}

/-! ## The window of groups -/

/-- The groups are those of the polls from `first` on, of which `polls` are closed, and `reads` of each
group's reads are not settled. -/
structure Groups.Ok (g : Groups) (polls : ℕ) (reads : ℕ → ℕ) : Prop where
  first : g.first ≤ polls
  length : g.first + g.list.length = polls ∨ g.first + g.list.length = polls + 1
  closed : ∀ i group, g.list[i]? = some group → (group.closed = true ↔ g.first + i < polls)
  outstanding : ∀ i group, g.list[i]? = some group → group.outstanding = reads (g.first + i)

namespace Groups

variable {g : Groups} {polls : ℕ} {reads reads' : ℕ → ℕ}

theorem getElem?_modify_cases {list : List Group} {i j : ℕ} {f : Group → Group} {group : Group}
    (h : (list.modify j f)[i]? = some group) :
    ∃ old,list[i]? = some old ∧ group=if j=i then f old else old := by
  rw [List.getElem?_modify] at h
  obtain ⟨old,hold,rfl⟩:=map_eq_some_iff.mp h
  refine ⟨old,hold,?_⟩
  split_ifs <;> rfl

theorem getElem?_concat_cases {list : List Group} {i : ℕ} {last group : Group}
    (h : (list++[last])[i]? = some group) :
    list[i]? = some group ∨ i=list.length ∧ group=last := by
  rw [List.getElem?_append] at h
  split_ifs at h with hlt
  · exact .inl h
  · obtain ⟨hlt',heq⟩:=List.getElem?_eq_some_iff.mp h
    have hzero : i-list.length=0:=by
      rw [length_singleton] at hlt'
      omega
    refine .inr ⟨by omega,?_⟩
    simp only [hzero,getElem_cons_zero] at heq
    exact heq.symm

variable (h : g.Ok polls reads)
include h

theorem Ok.last_closed :
    g.list.getLast?.all Group.closed=true ↔ g.first+g.list.length=polls := by
  have hlength:=h.length
  rw [List.getLast?_eq_getElem?]
  cases hlast : g.list[g.list.length-1]? with
  | none =>
    have hle:=List.getElem?_eq_none_iff.mp hlast
    have hfirst:=h.first
    simp only [all_none,true_iff]
    omega
  | some group =>
    have hlt:=(List.getElem?_eq_some_iff.mp hlast).1
    have hclosed:=h.closed _ group hlast
    simp only [all_some]
    rw [hclosed]
    omega

theorem Ok.concat {polls' : ℕ} {closed : Bool}
    (hend : g.first+g.list.length=polls) (hpolls : polls ≤ polls')
    (hlength : polls' ≤ polls+1) (hclosed : closed=true ↔ polls < polls') (hnone : reads polls=0) :
    (⟨g.first,g.list++[⟨0,closed⟩]⟩ : Groups).Ok polls' reads := by
  have hfirst:=h.first
  refine ⟨hfirst.trans hpolls,?_,fun i group hget=>?_,fun i group hget=>?_⟩
  · simp only [length_append,length_singleton]
    omega
  · rcases getElem?_concat_cases hget with hold | ⟨rfl,rfl⟩
    · have hlt:=(List.getElem?_eq_some_iff.mp hold).1
      rw [h.closed i group hold]
      show _ ↔ g.first+i < polls'
      constructor <;> intro <;> omega
    · show closed=true ↔ g.first+g.list.length < polls'
      rw [hend]
      exact hclosed
  · rcases getElem?_concat_cases hget with hold | ⟨rfl,rfl⟩
    · exact h.outstanding i group hold
    · show 0=reads (g.first+g.list.length)
      rw [hend,hnone]

theorem Ok.openGroup (hnone : g.first+g.list.length=polls → reads polls=0) :
    g.openGroup.1.Ok polls reads ∧ g.openGroup.2=polls ∧
      polls < g.openGroup.1.first+g.openGroup.1.list.length ∧ g.openGroup.1.first=g.first := by
  have hlength:=h.length
  have hfirst:=h.first
  by_cases hlast : g.list.getLast?.all Group.closed=true
  · have hend:=h.last_closed.mp hlast
    have heq : g.openGroup=(⟨g.first,g.list++[⟨0,false⟩]⟩,polls):=by
      simp only [Groups.openGroup,hlast,if_true,length_append,length_singleton,
        Nat.add_sub_cancel,hend]
    rw [heq]
    refine ⟨h.concat hend le_rfl (Nat.le_succ _) (by simp) (hnone hend),rfl,?_,rfl⟩
    simp only [length_append,length_singleton]
    omega
  · have hopen : g.first+g.list.length≠polls:=fun heq=>hlast (h.last_closed.mpr heq)
    have heq : g.openGroup=(g,g.first+(g.list.length-1)):=by
      simp only [Groups.openGroup,if_neg hlast]
    rw [heq]
    exact ⟨h,by simp only; omega,by simp only; omega,rfl⟩

theorem Ok.closeOpen (hnone : g.first+g.list.length=polls → reads polls=0) :
    g.closeOpen.Ok (polls+1) reads ∧ g.closeOpen.first=g.first ∧
      g.closeOpen.first+g.closeOpen.list.length=polls+1 := by
  have hlength:=h.length
  have hfirst:=h.first
  by_cases hlast : g.list.getLast?.all Group.closed=true
  · have hend:=h.last_closed.mp hlast
    have heq : g.closeOpen=⟨g.first,g.list++[⟨0,true⟩]⟩:=if_pos hlast
    rw [heq]
    refine ⟨h.concat hend (Nat.le_succ _) le_rfl (by simp) (hnone hend),rfl,?_⟩
    simp only [length_append,length_singleton]
    omega
  · have hopen : g.first+g.list.length≠polls:=fun heq=>hlast (h.last_closed.mpr heq)
    have heq : g.closeOpen=⟨g.first,g.list.modify (g.list.length-1) fun group =>
        { group with closed:=true }⟩:=if_neg hlast
    rw [heq]
    refine ⟨⟨hfirst.trans (Nat.le_succ _),?_,fun i group hget=>?_,fun i group hget=>?_⟩,rfl,?_⟩
    · simp only [length_modify]
      omega
    · obtain ⟨old,hold,rfl⟩:=getElem?_modify_cases hget
      show _ ↔ g.first+i < polls+1
      split_ifs with hat
      · simp only [true_iff]
        omega
      · rw [h.closed i old hold]
        constructor <;> intro <;> omega
    · obtain ⟨old,hold,rfl⟩:=getElem?_modify_cases hget
      have hreads:=h.outstanding i old hold
      split_ifs <;> exact hreads
    · simp only [length_modify]
      omega

theorem Ok.modify {id : ℕ} {f : ℕ → ℕ} (hid : g.first ≤ id)
    (hother : ∀ k,k ≠ id → reads' k=reads k) (hat : reads' id=f (reads id)) :
    ({ g with list := g.list.modify (id-g.first) fun group =>
        { group with outstanding := f group.outstanding } } : Groups).Ok polls reads' := by
  refine ⟨h.first,?_,fun i group hget=>?_,fun i group hget=>?_⟩
  · simp only [length_modify]
    exact h.length
  · obtain ⟨old,hold,rfl⟩:=getElem?_modify_cases hget
    have hclosed:=h.closed i old hold
    split_ifs <;> exact hclosed
  · obtain ⟨old,hold,rfl⟩:=getElem?_modify_cases hget
    have hreads:=h.outstanding i old hold
    split_ifs with hsame
    · have hk : g.first+i=id:=by omega
      rw [hk] at hreads ⊢
      rw [hat,← hreads]
    · have hk : g.first+i≠id:=by omega
      show old.outstanding=_
      rw [hother _ hk]
      exact hreads

theorem Ok.ready_iff :
    g.ready=true ↔ g.first < polls ∧ reads g.first=0 := by
  unfold ready
  rw [List.head?_eq_getElem?]
  cases hhead : g.list[0]? with
  | none =>
    have hle:=List.getElem?_eq_none_iff.mp hhead
    have hlength:=h.length
    simp only [any_none,Bool.false_eq_true,false_iff,not_and]
    omega
  | some group =>
    have hclosed:=h.closed 0 group hhead
    have hreads:=h.outstanding 0 group hhead
    rw [Nat.add_zero] at hclosed hreads
    simp only [any_some,Bool.and_eq_true,decide_eq_true_eq]
    rw [hclosed,hreads]

theorem Ok.popReady (hready : g.ready=true) : g.popReady.Ok polls reads := by
  obtain ⟨hlt, -⟩:=h.ready_iff.mp hready
  have hlength:=h.length
  have hat : ∀ i,g.popReady.list[i]? = g.list[i+1]?:=by
    intro i
    simp only [Groups.popReady]
    rw [← drop_one,List.getElem?_drop,Nat.add_comm]
  refine ⟨hlt,?_,fun i group hget=>?_,fun i group hget=>?_⟩
  · simp only [Groups.popReady,length_tail]
    omega
  · rw [hat] at hget
    rw [h.closed _ group hget]
    show g.first+(i+1) < polls ↔ g.first+1+i < polls
    omega
  · rw [hat] at hget
    rw [h.outstanding _ group hget,Groups.popReady,Nat.add_assoc,Nat.add_comm 1 i]

end Groups

/-! ## What every step keeps -/

namespace ReadEngine

variable {K : Config} {e e' : ReadEngine T}

def heldAt (e : ReadEngine T) (group : ℕ) : ℕ := e.held.countP fun p => decide (p.group = group)

structure Core (K : Config) (e : ReadEngine T) : Prop where
  groups : e.groups.Ok e.polls e.heldAt
  held : ∀ p ∈ e.held, p.group = p.poll ∧ e.groups.first ≤ p.group ∧
    p.group < e.groups.first + e.groups.list.length
  current : ∀ c, e.current = some c →
    c.group = c.poll ∧ c.poll = e.polls ∧ e.polls < e.groups.first + e.groups.list.length
  plan : ∀ c, e.current = some c → c.reads.bufferLen = K.bufferLen
  undelivered : ∀ n, e.undelivered = some n →
    n.isPollDone = false ∧ e.groups.first ≤ n.poll ∧ n.poll ≤ e.polls
  cq : e.held.length ≤ K.cqSize
  pollDones : (e.delivered.filter Note.isPollDone).map Note.poll = List.range e.groups.first
  order : e.delivered.Pairwise fun a b => a.isPollDone = true → a.poll < b.poll

theorem Core.of_eq (h : e.Core K)
    (hsame : (e'.groups,e'.held,e'.taken,e'.delivered,e'.undelivered) =
      (e.groups,e.held,e.taken,e.delivered,e.undelivered))
    (hcurrent : ∀ c,e'.current=some c → e.current=some c) : e'.Core K := by
  simp only [Prod.mk.injEq] at hsame
  obtain ⟨hgroups,hheld,htaken,hdelivered,hundelivered⟩:=hsame
  have hpolls : e'.polls=e.polls:=congrArg (fun l=>l.countP fun x=>x.2.isPollDone) htaken
  have hreads : e'.heldAt=e.heldAt:=funext fun k=>by rw [heldAt,heldAt,hheld]
  refine ⟨?_,?_,fun c hc=>?_,fun c hc=>h.plan c (hcurrent c hc),fun n hn=>?_,?_,?_,?_⟩
  · rw [hgroups,hpolls,hreads]
    exact h.groups
  · rw [hgroups,hheld]
    exact h.held
  · rw [hgroups,hpolls]
    exact h.current c (hcurrent c hc)
  · rw [hgroups,hpolls]
    exact h.undelivered n (hundelivered ▸ hn)
  · rw [hheld]
    exact h.cq
  · rw [hgroups,hdelivered]
    exact h.pollDones
  · rw [hdelivered]
    exact h.order

theorem Core.heldAt_zero (h : e.Core K) (hend : e.groups.first+e.groups.list.length=e.polls) :
    e.heldAt e.polls=0 := by
  refine countP_eq_zero.mpr fun p hp=>?_
  have hlt:=(h.held p hp).2.2
  simp only [decide_eq_true_eq]
  omega

variable {n : Note T}

theorem Core.hold (h : e.Core K) {note : Option (Note T)} (hnote : ∀ n,note=some n →
      n.isPollDone=false ∧ e.groups.first ≤ n.poll ∧ n.poll ≤ e.polls) :
    ({ e with undelivered := note } : ReadEngine T).Core K :=
  { h with undelivered:=hnote }

theorem Core.settled (h : e.Core K) {index : ℕ} {p : Pending T} (hget : e.held[index]? = some p) :
    ({ e with held := e.held.eraseIdx index,groups := e.groups.settled p.group } :
      ReadEngine T).Core K := by
  obtain ⟨hlt,hp⟩:=List.getElem?_eq_some_iff.mp hget
  have hperm : (p::e.held.eraseIdx index).Perm e.held:=hp ▸ getElem_cons_eraseIdx_perm hlt
  have hmem : p ∈ e.held:=hp ▸ getElem_mem hlt
  obtain ⟨-,hfirst,hbound⟩:=h.held p hmem
  have hcount : ∀ k,(e.held.eraseIdx index).countP (fun p=>decide (p.group=k)) +
      (if p.group=k then 1 else 0)=e.heldAt k:=by
    intro k
    rw [heldAt,← hperm.countP_eq,countP_cons]
    simp only [decide_eq_true_eq]
  have hlength : (e.groups.settled p.group).list.length=e.groups.list.length:=length_modify ..
  refine ⟨?_,fun p' hp'=>?_,fun c hc=>?_,h.plan,h.undelivered,?_,h.pollDones,h.order⟩
  · show (e.groups.settled p.group).Ok e.polls fun k =>
      (e.held.eraseIdx index).countP fun p=>decide (p.group=k)
    refine h.groups.modify (f:=fun n=>n-1) hfirst (fun k hk=>?_) ?_
    · have hk':=hcount k
      rw [if_neg (Ne.symm hk)] at hk'
      exact hk'
    · have hk':=hcount p.group
      rw [if_pos rfl] at hk'
      rw [← hk',Nat.add_sub_cancel]
  · show _ ∧ _ ∧ p'.group < e.groups.first+(e.groups.settled p.group).list.length
    rw [hlength]
    exact h.held p' (mem_of_mem_eraseIdx hp')
  · show _ ∧ _ ∧ e.polls < e.groups.first+(e.groups.settled p.group).list.length
    rw [hlength]
    exact h.current c hc
  · exact (length_eraseIdx_le _ _).trans h.cq

/-! ## Taking entries and pushing reads -/

theorem polls_concat (e : ReadEngine T) (poll : ℕ) (entry : SqEntry (Tracked T)) :
    (e.taken++[(poll,entry)]).countP (fun x => x.2.isPollDone) =
      e.polls+if entry.isPollDone then 1 else 0 := by
  rw [countP_append,countP_singleton]
  rfl

variable {c : Current T} {read : PlannedRead} {outstanding : ℕ}

theorem Core.pushed (h : e.Core K) (hc : e.current=some c) {pushed : ℕ}
    (hread : c.reads.front=some read) (hroom : e.held.length < K.cqSize) : (e.pushRead c read pushed outstanding .pushed).Core K := by
  obtain ⟨hgroup,hpoll,hopen⟩:=h.current c hc
  have hfirst:=h.groups.first
  have hlength : (e.groups.started c.group).list.length=e.groups.list.length:=length_modify ..
  refine ⟨?_,fun p hp=>?_,fun c' hc'=>?_,fun c' hc'=>?_,h.undelivered,?_,h.pollDones,h.order⟩
  · have hreads : (e.pushRead c read pushed outstanding .pushed).heldAt =
        fun k=>e.heldAt k+if c.group=k then 1 else 0:=by
      funext k
      simp only [heldAt,pushRead,countP_append,countP_singleton,decide_eq_true_eq]
    rw [hreads]
    refine h.groups.modify (f:=fun n=>n+1) (by omega) (fun k hk=>?_) ?_
    · simp only [if_neg (Ne.symm hk),Nat.add_zero]
    · simp only [if_true]
  · show _ ∧ _ ∧ p.group < e.groups.first+(e.groups.started c.group).list.length
    rw [hlength]
    rcases mem_append.mp hp with hold | hnew
    · exact h.held p hold
    · rw [mem_singleton.mp hnew]
      exact ⟨hgroup,by show e.groups.first ≤ c.group; omega,by show c.group<_; omega⟩
  · cases hc'
    show _ ∧ _ ∧ e.polls < e.groups.first+(e.groups.started c.group).list.length
    rw [hlength]
    exact ⟨hgroup,hpoll,hopen⟩
  · cases hc'
    show c.reads.next.bufferLen=K.bufferLen
    rw [Reads.next,hread]
    exact h.plan c hc
  · show (e.held++[_]).length ≤ K.cqSize
    rw [length_append,length_singleton]
    exact hroom

theorem Core.takeEntry (h : e.Core K) (hnone : e.current=none) (entry : SqEntry (Tracked T)) :
    (e.takeEntry K entry).Core K := by
  have hpolls:=polls_concat e e.polls entry
  have hfirst:=h.groups.first
  have hquiet : entry.isPollDone=false →
      ({ e with taken:=e.taken++[(e.polls,entry)] } : ReadEngine T).Core K ∧
        ({ e with taken:=e.taken++[(e.polls,entry)] } : ReadEngine T).polls=e.polls:=by
    intro hentry
    rw [hentry] at hpolls
    have hsame : ({ e with taken:=e.taken++[(e.polls,entry)] } : ReadEngine T).polls=e.polls:=hpolls
    refine ⟨⟨?_,h.held,fun c hc=>?_,h.plan,fun n hn=>?_,h.cq,h.pollDones,h.order⟩,hsame⟩
    · rw [hsame]
      exact h.groups
    · rw [hsame]
      exact h.current c hc
    · rw [hsame]
      exact h.undelivered n hn
  have hdeliver : ∀ out,entry.isPollDone=false → (∀ a : ℕ,(⟨out,a,none⟩ : Note T).isPollDone=false) →
      ({ e with
        taken:=e.taken++[(e.polls,entry)]
        undelivered:=some ⟨out,e.polls,entry.registration⟩ } : ReadEngine T).Core K:=by
    intro out hentry hout
    obtain ⟨hcore,hsame⟩:=hquiet hentry
    exact hcore.hold fun n hn=>by
      cases hn
      exact ⟨hout 0,hfirst,hsame.ge⟩
  cases entry with
  | attention a =>
    obtain ⟨hcore,hsame⟩:=hquiet rfl
    simp only [ReadEngine.takeEntry,split,TailWatcher.plan]
    split_ifs with hshrink
    · exact hdeliver _ rfl fun _=>rfl
    · obtain ⟨hgroups,hid,hopen,hsameFirst⟩:=hcore.groups.openGroup hcore.heldAt_zero
      have hgrows:=h.groups.openGroup h.heldAt_zero
      refine ⟨hgroups,fun p hp=>?_,fun c hc=>?_,fun c hc=>(by cases hc; rfl),fun n hn=>?_,h.cq,?_,h.order⟩
      · obtain ⟨hpoll,hle,hlt⟩:=h.held p hp
        have hlength:=h.groups.length
        refine ⟨hpoll,?_,?_⟩
        · show e.groups.openGroup.1.first ≤ p.group
          rw [hgrows.2.2.2]
          exact hle
        · show p.group < e.groups.openGroup.1.first+e.groups.openGroup.1.list.length
          have hopen':=hgrows.2.2.1
          omega
      · cases hc
        refine ⟨?_,hsame.symm,hopen⟩
        exact hid.trans hsame
      · obtain ⟨hentry,hle,hle'⟩:=h.undelivered n hn
        refine ⟨hentry,?_,?_⟩
        · show e.groups.openGroup.1.first ≤ n.poll
          rw [hgrows.2.2.2]
          exact hle
        · exact hle'.trans hsame.ge
      · show _=List.range e.groups.openGroup.1.first
        rw [hgrows.2.2.2]
        exact h.pollDones
  | terminal t=>exact hdeliver _ rfl fun _=>rfl
  | pollDone =>
    have hnext : ({ e with taken:=e.taken++[(e.polls,.pollDone)] } : ReadEngine T).polls =
        e.polls+1:=hpolls
    obtain ⟨hgroups,hsameFirst,hend⟩:=h.groups.closeOpen h.heldAt_zero
    have hlength:=h.groups.length
    refine ⟨?_,fun p hp=>?_,fun c hc=>?_,h.plan,fun n hn=>?_,h.cq,?_,h.order⟩
    · show e.groups.closeOpen.Ok
        ({ e with taken:=e.taken++[(e.polls,.pollDone)] } : ReadEngine T).polls e.heldAt
      rw [hnext]
      exact hgroups
    · obtain ⟨hpoll,hle,hlt⟩:=h.held p hp
      refine ⟨hpoll,?_,?_⟩
      · show e.groups.closeOpen.first ≤ p.group
        rw [hsameFirst]
        exact hle
      · show p.group < e.groups.closeOpen.first+e.groups.closeOpen.list.length
        omega
    · have hcurrent : e.current=some c:=hc
      rw [hnone] at hcurrent
      cases hcurrent
    · obtain ⟨hentry,hle,hle'⟩:=h.undelivered n hn
      refine ⟨hentry,?_,?_⟩
      · show e.groups.closeOpen.first ≤ n.poll
        rw [hsameFirst]
        exact hle
      · show n.poll≤({ e with taken:=e.taken++[(e.polls,.pollDone)] } : ReadEngine T).polls
        omega
    · show _=List.range e.groups.closeOpen.first
      rw [hsameFirst]
      exact h.pollDones

/-! ## Deliveries -/

theorem Core.delivered_lt (h : e.Core K) (hn : n ∈ e.delivered) (hdone : n.isPollDone=true) :
    n.poll < e.groups.first := by
  have hmem : n.poll ∈ (e.delivered.filter Note.isPollDone).map Note.poll :=
    List.mem_map_of_mem (mem_filter.mpr ⟨hn,hdone⟩)
  rw [h.pollDones] at hmem
  exact mem_range.mp hmem

theorem Core.order_concat (h : e.Core K) (hfirst : e.groups.first ≤ n.poll) :
    (e.delivered++[n]).Pairwise fun a b => a.isPollDone=true → a.poll < b.poll := by
  refine pairwise_append.mpr ⟨h.order,pairwise_singleton _ _,fun a ha b hb hdone=>?_⟩
  rw [mem_singleton.mp hb]
  exact (h.delivered_lt ha hdone).trans_le hfirst

theorem Core.deliver (h : e.Core K) (hn : e.undelivered=some n) :
    ({ e with undelivered := none,delivered := e.delivered++[n] } : ReadEngine T).Core K := by
  obtain ⟨hentry,hfirst, -⟩:=h.undelivered n hn
  refine ⟨h.groups,h.held,h.current,h.plan,fun n' hn'=>?_,h.cq,?_,h.order_concat hfirst⟩
  · cases hn'
  · show ((e.delivered++[n]).filter Note.isPollDone).map Note.poll=_
    rw [filter_append,filter_singleton,hentry]
    simpa using h.pollDones

theorem Core.deliverPollDone (h : e.Core K) (hnone : e.undelivered=none) (hready : e.groups.ready=true) :
    ({ e with
      groups := e.groups.popReady
      delivered := e.delivered++[⟨.pollDone,e.groups.first,none⟩] } : ReadEngine T).Core K := by
  obtain ⟨hlt,hzero⟩:=h.groups.ready_iff.mp hready
  refine ⟨h.groups.popReady hready,fun p hp=>?_,fun c hc=>?_,h.plan,fun n hn=>?_,h.cq,?_,
    h.order_concat le_rfl⟩
  · obtain ⟨hpoll,hle,hbound⟩:=h.held p hp
    have hne : p.group≠e.groups.first:=by
      intro heq
      have hnot:=countP_eq_zero.mp hzero p hp
      exact hnot (decide_eq_true heq)
    refine ⟨hpoll,?_,?_⟩
    · show e.groups.first+1 ≤ p.group
      omega
    · show p.group < e.groups.first+1+e.groups.list.tail.length
      rw [length_tail]
      omega
  · obtain ⟨hgroup,hpoll,hopen⟩:=h.current c hc
    refine ⟨hgroup,hpoll,?_⟩
    show e.polls < e.groups.first+1+e.groups.list.tail.length
    rw [length_tail]
    omega
  · have hsome : e.undelivered=some n:=hn
    rw [hnone] at hsome
    cases hsome
  · show ((e.delivered++[_]).filter Note.isPollDone).map Note.poll=List.range (e.groups.first+1)
    rw [filter_append,map_append,h.pollDones,range_succ]
    rfl

theorem started_ready {g : Groups} (h : g.ready=false) (id : ℕ) : (g.started id).ready=false := by
  unfold Groups.ready Groups.started at *
  rw [List.head?_eq_getElem?] at h ⊢
  simp only [List.getElem?_modify]
  cases hhead : g.list[0]? with
  | none=>rfl
  | some group =>
    rw [hhead] at h
    simp only [any_some] at h ⊢
    split_ifs
    · simp
    · exact h

structure Ok (K : Config) (e : ReadEngine T) : Prop where
  core : e.Core K
  phase : e.PhaseOk

theorem Ok.new (K : Config) : (ReadEngine.new K : ReadEngine T).Ok K where
  core :=
    { groups :=
        { first:=le_rfl
          length:=Or.inl rfl
          closed:=fun i group hget=>by cases hget
          outstanding:=fun i group hget=>by cases hget }
      held:=fun p hp=>by cases hp
      current:=fun c hc=>by cases hc
      plan:=fun c hc=>by cases hc
      undelivered:=fun n hn=>by cases hn
      cq:=Nat.zero_le _
      pollDones:=rfl
      order:=List.Pairwise.nil }
  phase:=trivial

theorem failureNote_spec {w : Watcher (Tracked T)} {r : Refusal T} (h : failureNote w r=some n) :
    n.isPollDone=false ∧ n.poll=r.poll := by
  obtain ⟨code, -,hnote⟩:=bind_eq_some_iff.mp h
  split_ifs at hnote
  cases hnote
  exact ⟨rfl,rfl⟩

theorem readNote_spec {w : Watcher (Tracked T)} {p : Pending T} {result : Except (Option ℕ) ℕ}
    (h : readNote w p result=some n) : n.isPollDone=false ∧ n.poll=p.poll := by
  cases result with
  | ok read =>
    simp only [readNote] at h
    split_ifs at h
    cases h
    exact ⟨rfl,rfl⟩
  | error code =>
    simp only [readNote] at h
    split_ifs at h
    exact failureNote_spec h

variable {event : Event T}

theorem Ok.does (h : e.Ok K) (hdoes : e.Does K event e') : e'.Ok K := by
  have hfirst:=h.core.groups.first
  cases hdoes with
  | move hphase=>exact ⟨h.core.of_eq rfl fun _ hc=>hc,hphase⟩
  | deliver hn=>exact ⟨(h.core.deliver hn).of_eq rfl fun _ hc=>hc,rfl⟩
  | pollDone hnone hready hat =>
    refine ⟨h.core.deliverPollDone hnone hready,?_⟩
    unfold PhaseOk
    simp only [hat]
    exact hnone
  | @finish index result p watcher hnone hget =>
    obtain ⟨hlt,hp⟩:=List.getElem?_eq_some_iff.mp hget
    obtain ⟨hgroup,hle,hbound⟩:=h.core.held p (hp ▸ getElem_mem hlt)
    have hlength:=h.core.groups.length
    have hcore:=(h.core.settled hget).hold fun n (hn : readNote e.watcher p result=some n)=>by
      obtain ⟨hentry,hpoll⟩:=readNote_spec hn
      exact ⟨hentry,hpoll ▸ hgroup ▸ hle,show n.poll ≤ e.polls by omega⟩
    exact ⟨hcore.of_eq rfl fun _ hc=>hc,trivial⟩
  | @take entry rest =>
    have hcore : ({ e with current:=none,watcher:={ e.watcher with sq:=rest } } : ReadEngine T).Core K :=
      h.core.of_eq rfl fun _ hc=>by cases hc
    exact ⟨(hcore.takeEntry rfl entry).of_eq rfl fun _ hc=>hc,trivial⟩
  | push hnone hready hc hread hroom =>
    refine ⟨h.core.pushed hc hread hroom,hnone,started_ready hready _,?_⟩
    show e.held.length+1=(e.held++[_]).length
    rw [length_append,length_singleton]
  | @drop event phase unsubmitted watcher note hnone hcause hpoll hsettles hnote hmarks hphase =>
    have hdropped : ({ e with
        current:=none,unsubmitted:=unsubmitted,watcher:=watcher,phase:=phase } : ReadEngine T).Core K :=
      h.core.of_eq rfl fun _ hc=>by cases hc
    refine ⟨hdropped.hold fun n hn=>?_,?_⟩
    · rw [hnote] at hn
      obtain ⟨r,hr,hn⟩:=bind_eq_some_iff.mp hn
      obtain ⟨hentry,hn⟩:=failureNote_spec hn
      rw [hn,hpoll r hr]
      exact ⟨hentry,hfirst,le_rfl⟩
    · rcases hphase with rfl | ⟨rfl,hquiet,hready⟩
      · trivial
      · exact ⟨hquiet,hready⟩

/-- The watcher, its clients and a stop request touch nothing of the engine's own. -/
theorem step_cases (h : e.Ok K) (hstep : e.step K event=some e') :
    (∃ watcher stop,(e.stop=true → stop=true) ∧ e.Quiet event ∧
      e'={ e with watcher := watcher,stop := stop }) ∨ e.Does K event e' := by
  have hrun (hstep : e.runStep K e.phase event=some e') : e.Does K event e' :=
    does_runStep h.phase (fun c hc=>(h.core.current c hc).2.1) hstep
  cases event with
  | register offset len value =>
    cases hstep
    exact .inl ⟨_,_,id,⟨rfl,rfl⟩,rfl⟩
  | requestStop =>
    cases hstep
    exact .inl ⟨_,_,fun _=>rfl,⟨rfl,rfl⟩,rfl⟩
  | watcher event =>
    obtain ⟨watcher, -,rfl⟩:=map_eq_some_iff.mp hstep
    exact .inl ⟨_,_,id,⟨rfl,rfl⟩,rfl⟩
  | _=>exact .inr (hrun hstep)

theorem Ok.step (h : e.Ok K) (hstep : e.step K event=some e') : e'.Ok K := by
  rcases step_cases h hstep with ⟨watcher,stop,hstop, -,rfl⟩ | hdoes
  · refine ⟨h.core.of_eq rfl fun _ hc=>hc,?_⟩
    have hphase:=h.phase
    unfold PhaseOk at hphase ⊢
    cases hat : e.phase with
    | submitting pushed ended =>
      rw [hat] at hphase
      cases ended with
      | abandoned=>exact ⟨hphase.1,hphase.2.1,hstop hphase.2.2⟩
      | _=>exact hphase
    | _=>rwa [hat] at hphase
  · exact h.does hdoes

theorem Ok.keeps (h : e.Ok K) (hstep : e.step K event=some e') (hn : e.undelivered=some n) :
    e'.undelivered=some n ∨ e'.undelivered=none ∧ e'.delivered=e.delivered++[n] := by
  rcases step_cases h hstep with ⟨watcher,stop, -, -,rfl⟩ | hdoes
  · exact .inl hn
  cases hdoes with
  | move=>exact .inl hn
  | deliver hn' =>
    cases hn.symm.trans hn'
    exact .inr ⟨rfl,rfl⟩
  | _ hnone=>cases hn.symm.trans hnone

/-! ## The account of a run -/

def notes (e : ReadEngine T) : List (Note T) :=
  (e.delivered.filter fun n => !n.isPollDone) ++ e.undelivered.toList

end ReadEngine

def Pending.has (r k x : ℕ) (p : Pending T) : Bool :=
  decide (p.registration = r ∧ p.poll ≤ k) && spanHas x (p.offset, p.offset + p.len)

def Current.has (r k x : ℕ) (c : Current T) : Bool :=
  decide (c.registration = r ∧ c.poll ≤ k) && spanHas x (c.reads.start, c.reads.stop)

/-- The entry taken announced the offset `x` of `r`, in a poll up to `k`. -/
def takenHas (r k x : ℕ) (t : ℕ × SqEntry (Tracked T)) : Bool :=
  decide (t.1 ≤ k) && (t.2.span r).any (spanHas x)

/-- What was made is delivered or waits, in the order it was made; and each offset announced is planned,
held, settled or given up, as often as it was announced, and given up only for a stop or a refusal. -/
structure Books (K : Config) (ticks : List (Tick T)) (e : ReadEngine T) : Prop where
  taken : e.taken = ticks.reverse.flatMap Tick.takes
  notes : e.notes = ticks.reverse.flatMap (Tick.made K)
  offsets : ∀ r k x, e.taken.countP (takenHas r k x) =
    e.current.toList.countP (Current.has r k x) + e.held.countP (Pending.has r k x) +
      (ticks.filterMap fun t => t.before.settles t.event).countP (fun s => s.1.has r k x) +
      (ticks.flatMap fun t => t.before.drops t.after).countP (Current.has r k x)
  drops : ∀ t ∈ ticks, ∀ c ∈ t.before.drops t.after,
    c.reads.front = none ∨ t.before.stop = true ∨ (t.before.refusal t.event).isSome = true

namespace ReadEngine

variable {K : Config} {e e' : ReadEngine T} {event : Event T} {c : Current T} {read : PlannedRead}

theorem drops_nil (hcurrent : e'.current=e.current) (htaken : e'.taken=e.taken) : e.drops e'=[] := by
  unfold drops
  rw [hcurrent,htaken]
  cases e.current <;> simp

theorem front_span {reads : Reads T} (hbuffer : reads.bufferLen<2 ^ 32)
    (h : reads.front=some read) :
    read.offset=reads.start ∧ read.offset+read.len ≤ reads.stop ∧
      reads.next={ reads with start := read.offset+read.len } := by
  have hnext : reads.next={ reads with start:=read.offset+read.len }:=by
    rw [Reads.next,h]
  unfold Reads.front at h
  split_ifs at h with hend hsmall
  · cases h
    exact ⟨rfl,by simp only; omega,hnext⟩
  · cases h
    exact ⟨rfl,by simp only; omega,hnext⟩

theorem has_next (hbuffer : c.reads.bufferLen<2 ^ 32) (hread : c.reads.front=some read)
    (r k x group : ℕ) :
    (if (⟨c.registration,c.reads.value,read.offset,read.len,group,c.poll⟩ : Pending T).has r k x
      then 1 else 0)+(if ({ c with reads := c.reads.next } : Current T).has r k x then 1 else 0) =
      if c.has r k x then 1 else 0 := by
  obtain ⟨hoffset,hstop,hnext⟩:=front_span hbuffer hread
  rw [hnext]
  simp only [Pending.has,Current.has,spanHas,Bool.and_eq_true,decide_eq_true_eq]
  by_cases hmine : c.registration=r ∧ c.poll ≤ k
  · simp only [hmine,true_and,and_self]
    by_cases hlow : x < read.offset+read.len
    · have hnot : ¬ (read.offset+read.len ≤ x ∧ x < c.reads.stop):=by omega
      have hiff : (read.offset ≤ x ∧ x < read.offset+read.len) ↔ (c.reads.start ≤ x ∧ x < c.reads.stop):=by
        omega
      rw [if_neg hnot,Nat.add_zero]
      exact if_congr hiff rfl rfl
    · have hnot : ¬ (read.offset ≤ x ∧ x < read.offset+read.len):=by omega
      have hiff : (read.offset+read.len ≤ x ∧ x < c.reads.stop) ↔ (c.reads.start ≤ x ∧ x < c.reads.stop):=by
        omega
      rw [if_neg hnot,Nat.zero_add]
      exact if_congr hiff rfl rfl
  · simp only [hmine,false_and,if_false,Nat.add_zero]

/-- What a step adds to the account. -/
structure Adds (K : Config) (e : ReadEngine T) (event : Event T) (e' : ReadEngine T) : Prop where
  taken : ∃ more, e'.taken = e.taken ++ more
  notes : e'.notes = e.notes ++ Tick.made K ⟨e, event, e'⟩
  offsets : ∀ r k x, e'.taken.countP (takenHas r k x) + e.current.toList.countP (Current.has r k x) +
      e.held.countP (Pending.has r k x) =
    e.taken.countP (takenHas r k x) + e'.current.toList.countP (Current.has r k x) +
      e'.held.countP (Pending.has r k x) + (e.settles event).toList.countP (fun s => s.1.has r k x) +
      (e.drops e').countP (Current.has r k x)
  drops : ∀ c ∈ e.drops e',
    c.reads.front = none ∨ e.stop = true ∨ (e.refusal event).isSome = true

theorem Adds.quiet (hquiet : e.Quiet event) (htaken : e'.taken=e.taken) (hcurrent : e'.current=e.current)
    (hheld : e'.held=e.held) (hnotes : e'.notes=e.notes) : e.Adds K event e' := by
  have hdrops : e.drops e'=[]:=drops_nil hcurrent htaken
  refine ⟨⟨[],by simp [htaken]⟩,?_,fun r k x=>?_,fun c hc=>?_⟩
  · simp [Tick.made,Tick.takes,hquiet.1,hquiet.2,htaken,hnotes]
  · simp [hdrops,hquiet.1,htaken,hcurrent,hheld]
  · rw [hdrops] at hc
    cases hc

theorem takeEntry_spec (hnone : e.undelivered=none) (hplan : e.current=none)
    (entry : SqEntry (Tracked T)) : ∃ groups current,
      e.takeEntry K entry =
        { e with
          taken := e.taken++[(e.polls,entry)]
          groups := groups
          current := current
          undelivered := owed K (e.polls,entry) } ∧
      ∀ r k x,current.toList.countP (Current.has r k x)=if takenHas r k x (e.polls,entry) then 1 else 0 := by
  cases entry with
  | attention a =>
    simp only [takeEntry,split,TailWatcher.plan,owed]
    split_ifs with hshrink
    · refine ⟨e.groups,none,by rw [← hplan],fun r k x=>?_⟩
      have hempty : ¬ (a.lastKnown ≤ x ∧ x < a.current):=by omega
      by_cases hr : a.value.registration=r <;> simp [takenHas,SqEntry.span,spanHas,hr,hempty]
    · refine ⟨_,_,by rw [← hnone],fun r k x=>?_⟩
      rw [toList_some,countP_singleton]
      congr 1
      by_cases hr : a.value.registration=r <;>
        simp [Current.has,takenHas,SqEntry.span,SqEntry.registration,hr]
  | terminal t=>exact ⟨e.groups,none,by rw [← hplan]; rfl,fun _ _ _=>by simp [takenHas,SqEntry.span]⟩
  | pollDone =>
    have howed : owed K (e.polls,.pollDone)=e.undelivered:=hnone.symm
    exact ⟨e.groups.closeOpen,none,by rw [howed,← hplan]; rfl,fun _ _ _=>by simp [takenHas,SqEntry.span]⟩

theorem Adds.take (hnone : e.undelivered=none) {entry : SqEntry (Tracked T)}
    {rest : List (SqEntry (Tracked T))} (hplan : e.current ≠ none → e.stop=true) :
    e.Adds K .go { ({ e with current := none,watcher := { e.watcher with sq := rest } } :
      ReadEngine T).takeEntry K entry with phase := .deliver } := by
  obtain ⟨groups,current,heq,hcount⟩:=takeEntry_spec (K:=K) (e:={ e with
    current:=none,watcher:={ e.watcher with sq:=rest } }) hnone rfl entry
  have hdrops {e' : ReadEngine T} (htaken : e'.taken=e.taken++[(e.polls,entry)]) :
      ReadEngine.drops e e'=e.current.toList:=by
    simp [ReadEngine.drops,htaken]
  rw [heq]
  refine ⟨⟨_,rfl⟩,?_,fun r k x=>?_,fun c hc=>.inr (.inl (hplan ?_))⟩
  · simp [ReadEngine.notes,Tick.made,Tick.takes,settles,refusal,hnone,polls]
    rfl
  · rw [hdrops rfl]
    simp only [countP_append,countP_singleton,hcount r k x,settles,toList_none,countP_nil]
    omega
  · rw [hdrops rfl] at hc
    simp [mem_toList.mp hc]

theorem Does.adds (h : e.Core K) (hdoes : e.Does K event e') : e.Adds K event e' := by
  cases hdoes with
  | move _ _ hquiet=>exact .quiet hquiet rfl rfl rfl rfl
  | deliver hn =>
    refine .quiet ⟨rfl,rfl⟩ rfl rfl rfl ?_
    simp [ReadEngine.notes,hn,(h.undelivered _ hn).1]
  | pollDone hnone=>exact .quiet ⟨rfl,rfl⟩ rfl rfl rfl (by simp [ReadEngine.notes,hnone,Note.isPollDone])
  | @finish index result p watcher hnone hget =>
    obtain ⟨hlt,hp⟩:=List.getElem?_eq_some_iff.mp hget
    have hperm : (p::e.held.eraseIdx index).Perm e.held:=hp ▸ getElem_cons_eraseIdx_perm hlt
    have hdrops : ∀ {groups : Groups} {undelivered : Option (Note T)},e.drops { e with
        held:=e.held.eraseIdx index,groups:=groups,watcher:=watcher,undelivered:=undelivered,
        phase:=.deliver }=[]:=drops_nil rfl rfl
    refine ⟨⟨[],by simp⟩,?_,fun r k x=>?_,fun c hc=>?_⟩
    · simp [ReadEngine.notes,Tick.made,Tick.takes,settles,refusal,hget,hnone]
    · rw [hdrops,← hperm.countP_eq,countP_cons]
      simp only [settles,hget,map_some,toList_some,countP_singleton,countP_nil]
      omega
    · rw [hdrops] at hc
      cases hc
  | take hnone _ hplan=>exact .take hnone hplan
  | @push c read pushed hnone hready hc hread hroom =>
    refine ⟨⟨[],(append_nil _).symm⟩,?_,fun r k x=>?_,fun c' hc'=>?_⟩
    · simp [ReadEngine.notes,Tick.made,Tick.takes,settles,refusal,pushRead]
    · have hsplit:=has_next ((h.plan c hc).trans_lt K.bufferLen_lt) hread r k x c.group
      simp only [drops,pushRead,settles,hc,countP_append,toList_some,countP_singleton,toList_none,
        countP_nil,isNone_some,Bool.false_eq_true,ne_eq,not_true_eq_false,false_or,if_false]
      omega
    · simp [drops,pushRead] at hc'
  | @drop event phase unsubmitted watcher note hnone hcause hpoll hsettles hnote =>
    have hdrops : e.drops { e with
        current:=none,unsubmitted:=unsubmitted,watcher:=watcher,undelivered:=note,phase:=phase } =
        e.current.toList:=by
      simp [drops]
    refine ⟨⟨[],(append_nil _).symm⟩,?_,fun r k x=>?_,fun c hc=>hcause c ?_⟩
    · simp [ReadEngine.notes,Tick.made,Tick.takes,hsettles,hnone,hnote]
    · rw [hdrops,hsettles]
      simp only [toList_none,countP_nil]
      omega
    · rw [hdrops] at hc
      exact mem_toList.mp hc

end ReadEngine

section Runs

variable {K : Config} {ticks : List (Tick T)} {e : ReadEngine T}

theorem Run.ok (run : Run K ticks e) : e.Ok K := by
  induction run with
  | start hinit=>exact hinit ▸ ReadEngine.Ok.new K
  | next run event hstep ih=>exact ih.step hstep

theorem Run.books (run : Run K ticks e) : Books K ticks e := by
  induction run with
  | start hinit =>
    subst hinit
    exact ⟨rfl,rfl,fun _ _ _=>rfl,fun _ ht=>by cases ht⟩
  | @next ticks e e' run event hstep ih =>
    have hadds : e.Adds K event e':=by
      rcases step_cases (Run.ok run) hstep with ⟨watcher,stop, -,hquiet,rfl⟩ | hdoes
      · exact .quiet hquiet rfl rfl rfl rfl
      · exact hdoes.adds (Run.ok run).core
    refine ⟨?_,?_,fun r k x=>?_,fun t ht=>?_⟩
    · obtain ⟨more,hmore⟩:=hadds.taken
      simp [Tick.takes,hmore,← ih.taken]
    · rw [hadds.notes,ih.notes]
      simp
    · have hstep:=hadds.offsets r k x
      have hold:=ih.offsets r k x
      rw [flatMap_cons,countP_append]
      rw [filterMap_cons]
      cases hs : e.settles event with
      | none | some s =>
        simp only [hs,toList_none,toList_some,countP_nil,countP_cons] at hstep ⊢
        omega
    · rcases mem_cons.mp ht with rfl | hold
      · exact hadds.drops
      · exact ih.drops t hold

theorem ReadEngine.Ok.all_done (h : e.Ok K) {stop : Stop} (hphase : e.phase=.lastSettle stop)
    (hheld : e.held=[]) : e.groups.first=e.polls := by
  have hready:=h.phase
  rw [ReadEngine.PhaseOk,hphase] at hready
  have hfirst:=h.core.groups.first
  by_contra hne
  have hzero : e.heldAt e.groups.first=0:=by
    rw [heldAt,hheld]
    rfl
  have hyes:=h.core.groups.ready_iff.mpr ⟨by omega,hzero⟩
  rw [hready.2] at hyes
  cases hyes

/-- The poll-dones are delivered in order, each once, with nothing of a poll after its own. What the polls'
entries made is delivered or waiting, each once and in the order made, and each offset they announced is
planned, held, settled, or given up for a stop or a refusal, of which nothing planned, held or waiting is of
a poll whose poll-done is delivered. No entry waiting for the client is overwritten, and a run that stops
with nothing held has delivered every poll-done. -/
theorem poll_done_ends_poll (run : Run K ticks e) :
    ((e.delivered.filter Note.isPollDone).map Note.poll = List.range e.groups.first ∧
      e.groups.first ≤ e.polls) ∧
    (e.delivered.Pairwise fun a b => a.isPollDone = true → a.poll < b.poll) ∧
    Books K ticks e ∧
    ((∀ p ∈ e.held, e.groups.first ≤ p.poll) ∧
      (∀ c, e.current = some c → e.groups.first ≤ c.poll) ∧
      ∀ n, e.undelivered = some n → n.isPollDone = false ∧ e.groups.first ≤ n.poll) ∧
    (∀ event e', e.step K event = some e' → ∀ n, e.undelivered = some n →
      e'.undelivered = some n ∨ e'.undelivered = none ∧ e'.delivered = e.delivered ++ [n]) ∧
    (∀ p ∈ e.held, p.group = p.poll ∧ e.groups.first ≤ p.group ∧
      ∃ group, e.groups.list[p.group - e.groups.first]? = some group ∧
        group.outstanding = e.heldAt p.group) ∧
    e.held.length ≤ K.cqSize ∧
    ∀ stop, e.phase = .lastSettle stop → e.held = [] → e.groups.first = e.polls := by
  have h:=run.ok
  refine ⟨⟨h.core.pollDones,h.core.groups.first⟩,h.core.order,run.books,⟨fun p hp=>?_,fun c hc=>?_,
    fun n hn=>?_⟩,fun event e' hstep n hn=>h.keeps hstep hn,fun p hp=>?_,h.core.cq,
    fun stop hphase hheld=>h.all_done hphase hheld⟩
  · obtain ⟨hgroup,hle, -⟩:=h.core.held p hp
    exact hgroup ▸ hle
  · obtain ⟨-,hpoll, -⟩:=h.core.current c hc
    exact hpoll ▸ h.core.groups.first
  · obtain ⟨hentry,hle, -⟩:=h.core.undelivered n hn
    exact ⟨hentry,hle⟩
  · obtain ⟨hgroup,hle,hlt⟩:=h.core.held p hp
    have hindex : p.group-e.groups.first < e.groups.list.length:=by omega
    refine ⟨hgroup,hle,_,List.getElem?_eq_getElem hindex,?_⟩
    have hreads:=h.core.groups.outstanding _ _ (List.getElem?_eq_getElem hindex)
    rw [Nat.add_sub_cancel' hle] at hreads
    exact hreads

def smallConfig : Config := ⟨4, 2, 8, by decide, by decide⟩

theorem smallRun : Run (T := ℕ) smallConfig [] (.new smallConfig) := .start rfl

/-- A file of ten bytes is polled, and its two reads complete in the other order. -/
def tenBytes : List (Event ℕ) :=
  [.register 0 0 5, .watcher .poll, .watcher (.snapshot true), .watcher (.snapshot true),
    .watcher (.probe (.ok 10)), .watcher (.probe (.ok 0)), .watcher .report, .watcher .report,
    .run, .go, .go, .go, .pop .none, .go, .go, .go, .pop .none, .go, .push .pushed, .push .pushed, .go,
    .submit true, .go, .go, .pop .none, .go, .go, .go, .pop (.completion 1 (.ok 2)), .clientPush true, .go,
    .pop (.completion 0 (.ok 8)), .clientPush true, .clientPush true, .go, .pop .none, .go]

theorem poll_done_ends_poll_ten_bytes : ∃ ticks e, Run (T := ℕ) smallConfig ticks e ∧
    e.delivered.map Note.entry = [.data ⟨5, 8, 10⟩, .data ⟨5, 0, 8⟩, .pollDone] ∧
    (e.delivered.filter Note.isPollDone).map Note.poll = List.range e.groups.first := by
  obtain ⟨ticks,e,run,hcheck⟩:=smallRun.play (plainly _) named_allows tenBytes
    (fun _ e=>decide (e.delivered.map Note.entry=[.data ⟨5,8,10⟩,.data ⟨5,0,8⟩,.pollDone]))
    (by decide +kernel)
  exact ⟨ticks,e,run,of_decide_eq_true hcheck,(poll_done_ends_poll run).1.1⟩

end Runs

end WindowsThreadpoolSys.TailWatcher
