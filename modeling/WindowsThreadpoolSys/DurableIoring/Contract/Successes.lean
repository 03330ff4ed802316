import WindowsThreadpoolSys.DurableIoring.Contract.Coverage

/-! Nothing raises a part's `ok` flag but a call that tells of the part's success. So for each part that a
covered write depends on, such a call was made by then. -/
namespace WindowsThreadpoolSys.DurableIoring
open Library Durability List Table

variable {E T I : Type} [LinearOrder E] {d d' : Durability E T I} {c c' : Change E T I} {l : Key}
  {ticks : List (Tick E T I)}

/-- A call told that the flush of `file` for `l`'s seal `q` succeeded. -/
def FlushSucceeded (ticks : List (Tick E T I)) (l : Key) (file : IoTargetKey) (q : ℕ) : Prop :=
  ∃ t ∈ ticks, ∃ s ∈ sealsOf t.before.seals l, s.seq = q ∧ t.call = .flushed l s.through file none

/-- A call told that the domain's commit for the seal succeeded. -/
def CommitSucceeded (ticks : List (Tick E T I)) (k : DomainKey) : Prop :=
  ∃ t ∈ ticks, t.call = .provided k.lineage k.seq k.domain none

structure PartsTold (ticks : List (Tick E T I)) (d : Durability E T I) : Prop where
  file : ∀ l file q e, d.spans.get ⟨l, file, .sealed q⟩ = some e → e.ok = true →
    FlushSucceeded ticks l file q
  domain : ∀ k part, d.sealDomains.get k = some part → part.ok = true → CommitSucceeded ticks k

theorem PartsTold.mono {ticks' : List (Tick E T I)} (h : PartsTold ticks d) (hsub : ticks ⊆ ticks') :
    PartsTold ticks' d where
  file l file q e he hok := by
    obtain ⟨t,ht,hrest⟩:=h.file l file q e he hok
    exact ⟨t,hsub ht,hrest⟩
  domain k part hpart hok:=by
    obtain ⟨t,ht,hcall⟩:=h.domain k part hpart hok
    exact ⟨t,hsub ht,hcall⟩

section

variable (h : PartsTold ticks d)
include h

theorem PartsTold.sub (hspans : FlagsFrom d.spans d'.spans)
    (hdomains : d'.sealDomains.Sub d.sealDomains) : PartsTold ticks d' where
  file l file q e' he' hok := by
    obtain ⟨e,he, -,hsame⟩:=hspans _ e' he'
    exact h.file l file q e he (hsame.trans hok)
  domain k part hpart:=h.domain k part (hdomains k part hpart)

theorem PartsTold.retireIfDrained (l : Key) : PartsTold ticks (d.retireIfDrained l) := by
  rw [(d.retireIfDrained_frame l).choose_spec]
  exact ⟨h.file,h.domain⟩

theorem PartsTold.cover {q : ℕ} (hspans : SpansOk d.writes d.spans) (hok : d.cover l q=.ok d') :
    PartsTold ticks d' := by
  rcases cover_ok hok with rfl | ⟨mid,reads,told,hgo,rfl⟩
  · exact h
  · have hflags:=letGo_flags hspans hgo
    obtain ⟨spans,window,kept,rfl⟩:=letGo_ok hgo
    exact h.sub hflags (.refl _)

theorem PartsTold.answer {through : E} {file : IoTargetKey} {failedNow : Bool} {q : ℕ}
    {domains : DomainList} (hans : d.answer l through file failedNow=.ok (q,domains,d'))
    (htold : failedNow=false → ∃ t ∈ ticks,t.before=d ∧ t.call=.flushed l through file none) :
    PartsTold ticks d' := by
  obtain ⟨s,n,failed,entry,hs,rfl,rfl, -, -, -, -, -,rfl⟩:=answer_ok hans
  refine ⟨fun l' file' q' e he hok=>?_,h.domain⟩
  rcases of_insert he with ⟨hk,rfl⟩ | he
  · cases hk
    obtain ⟨t,ht,rfl,hcall⟩:=htold (by simpa using hok)
    exact ⟨t,ht,s,hs,rfl,hcall⟩
  · exact h.file l' file' q' e he hok

theorem PartsTold.answerDomain {s : Seal E} {n : ℕ} {failed failedNow : Bool} {domain : DomainId}
    (htold : failedNow=false → CommitSucceeded ticks ⟨l,s.seq,domain⟩) :
    PartsTold ticks (d.answerDomain l s n failed failedNow domain) := by
  refine ⟨h.file,fun k part hpart hok=>?_⟩
  rcases of_insert hpart with ⟨rfl,rfl⟩ | hpart
  · exact htold (by simpa using hok)
  · exact h.domain k part hpart hok

theorem PartsTold.start {st : LineageState E} {s : Seal E} (hinv : Inv d) (starts : Starts d l st s)
    {due : Due E T I} (hstart : startSeal ⟨d,due⟩ l s=.ok c') : PartsTold ticks c'.core := by
  obtain ⟨n,sealDomains,hn,hasked,rfl⟩:=startSeal_ok hstart
  have hnaming:=hinv.toTablesOk.naming starts.lineage starts.live starts.queued starts.waits hn
  refine ⟨fun l' file q e he hok=>?_,fun k part hpart hok=>?_⟩
  · by_cases hthis : l'=l ∧ q=s.seq
    · obtain ⟨rfl,rfl⟩:=hthis
      have hans:=hnaming.spans.ok_answered _ e he hok
      rw [hnaming.fresh _ e he] at hans
      cases hans
    · rw [hnaming.other _ (by simpa using hthis)] at he
      exact h.file l' file q e he hok
  · rw [askDomains_get hasked] at hpart
    split_ifs at hpart
    · cases hpart
      cases hok
    · exact h.domain k part hpart hok

end

theorem PartsTold.observe {cause : FailureCause} {reach : Reach} {only : Option Key} {id : FailureId}
    (h : PartsTold ticks c.core) (hok : observe c cause reach only=.ok (id,c')) : PartsTold ticks c'.core := by
  obtain ⟨slot,freeTokens,window,told, -, -, -, -, -,hcore, -⟩:=observe_ok hok
  rw [hcore]
  exact ⟨h.file,h.domain⟩

theorem AdvanceStep.partsTold (hstep : AdvanceStep c c') (hinv : Inv c.core)
    (h : PartsTold ticks c.core) : PartsTold ticks c'.core := by
  cases hstep with
  | progress l step =>
    cases step with
    | start starts hok=>exact h.start hinv starts hok
    | empties live =>
      obtain ⟨st,hst, -⟩:=isLive_iff.mp live
      rcases finishEmpties_cases hst with heq | ⟨e, -, -,heq⟩ <;> rw [heq] <;> exact ⟨h.file,h.domain⟩
    | seals live =>
      rcases c.core.finishSeals_cases l with heq | ⟨s, -, -, -,heq⟩ <;> rw [heq] <;>
        exact ⟨h.file,h.domain⟩
  | healed=>exact ⟨h.file,h.domain⟩
  | mark l step =>
    cases step with
    | pass passes free hok =>
      obtain ⟨window,d₂,d₃, -,hgo,hforget,rfl⟩:=passSeal_ok hok
      have hflags:=letGo_flags (by exact hinv.spans) hgo
      obtain ⟨spans,window₂,kept,rfl⟩:=letGo_ok hgo
      obtain ⟨window₃, -,rfl⟩:=forgetAbandoned_ok hforget
      exact h.sub hflags (domainsWithout_sub _ _ _ _)
    | @answer place=>cases place <;> exact ⟨h.file,h.domain⟩

variable {call : Call E T}

theorem Prepared.partsTold (hprep : Prepared d call c) (hinv : Inv d)
    (htick : ∃ t ∈ ticks,t.before=d ∧ t.call=call) (h : PartsTold ticks d) : PartsTold ticks c.core := by
  cases hprep with
  | succeeded | recordedSeal | strayFlush=>exact ⟨h.file,h.domain⟩
  | @gone op end_ w mid reads told hw hstage hone hend =>
    obtain ⟨spans,window,kept,hleave, -, -,rfl⟩:=letGoOne_ok hw hone
    have hleft : PartsTold ticks { d with spans }:=h.sub ((FlagsFrom.refl _).leave hleave) (.refl _)
    unfold begin_
    simp only
    split_ifs
    · exact ⟨hleft.file,hleft.domain⟩
    · refine PartsTold.retireIfDrained ?_ _
      exact ⟨hleft.file,hleft.domain⟩
  | @emptySeal l through st hst hlive habove hcycle hpin =>
    rcases recordEmpty_core (c:=begin_ (d.sealing l st through)) (Empty.new d.sealsMade through)
        (get_insert_self ..) with ⟨s, -,heq⟩ | ⟨-,heq⟩ <;> rw [heq] <;> exact ⟨h.file,h.domain⟩
  | @endedFlush l through file result st q domains d₁ d₂ d₃ hst hended hans hgo hretain =>
    have hdomains:=retainSealing_domains hretain
    have hflags:=letGo_flags (hinv.toTablesOk.answerFlush hans).spans hgo
    have hanswered : PartsTold ticks d₁:=h.answer hans fun hok=>by
      cases result with
      | none=>exact htick
      | some fault=>cases hok
    obtain ⟨spans,window,kept,rfl⟩:=letGo_ok hgo
    obtain ⟨window, -,rfl⟩:=retainSealing_ok hretain
    refine PartsTold.retireIfDrained ?_ _
    exact hanswered.sub hflags hdomains
  | flushOk hst hlive hans hcover =>
    exact (h.answer hans fun _=>htick).cover (hinv.toTablesOk.answerFlush hans).spans hcover
  | flushFailed hst hlive hans hobserve =>
    refine PartsTold.observe ?_ hobserve
    exact h.answer hans fun hok=>by cases hok
  | domainOk hst hlive hs hstage hpart hans hcover =>
    obtain ⟨t,ht, -,hcall⟩:=htick
    exact (h.answerDomain fun _=>⟨t,ht,hcall⟩).cover
      (hinv.toTablesOk.answerDomain hs hstage hpart).spans hcover
  | domainFailed hst hlive hs hstage hpart hans hobserve =>
    refine PartsTold.observe ?_ hobserve
    exact h.answerDomain fun hok=>by cases hok
  | imported hobserve=>exact PartsTold.observe (c:=begin_ d) h hobserve
  | resolved hinstance hfold =>
    obtain ⟨-, -, -,hspans,hdomains⟩:=resolved_same hfold
    exact h.sub (hspans ▸ .refl _) (hdomains ▸ .refl _)
  | ended hst hlive hne hforget hgo hretain =>
    have hflags:=letGoEnded_flags hgo
    have hdomains:=retainSealing_domains hretain
    obtain ⟨window, -,rfl⟩:=forgetAbandoned_ok hforget
    obtain ⟨spans,window,kept,rfl⟩:=letGoEnded_ok hgo
    obtain ⟨window, -,rfl⟩:=retainSealing_ok hretain
    refine PartsTold.retireIfDrained ?_ _
    exact h.sub hflags hdomains

theorem Quiet.partsTold (hquiet : Quiet d call d') (h : PartsTold ticks d) : PartsTold ticks d' := by
  cases hquiet.quieted with
  | places | tokens | mint | relist=>exact ⟨h.file,h.domain⟩
  | joins held heldByEpoch hfrom hin =>
    obtain ⟨inFlightByEpoch,spans,window, -, -,henter, -,rfl⟩:=inFlight_ok hin
    refine ⟨fun l file q e he hok=>h.file l file q e ?_ hok,h.domain⟩
    rw [← Spans.enter_get_of_ne henter (by simp)]
    exact he
  | forget hf hresolved hok heq =>
    rw [heq,(releaseReach_frame _ _).choose_spec]
    exact ⟨h.file,h.domain⟩
  | endPopped =>
    refine PartsTold.retireIfDrained ?_ _
    exact ⟨h.file,h.domain⟩
  | retire hforget =>
    obtain ⟨window, -,rfl⟩:=forgetAbandoned_ok hforget
    exact ⟨h.file,h.domain⟩

/-! ## Runs -/

theorem Run.partsTold (run : Run ticks d) : PartsTold ticks d ∧ ∀ t ∈ ticks,PartsTold ticks t.before := by
  induction run using Run.steps with
  | new hinit =>
    cases hinit
    exact ⟨⟨fun _ _ _ _ he=>(by cases he),fun _ _ hpart=>(by cases hpart)⟩,fun t ht=>(by cases ht)⟩
  | @step ticks d call change run hinv hpromised hcall ih =>
    have hwide:=ih.1.mono (subset_cons_self ⟨d,⟨call,change⟩,change.core⟩ ticks)
    refine ⟨?_,forall_mem_cons.mpr ⟨hwide,fun t ht=>(ih.2 t ht).mono (subset_cons_self ..)⟩⟩
    rcases call_calls hinv hcall with ⟨d',rfl,hquiet⟩ | ⟨c₁,hprep,hadvance⟩
    · exact hquiet.partsTold hwide
    · have hinv₁:=hprep.inv hinv hpromised
      exact (steps_invariant (P:=fun s=>Inv s.core ∧ PartsTold _ s.core) (advance_steps hinv₁ hadvance).1
        ⟨hinv₁,hprep.partsTold hinv ⟨_,mem_cons_self,rfl,rfl⟩ hwide⟩
        fun _ _ hstep hs=>⟨hstep.inv hs.1,hstep.partsTold hs.1 hs.2⟩).2

/-- Each part that a covered write depends on was told to have succeeded. -/
theorem Run.covered_told {op : OpId} (run : Run ticks d) (hcovered : (pastOf ticks).covered op) :
    ∃ t ∈ ticks,∃ w q,t.before.writes.get op=some w ∧ w.stage=.named q ∧
      (w.routing.default=true → FlushSucceeded ticks w.lineage w.file q) ∧
      ∀ domain ∈ t.before.lists.get w.domains,domain ∈ t.before.served →
        CommitSucceeded ticks ⟨w.lineage,q,domain⟩ := by
  obtain ⟨t,ht,mid,w,q,hans,hw,hstage,hdefault,hdomains⟩:=hcovered
  have hbefore:=(Run.partsTold run).2 t ht
  have hmid : PartsTold ticks mid ∧ mid.lists=t.before.lists ∧ mid.served=t.before.served:=by
    rcases hans with ⟨l,through,file,q',domains,hcall,hans⟩ |
      ⟨l,s,n,failed,domain,part,hcall, -, -, -, -,rfl⟩
    · refine ⟨hbefore.answer hans fun _=>⟨t,ht,rfl,hcall⟩,?_⟩
      obtain ⟨s,n,failed,entry, -, -, -, -, -, -, -, -,rfl⟩:=answer_ok hans
      exact ⟨rfl,rfl⟩
    · exact ⟨hbefore.answerDomain fun _=>⟨t,ht,hcall⟩,rfl,rfl⟩
  obtain ⟨htold,hlists,hserved⟩:=hmid
  rw [hlists,hserved] at hdomains
  refine ⟨t,ht,w,q,hw,hstage,fun hrouted=>?_,fun domain hmem hserves=>?_⟩
  · obtain ⟨e,he,hok⟩:=hdefault hrouted
    exact htold.file _ _ _ e he hok
  · obtain ⟨part,hpart,hok⟩:=hdomains domain hmem hserves
    exact htold.domain _ part hpart hok

end WindowsThreadpoolSys.DurableIoring
