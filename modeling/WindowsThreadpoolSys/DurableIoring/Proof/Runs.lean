import WindowsThreadpoolSys.DurableIoring.Proof.Reachable

/-! What each operation that makes something due does before its advance, and with it that every state a
run reaches keeps the invariant and is quiescent. -/
namespace WindowsThreadpoolSys.DurableIoring
open Library Durability Option

variable {E T I : Type} [LinearOrder E] {d d' : Durability E T I} {c : Change E T I} {l : Key}

/-! ## The start -/

section Start

variable (instance_ : InstanceId) (clock : ℕ → I) (capacity : Capacity) (served : List DomainId)
  (observed : Bool)

theorem new_lineage {st : LineageState E} (h : (new instance_ clock capacity served observed :
      Durability E T I).lineages.get l=some st) : l=defaultLineage ∧ st=LineageState.new := by
  unfold new at h
  simp only at h
  rcases Table.of_insert h with ⟨hl,rfl⟩ | h
  · exact ⟨hl,rfl⟩
  · cases h

theorem Inv.new (hserved : served.Pairwise (·<·)) :
    Inv (new instance_ clock capacity served observed : Durability E T I) where
  keys :=
    { write_key:=fun _ _ h=>(by cases h)
      held_key:=fun _ _ h=>(by cases h)
      held_write_key:=fun _ _ _ h=>(by cases h)
      seal_key:=fun _ _ h=>(by cases h)
      kept_key:=fun _ _ h=>(by cases h)
      write_not_held:=fun _ _ h=>(by cases h)
      kept_not_write:=fun _ _ h=>(by cases h)
      kept_not_held:=fun _ _ h=>(by cases h) }
  clocks :=
    { write_clock:=fun _ _ h=>(by cases h)
      held_clock:=fun _ _ _ h=>(by cases h)
      kept_clock:=fun _ _ h=>(by cases h)
      lineage_clock:=fun l st h=>by
        rw [(new_lineage instance_ clock capacity served observed h).1]
        exact Nat.lt_succ_self _ }
  counts :=
    { inFlight_proper:=Counts.proper_empty
      held_proper:=Counts.proper_empty
      inFlight_count:=fun _ _=>rfl
      held_count:=fun _ _=>rfl
      gated_iff:=fun k g=>⟨fun h=>(by cases h),fun ⟨h,a,hh,_⟩=>(by cases hh)⟩ }
  spans :=
    { proper:=Spans.proper_empty
      count:=fun _=>rfl
      unsealed_entry:=fun _ _ _ h=>(by cases h)
      answered_flushed:=fun _ _ h=>(by cases h)
      ok_answered:=fun _ _ h=>(by cases h) }
  lives :=
    { default_live:=⟨LineageState.new,Table.get_insert_self _ _ _,rfl⟩
      write_lineage:=fun _ _ h=>(by cases h)
      seal_lineage:=fun _ _ h=>(by cases h)
      domain_seal:=fun _ _ h=>(by cases h) }
  marks:=fun l st h _=>by
    obtain ⟨-,rfl⟩:=new_lineage instance_ clock capacity served observed h
    exact {
      queue:=QueueOk.nil_iff.mpr rfl
      made_lt:=fun x hx=>(by cases hx)
      write_at:=fun _ _ h=>(by cases h)
      held_at:=fun _ _ _ h=>(by cases h) }
  parts :=
    { flushing:=fun _ _ _ _ h=>(by cases h)
      done_file:=fun _ _ _ h=>(by cases h)
      done_domain:=fun _ _ _ h=>(by cases h)
      named_seal:=fun _ _ _ h=>(by cases h)
      named_flush:=fun _ _ _ h=>(by cases h)
      flushed_default:=fun _ _ _ _ h=>(by cases h)
      named_asked:=fun _ _ _ _ h=>(by cases h)
      asked_write:=fun _ _ _ h=>(by cases h)
      part_ok:=fun _ _ h=>(by cases h)
      failed_answered:=fun _ _ h=>(by cases h) }
  files :=
    { served_sorted:=hserved
      write_routed:=fun _ _ _ h=>(by cases h)
      held_routed:=fun _ _ _ h=>(by cases h)
      same_write:=fun _ _ _ _ h=>(by cases h)
      same_held:=fun _ _ _ _ _ h=>(by cases h)
      held_same:=fun _ _ _ _ _ _ h=>(by cases h)
      entry_domains:=fun _ _ _ h=>(by cases h) }
  suspects :=
    { order:=List.Pairwise.nil
      clock:=fun _ h=>(by cases h)
      listed_sorted:=fun _ h=>(by cases h)
      write_named:=fun _ h=>(by cases h)
      kept_named:=fun _ h=>(by cases h)
      listed_record:=fun _ h=>(by cases h)
      kept_listed:=fun _ _ h=>(by cases h) }
  tokens :=
    { slot:=fun _ h=>(by cases h)
      free:=⟨List.nodup_range,fun slot hslot=>by
        unfold Durability.new at hslot ⊢
        simpa using hslot⟩
      distinct:=List.Pairwise.nil
      live_open:=fun slot n h=>by
        unfold Durability.new at h
        rw [List.getElem?_replicate] at h
        split_ifs at h
        cases h }
  cover:=fun _ _ _ _ h=>(by cases h)
  ends :=
    { ended_write:=fun _ _ _ h=>(by cases h)
      ended_seal:=fun _ _ _ h=>(by cases h)
      held_lineage:=fun _ _ _ h=>(by cases h)
      gate_lineage:=fun _ _ h=>(by cases h)
      abandoned_lineage:=fun _ _ h=>(by cases h) }
  window :=
    { proper:=Window.proper_empty
      size_le:=Nat.zero_le _
      held_level:=fun _ _ h=>(by cases h)
      uncovered_level:=fun _=>rfl
      suspect_level:=fun _=>rfl
      pin_level:=fun _=>rfl
      abandoned_level:=fun _=>rfl
      seal_pin:=fun _ _ h=>(by cases h)
      abandoned_pin:=fun _ _ h=>(by cases h) }

theorem Quiescent.new :
    Quiescent (new instance_ clock capacity served observed : Durability E T I) where
  settled l _ :=
    { waiting:=fun _ h=>(by cases h)
      flushing:=fun _ h=>(by cases h)
      empty:=fun e he _=>by
        rcases he with ⟨st,hst,hleading⟩ | ⟨s,hs, -⟩
        · obtain ⟨-,rfl⟩:=new_lineage instance_ clock capacity served observed hst
          cases hleading
        · cases hs }
  stands l _ :=
    { held:=fun st through recorded hst hnext=>by
        obtain ⟨-,rfl⟩:=new_lineage instance_ clock capacity served observed hst
        cases hnext
      answered:=fun place through hdue=>by
        unfold answerable at hdue
        cases hst : (Durability.new instance_ clock capacity served observed :
            Durability E T I).lineages.get l with
        | none =>
          rw [hst] at hdue
          cases hdue
        | some st =>
          rw [hst] at hdue
          obtain ⟨-,rfl⟩:=new_lineage instance_ clock capacity served observed hst
          cases place <;> cases hdue }
  healed _ h:=(by cases h)

end Start

/-! ## What a call does before its advance -/

/-- The change a call that makes something due has made when it comes to advance. -/
inductive Prepared (d : Durability E T I) : Call E T → Change E T I → Prop where
  | succeeded {op : OpId} {w : Write E T} (hw : d.writes.get op = some w)
      (hstage : w.stage = .inFlight) (hlive : d.isLive w.lineage = true) :
      Prepared d (.completed op .succeeded) (begin_
        { d with
          writes := d.writes.insert op { w with stage := .completed }
          inFlightByEpoch := d.inFlightByEpoch.countDown w.lineage w.epoch })
  | gone {op : OpId} {end_ : WriteEnd} {w : Write E T} {mid : Durability E T I} {reads : ℕ}
      {told : Option (List (Told E I))} (hw : d.writes.get op = some w)
      (hstage : w.stage = .inFlight) (hone : d.letGoOne op = .ok mid)
      (hend : end_ = .succeeded → d.isLive w.lineage = false) :
      Prepared d (.completed op end_) (begin_
        (if d.isLive w.lineage then
          { mid with
            reads := reads, told := told
            inFlightByEpoch := d.inFlightByEpoch.countDown w.lineage w.epoch }
        else retireIfDrained
          { mid with
            reads := reads, told := told
            inFlightByEpoch := d.inFlightByEpoch.countDown w.lineage w.epoch } w.lineage))
  | emptySeal {l : Key} {through : E} {st : LineageState E} (hst : d.lineages.get l = some st)
      (hlive : st.ended = false) (habove : above st.sealedThrough through = true)
      (hcycle : d.sealCycle l through = false) (hpin : d.pinnedBy l through = none) :
      Prepared d (.sealThrough l through)
        (recordEmpty (begin_ (d.sealing l st through)) l (Empty.new d.sealsMade through))
  | recordedSeal {l : Key} {through : E} {st : LineageState E} {op : OpId} {window : Window}
      (hst : d.lineages.get l = some st) (hlive : st.ended = false)
      (habove : above st.sealedThrough through = true) (hcycle : d.sealCycle l through = false)
      (hpin : d.pinnedBy l through = some op)
      (hhold : d.window.hold d.capacity.operations op .pin = .ok window) :
      Prepared d (.sealThrough l through) (begin_ (d.pinning l st through op window))
  | strayFlush {l : Key} {through : E} {file : IoTargetKey} {result : Option IoFault}
      {st : LineageState E} (hst : d.lineages.get l = some st) (hended : st.ended = true) :
      Prepared d (.flushed l through file result) (begin_ d)
  | endedFlush {l : Key} {through : E} {file : IoTargetKey} {result : Option IoFault}
      {st : LineageState E} {q : ℕ} {domains : DomainList} {d₁ d₂ d₃ : Durability E T I}
      (hst : d.lineages.get l = some st) (hended : st.ended = true)
      (hans : d.answer l through file result.isSome = .ok (q, domains, d₁))
      (hgo : d₁.letGo (fun w => decide (w.lineage = l) && decide (w.file = file) &&
        decide (w.stage = .named q)) = .ok d₂)
      (hretain : d₂.retainSealing l = .ok d₃) :
      Prepared d (.flushed l through file result) (begin_ (d₃.retireIfDrained l))
  | flushOk {l : Key} {through : E} {file : IoTargetKey} {st : LineageState E} {q : ℕ}
      {domains : DomainList} {d₁ d₂ : Durability E T I} (hst : d.lineages.get l = some st)
      (hlive : st.ended = false)
      (hans : d.answer l through file false = .ok (q, domains, d₁)) (hcover : d₁.cover l q = .ok d₂) :
      Prepared d (.flushed l through file none) (begin_ d₂)
  | flushFailed {l : Key} {through : E} {file : IoTargetKey} {fault : IoFault}
      {st : LineageState E} {q : ℕ} {domains : DomainList} {d₁ : Durability E T I} {id : FailureId}
      {c₁ : Change E T I} (hst : d.lineages.get l = some st) (hlive : st.ended = false)
      (hans : d.answer l through file true = .ok (q, domains, d₁))
      (hobserve : observe (begin_ d₁) (.commit file fault)
        (Reach.ofFile domains) none = .ok (id, c₁)) :
      Prepared d (.flushed l through file (some fault)) c₁
  | domainOk {l : Key} {domain : DomainId} {st : LineageState E} {s : Seal E} {n : ℕ}
      {failed : Bool} {part : SealDomain} {d₂ : Durability E T I}
      (hst : d.lineages.get l = some st) (hlive : st.ended = false)
      (hs : d.seals.get ⟨l, s.seq⟩ = some s) (hstage : s.stage = .flushing n failed)
      (hpart : d.sealDomains.get ⟨l, s.seq, domain⟩ = some part) (hans : part.answered = false)
      (hcover : (d.answerDomain l s n failed false domain).cover l s.seq = .ok d₂) :
      Prepared d (.provided l s.seq domain none) (begin_ d₂)
  | domainFailed {l : Key} {domain : DomainId} {cause : FailureCause} {st : LineageState E}
      {s : Seal E} {n : ℕ} {failed : Bool} {part : SealDomain} {id : FailureId}
      {c₁ : Change E T I} (hst : d.lineages.get l = some st) (hlive : st.ended = false)
      (hs : d.seals.get ⟨l, s.seq⟩ = some s) (hstage : s.stage = .flushing n failed)
      (hpart : d.sealDomains.get ⟨l, s.seq, domain⟩ = some part) (hans : part.answered = false)
      (hobserve : observe (begin_ (d.answerDomain l s n failed true domain))
        cause (.domain domain) none = .ok (id, c₁)) :
      Prepared d (.provided l s.seq domain (some cause)) c₁
  | imported {cause : FailureCause} {reach : Reach} {only : Option Key} {id : FailureId}
      {c₁ : Change E T I}
      (hobserve : observe (begin_ d) cause reach only = .ok (id, c₁)) :
      Prepared d (.import_ cause reach only) c₁
  | resolved {items : List (FailureToken × Resolution)} {c₁ : Change E T I}
      (hinstance : ∀ item ∈ items, item.1.id.instance_ = d.instance_)
      (hfold : items.foldlM resolveOne (begin_ d) = .ok c₁) :
      Prepared d (.resolve items) (releaseHealed c₁)
  | ended {l : Key} {st : LineageState E} {d₂ d₄ d₅ : Durability E T I}
      (hst : d.lineages.get l = some st) (hlive : st.ended = false) (hne : l ≠ defaultLineage)
      (hforget : forgetAbandoned { d with lineages := d.lineages.insert l st.finish } l
        none = .ok d₂)
      (hgo : letGoEnded
        { d₂ with writes := d₂.writes.map fun _ w => w.stopAt l d₂.nextFailure } l = .ok d₄)
      (hretain : retainSealing
        { d₄ with seals := d₄.seals.map fun k s => s.untrail l k } l = .ok d₅) :
      Prepared d (.end_ l)
        ⟨(endHeld
          ⟨d₅, ⟨[], [.lineageEnded l (d.abandonedThrough l st)], [], []⟩⟩ l).core.retireIfDrained l,
        (endHeld
          ⟨d₅, ⟨[], [.lineageEnded l (d.abandonedThrough l st)], [], []⟩⟩ l).due⟩

variable {call : Call E T}

theorem Prepared.inv (h : Inv d) (hpromised : d.Promised call)
    (hprep : Prepared d call c) : Inv c.core := by
  cases hprep with
  | succeeded hw hstage hlive=>exact h.complete hw hstage hlive
  | @gone op end_ w mid reads told hw hstage hone hend =>
    have hmid:=h.letGoInFlight hw hstage hone
    have hmarked : Inv { mid with
        reads:=reads,told:=told
        inFlightByEpoch:=d.inFlightByEpoch.countDown w.lineage w.epoch } :=
      ⟨{ hmid.toTablesOk with },hmid.cover,hmid.ends,hmid.window⟩
    unfold begin_
    simp only
    split_ifs
    · exact hmarked
    · exact hmarked.retireIfDrained _
  | emptySeal hst hlive habove hcycle hpin=>exact h.makeEmpty hst hlive habove hpin
  | recordedSeal hst hlive habove hcycle hpin hhold =>
    exact h.makeRecorded hst hlive habove hpin hhold
  | strayFlush=>exact h
  | endedFlush hst hended hans hgo hretain =>
    exact (h.flushedEnded hst hended hans hgo hretain).retireIfDrained _
  | flushOk hst hlive hans hcover=>exact h.flushSucceeded hst hlive hans hcover
  | flushFailed hst hlive hans hobserve =>
    exact Inv.observe (c:=begin_ _) (h.flushFailed hst hlive hans) hobserve
  | domainOk hst hlive hs hstage hpart hans hcover =>
    exact h.domainSucceeded hst hlive hs hstage hpart hcover
  | domainFailed hst hlive hs hstage hpart hans hobserve =>
    exact Inv.observe (c:=begin_ _) (h.domainFailed hst hlive hs hstage hpart) hobserve
  | imported hobserve=>exact Inv.observe (c:=begin_ d) h hobserve
  | resolved hinstance hfold =>
    refine Inv.releaseHealed (Inv.resolveAll (c:=begin_ d) h hpromised.1 hinstance
      (fun item hitem=>?_) hfold)
    exact hpromised.2 item hitem (hinstance item hitem)
  | ended hst hlive hne hforget hgo hretain=>exact h.endLineage hst hne hforget hgo hretain

/-! ## What a call does -/

/-- The change of a call that makes nothing due. A refused call, and an answer that comes too late,
change nothing. -/
inductive Quiet (d : Durability E T I) : Call E T → Durability E T I → Prop where
  | same {call : Call E T} : Quiet d call d
  | admit_ {op : OpId} {d' : Durability E T I} (hok : d.admit_ op = .ok d') : Quiet d (.admit_ op) d'
  | popped {op : OpId} {d' : Durability E T I} (hok : d.popped op = .ok d') : Quiet d (.popped op) d'
  | pushed {a : Accepted E T} {d' : Durability E T I} (hok : d.pushed a = .ok d') :
      Quiet d (.pushed a) d'
  | hold {op : OpId} {write : Option (Accepted E T)} {gate : Gate E} {d' : Durability E T I}
      (hok : d.hold op write gate = .ok d') : Quiet d (.hold op write gate) d'
  | issued {op : OpId} {d' : Durability E T I} (hok : d.issued op = .ok d') : Quiet d (.issued op) d'
  | takeToken {id : FailureId} {token : FailureToken} {d' : Durability E T I}
      (htake : d.takeToken id = some (token, d')) : Quiet d (.takeToken id) d'
  | dropToken {token : FailureToken} : Quiet d (.dropToken token) (d.dropToken token)
  | forget {id : FailureId} {d' : Durability E T I} (hok : d.forget id = .ok d') :
      Quiet d (.forget id) d'
  | mint {k : Key} {d' : Durability E T I} (hok : d.mint = .ok (k, d')) : Quiet d .mint d'
  | endPopped {l : Key} {d' : Durability E T I} (hok : d.endPopped l = .ok d') :
      Quiet d (.endPopped l) d'
  | retire {l : Key} {d' : Durability E T I} (hok : d.retire l = .ok (.ok d')) :
      Quiet d (.retire l) d'
  | relist {lists : DomainLists} : Quiet d (.relist lists) { d with lists := lists }

def Calls (d : Durability E T I) (call : Call E T) (c : Change E T I) : Prop :=
  (∃ d', c = begin_ d' ∧ Quiet d call d') ∨
    ∃ c₁, Prepared d call c₁ ∧ advance c₁ = .ok c

theorem Keeps.refl (d : Durability E T I) : Keeps d d := places d d.window d.tokens

theorem Durability.takeToken_frame {id : FailureId} {token : FailureToken} {d' : Durability E T I}
    (htake : d.takeToken id=some (token,d')) : ∃ tokens,d'={ d with tokens := tokens } := by
  unfold takeToken at htake
  cases hfind : d.failures.find? fun f=>decide (f.id=id) with
  | none =>
    rw [hfind] at htake
    cases htake
  | some f =>
    simp only [hfind] at htake
    split_ifs at htake
    cases htake
    exact ⟨_,rfl⟩

theorem Durability.dropToken_frame (d : Durability E T I) (token : FailureToken) :
    ∃ tokens,d.dropToken token={ d with tokens := tokens } := by
  unfold dropToken
  split_ifs
  · exact ⟨_,rfl⟩
  · exact ⟨d.tokens,rfl⟩

theorem Quiet.inv {d' : Durability E T I} (hquiet : Quiet d call d') (h : Inv d)
    (hq : Quiescent d) (hpromised : d.Promised call) : Inv d' := by
  cases hquiet with
  | same=>exact h
  | admit_ hok=>exact h.admit_ hok
  | popped hok=>exact h.popped hpromised hok
  | pushed hok=>exact h.pushed hpromised hok
  | @hold op write gate d' hok =>
    cases write with
    | none=>exact h.hold hpromised.1 hpromised.2 (fun a ha=>(by cases ha)) hok
    | some a =>
      obtain ⟨hop,hjoins,hgate, -⟩:=hpromised
      exact h.hold (hop ▸ hjoins.fresh) hgate (fun b hb=>by cases hb; exact ⟨hop,hjoins⟩) hok
  | issued hok=>exact h.issued hok
  | takeToken htake=>exact h.takeToken htake
  | dropToken=>exact h.dropToken _
  | forget hok=>exact h.forget hok
  | mint hok=>exact h.mint hok
  | endPopped hok=>exact h.endPopped hok
  | retire hok=>exact h.retire hq hok
  | relist=>exact h.relist hpromised

theorem Quiet.keeps {d' : Durability E T I} (hquiet : Quiet d call d')
    (h : Inv d) (h' : Inv d') (hpromised : d.Promised call) : Keeps d d' := by
  cases hquiet with
  | same=>exact Keeps.refl d
  | admit_ hok =>
    unfold Durability.admit_ at hok
    rw [bind_eq_ok] at hok
    obtain ⟨window, -,hok⟩:=hok
    cases hok
    exact Keeps.places d window d.tokens
  | popped hok =>
    unfold Durability.popped at hok
    rw [bind_eq_ok] at hok
    obtain ⟨window, -,hok⟩:=hok
    cases hok
    exact Keeps.places d window d.tokens
  | pushed hok=>exact Keeps.pushed h hpromised hok
  | @hold op write gate d' hok =>
    cases write with
    | none=>exact Keeps.hold h h' hpromised.1 hok
    | some a=>exact Keeps.hold h h' (hpromised.1 ▸ hpromised.2.1.fresh) hok
  | issued hok=>exact Keeps.issued h hok
  | @takeToken id token d' htake =>
    obtain ⟨tokens,rfl⟩:=takeToken_frame htake
    exact Keeps.places d d.window _
  | @dropToken token =>
    obtain ⟨tokens,heq⟩:=d.dropToken_frame token
    rw [heq]
    exact Keeps.places d d.window _
  | forget hok=>exact Keeps.forget h hok
  | mint hok=>exact Keeps.mint h hok
  | endPopped hok=>exact Keeps.endPopped hok
  | retire hok=>exact Keeps.retire hok
  | relist=>exact Keeps.relist hpromised

inductive Quieted (d : Durability E T I) : Call E T → Durability E T I → Prop where
  | places {call : Call E T} (nextPush : ℕ) (window : Window) (held : Table OpId (HeldOp E T))
      (heldByEpoch : Counts E) (gated : Table (GatedKey E) (Gate E)) :
      Quieted d call { d with nextPush, window, held, heldByEpoch, gated }
  | tokens {call : Call E T} {tokens : List TokenSlot}
      (hfrom : (∃ id token, call = .takeToken id ∧
          d.takeToken id = some (token, { d with tokens })) ∨
        ∃ token, call = .dropToken token ∧ { d with tokens } = d.dropToken token) :
      Quieted d call { d with tokens }
  | joins {call : Call E T} {a : Accepted E T} {wasHeld : Bool} {d' : Durability E T I}
      (held : Table OpId (HeldOp E T)) (heldByEpoch : Counts E)
      (hfrom : call = .pushed a ∨
        ∃ op g, call = .issued op ∧ d.held.get op = some g ∧ g.write = some a)
      (hin : inFlight { d with held, heldByEpoch } a wasHeld = .ok d') : Quieted d call d'
  | forget {f : Failure I} {window : Window} {d' : Durability E T I} (hf : f ∈ d.failures)
      (hresolved : f.standing = .resolved) (hok : d.forget f.id = .ok d')
      (heq : d' = releaseReach (d.forgot f window) f.reach) : Quieted d (.forget f.id) d'
  | mint : Quieted d .mint d.minted
  | endPopped {l : Key} {st : LineageState E} (hst : d.lineages.get l = some st)
      (hended : st.ended = true) : Quieted d (.endPopped l)
        (retireIfDrained
          { d with lineages := d.lineages.insert l { st with endUnpopped := false } } l)
  | retire {l : Key} {mid : Durability E T I} (hforget : d.forgetAbandoned l none = .ok mid) :
      Quieted d (.retire l) { mid with lineages := mid.lineages.erase l }
  | relist {lists : DomainLists} : Quieted d (.relist lists) { d with lists := lists }

theorem Quiet.quieted {d' : Durability E T I} (hquiet : Quiet d call d') : Quieted d call d' := by
  cases hquiet with
  | same=>exact .places d.nextPush d.window d.held d.heldByEpoch d.gated
  | admit_ hok | popped hok =>
    first | unfold Durability.admit_ at hok | unfold Durability.popped at hok
    rw [bind_eq_ok] at hok
    obtain ⟨window, -,hok⟩:=hok
    cases hok
    exact .places d.nextPush window d.held d.heldByEpoch d.gated
  | @pushed a d' hok=>exact .joins d.held d.heldByEpoch (.inl rfl) hok
  | hold hok =>
    obtain ⟨-, -,⟨-,rfl⟩ | ⟨a,heldByEpoch, -, -,rfl⟩⟩:=hold_ok hok
    · exact .places d.nextPush d.window _ d.heldByEpoch d.gated
    · exact .places _ d.window _ heldByEpoch _
  | @issued op d' hok =>
    obtain ⟨g,hg, -,⟨-,rfl⟩ | ⟨a,ha,hin⟩⟩:=issued_ok hok
    · exact .places d.nextPush d.window _ d.heldByEpoch d.gated
    · exact .joins _ _ (.inr ⟨op,g,rfl,hg,ha⟩) hin
  | @takeToken id token d' htake =>
    obtain ⟨tokens,rfl⟩:=takeToken_frame htake
    exact .tokens (.inl ⟨id,token,rfl,htake⟩)
  | @dropToken token =>
    obtain ⟨tokens,heq⟩:=d.dropToken_frame token
    rw [heq]
    exact .tokens (.inr ⟨token,rfl,heq.symm⟩)
  | @forget id d' hok =>
    obtain ⟨f,window,hf,rfl,hresolved, -,heq⟩:=forget_ok hok
    exact .forget hf hresolved hok heq
  | mint hok =>
    obtain ⟨-,rfl⟩:=mint_ok hok
    exact .mint
  | endPopped hok =>
    obtain ⟨st,hst,hended,rfl⟩:=endPopped_ok hok
    exact .endPopped hst hended
  | retire hok =>
    obtain ⟨st,mid, -, -, -, -, -, -, -,hforget,rfl⟩:=retire_ok hok
    exact .retire hforget
  | relist=>exact .relist

theorem Inv.joins_fresh (h : Inv d) (hpromised : d.Promised call) {a : Accepted E T}
    (hfrom : call=.pushed a ∨ ∃ op g,call=.issued op ∧ d.held.get op=some g ∧ g.write=some a) :
    d.writes.get a.op=none ∧ d.kept.get a.op=none := by
  constructor <;> refine eq_none_iff_forall_ne_some.mpr fun w hw=>?_
  · rcases hfrom with rfl | ⟨op,g,rfl,hg,ha⟩
    · exact absurd (h.clocks.write_clock a.op w hw).1 (not_lt.mpr hpromised.fresh.pushed)
    · have hnone:=h.keys.write_not_held a.op w hw
      rw [h.keys.held_write_key op g a hg ha,hg] at hnone
      cases hnone
  · rcases hfrom with rfl | ⟨op,g,rfl,hg,ha⟩
    · exact absurd (h.clocks.kept_clock a.op w hw).1 (not_lt.mpr hpromised.fresh.pushed)
    · have hnone:=h.keys.kept_not_held a.op w hw
      rw [h.keys.held_write_key op g a hg ha,hg] at hnone
      cases hnone

theorem completed_calls {op : OpId} {end_ : WriteEnd} (hok : d.completed op end_=.ok c) :
    ∃ c₁,Prepared d (.completed op end_) c₁ ∧ advance c₁=.ok c := by
  obtain ⟨w,hw,hstage,⟨rfl,hlive,hadvance⟩ | ⟨mid,reads,told,hone,hend,hadvance⟩⟩:=completed_ok hok
  · exact ⟨_,.succeeded hw hstage hlive,hadvance⟩
  · exact ⟨_,.gone hw hstage hone hend,hadvance⟩

theorem seal_calls {through : E} (hok : (d.sealThrough l through).map (fun
      | .submitted c => c
      | .alreadySealed _ => begin_ d
      | .cycle => begin_ d)=.ok c) : Calls d (.sealThrough l through) c := by
  obtain ⟨answer,hseal,rfl⟩:=map_eq_ok.mp hok
  cases answer with
  | submitted c₀ =>
    obtain ⟨st,hst,hlive,habove,hcycle,⟨hpin,hadvance⟩ | ⟨op,window,hpin,hhold,hadvance⟩⟩ :=
      sealThrough_ok hseal
    · exact .inr ⟨_,.emptySeal hst hlive habove hcycle hpin,hadvance⟩
    · exact .inr ⟨_,.recordedSeal hst hlive habove hcycle hpin hhold,hadvance⟩
  | alreadySealed state | cycle=>exact .inl ⟨d,rfl,.same⟩

theorem flushed_calls {through : E} {file : IoTargetKey} {result : Option IoFault}
    (hok : d.flushed l through file result=.ok c) : Calls d (.flushed l through file result) c := by
  unfold flushed at hok
  cases hst : d.lineages.get l with
  | none =>
    rw [hst] at hok
    cases hok
    exact .inl ⟨d,rfl,.same⟩
  | some st =>
    simp only [hst] at hok
    cases hended : st.ended with
    | true =>
      simp only [hended,if_true] at hok
      cases hans : d.answer l through file result.isSome with
      | error e =>
        rw [hans] at hok
        exact .inr ⟨_,.strayFlush hst hended,hok⟩
      | ok answered =>
        obtain ⟨q,domains,d₁⟩:=answered
        simp only [hans] at hok
        rw [bind_eq_ok] at hok
        obtain ⟨d₂,hgo,hok⟩:=hok
        rw [bind_eq_ok] at hok
        obtain ⟨d₃,hretain,hok⟩:=hok
        exact .inr ⟨_,.endedFlush hst hended hans hgo hretain,hok⟩
    | false =>
      simp only [hended,if_neg Bool.false_ne_true] at hok
      rw [bind_eq_ok] at hok
      obtain ⟨⟨q,domains,d₁⟩,hans,hok⟩:=hok
      cases result with
      | none =>
        simp only at hok
        rw [bind_eq_ok] at hok
        obtain ⟨d₂,hcover,hok⟩:=hok
        exact .inr ⟨_,.flushOk hst hended hans hcover,hok⟩
      | some fault =>
        simp only at hok
        rw [bind_eq_ok] at hok
        obtain ⟨⟨id,c₁⟩,hobserve,hok⟩:=hok
        exact .inr ⟨_,.flushFailed hst hended hans hobserve,hok⟩

theorem provided_calls {q : ℕ} {domain : DomainId} {outcome : Option FailureCause} (h : Inv d)
    (hok : d.provided l q domain outcome=.ok c) : Calls d (.provided l q domain outcome) c := by
  unfold provided at hok
  cases hlive : d.isLive l with
  | false =>
    simp only [hlive,Bool.not_false,if_true] at hok
    cases hok
    exact .inl ⟨d,rfl,.same⟩
  | true =>
    obtain ⟨st,hst,hended⟩:=isLive_iff.mp hlive
    simp only [hlive,Bool.not_true,if_neg Bool.false_ne_true] at hok
    cases hs : d.seals.get ⟨l,q⟩ with
    | none =>
      rw [hs] at hok
      cases hok
    | some s =>
      have hseq : s.seq=q:=h.keys.seal_key _ s hs
      subst hseq
      simp only [hs] at hok
      cases hstage : s.stage with
      | waiting | done succeeded =>
        rw [hstage] at hok
        cases hok
      | flushing n failed =>
        simp only [hstage] at hok
        cases hpart : d.sealDomains.get ⟨l,s.seq,domain⟩ with
        | none =>
          rw [hpart] at hok
          cases hok
        | some part =>
          simp only [hpart] at hok
          cases hans : part.answered with
          | true =>
            simp only [hans,if_true] at hok
            cases hok
          | false =>
            simp only [hans,if_neg Bool.false_ne_true] at hok
            cases outcome with
            | none =>
              simp only [isNone_none,isSome_none] at hok
              rw [bind_eq_ok] at hok
              obtain ⟨d₂,hcover,hok⟩:=hok
              exact .inr ⟨_,.domainOk hst hended hs hstage hpart hans hcover,hok⟩
            | some cause =>
              simp only [isNone_some,isSome_some] at hok
              rw [bind_eq_ok] at hok
              obtain ⟨⟨id,c₁⟩,hobserve,hok⟩:=hok
              exact .inr ⟨_,.domainFailed hst hended hs hstage hpart hans hobserve,hok⟩

theorem resolve_calls {items : List (FailureToken × Resolution)}
    (hok : (d.resolve items).map (fun r => r.toOption.getD (begin_ d))=.ok c) :
    Calls d (.resolve items) c := by
  obtain ⟨answer,hanswer,rfl⟩:=map_eq_ok.mp hok
  unfold resolve at hanswer
  cases hforeign : items.find? fun item=>decide (item.1.id.instance_≠d.instance_) with
  | some item =>
    rw [hforeign] at hanswer
    cases hanswer
    exact .inl ⟨d,rfl,.same⟩
  | none =>
    simp only [hforeign,bind_eq_ok] at hanswer
    obtain ⟨c₁,hfold,c₂,hadvance,hanswer⟩:=hanswer
    cases hanswer
    have hinstance : ∀ item ∈ items,item.1.id.instance_=d.instance_:=by
      intro item hitem
      have hnot:=List.find?_eq_none.mp hforeign item hitem
      simpa using hnot
    exact .inr ⟨_,.resolved hinstance hfold,hadvance⟩

theorem import_calls {cause : FailureCause} {reach : Reach} {only : Option Key}
    (hok : (d.import_ cause reach only).map Prod.snd=.ok c) :
    Calls d (.import_ cause reach only) c := by
  obtain ⟨⟨id,c₂⟩,himport,rfl⟩:=map_eq_ok.mp hok
  simp only [import_,bind_eq_ok] at himport
  obtain ⟨⟨id,c₁⟩,hobserve,c₂,hadvance,himport⟩:=himport
  cases himport
  exact .inr ⟨c₁,.imported hobserve,hadvance⟩

theorem end_calls (hok : d.end_ l=.ok c) : Calls d (.end_ l) c := by
  obtain ⟨st,d₂,d₄,d₅,hst,hlive,hne,hforget,hgo,hretain,c₁,rfl,hadvance⟩:=end_ok hok
  exact .inr ⟨_,.ended hst hlive hne hforget hgo hretain,hadvance⟩

theorem call_calls (h : Inv d) (hok : d.call call=.ok c) : Calls d call c := by
  cases call with
  | admit_ op =>
    obtain ⟨d',hmade,rfl⟩:=map_eq_ok.mp hok
    exact .inl ⟨d',rfl,.admit_ hmade⟩
  | popped op =>
    obtain ⟨d',hmade,rfl⟩:=map_eq_ok.mp hok
    exact .inl ⟨d',rfl,.popped hmade⟩
  | pushed a =>
    obtain ⟨d',hmade,rfl⟩:=map_eq_ok.mp hok
    exact .inl ⟨d',rfl,.pushed hmade⟩
  | hold op write gate =>
    obtain ⟨d',hmade,rfl⟩:=map_eq_ok.mp hok
    exact .inl ⟨d',rfl,.hold hmade⟩
  | issued op =>
    obtain ⟨d',hmade,rfl⟩:=map_eq_ok.mp hok
    exact .inl ⟨d',rfl,.issued hmade⟩
  | completed op end_=>exact .inr (completed_calls hok)
  | sealThrough l through=>exact seal_calls hok
  | flushed l through file result=>exact flushed_calls hok
  | provided l q domain outcome=>exact provided_calls h hok
  | import_ cause reach only=>exact import_calls hok
  | resolve items=>exact resolve_calls hok
  | takeToken id =>
    cases hok
    cases htake : d.takeToken id with
    | none=>exact .inl ⟨d,rfl,.same⟩
    | some taken=>exact .inl ⟨taken.2,rfl,.takeToken htake⟩
  | dropToken token =>
    cases hok
    exact .inl ⟨_,rfl,.dropToken⟩
  | forget id =>
    obtain ⟨d',hmade,rfl⟩:=map_eq_ok.mp hok
    exact .inl ⟨d',rfl,.forget hmade⟩
  | mint =>
    obtain ⟨minted,hmint,rfl⟩:=map_eq_ok.mp hok
    exact .inl ⟨minted.2,rfl,.mint hmint⟩
  | end_ l=>exact end_calls hok
  | endPopped l =>
    obtain ⟨d',hmade,rfl⟩:=map_eq_ok.mp hok
    exact .inl ⟨d',rfl,.endPopped hmade⟩
  | retire l =>
    obtain ⟨answer,hretire,rfl⟩:=map_eq_ok.mp hok
    cases answer with
    | error busy=>exact .inl ⟨d,rfl,.same⟩
    | ok d'=>exact .inl ⟨d',rfl,.retire hretire⟩
  | relist lists =>
    cases hok
    exact .inl ⟨_,rfl,.relist⟩

/-! ## Reachable states -/

theorem call_keeps (h : Inv d) (hq : Quiescent d) (hpromised : d.Promised call)
    (hok : d.call call=.ok c) : Inv c.core ∧ Quiescent c.core := by
  rcases call_calls h hok with ⟨d',rfl,hquiet⟩ | ⟨c₁,hprep,hadvance⟩
  · have h':=hquiet.inv h hq hpromised
    exact ⟨h',(hquiet.keeps h h' hpromised).quiescent hq⟩
  · have h₁:=hprep.inv h hpromised
    exact ⟨h₁.advance hadvance,(advance_steps h₁ hadvance).2⟩

theorem Run.keeps {ticks : List (Tick E T I)} (run : Run ticks d) : Inv d ∧ Quiescent d :=
  run.invariant (P:=fun d=>Inv d ∧ Quiescent d) (Q:=fun _=>True) (fun _ _=>trivial)
    (fun _ ⟨instance_,clock,capacity,served,observed,_,hserved⟩ =>
      ⟨Inv.new instance_ clock capacity served observed hserved,
        Quiescent.new instance_ clock capacity served observed⟩)
    fun _ _ _ hd _ ⟨_,_,hpromised,hok⟩=>call_keeps hd.1 hd.2 hpromised hok

/-- Induction over the calls of a run, each made on a core that keeps the invariant. -/
@[elab_as_elim]
theorem Run.steps {motive : ∀ (ticks : List (Tick E T I)) (d : Durability E T I),Run ticks d → Prop}
    (new : ∀ {d} (hinit : Initial d),motive [] d (.start hinit))
    (step : ∀ {ticks d call change} (run : Run ticks d) (_ : Inv d) (hpromised : d.Promised call)
      (hcall : d.call call=.ok change),motive ticks d run →
      motive _ _ (run.next _ (.make call change hpromised hcall)))
    {ticks : List (Tick E T I)} {d : Durability E T I} (run : Run ticks d) : motive ticks d run := by
  induction run with
  | start hinit=>exact new hinit
  | next run event hstep ih=>cases hstep with
    | make call change hpromised hcall=>exact step run (Run.keeps run).1 hpromised hcall ih

end WindowsThreadpoolSys.DurableIoring
