import WindowsThreadpoolSys.DurableIoring.Proof.Completing

/-! Ending a lineage stops its writes being nameable, lets go of those nothing is out for, drops its
seals but those with a flush out, and stops what is held for it. What its flushes still out leave
behind goes as they answer. -/
namespace WindowsThreadpoolSys.DurableIoring
open Library Durability List Table Option

variable {E T I : Type} [LinearOrder E] {d d' : Durability E T I} {l : Key} {op : OpId}
  {w : Write E T} {abandoned : Table (EpochKey E) OpId} {q : ℕ}

/-! ## A lineage marked ended -/

def LineageState.finish (st : LineageState E) : LineageState E :=
  { st with ended := true, endUnpopped := true, leading := none }

def Write.stopAt (l : Key) (now : ℕ) (w : Write E T) : Write E T :=
  if w.lineage = l then { w with until_ := some (w.until_.getD now) } else w

section

omit [LinearOrder E]

theorem Write.stopAt_eq (l : Key) (now : ℕ) (w : Write E T) : w.stopAt l now =
      { w with stage := (w.stopAt l now).stage,until_ := (w.stopAt l now).until_ } := by
  unfold stopAt
  split_ifs <;> rfl

theorem Write.stopAt_stage (l : Key) (now : ℕ) (w : Write E T) :
    (w.stopAt l now).stage=w.stage ∧ (w.stopAt l now).lineage=w.lineage ∧
      (w.stopAt l now).epoch=w.epoch ∧ (w.stopAt l now).file=w.file ∧
      (w.stopAt l now).routing=w.routing ∧ (w.stopAt l now).domains=w.domains := by
  unfold stopAt
  split_ifs <;> exact ⟨rfl,rfl,rfl,rfl,rfl,rfl⟩

theorem Write.stopAt_spanKey (l : Key) (now : ℕ) (w : Write E T) :
    (w.stopAt l now).spanKey=w.spanKey := by
  obtain ⟨hstage,hlineage, -,hfile, -, -⟩:=w.stopAt_stage l now
  unfold spanKey
  rw [hstage,hlineage,hfile]

theorem Write.stopAt_namedBy {now : ℕ} (w : Write E T) {f : Failure I} (lists : DomainLists)
    (hclock : f.id.seq < now) : (w.stopAt l now).namedBy lists f=w.namedBy lists f := by
  unfold stopAt
  split_ifs
  · unfold namedBy Failure.names
    cases w.until_ <;> simp [hclock]
  · rfl

end

def Durability.ending (d : Durability E T I) (l : Key) (st : LineageState E) : Durability E T I :=
  { d with
    lineages := d.lineages.insert l st.finish
    writes := d.writes.map fun _ w => w.stopAt l d.nextFailure }

section Ending

variable {st : LineageState E}

theorem live_of_ending {l' : Key} {st' : LineageState E}
    (hst' : (d.lineages.insert l st.finish).get l'=some st') (hlive : st'.ended=false) :
    l' ≠ l ∧ d.lineages.get l'=some st' := by
  rcases insert_cases hst' with ⟨-,rfl⟩ | ⟨hl,hst'⟩
  · cases hlive
  · exact ⟨hl,hst'⟩

omit [LinearOrder E] in
theorem ending_write {writes : Table OpId (Write E T)} {now : ℕ} {w' : Write E T}
    (hw' : (writes.map fun _ w => w.stopAt l now).get op=some w') :
    ∃ w,writes.get op=some w ∧ w'=w.stopAt l now := by
  rw [Table.get_map] at hw'
  obtain ⟨w,hw,rfl⟩:=map_eq_some_iff.mp hw'
  exact ⟨w,hw,rfl⟩

theorem LivesOk.ending (h : TablesOk d) (hst : d.lineages.get l=some st)
    (hne : l ≠ defaultLineage) :
    LivesOk (d.ending l st).lineages (d.ending l st).writes d.seals d.sealDomains d.served
      d.nextFailure where
  default_live := by
    obtain ⟨st₀,hst₀,hlive⟩:=h.lives.default_live
    exact ⟨st₀,by rw [Durability.ending,get_insert_of_ne _ _ hne.symm,hst₀],hlive⟩
  write_lineage op w' hw':=by
    obtain ⟨w,hw,rfl⟩:=ending_write hw'
    obtain ⟨st₀,hst₀,huntil,hended⟩:=h.lives.write_lineage op w hw
    rw [(w.stopAt_stage l d.nextFailure).2.1]
    by_cases hl : w.lineage=l
    · refine ⟨st.finish,by rw [hl,Durability.ending,get_insert_self],
        fun hlive=>(by cases hlive),fun _=>?_⟩
      unfold Write.stopAt
      rw [if_pos hl]
      refine ⟨w.until_.getD d.nextFailure,rfl,?_⟩
      cases hend : st₀.ended with
      | false=>rw [huntil hend,getD_none]
      | true =>
        obtain ⟨u,hu,hle⟩:=hended hend
        rw [hu,getD_some]
        exact hle
    · refine ⟨st₀,by rw [Durability.ending,get_insert_of_ne _ _ hl,hst₀],?_⟩
      unfold Write.stopAt
      rw [if_neg hl]
      exact ⟨huntil,hended⟩
  seal_lineage k s hs:=by
    obtain ⟨st₀,hst₀,hlt⟩:=h.lives.seal_lineage k s hs
    by_cases hl : k.lineage=l
    · rw [hl,hst] at hst₀
      cases hst₀
      exact ⟨st.finish,by rw [hl,Durability.ending,get_insert_self],hlt⟩
    · exact ⟨st₀,by rw [Durability.ending,get_insert_of_ne _ _ hl,hst₀],hlt⟩
  domain_seal:=h.lives.domain_seal

theorem PartsOk.ending (h : TablesOk d) :
    PartsOk (d.ending l st).lineages d.seals d.spans d.sealDomains (d.ending l st).writes d.lists
      d.served := { h.parts with
  named_seal:=fun op w' q hw' hstage=>by
    obtain ⟨w,hw,rfl⟩:=ending_write hw'
    obtain ⟨hsame,hlineage, -⟩:=w.stopAt_stage l d.nextFailure
    rw [hlineage]
    exact h.parts.named_seal op w q hw (hsame.symm.trans hstage)
  named_flush:=fun op w' q hw' hstage hrouted=>by
    obtain ⟨w,hw,rfl⟩:=ending_write hw'
    obtain ⟨hsame,hlineage, -,hfile,hrouting, -⟩:=w.stopAt_stage l d.nextFailure
    rw [hlineage,hfile]
    exact h.parts.named_flush op w q hw (hsame.symm.trans hstage) (hrouting ▸ hrouted)
  flushed_default:=fun op w' q entry hw' hstage hentry hflushed=>by
    obtain ⟨w,hw,rfl⟩:=ending_write hw'
    obtain ⟨hsame,hlineage, -,hfile,hrouting, -⟩:=w.stopAt_stage l d.nextFailure
    rw [hlineage,hfile] at hentry
    rw [hrouting]
    exact h.parts.flushed_default op w q entry hw (hsame.symm.trans hstage) hentry hflushed
  named_asked:=fun op w' q st' hw' hstage hst' hlive=>by
    obtain ⟨w,hw,rfl⟩:=ending_write hw'
    obtain ⟨hsame,hlineage, -, -,hrouting,hdomains⟩:=w.stopAt_stage l d.nextFailure
    rw [hlineage] at hst' ⊢
    rw [hrouting,hdomains]
    exact h.parts.named_asked op w q st' hw (hsame.symm.trans hstage)
      (live_of_ending hst' hlive).2 hlive
  asked_write:=fun k part st' hpart hans hst' hlive=>by
    obtain ⟨op,w,hw,hlineage,hstage,hmem⟩ :=
      h.parts.asked_write k part st' hpart hans (live_of_ending hst' hlive).2 hlive
    obtain ⟨hsame,hlineage', -, -, -,hdomains⟩:=w.stopAt_stage l d.nextFailure
    refine ⟨op,w.stopAt l d.nextFailure,?_,hlineage'.trans hlineage,hsame.trans hstage,
      hdomains ▸ hmem⟩
    rw [Durability.ending,Table.get_map,hw]
    rfl }

theorem TablesOk.ending (h : TablesOk d) (hst : d.lineages.get l=some st)
    (hne : l ≠ defaultLineage) : TablesOk (d.ending l st) := by
  have hrelabels : Relabels d.writes (d.ending l st).writes :=
    Relabels.map (fun w=>w.stopAt l d.nextFailure) fun w=>w.stopAt_eq l d.nextFailure
  have hsuspects : SuspectsOk d.failures d.writes d.kept d.lists (d.ending l st).lineages
      d.nextFailure d.instance_ :=
    { h.suspects with
      write_named:=fun f hf op w st' hw hst' hread=>by
        obtain ⟨st₀,hst₀, -⟩:=h.lives.write_lineage op w hw
        refine h.suspects.write_named f hf op w st₀ hw hst₀ (hread.imp_left fun hlive=>?_)
        have hsame:=(live_of_ending hst' hlive).2
        rw [hst₀] at hsame
        cases hsame
        exact hlive }
  have hfiles : FilesOk (d.ending l st).lineages d.writes d.held d.spans d.lists d.served :=
    { h.files with
      write_routed:=fun op w st' hw hst' hlive =>
        h.files.write_routed op w st' hw (live_of_ending hst' hlive).2 hlive }
  exact {
    keys:=hrelabels.keys h.keys
    clocks:=hrelabels.clocks
      { h.clocks with
        lineage_clock:=fun l' st' hst'=>by
          rw [Durability.ending,get_insert] at hst'
          split_ifs at hst' with hl
          · exact hl ▸ h.clocks.lineage_clock l st hst
          · exact h.clocks.lineage_clock l' st' hst' }
    counts:={ h.counts with
      inFlight_count:=fun l' e=>by
        refine (h.counts.inFlight_count l' e).trans ?_
        rw [Durability.ending,count_map]
        refine count_congr fun op w _=>?_
        obtain ⟨hstage,hlineage,hepoch, -⟩:=w.stopAt_stage l d.nextFailure
        unfold isInFlightAt
        rw [hstage,hlineage,hepoch] }
    spans:={ h.spans with
      count:=fun key=>by
        refine (h.spans.count key).trans ?_
        rw [Durability.ending,count_map]
        exact count_congr fun op w _=>by rw [w.stopAt_spanKey] }
    lives:=LivesOk.ending h hst hne
    marks:=fun l' st' hst' hlive=>by
      obtain ⟨-,hst₀⟩:=live_of_ending hst' hlive
      have hmarks:=h.marks l' st' hst₀ hlive
      refine { hmarks with write_at:=fun op w' hw' hl'=>?_ }
      obtain ⟨w,hw,rfl⟩:=ending_write hw'
      obtain ⟨hstage,hlineage,hepoch, -⟩:=w.stopAt_stage l d.nextFailure
      rw [hstage,hepoch]
      exact hmarks.write_at op w hw (hlineage.symm.trans hl')
    parts:=PartsOk.ending h
    files:=hrelabels.files hfiles fun op w' e hw' he=>by
      obtain ⟨w,hw,rfl⟩:=ending_write hw'
      rw [w.stopAt_spanKey] at he
      rw [(w.stopAt_stage l d.nextFailure).2.2.2.2.2]
      exact h.files.entry_domains op w e hw he
    suspects:=hrelabels.suspects hsuspects fun op w w' hw hw' f hf=>by
      obtain ⟨w₀,hw₀,rfl⟩:=ending_write hw'
      rw [hw] at hw₀
      cases hw₀
      exact w.stopAt_namedBy d.lists (h.suspects.clock f hf).1
    tokens:=h.tokens }

end Ending

/-! ## Letting go what an ended lineage leaves -/

section LetGoEnded

variable {lineages : Table Key (LineageState E)} {seals : Seals E} {sealDomains : SealDomains}
  {st : LineageState E}

theorem staysEnded_false (h : d.staysEnded l w=false) :
    w.lineage=l ∧ w.stage ≠ .inFlight ∧ ∀ q,w.stage=.named q → ∀ entry,
      d.spans.get ⟨l,w.file,.sealed q⟩=some entry → entry.flushed=true → entry.answered=true := by
  unfold staysEnded at h
  rw [Bool.or_eq_false_iff] at h
  obtain ⟨hlineage,hstays⟩:=h
  refine ⟨by simpa using hlineage,fun hstage=>?_,fun q hstage entry hentry hflushed=>?_⟩
  · rw [hstage] at hstays
    cases hstays
  · simp only [hstage,hentry,hflushed,Bool.true_and,Bool.not_eq_false'] at hstays
    exact hstays

theorem staysEnded_true (h : d.staysEnded l w=true) (hl : w.lineage=l) :
    w.stage=.inFlight ∨ ∃ q entry,w.stage=.named q ∧
      d.spans.get ⟨w.lineage,w.file,.sealed q⟩=some entry ∧ entry.flushed=true ∧
      entry.answered=false := by
  unfold staysEnded at h
  rw [decide_eq_false (not_not.mpr hl),Bool.false_or] at h
  cases hstage : w.stage with
  | inFlight=>exact .inl rfl
  | completed =>
    rw [hstage] at h
    cases h
  | named q =>
    simp only [hstage] at h
    cases hentry : d.spans.get ⟨l,w.file,.sealed q⟩ with
    | none =>
      rw [hentry] at h
      cases h
    | some entry =>
      simp only [hentry,Bool.and_eq_true,Bool.not_eq_true'] at h
      exact .inr ⟨q,entry,rfl,by rw [hl,hentry],h⟩

theorem InvBeside.letGoEnded (h : InvBeside lineages seals sealDomains d)
    (hst : lineages.get l=some st) (hended : st.ended=true) (hgo : d.letGoEnded l=.ok d') :
    InvBeside lineages seals sealDomains d' ∧
      ∀ op w,d'.writes.get op=some w → d'.staysEnded l w=true := by
  obtain ⟨hinv,hstays⟩:=letGoEnded_induction
    (fun s=>InvBeside lineages seals sealDomains s ∧ ∀ w,s.staysEnded l w=d.staysEnded l w)
    (fun s s' op w hs hw hgoes hone=>by
      obtain ⟨hs,hsame⟩:=hs
      obtain ⟨hlineage,hstage,hfile⟩:=staysEnded_false hgoes
      have hleaves : Leaves lineages s.spans sealDomains s.lists w:=by
        intro q hq
        refine ⟨fun entry hentry=>hfile q hq entry (hlineage ▸ hentry),?_⟩
        intro st' domain part hst' hlive
        exact absurd hlineage (ne_of_ended hst hended hst' hlive)
      have hnext:=hs.letGoOne hw hleaves (hs.tables.counts.erase hw hstage) hone
      obtain ⟨spans,window,kept,hleave, -, -,rfl⟩:=letGoOne_ok hw hone
      exact ⟨hnext,fun w'=>(staysEnded_leave hgoes hleave rfl w').trans (hsame w')⟩)
    ⟨h,fun _=>rfl⟩ hgo
  refine ⟨hinv,fun op w hw=>?_⟩
  rw [hstays]
  obtain ⟨spans,window,kept,rfl⟩:=letGoEnded_ok hgo
  rw [Table.get_filter] at hw
  exact (filter_eq_some_iff.mp hw).2

theorem letGoEnded_spans (P : Table OpId (Write E T) → Spans → Prop)
    (hstep : ∀ writes spans spans' op w lost,P writes spans → SpansOk writes spans →
      writes.get op=some w → Spans.leave spans w.spanKey lost=.ok spans' →
      P (writes.erase op) spans')
    (h : P d.writes d.spans) (hspans : SpansOk d.writes d.spans) (hgo : d.letGoEnded l=.ok d') :
    P d'.writes d'.spans := by
  refine (letGoEnded_induction (fun s=>P s.writes s.spans ∧ SpansOk s.writes s.spans)
    (fun s s' op w hs hw _ hone=>?_) ⟨h,hspans⟩ hgo).1
  obtain ⟨spans,window,kept,hleave, -, -,rfl⟩:=letGoOne_ok hw hone
  exact ⟨hstep s.writes s.spans spans op w _ hs.1 hs.2 hw hleave,hs.2.letGo hw hleave⟩

end LetGoEnded

/-! ## The seals that stay -/

def Seal.isSealing (s : Seal E) : Bool :=
  match s.stage with
  | .flushing unanswered _ => decide (0 < unanswered)
  | .waiting => false
  | .done _ => false

variable {s : Seal E}

omit [LinearOrder E] in
theorem Seal.isSealing_iff : s.isSealing=true ↔ ∃ n failed,s.stage=.flushing n failed ∧ 0 < n := by
  unfold isSealing
  cases s.stage <;> simp

def goneSeals (seals : Seals E) (l : Key) : List (Seal E) :=
  (sealsOf seals l).filter fun s => !s.isSealing

def Durability.retained (d : Durability E T I) (l : Key) (window : Window) : Durability E T I :=
  { d with
    window := window
    sealDomains := (goneSeals d.seals l).foldl
      (fun table s => forgetDomains table d.served l s.seq) d.sealDomains
    seals := d.seals.filter fun k s => decide (k.lineage ≠ l) || s.isSealing }

theorem Durability.retainSealing_ok (hok : d.retainSealing l=.ok d') :
    ∃ window,(goneSeals d.seals l).foldlM (fun (win : Window) s => win.unpin s.pin) d.window =
        .ok window ∧ d'=d.retained l window := by
  unfold retainSealing at hok
  rw [bind_eq_ok] at hok
  obtain ⟨window,hfold,hok⟩:=hok
  cases hok
  exact ⟨window,hfold,rfl⟩

section Retain

variable {writes : Table OpId (Write E T)} {held : Table OpId (HeldOp E T)} {seals : Seals E}
  {kept : Kept E} {st : LineageState E}

omit [LinearOrder E] in
theorem KeysOk.mem_goneSeals (hkeys : KeysOk writes held seals kept) :
    s ∈ goneSeals seals l ↔ seals.get ⟨l,s.seq⟩=some s ∧ s.isSealing=false := by
  unfold goneSeals
  rw [mem_filter,hkeys.mem_sealsOf,Bool.not_eq_true']

omit [LinearOrder E] in
theorem forgetAll_get (gone : List (Seal E)) (sealDomains : SealDomains) (served : List DomainId)
    (l : Key) (k : DomainKey) :
    (gone.foldl (fun table s => forgetDomains table served l s.seq) sealDomains).get k =
      if k.lineage=l ∧ k.seq ∈ gone.map Seal.seq ∧ k.domain ∈ served then none
      else sealDomains.get k := by
  induction gone generalizing sealDomains with
  | nil=>simp
  | cons s rest ih =>
    rw [foldl_cons,ih,forgetDomains_get]
    simp only [map_cons,mem_cons]
    by_cases hl : k.lineage=l <;> by_cases hq : k.seq=s.seq <;>
      by_cases hr : k.seq ∈ rest.map Seal.seq <;> by_cases hd : k.domain ∈ served <;>
      simp [hl,hq,hr,hd]

theorem WindowOk.retain {window window' : Window} {failures : List (Failure I)} {operations : ℕ}
    (hkeys : KeysOk writes held seals kept)
    (h : WindowOk window writes held kept failures seals abandoned operations)
    (hfold : (goneSeals seals l).foldlM (fun (win : Window) s => win.unpin s.pin) window = .ok
      window') :
    WindowOk window' writes held kept failures
      (seals.filter fun k s => decide (k.lineage ≠ l) || s.isSealing) abandoned operations := by
  -- the seals that stay and those not yet reached
  have hend:=foldlM_progress
    (fun rest win=>∃ keys : List SealKey,keys=rest.map (fun s=>(⟨l,s.seq⟩ : SealKey)) ∧
      keys.Nodup ∧ (∀ s ∈ rest,seals.get ⟨l,s.seq⟩=some s ∧ s.isSealing=false) ∧
      WindowOk win writes held kept failures
        (seals.filter fun k s=>(decide (k.lineage≠l) || s.isSealing) || decide (k ∈ keys))
        abandoned operations)
    (fun s rest win win' hP hunpin=>by
      obtain ⟨keys,rfl,hnodup,hgone,hwin⟩:=hP
      rw [map_cons,nodup_cons] at hnodup
      obtain ⟨hget,hgoes⟩:=hgone s mem_cons_self
      refine ⟨_,rfl,hnodup.2,fun s' hs'=>hgone s' (mem_cons_of_mem _ hs'),?_⟩
      have hqueued : ∀ s',some s=some s' → (seals.filter fun k v =>
          (decide (k.lineage≠l) || v.isSealing) || decide (k ∈ (s::rest).map fun s=>(⟨l,s.seq⟩ : SealKey))).get
            ⟨l,s'.seq⟩=some s' :=
        fun s' hs'=>by
          cases hs'
          rw [Table.get_filter,hget]
          simp [filter_some]
      have hunpin' : win.unpin ((some s).bind Seal.pin)=.ok win':=hunpin
      have hnext:=hwin.unpin hqueued hunpin'
      rw [sealsWithout,map_cons,erase_pending
        (p:=fun (k : SealKey) (s : Seal E)=>decide (k.lineage≠l) || s.isSealing) hget
        (by simp [hgoes]) hnodup.1] at hnext
      exact hnext)
    ⟨_,rfl,?_,fun s hs=>hkeys.mem_goneSeals.mp hs,?_⟩ hfold
  · obtain ⟨keys,rfl, -, -,hwin⟩:=hend
    simpa using hwin
  · have hsorted:=(hkeys.sealsOf_sorted l).filter fun s=>!s.isSealing
    rw [List.Nodup,pairwise_map]
    exact hsorted.imp fun hlt heq=>hlt.ne (SealKey.mk.inj heq).2
  · rw [filter_pending_all]
    · exact h
    · rintro ⟨kl,kq⟩ s hs hgoes
      simp only [Bool.or_eq_false_iff,decide_eq_false_iff_not,not_not] at hgoes
      obtain ⟨rfl,hgoes⟩:=hgoes
      have hseq:=hkeys.seal_key _ s hs
      simp only at hseq
      subst hseq
      exact List.mem_map_of_mem (hkeys.mem_goneSeals.mpr ⟨hs,hgoes⟩)

end Retain

section Retained

variable {st : LineageState E} {window : Window}

theorem retained_seal {k : SealKey} (hs : (d.retained l window).seals.get k=some s) :
    d.seals.get k=some s ∧ (k.lineage=l → s.isSealing=true) := by
  unfold retained at hs
  rw [Table.get_filter] at hs
  obtain ⟨hget,hstays⟩:=filter_eq_some_iff.mp hs
  refine ⟨hget,fun hl=>?_⟩
  simpa [hl] using hstays

theorem retained_seal_of {k : SealKey} (hs : d.seals.get k=some s)
    (hstays : k.lineage=l → s.isSealing=true) : (d.retained l window).seals.get k=some s := by
  unfold retained
  rw [Table.get_filter,hs]
  refine filter_eq_some_iff.mpr ⟨rfl,?_⟩
  by_cases hl : k.lineage=l
  · simp [hstays hl]
  · simp [hl]

theorem sealsOf_retained {l' : Key} (hne : l' ≠ l) :
    sealsOf (d.retained l window).seals l'=sealsOf d.seals l' := by
  unfold retained sealsOf
  refine select_filter_of_eq (p:=fun k : SealKey=>decide (k.lineage=l'))
    fun k s hk _=>?_
  rw [← of_decide_eq_true hk] at hne
  simp [hne]

theorem retained_domain {k : DomainKey} {part : SealDomain}
    (hpart : (d.retained l window).sealDomains.get k=some part) : d.sealDomains.get k=some part ∧
      ¬(k.lineage=l ∧ k.seq ∈ (goneSeals d.seals l).map Seal.seq ∧ k.domain ∈ d.served) := by
  unfold retained at hpart
  rw [forgetAll_get] at hpart
  split_ifs at hpart with hgone
  exact ⟨hpart,hgone⟩

theorem retained_domain_of {k : DomainKey} {part : SealDomain}
    (hpart : d.sealDomains.get k=some part) (hl : k.lineage ≠ l) :
    (d.retained l window).sealDomains.get k=some part := by
  unfold retained
  rw [forgetAll_get,if_neg fun hgone=>hl hgone.1,hpart]

theorem TablesOk.sealing_of_out (h : TablesOk d) {entry : SpanFile} (hw : d.writes.get op=some w)
    (hstage : w.stage=.named q) (hentry : d.spans.get ⟨w.lineage,w.file,.sealed q⟩=some entry)
    (hflushed : entry.flushed=true) (hans : entry.answered=false) :
    ∃ s,d.seals.get ⟨w.lineage,q⟩=some s ∧ s.isSealing=true := by
  obtain ⟨s,hs,hstarted⟩:=h.parts.named_seal op w q hw hstage
  refine ⟨s,hs,Seal.isSealing_iff.mpr ?_⟩
  cases hseal : s.stage with
  | waiting=>exact absurd hseal hstarted
  | done ok =>
    have hanswered:=h.parts.done_file _ s ok hs hseal w.file entry hentry hflushed
    rw [hans] at hanswered
    cases hanswered
  | flushing n failed =>
    refine ⟨n,failed,rfl,?_⟩
    rw [h.parts.flushing _ s n failed hs hseal,count_pos]
    exact ⟨_,entry,hentry,by simp [isOut,hflushed,hans]⟩

theorem TablesOk.retain (h : TablesOk d) (hst : d.lineages.get l=some st) (hended : st.ended=true)
    (hstays : ∀ op w,d.writes.get op=some w → d.staysEnded l w=true) :
    TablesOk (d.retained l window) := by
  have hlive : ∀ {l' : Key} {st' : LineageState E},d.lineages.get l'=some st' →
      st'.ended=false → l'≠l:=by
    intro l' st' hst' hfalse
    exact ne_of_ended hst hended hst' hfalse
  exact { h with
    keys:={ h.keys with
      seal_key:=fun k s hs=>h.keys.seal_key k s (retained_seal hs).1 }
    lives:={ h.lives with
      seal_lineage:=fun k s hs=>h.lives.seal_lineage k s (retained_seal hs).1
      domain_seal:=fun k part hpart=>by
        obtain ⟨hget,hkept⟩:=retained_domain hpart
        obtain ⟨hserved,s,hs,hstarted⟩:=h.lives.domain_seal k part hget
        refine ⟨hserved,s,retained_seal_of hs fun hl=>?_,hstarted⟩
        have hseq:=h.keys.seal_key _ s hs
        simp only at hl hseq
        by_contra hgoes
        rw [hl] at hs
        exact hkept ⟨hl,List.mem_map.mpr ⟨s,h.keys.mem_goneSeals.mpr
          ⟨by rw [hseq,hs],by simpa using hgoes⟩,hseq⟩,hserved⟩ }
    marks:=fun l' st' hst' hfalse=>by
      exact (h.marks l' st' hst' hfalse).congr (sealsOf_retained (hlive hst' hfalse)) le_rfl
    parts:={ h.parts with
      flushing:=fun k s n failed hs=>h.parts.flushing k s n failed (retained_seal hs).1
      done_file:=fun k s ok hs=>h.parts.done_file k s ok (retained_seal hs).1
      done_domain:=fun k s ok hs hstage domain part hpart =>
        h.parts.done_domain k s ok (retained_seal hs).1 hstage domain part
          (retained_domain hpart).1
      named_seal:=fun op w q hw hstage=>by
        obtain ⟨s,hs,hstarted⟩:=h.parts.named_seal op w q hw hstage
        refine ⟨s,retained_seal_of hs fun hl=>?_,hstarted⟩
        rcases staysEnded_true (hstays op w hw) hl with hflying | ⟨q',entry,hq',hentry,hflags⟩
        · rw [hstage] at hflying
          cases hflying
        · rw [hstage] at hq'
          cases hq'
          obtain ⟨s',hs',hsealing⟩:=h.sealing_of_out hw hstage hentry hflags.1 hflags.2
          rw [hs] at hs'
          cases hs'
          exact hsealing
      named_asked:=fun op w q st' hw hstage hst' hfalse hprovider domain hmem hserved=>by
        obtain ⟨part,hpart⟩ :=
          h.parts.named_asked op w q st' hw hstage hst' hfalse hprovider domain hmem hserved
        exact ⟨part,retained_domain_of hpart (hlive hst' hfalse)⟩
      asked_write:=fun k part st' hpart=>h.parts.asked_write k part st' (retained_domain hpart).1
      part_ok:=fun k part hpart=>h.parts.part_ok k part (retained_domain hpart).1
      failed_answered:=fun k s hs=>h.parts.failed_answered k s (retained_seal hs).1 } }

theorem CoverOk.retain (h : CoverOk d.lineages d.spans d.sealDomains d.writes d.lists d.served) :
    CoverOk d.lineages d.spans (d.retained l window).sealDomains d.writes d.lists d.served := by
  intro op w q st' hw hstage hst' hfalse hcovered
  refine h op w q st' hw hstage hst' hfalse ⟨hcovered.1,fun domain hmem hserved=>?_⟩
  obtain ⟨part,hpart,hok⟩:=hcovered.2 domain hmem hserved
  exact ⟨part,(retained_domain hpart).1,hok⟩

end Retained

variable {spans : Spans}

theorem EndsOk.of_ended {lineages : Table Key (LineageState E)} {writes : Table OpId (Write E T)}
    {held : Table OpId (HeldOp E T)} {seals : Seals E}
    (h : EndsOk (lineages.erase l) writes held seals spans abandoned)
    (hwrite : ∀ op w,writes.get op=some w → w.lineage=l → w.stage=.inFlight ∨ ∃ q
      entry,w.stage=.named q ∧ spans.get ⟨w.lineage,w.file,.sealed q⟩=some entry ∧
      entry.flushed=true ∧ entry.answered=false)
    (hseal : ∀ k s,seals.get k=some s → k.lineage=l → s.trailing=none ∧ s.isSealing=true) :
    EndsOk lineages writes held seals spans abandoned where
  ended_write op w st hw hst hended := by
    by_cases hl : w.lineage=l
    · exact hwrite op w hw hl
    · exact h.ended_write op w st hw (by rw [get_erase,if_neg hl,hst]) hended
  ended_seal k s st hs hst hended:=by
    by_cases hl : k.lineage=l
    · exact ⟨(hseal k s hs hl).1,Seal.isSealing_iff.mp (hseal k s hs hl).2⟩
    · exact h.ended_seal k s st hs (by rw [get_erase,if_neg hl,hst]) hended
  held_lineage op g a hg ha:=by
    obtain ⟨st,hst,hrest⟩:=h.held_lineage op g a hg ha
    exact ⟨st,get_of_erase hst,hrest⟩
  gate_lineage op g hg hready:=by
    obtain ⟨st,hst,hrest⟩:=h.gate_lineage op g hg hready
    exact ⟨st,get_of_erase hst,hrest⟩
  abandoned_lineage k op hk:=by
    obtain ⟨st,hst,hrest⟩:=h.abandoned_lineage k op hk
    exact ⟨st,get_of_erase hst,hrest⟩

/-- A seal of an ended lineage answers no empty seal. -/
def Seal.untrail (l : Key) (k : SealKey) (s : Seal E) : Seal E :=
  if k.lineage = l then { s with trailing := none } else s

omit [LinearOrder E] in
theorem Seal.untrail_stays (l : Key) (k : SealKey) (s : Seal E) : SealStays s (s.untrail l k) := by
  unfold untrail
  split_ifs <;> exact ⟨rfl,rfl,rfl,id⟩

omit [LinearOrder E] in
theorem Seal.untrail_stage (l : Key) (k : SealKey) (s : Seal E) :
    (s.untrail l k).stage=s.stage ∧ (s.untrail l k).answered=s.answered := by
  unfold untrail
  split_ifs <;> exact ⟨rfl,rfl⟩

theorem TablesOk.untrail {st : LineageState E} (h : TablesOk d) (hst : d.lineages.get l=some st)
    (hended : st.ended=true) :
    TablesOk { d with seals := d.seals.map fun k s => s.untrail l k } := { h with
  keys:=h.keys.reseal fun k s _=>s.untrail_stays l k
  lives:=h.lives.reseal fun k s _=>s.untrail_stays l k
  marks:=fun l' st' hst' hlive=>by
    have hne:=ne_of_ended hst hended hst' hlive
    refine (h.marks l' st' hst' hlive).congr (sealsOf_map_of_eq fun k s _ hk=>if_neg ?_) le_rfl
    rw [hk]
    exact hne
  parts:=h.parts.reseal fun k s _ =>
    ⟨(s.untrail_stage l k).1,fun hans=>(s.untrail_stage l k).2.trans hans⟩ }

theorem Durability.end_ok {c : Change E T I} (hok : d.end_ l=.ok c) :
    ∃ st d₂ d₄ d₅,d.lineages.get l=some st ∧ st.ended=false ∧ l ≠ defaultLineage ∧
      forgetAbandoned { d with lineages := d.lineages.insert l st.finish } l none =
        .ok d₂ ∧ letGoEnded
        { d₂ with writes := d₂.writes.map fun _ w => w.stopAt l d₂.nextFailure } l=.ok d₄ ∧
      retainSealing { d₄ with seals := d₄.seals.map fun k s => s.untrail l k } l =
        .ok d₅ ∧ ∃ c₁,c₁=endHeld ⟨d₅,⟨[],[.lineageEnded l (d.abandonedThrough l st)],[],[]⟩⟩ l ∧
        advance { c₁ with core := c₁.core.retireIfDrained l }=.ok c := by
  unfold end_ at hok
  cases hlive : d.live l with
  | none =>
    rw [hlive] at hok
    cases hok
  | some st =>
    obtain ⟨hst,hended⟩:=live_eq_some.mp hlive
    simp only [hlive] at hok
    split_ifs at hok with hdefault
    rw [bind_eq_ok] at hok
    obtain ⟨d₂,hforget,hok⟩:=hok
    rw [bind_eq_ok] at hok
    obtain ⟨d₄,hgo,hok⟩:=hok
    rw [bind_eq_ok] at hok
    obtain ⟨d₅,hretain,hok⟩:=hok
    exact ⟨st,d₂,d₄,d₅,hst,hended,hdefault,hforget,hgo,hretain,_,rfl,hok⟩

omit [LinearOrder E] in
theorem endStops_none {g : HeldOp E T} (h : endStops l g=none) :
    (∀ a,g.write=some a → a.lineage ≠ l) ∧ (g.ready=false → g.gate.lineage ≠ l) := by
  unfold endStops at h
  cases hw : g.write with
  | none =>
    simp only [hw] at h
    split_ifs at h with hwaits
    refine ⟨fun a ha=>(by cases ha),fun hready hl=>hwaits ?_⟩
    simp [hready,hl]
  | some a =>
    simp only [hw] at h
    split_ifs at h with hl hwaits
    refine ⟨fun a' ha'=>(by cases ha'; exact hl),fun hready hgate=>hwaits ?_⟩
    simp [hready,hgate]

theorem EndsOk.without {lineages : Table Key (LineageState E)} {writes : Table OpId (Write E T)}
    {held : Table OpId (HeldOp E T)} {seals : Seals E}
    (h : EndsOk lineages writes held seals spans abandoned) (st' : LineageState E) :
    EndsOk ((lineages.insert l st').erase l) writes
      (held.filter fun _ g => (endStops l g).isNone) seals spans
      (abandoned.filter fun k _ => !(decide (k.lineage=l) && true)) := by
  have hback : ∀ {l' : Key} {st : LineageState E},((lineages.insert l st').erase l).get l'=some st →
      lineages.get l'=some st:=by
    intro l' st hst
    rw [get_erase] at hst
    split_ifs at hst with hl
    rwa [get_insert_of_ne _ _ hl] at hst
  have hforth : ∀ {l' : Key} {st : LineageState E},l'≠l → lineages.get l'=some st →
      ((lineages.insert l st').erase l).get l'=some st:=by
    intro l' st hne hst
    rw [get_erase,if_neg hne,get_insert_of_ne _ _ hne,hst]
  have hheld : ∀ {op : OpId} {g : HeldOp E T},
      (held.filter fun _ g=>(endStops l g).isNone).get op=some g →
      held.get op=some g ∧ endStops l g=none:=by
    intro op g hg
    rw [Table.get_filter] at hg
    obtain ⟨hget,hnone⟩:=filter_eq_some_iff.mp hg
    exact ⟨hget,isNone_iff_eq_none.mp hnone⟩
  exact {
    ended_write:=fun op w st hw hst=>h.ended_write op w st hw (hback hst)
    ended_seal:=fun k s st hs hst=>h.ended_seal k s st hs (hback hst)
    held_lineage:=fun op g a hg ha=>by
      obtain ⟨hget,hnone⟩:=hheld hg
      obtain ⟨st,hst,hlive⟩:=h.held_lineage op g a hget ha
      exact ⟨st,hforth ((endStops_none hnone).1 a ha) hst,hlive⟩
    gate_lineage:=fun op g hg hready=>by
      obtain ⟨hget,hnone⟩:=hheld hg
      obtain ⟨st,hst,hrest⟩:=h.gate_lineage op g hget hready
      exact ⟨st,hforth ((endStops_none hnone).2 hready) hst,hrest⟩
    abandoned_lineage:=fun k op hk=>by
      rw [Table.get_filter] at hk
      obtain ⟨hget,hkeep⟩:=filter_eq_some_iff.mp hk
      obtain ⟨st,hst,hrest⟩:=h.abandoned_lineage k op hget
      exact ⟨st,hforth (by simpa using hkeep) hst,hrest⟩ }

/-- What holds while `l`, ended, still lets go of what it leaves: everything but what `l` itself
leaves, with `held` what is held once what waits for `l` is stopped. -/
structure EndingOk (d : Durability E T I) (l : Key) (held : Table OpId (HeldOp E T)) : Prop where
  tables : TablesOk d
  cover : CoverOk d.lineages d.spans d.sealDomains d.writes d.lists d.served
  window : WindowOk d.window d.writes d.held d.kept d.failures d.seals d.abandoned
    d.capacity.operations
  ended : ∃ st, d.lineages.get l = some st ∧ st.ended = true
  ends : EndsOk (d.lineages.erase l) d.writes held d.seals d.spans d.abandoned

namespace EndingOk

variable {held : Table OpId (HeldOp E T)}

theorem start {st : LineageState E} (h : Inv d) (hst : d.lineages.get l=some st)
    (hne : l ≠ defaultLineage) (hforget : forgetAbandoned
      { d with lineages := d.lineages.insert l st.finish } l none=.ok d') :
    EndingOk { d' with writes := d'.writes.map fun _ w => w.stopAt l d'.nextFailure } l
      (d.held.filter fun _ g => (endStops l g).isNone) := by
  obtain ⟨window,hwindow,rfl⟩:=forgetAbandoned_ok hforget
  have htables:=h.toTablesOk.ending hst hne
  have hends:=h.ends.without (l:=l) st.finish
  exact {
    tables:={ htables with }
    cover:=fun op w' q st' hw' hstage' hst' hlive hcovered=>by
      obtain ⟨w,hw,rfl⟩:=ending_write hw'
      obtain ⟨hstage,hlineage, -,hfile,hrouting,hdomains⟩:=w.stopAt_stage l d.nextFailure
      unfold CoveredBy at hcovered
      rw [hlineage] at hst' hcovered
      rw [hfile,hrouting,hdomains] at hcovered
      exact h.cover op w q st' hw (hstage.symm.trans hstage') (live_of_ending hst' hlive).2 hlive
        hcovered
    window:=(Relabels.map (fun w=>w.stopAt l d.nextFailure)
      fun w=>w.stopAt_eq l d.nextFailure).window
        (h.window.forgetAbandoned (fun k=>decide (k.lineage=l) && true) hwindow)
    ended:=⟨st.finish,get_insert_self _ _ _,rfl⟩
    ends:={ hends with
      ended_write:=fun op w' st' hw' hst' hended'=>by
        obtain ⟨w,hw,rfl⟩:=ending_write hw'
        obtain ⟨hstage,hlineage, -,hfile, -⟩:=w.stopAt_stage l d.nextFailure
        rw [hlineage] at hst'
        rw [hstage,hlineage,hfile]
        exact hends.ended_write op w st' hw hst' hended' } }

theorem letGoEnded (h : EndingOk d l held) (hgo : d.letGoEnded l=.ok d') :
    EndingOk d' l held ∧ ∀ op w,d'.writes.get op=some w → d'.staysEnded l w=true := by
  obtain ⟨st,hst,hended⟩:=h.ended
  have hbeside : InvBeside d.lineages d.seals d.sealDomains d:=⟨h.tables,h.window⟩
  obtain ⟨hnext,hstays⟩:=hbeside.letGoEnded hst hended hgo
  refine ⟨?_,hstays⟩
  have hends:=letGoEnded_spans (fun writes spans =>
      EndsOk (d.lineages.erase l) writes held d.seals spans d.abandoned)
    (fun _ _ _ _ _ _ he hs hw hleave=>he.letGo hs hw hleave) h.ends h.tables.spans hgo
  have hcover:=letGoEnded_spans (fun writes spans =>
      CoverOk d.lineages spans d.sealDomains writes d.lists d.served)
    (fun _ _ _ _ _ _ hc _ _ hleave=>hc.letGo hleave) h.cover h.tables.spans hgo
  obtain ⟨spans,window,kept,rfl⟩:=letGoEnded_ok hgo
  exact ⟨hnext.tables,hcover,hnext.window,h.ended,hends⟩

theorem untrail (h : EndingOk d l held) :
    EndingOk { d with seals := d.seals.map fun k s => s.untrail l k } l held := by
  obtain ⟨st,hst,hended⟩:=h.ended
  refine ⟨h.tables.untrail hst hended,h.cover,
    h.window.reseal fun k s _=>s.untrail_stays l k,h.ended,
    h.ends.reseal fun k s st' _ hst' _=>if_neg ?_⟩
  rintro rfl
  rw [get_erase_self] at hst'
  cases hst'

theorem retain (h : EndingOk d l held)
    (hstays : ∀ op w,d.writes.get op=some w → d.staysEnded l w=true)
    (hok : d.retainSealing l=.ok d') :
    EndingOk d' l held ∧ (∀ op w,d'.writes.get op=some w → d'.staysEnded l w=true) ∧
      ∀ k s,d'.seals.get k=some s → d.seals.get k=some s ∧ (k.lineage=l → s.isSealing=true) := by
  obtain ⟨st,hst,hended⟩:=h.ended
  obtain ⟨window,hwindow,rfl⟩:=retainSealing_ok hok
  exact ⟨⟨h.tables.retain hst hended hstays,h.cover.retain,h.window.retain h.tables.keys hwindow,
    h.ended,{ h.ends with
      ended_seal:=fun k s st' hs=>h.ends.ended_seal k s st' (retained_seal hs).1 }⟩,
    hstays,fun k s hs=>retained_seal hs⟩

theorem finish (h : EndingOk d l held) (hheld : held=d.held)
    (hstays : ∀ op w,d.writes.get op=some w → d.staysEnded l w=true)
    (hseals : ∀ k s,d.seals.get k=some s → k.lineage=l → s.trailing=none ∧
      s.isSealing=true) : Inv d :=
  ⟨h.tables,h.cover,
    (hheld ▸ h.ends).of_ended (fun op w hw hl=>staysEnded_true (hstays op w hw) hl) hseals,
    h.window⟩

theorem stopHeld {c : Change E T I} {stopped : HeldOp E T → Option (Gate E)}
    (h : EndingOk c.core l (c.core.held.filter fun _ g => (stopped g).isNone)) :
    EndingOk (stopHeld c stopped).core l (stopHeld c stopped).core.held := by
  rw [stopHeld_core]
  exact { h with
    tables:=h.tables.shrinkHeld (sub_filter _ _) h.tables.counts.stop
    window:=h.window.shrinkHeld (sub_filter _ _) }

theorem of_inv {st : LineageState E} (h : Inv d) (hst : d.lineages.get l=some st)
    (hended : st.ended=true) : EndingOk d l d.held := by
  have hforth : ∀ {l' : Key} {st' : LineageState E},d.lineages.get l'=some st' →
      st'.ended=false → (d.lineages.erase l).get l'=some st':=by
    intro l' st' hst' hlive
    rw [get_erase,if_neg (ne_of_ended hst hended hst' hlive),hst']
  exact { h with
    tables:=h.toTablesOk
    ended:=⟨st,hst,hended⟩
    ends :=
      { ended_write:=fun op w st' hw hst' =>
          h.ends.ended_write op w st' hw (get_of_erase hst')
        ended_seal:=fun k s st' hs hst'=>h.ends.ended_seal k s st' hs (get_of_erase hst')
        held_lineage:=fun op g a hg ha=>by
          obtain ⟨st',hst',hlive⟩:=h.ends.held_lineage op g a hg ha
          exact ⟨st',hforth hst' hlive,hlive⟩
        gate_lineage:=fun op g hg hready=>by
          obtain ⟨st',hst',hlive,habove⟩:=h.ends.gate_lineage op g hg hready
          exact ⟨st',hforth hst' hlive,hlive,habove⟩
        abandoned_lineage:=fun k op hk=>by
          obtain ⟨st',hst',hlive,habove⟩:=h.ends.abandoned_lineage k op hk
          exact ⟨st',hforth hst' hlive,hlive,habove⟩ } }

theorem answerFlush {through : E} {file : IoTargetKey} {failedNow : Bool} {domains : DomainList}
    (h : EndingOk d l held) (hok : d.answer l through file failedNow=.ok (q,domains,d')) :
    EndingOk d' l held := by
  have htables:=h.tables.answerFlush hok
  have hwindow:=WindowOk.answerFlush h.tables h.window hok
  obtain ⟨st,hst,hended⟩:=h.ended
  obtain ⟨s,n,failed,entry,hmem, -,rfl, -,hentry, -, -, -,rfl⟩:=answer_ok hok
  exact {
    tables:=htables
    cover:=fun op w q' st' hw hstage hst' hlive hcovered=>by
      have hne:=ne_of_ended hst hended hst' hlive
      refine h.cover op w q' st' hw hstage hst' hlive ⟨fun hdefault=>?_,hcovered.2⟩
      obtain ⟨e,he,hok'⟩:=hcovered.1 hdefault
      rw [get_insert_of_ne _ _ fun hkey=>hne (SpanKey.mk.inj hkey).1] at he
      exact ⟨e,he,hok'⟩
    window:=hwindow
    ended:=⟨st,hst,hended⟩
    ends:={ h.ends with
      ended_write:=fun op w st' hw hst' hended'=>by
        have hne : w.lineage≠l:=by
          rintro rfl
          rw [get_erase_self] at hst'
          cases hst'
        refine (h.ends.ended_write op w st' hw hst' hended').imp_right ?_
        rintro ⟨q',e,hstage,he,hflags⟩
        refine ⟨q',e,hstage,?_,hflags⟩
        rw [get_insert_of_ne _ _ fun hkey=>hne (SpanKey.mk.inj hkey).1,he]
      ended_seal:=fun k v st' hv hst' hended'=>by
        rw [get_insert_of_ne] at hv
        · exact h.ends.ended_seal k v st' hv hst' hended'
        · rintro rfl
          rw [get_erase_self] at hst'
          cases hst' } }

theorem letGo {leaves : Write E T → Bool} (h : EndingOk d l held)
    (hleaves : ∀ op w,d.writes.get op=some w → leaves w=true →
      w.stage ≠ .inFlight ∧ Leaves d.lineages d.spans d.sealDomains d.lists w)
    (hgo : d.letGo leaves=.ok d') : EndingOk d' l held := by
  have hbeside : InvBeside d.lineages d.seals d.sealDomains d:=⟨h.tables,h.window⟩
  have hnext:=hbeside.letGo hleaves hgo
  have hcover:=letGo_spans
    (fun writes spans=>CoverOk d.lineages spans d.sealDomains writes d.lists d.served)
    (fun _ _ _ _ _ _ hc _ _ _ hleave=>hc.letGo hleave) h.cover h.tables.spans hgo
  have hends:=letGo_spans
    (fun writes spans=>EndsOk (d.lineages.erase l) writes held d.seals spans d.abandoned)
    (fun _ _ _ _ _ _ he hs hw _ hleave=>he.letGo hs hw hleave) h.ends h.tables.spans hgo
  obtain ⟨spans,window,kept,rfl⟩:=letGo_ok hgo
  exact ⟨hnext.tables,hcover,hnext.window,h.ended,hends⟩

end EndingOk

def OutStays (l : Key) (writes : Table OpId (Write E T)) (spans : Spans)
    (leaves : Write E T → Bool) : Prop :=
  ∀ op w, writes.get op = some w → leaves w = false → w.lineage = l → w.stage = .inFlight ∨
    ∃ q entry, w.stage = .named q ∧ spans.get ⟨w.lineage, w.file, .sealed q⟩ = some entry ∧
      entry.flushed = true ∧ entry.answered = false

omit [LinearOrder E] in
theorem OutStays.letGo {writes : Table OpId (Write E T)} {spans' : Spans}
    {leaves : Write E T → Bool} {lost : Inconsistency} (h : OutStays l writes spans leaves)
    (hspans : SpansOk writes spans) (hw : writes.get op=some w)
    (hleave : spans.leave w.spanKey lost=.ok spans') :
    OutStays l (writes.erase op) spans' leaves := by
  intro op' w' hw' hstays hl
  refine (h op' w' (get_of_erase hw') hstays hl).imp_right ?_
  rintro ⟨q,entry,hstage,hentry,hflags⟩
  have hkey : w'.spanKey=⟨w'.lineage,w'.file,.sealed q⟩:=by
    unfold Write.spanKey
    rw [hstage]
    rfl
  rw [← hkey] at hentry
  obtain ⟨n,hn⟩:=(hspans.letGo hw hleave).entry_of_write hw' hleave hentry
  rw [hkey] at hn
  exact ⟨q,_,hstage,hn,hflags⟩

theorem Inv.flushedEnded {st : LineageState E} {through : E} {file : IoTargetKey} {failedNow : Bool}
    {domains : DomainList} {d₁ d₂ : Durability E T I} (h : Inv d) (hst : d.lineages.get l=some st)
    (hended : st.ended=true) (hans : d.answer l through file failedNow=.ok (q,domains,d₁))
    (hgo : d₁.letGo (fun w => decide (w.lineage=l) && decide (w.file=file) && decide
      (w.stage=.named q))=.ok d₂)
    (hretain : d₂.retainSealing l=.ok d') : Inv d' := by
  have h₁:=(EndingOk.of_inv h hst hended).answerFlush hans
  have htrailing₁ : ∀ k s,d₁.seals.get k=some s → k.lineage=l → s.trailing=none:=by
    obtain ⟨s,n,failed,entry,hmem, -,rfl, -, -, -, -, -,rfl⟩:=answer_ok hans
    intro k v hv hl
    rcases of_insert hv with ⟨-,rfl⟩ | hv
    · exact (h.ends.ended_seal _ s st (h.keys.mem_sealsOf.mp hmem) hst hended).1
    · exact (h.ends.ended_seal k v st hv (hl ▸ hst) hended).1
  have hout₁ : OutStays l d₁.writes d₁.spans (fun w=>decide (w.lineage=l) &&
      decide (w.file=file) && decide (w.stage=.named q)):=by
    obtain ⟨s,n,failed,entry,hmem, -,rfl, -, -, -, -, -,rfl⟩:=answer_ok hans
    intro op w hw hstays hl
    refine (h.ends.ended_write op w st hw (hl ▸ hst) hended).imp_right ?_
    rintro ⟨q',e,hstage,he,hflags⟩
    refine ⟨q',e,hstage,?_,hflags⟩
    rw [get_insert_of_ne,he]
    intro hkey
    obtain ⟨-,hfile,hspan⟩:=SpanKey.mk.inj hkey
    cases hspan
    simp [hl,hfile,hstage] at hstays
  have hleaves : ∀ op w,d₁.writes.get op=some w →
      (decide (w.lineage=l) && decide (w.file=file) && decide (w.stage=.named q))=true →
      w.stage≠.inFlight ∧ Leaves d₁.lineages d₁.spans d₁.sealDomains d₁.lists w:=by
    intro op w hw hpick
    simp only [Bool.and_eq_true,decide_eq_true_eq] at hpick
    obtain ⟨⟨rfl,rfl⟩,hstage⟩:=hpick
    refine ⟨by rw [hstage]; simp,fun q' hq'=>⟨fun e he _=>?_,fun st' _ _ hst' hlive=>?_⟩⟩
    · obtain ⟨s,n,failed,entry, -, -,rfl, -, -, -, -, -,rfl⟩:=answer_ok hans
      rw [hstage] at hq'
      cases hq'
      rw [get_insert_self] at he
      cases he
      rfl
    · obtain ⟨st₁,hst₁,hended₁⟩:=h₁.ended
      exact absurd rfl (ne_of_ended hst₁ hended₁ hst' hlive)
  have h₂:=h₁.letGo hleaves hgo
  have hout₂:=letGo_spans (fun writes spans=>OutStays l writes spans _)
    (fun _ _ _ _ _ _ ho hs hw _ hleave=>ho.letGo hs hw hleave) hout₁ h₁.tables.spans hgo
  have hstays₂ : ∀ op w,d₂.writes.get op=some w → d₂.staysEnded l w=true:=by
    intro op w hw
    by_cases hl : w.lineage=l
    · have hnot : (decide (w.lineage=l) && decide (w.file=file) &&
          decide (w.stage=.named q))=false:=by
        obtain ⟨spans,window,kept,rfl⟩:=letGo_ok hgo
        rw [Table.get_filter] at hw
        simpa only [Bool.not_eq_true'] using (filter_eq_some_iff.mp hw).2
      rcases hout₂ op w hw hnot hl with hflying | ⟨q',e,hstage,he,hflushed,hanswered⟩
      · simp [staysEnded,hflying]
      · rw [hl] at he
        simp [staysEnded,hstage,he,hflushed,hanswered]
    · simp [staysEnded,hl]
  have hseals₂ : d₂.seals=d₁.seals:=by
    obtain ⟨spans,window,kept,rfl⟩:=letGo_ok hgo
    rfl
  have hheld : d'.held=d.held:=by
    obtain ⟨window, -,rfl⟩:=retainSealing_ok hretain
    obtain ⟨spans,window,kept,rfl⟩:=letGo_ok hgo
    obtain ⟨s,n,failed,entry, -, -, -, -, -, -, -, -,rfl⟩:=answer_ok hans
    rfl
  obtain ⟨h₃,hstays₃,hseals₃⟩:=h₂.retain hstays₂ hretain
  refine h₃.finish hheld.symm hstays₃ fun k s hs hl=>?_
  obtain ⟨hget,hsealing⟩:=hseals₃ k s hs
  exact ⟨htrailing₁ k s (hseals₂ ▸ hget) hl,hsealing hl⟩

theorem Inv.endLineage {st : LineageState E} {d₂ d₄ d₅ : Durability E T I} {due : Due E T I}
    (h : Inv d) (hst : d.lineages.get l=some st) (hne : l ≠ defaultLineage)
    (hforget : forgetAbandoned { d with lineages := d.lineages.insert l st.finish } l
      none=.ok d₂) (hgo : letGoEnded
      { d₂ with writes := d₂.writes.map fun _ w => w.stopAt l d₂.nextFailure } l=.ok d₄)
    (hretain : retainSealing
      { d₄ with seals := d₄.seals.map fun k s => s.untrail l k } l=.ok d₅) :
    Inv ((endHeld ⟨d₅,due⟩ l).core.retireIfDrained l) := by
  have hheld₂ : d₂.held=d.held:=by
    obtain ⟨window, -,rfl⟩:=forgetAbandoned_ok hforget
    rfl
  obtain ⟨h₄,hstays₄⟩:=(EndingOk.start h hst hne hforget).letGoEnded hgo
  have hheld₄ : d₄.held=d.held:=by
    obtain ⟨spans,window,kept,rfl⟩:=letGoEnded_ok hgo
    exact hheld₂
  obtain ⟨h₅,hstays₅,hseals₅⟩:=h₄.untrail.retain hstays₄ hretain
  have hheld₅ : d₅.held=d.held:=by
    obtain ⟨window, -,rfl⟩:=retainSealing_ok hretain
    exact hheld₄
  rw [← hheld₅] at h₅
  refine retireIfDrained (EndingOk.finish (EndingOk.stopHeld (c:=⟨d₅,due⟩) h₅) rfl hstays₅
    fun k s hs hl=>?_) l
  obtain ⟨hget,hsealing⟩:=hseals₅ k s hs
  refine ⟨?_,hsealing hl⟩
  rw [Table.get_map] at hget
  obtain ⟨s₀, -,rfl⟩:=map_eq_some_iff.mp hget
  rw [Seal.untrail,if_pos hl]

end WindowsThreadpoolSys.DurableIoring
