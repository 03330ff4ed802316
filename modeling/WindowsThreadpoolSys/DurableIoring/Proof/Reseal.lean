import WindowsThreadpoolSys.DurableIoring.Proof.Resolve

/-! Answers, starting and finishing change a lineage's own state and its seals where they stand. Most
families read no more of a lineage than whether it has ended, and no more of a seal than which seal
it is. -/
namespace WindowsThreadpoolSys.DurableIoring
open Library List Table

variable {E T I : Type} [LinearOrder E] {st' : LineageState E} {abandoned : Table (EpochKey E) OpId}

/-! ## Lineages -/

/-- `lineages'` has the lineages of `lineages`, each as live as it was. -/
structure Relives (lineages lineages' : Table Key (LineageState E)) : Prop where
  back : ∀ l st', lineages'.get l = some st' → ∃ st, lineages.get l = some st ∧
    st'.ended = st.ended
  forth : ∀ l st, lineages.get l = some st → ∃ st', lineages'.get l = some st' ∧
    st'.ended = st.ended ∧ st.nextSeal ≤ st'.nextSeal

namespace Relives

variable {lineages lineages' lineages'' : Table Key (LineageState E)}
  {writes : Table OpId (Write E T)} {held : Table OpId (HeldOp E T)} {seals : Seals E}
  {spans : Spans} {sealDomains : SealDomains} {lists : DomainLists} {served : List DomainId}
  {kept : Kept E} {nextFailure : ℕ}

section

omit [LinearOrder E]

theorem refl (lineages : Table Key (LineageState E)) : Relives lineages lineages :=
  ⟨fun _ st hst=>⟨st,hst,rfl⟩,fun _ st hst=>⟨st,hst,rfl,le_rfl⟩⟩

theorem trans (h : Relives lineages lineages') (h' : Relives lineages' lineages'') :
    Relives lineages lineages'' where
  back l st'' hst'' := by
    obtain ⟨st',hst',heq'⟩:=h'.back l st'' hst''
    obtain ⟨st,hst,heq⟩:=h.back l st' hst'
    exact ⟨st,hst,heq'.trans heq⟩
  forth l st hst:=by
    obtain ⟨st',hst',heq,hle⟩:=h.forth l st hst
    obtain ⟨st'',hst'',heq',hle'⟩:=h'.forth l st' hst'
    exact ⟨st'',hst'',heq'.trans heq,hle.trans hle'⟩

theorem insert {l : Key} {st : LineageState E} (hst : lineages.get l=some st)
    (hended : st'.ended=st.ended) (hnext : st.nextSeal ≤ st'.nextSeal) :
    Relives lineages (lineages.insert l st') where
  back l₁ st₁ h₁ := by
    rcases of_insert h₁ with ⟨hl,rfl⟩ | h₁
    · exact ⟨st,hl ▸ hst,hended⟩
    · exact ⟨st₁,h₁,rfl⟩
  forth l₁ st₁ h₁:=by
    rw [get_insert]
    split_ifs with hl
    · rw [hl,hst] at h₁
      cases h₁
      exact ⟨st',rfl,hended,hnext⟩
    · exact ⟨st₁,h₁,rfl,le_rfl⟩

theorem durable_insert {l : Key} {st : LineageState E} (st' : LineageState E)
    (hst : lineages.get l=some st)
    (hdurable : st'.durableThrough=st.durableThrough) (l₁ : Key) (st₁ st₁' : LineageState E)
    (h₁ : lineages.get l₁=some st₁) (h₁' : (lineages.insert l st').get l₁=some st₁') :
    st₁'.durableThrough=st₁.durableThrough := by
  rw [get_insert] at h₁'
  split_ifs at h₁' with hl
  · rw [hl,hst] at h₁
    cases h₁
    cases h₁'
    exact hdurable
  · rw [h₁] at h₁'
    cases h₁'
    rfl

theorem modify {l : Key} {f : LineageState E → LineageState E}
    (hf : ∀ st,(f st).ended=st.ended ∧ (f st).nextSeal=st.nextSeal) :
    Relives lineages (lineages.modify l f) where
  back l₁ st₁ h₁ := by
    rw [get_modify] at h₁
    split_ifs at h₁ with hl
    · obtain ⟨st,hst,rfl⟩:=Option.map_eq_some_iff.mp h₁
      exact ⟨st,hst,(hf st).1⟩
    · exact ⟨st₁,h₁,rfl⟩
  forth l₁ st₁ h₁:=by
    rw [get_modify,h₁]
    split_ifs with hl
    · exact ⟨f st₁,rfl,(hf st₁).1,(hf st₁).2.ge⟩
    · exact ⟨st₁,rfl,rfl,le_rfl⟩

end

section

variable (h : Relives lineages lineages')
include h

section

omit [LinearOrder E]

theorem clocks {nextPush : ℕ} {nextLineage : Key}
    (hclocks : ClocksOk writes held kept lineages nextPush nextFailure nextLineage) :
    ClocksOk writes held kept lineages' nextPush nextFailure nextLineage := { hclocks with
  lineage_clock:=fun l st' hst'=>by
    obtain ⟨st,hst, -⟩:=h.back l st' hst'
    exact hclocks.lineage_clock l st hst }

theorem lives (hlives : LivesOk lineages writes seals sealDomains served nextFailure) :
    LivesOk lineages' writes seals sealDomains served nextFailure := { hlives with
  default_live:=by
    obtain ⟨st,hst,hlive⟩:=hlives.default_live
    obtain ⟨st',hst',heq, -⟩:=h.forth _ st hst
    exact ⟨st',hst',heq.trans hlive⟩
  write_lineage:=fun op w hw=>by
    obtain ⟨st,hst,hlive,hended⟩:=hlives.write_lineage op w hw
    obtain ⟨st',hst',heq, -⟩:=h.forth _ st hst
    exact ⟨st',hst',fun h'=>hlive (heq.symm.trans h'),fun h'=>hended (heq.symm.trans h')⟩
  seal_lineage:=fun k s hs=>by
    obtain ⟨st,hst,hlt⟩:=hlives.seal_lineage k s hs
    obtain ⟨st',hst', -,hle⟩:=h.forth _ st hst
    exact ⟨st',hst',hlt.trans_le hle⟩ }

theorem parts (hparts : PartsOk lineages seals spans sealDomains writes lists served) :
    PartsOk lineages' seals spans sealDomains writes lists served := { hparts with
  named_asked:=fun op w q st' hw hstage hst' hlive=>by
    obtain ⟨st,hst,heq⟩:=h.back _ st' hst'
    exact hparts.named_asked op w q st hw hstage hst (heq.symm.trans hlive)
  asked_write:=fun k part st' hpart hans hst' hlive=>by
    obtain ⟨st,hst,heq⟩:=h.back _ st' hst'
    exact hparts.asked_write k part st hpart hans hst (heq.symm.trans hlive) }

theorem files (hfiles : FilesOk lineages writes held spans lists served) :
    FilesOk lineages' writes held spans lists served := { hfiles with
  write_routed:=fun op w st' hw hst' hlive=>by
    obtain ⟨st,hst,heq⟩:=h.back _ st' hst'
    exact hfiles.write_routed op w st hw hst (heq.symm.trans hlive) }

theorem suspects {failures : List (Failure I)} {instance_ : InstanceId}
    (hsuspects : SuspectsOk failures writes kept lists lineages nextFailure instance_) :
    SuspectsOk failures writes kept lists lineages' nextFailure instance_ := { hsuspects with
  write_named:=fun f hf op w st' hw hst' hread=>by
    obtain ⟨st,hst,heq⟩:=h.back _ st' hst'
    exact hsuspects.write_named f hf op w st hw hst (hread.imp_left heq.symm.trans) }

theorem cover (hcover : CoverOk lineages spans sealDomains writes lists served) :
    CoverOk lineages' spans sealDomains writes lists served := by
  intro op w q st' hw hstage hst' hlive
  obtain ⟨st,hst,heq⟩:=h.back _ st' hst'
  exact hcover op w q st hw hstage hst (heq.symm.trans hlive)

end

theorem ends
    (hdurable : ∀ l st st',lineages.get l=some st → lineages'.get l=some st' →
      st'.durableThrough=st.durableThrough)
    (hends : EndsOk lineages writes held seals spans abandoned) :
    EndsOk lineages' writes held seals spans abandoned where
  ended_write op w st' hw hst' hended := by
    obtain ⟨st,hst,heq⟩:=h.back _ st' hst'
    exact hends.ended_write op w st hw hst (heq.symm.trans hended)
  ended_seal k s st' hs hst' hended:=by
    obtain ⟨st,hst,heq⟩:=h.back _ st' hst'
    exact hends.ended_seal k s st hs hst (heq.symm.trans hended)
  held_lineage op g a hg ha:=by
    obtain ⟨st,hst,hlive⟩:=hends.held_lineage op g a hg ha
    obtain ⟨st',hst',heq, -⟩:=h.forth _ st hst
    exact ⟨st',hst',heq.trans hlive⟩
  gate_lineage op g hg hready:=by
    obtain ⟨st,hst,hlive,habove⟩:=hends.gate_lineage op g hg hready
    obtain ⟨st',hst',heq, -⟩:=h.forth _ st hst
    exact ⟨st',hst',heq.trans hlive,by rw [hdurable _ st st' hst hst']; exact habove⟩
  abandoned_lineage k op hk:=by
    obtain ⟨st,hst,hlive,habove⟩:=hends.abandoned_lineage k op hk
    obtain ⟨st',hst',heq, -⟩:=h.forth _ st hst
    exact ⟨st',hst',heq.trans hlive,by rw [hdurable _ st st' hst hst']; exact habove⟩

end

end Relives

/-! ## Seals -/

/-- A seal keeps which seal it is, and does not go back to waiting. -/
structure SealStays (s s' : Seal E) : Prop where
  seq : s'.seq = s.seq
  through : s'.through = s.through
  pin : s'.pin = s.pin
  waiting : s'.stage = .waiting → s.stage = .waiting

section Seals

variable {seals : Seals E} {f : SealKey → Seal E → Seal E} {s : Seal E}

omit [LinearOrder E] in
theorem insert_seal {k : SealKey} (s' : Seal E) (hs : seals.get k=some s) :
    seals.insert k s'=seals.map fun k' v => if k'=k then s' else v :=
  insert_eq_map s' hs

variable {writes : Table OpId (Write E T)} {held : Table OpId (HeldOp E T)} {kept : Kept E}

omit [LinearOrder E] in
theorem KeysOk.reseal (h : KeysOk writes held seals kept)
    (hf : ∀ k s,seals.get k=some s → SealStays s (f k s)) : KeysOk writes held (seals.map f) kept :=
  { h with
    seal_key:=fun k s' hs'=>by
      rw [get_map] at hs'
      obtain ⟨s,hs,rfl⟩:=Option.map_eq_some_iff.mp hs'
      rw [(hf k s hs).seq]
      exact h.seal_key k s hs }

omit [LinearOrder E] in
theorem LivesOk.reseal {lineages : Table Key (LineageState E)}
    {sealDomains : SealDomains} {served : List DomainId} {nextFailure : ℕ}
    (h : LivesOk lineages writes seals sealDomains served nextFailure)
    (hf : ∀ k s,seals.get k=some s → SealStays s (f k s)) :
    LivesOk lineages writes (seals.map f) sealDomains served nextFailure := { h with
  seal_lineage:=fun k s' hs'=>by
    rw [get_map] at hs'
    obtain ⟨s,hs,rfl⟩:=Option.map_eq_some_iff.mp hs'
    exact h.seal_lineage k s hs
  domain_seal:=fun k part hpart=>by
    obtain ⟨hserved,s,hs,hstarted⟩:=h.domain_seal k part hpart
    refine ⟨hserved,f _ s,by rw [get_map,hs]; rfl,fun hwaits=>hstarted ?_⟩
    exact (hf _ s hs).waiting hwaits }

theorem WindowOk.reseal {window : Window} {failures : List (Failure I)} {operations : ℕ}
    (h : WindowOk window writes held kept failures seals abandoned operations)
    (hf : ∀ k s,seals.get k=some s → SealStays s (f k s)) :
    WindowOk window writes held kept failures (seals.map f) abandoned operations := { h with
  pin_level:=fun op=>by
    rw [h.pin_level,count_map]
    refine count_congr fun k s hs=>?_
    rw [(hf k s hs).pin]
  seal_pin:=fun k s' hs'=>by
    rw [get_map] at hs'
    obtain ⟨s,hs,rfl⟩:=Option.map_eq_some_iff.mp hs'
    rw [(hf k s hs).pin,(hf k s hs).through]
    exact h.seal_pin k s hs }

omit [LinearOrder E] in
theorem PartsOk.reseal {lineages : Table Key (LineageState E)} {spans : Spans}
    {sealDomains : SealDomains} {lists : DomainLists}
    {served : List DomainId} (h : PartsOk lineages seals spans sealDomains writes lists served)
    (hf : ∀ k s,seals.get k=some s → (f k s).stage=s.stage ∧
      (s.answered=true → (f k s).answered=true)) :
    PartsOk lineages (seals.map f) spans sealDomains writes lists served := by
  have hback : ∀ k s',(seals.map f).get k=some s' → ∃ s,seals.get k=some s ∧
      s'.stage=s.stage ∧ (s.answered=true → s'.answered=true):=by
    intro k s' hs'
    rw [get_map] at hs'
    obtain ⟨s,hs,rfl⟩:=Option.map_eq_some_iff.mp hs'
    exact ⟨s,hs,hf k s hs⟩
  exact { h with
    flushing:=fun k s' n failed hs' hstage=>by
      obtain ⟨s,hs,heq, -⟩:=hback k s' hs'
      exact h.flushing k s n failed hs (heq.symm.trans hstage)
    done_file:=fun k s' ok hs' hstage=>by
      obtain ⟨s,hs,heq, -⟩:=hback k s' hs'
      exact h.done_file k s ok hs (heq.symm.trans hstage)
    done_domain:=fun k s' ok hs' hstage=>by
      obtain ⟨s,hs,heq, -⟩:=hback k s' hs'
      exact h.done_domain k s ok hs (heq.symm.trans hstage)
    named_seal:=fun op w q hw hq=>by
      obtain ⟨s,hs,hstarted⟩:=h.named_seal op w q hw hq
      exact ⟨f _ s,by rw [get_map,hs]; rfl,by rw [(hf _ s hs).1]; exact hstarted⟩
    failed_answered:=fun k s' hs' hfailed=>by
      obtain ⟨s,hs,heq,hanswered⟩:=hback k s' hs'
      rw [heq] at hfailed
      exact hanswered (h.failed_answered k s hs hfailed) }

theorem EndsOk.reseal {lineages : Table Key (LineageState E)} {spans : Spans}
    (h : EndsOk lineages writes held seals spans abandoned)
    (hf : ∀ k s st,seals.get k=some s → lineages.get k.lineage=some st → st.ended=true → f k s=s) :
    EndsOk lineages writes held (seals.map f) spans abandoned := { h with
  ended_seal:=fun k s' st hs' hst hended=>by
    rw [get_map] at hs'
    obtain ⟨s,hs,rfl⟩:=Option.map_eq_some_iff.mp hs'
    rw [hf k s st hs hst hended]
    exact h.ended_seal k s st hs hst hended }

variable {l : Key}

section

omit [LinearOrder E]

theorem sealsOf_map {R : Seal E → Seal E → Prop}
    (hf : ∀ k s,seals.get k=some s → k.lineage=l → R s (f k s)) :
    List.Forall₂ R (sealsOf seals l) (sealsOf (seals.map f) l) := by
  unfold sealsOf
  rw [select_map,Table.select,List.forall₂_map_left_iff,List.forall₂_map_right_iff,
    List.forall₂_same]
  intro e he
  obtain ⟨hmem,hl⟩:=mem_filter.mp he
  exact hf e.1 e.2 (mem_entries.mp hmem) (by simpa using hl)

theorem sealsOf_map_of_eq (hf : ∀ k s,seals.get k=some s → k.lineage=l → f k s=s) :
    sealsOf (seals.map f) l=sealsOf seals l :=
  select_map_of_eq fun k s hk hs=>hf k s hs (by simpa using hk)

theorem sealsOf_map_eq {g : Seal E → Seal E}
    (hf : ∀ k s,seals.get k=some s → k.lineage=l → f k s=g s) :
    sealsOf (seals.map f) l=(sealsOf seals l).map g := by
  unfold sealsOf
  rw [select_map,Table.select,map_map]
  refine map_congr_left fun e he=>?_
  obtain ⟨hmem,hl⟩:=mem_filter.mp he
  exact hf e.1 e.2 (mem_entries.mp hmem) (by simpa using hl)

theorem mem_sealsOf : s ∈ sealsOf seals l ↔ ∃ k,k.lineage=l ∧ seals.get k=some s := by
  unfold sealsOf
  simp only [mem_select,decide_eq_true_eq]

end

omit [LinearOrder E] in
theorem KeysOk.mem_sealsOf (h : KeysOk writes held seals kept) :
    s ∈ sealsOf seals l ↔ seals.get ⟨l,s.seq⟩=some s := by
  rw [DurableIoring.mem_sealsOf]
  constructor
  · rintro ⟨k,rfl,hs⟩
    rw [h.seal_key k s hs]
    exact hs
  · intro hs
    exact ⟨_,rfl,hs⟩

omit [LinearOrder E] in
theorem KeysOk.sealsOf_sorted (h : KeysOk writes held seals kept) (l : Key) :
    (sealsOf seals l).Pairwise fun s s' => s.seq < s'.seq := by
  unfold sealsOf Table.select
  rw [pairwise_map]
  refine (seals.sorted.filter _).imp_of_mem fun {a b} ha hb hlt=>?_
  obtain ⟨hmem,hl⟩:=mem_filter.mp ha
  obtain ⟨hmem',hl'⟩:=mem_filter.mp hb
  rw [h.seal_key a.1 a.2 (mem_entries.mp hmem),h.seal_key b.1 b.2 (mem_entries.mp hmem')]
  simp only [decide_eq_true_eq] at hl hl'
  rcases SealKey.lt_iff.mp hlt with hlt | hlt
  · rw [hl,hl'] at hlt
    exact absurd hlt (lt_irrefl _)
  · exact hlt.2

end Seals

/-! ## One lineage's queue -/

variable {st : LineageState E} {seals' : Seals E} {sealsMade : ℕ}

theorem LineageOk.moves {l : Key} {seals : Seals E} {writes : Table OpId (Write E T)}
    {held : Table OpId (HeldOp E T)} (h : LineageOk l st seals writes held sealsMade)
    (hdurable : st'.durableThrough=st.durableThrough) (hsealed : st'.sealedThrough=st.sealedThrough)
    (hleading : Option.Rel EmptyMoves st.leading st'.leading)
    (hseals : List.Forall₂ (fun s s' => SealMoves s s' ∧ Option.Rel EmptyMoves s.trailing
      s'.trailing ∧ (s'.stage=.waiting ↔ s.stage=.waiting)) (sealsOf seals l) (sealsOf seals' l))
    (hstarted : (slots st'.leading (sealsOf seals' l)).Pairwise fun a b => a.Waits → b.Unstarted) :
    LineageOk l st' seals' writes held sealsMade := by
  have hmoves:=slots_moves hleading hseals
  have hwaits : ∀ epoch s,covering (slots st.leading (sealsOf seals l)) epoch =
      some (.recorded s) → ∃ s',covering (slots st'.leading (sealsOf seals' l)) epoch =
        some (.recorded s') ∧ SealMoves s s' ∧ (s'.stage=.waiting ↔ s.stage=.waiting) :=
    fun epoch s hs=>covering_recorded (hs ▸ covering_moves epoch hmoves)
  have hopen : ∀ epoch,OpenAt (slots st.leading (sealsOf seals l)) st.durableThrough
      st.sealedThrough epoch → OpenAt (slots st'.leading (sealsOf seals' l)) st'.durableThrough
        st'.sealedThrough epoch:=by
    rintro epoch ⟨habove,hcovering⟩
    rw [OpenAt,hdurable,hsealed]
    refine ⟨habove,fun hnot=>?_⟩
    obtain ⟨s,hs,hwaiting⟩:=hcovering hnot
    obtain ⟨s',hs', -,hiff⟩:=hwaits epoch s hs
    exact ⟨s',hs',hiff.mpr hwaiting⟩
  refine ⟨?_,fun x hx=>?_,fun op w hw hl=>?_,fun op g a hg ha hl=>?_⟩
  · rw [hdurable,hsealed]
    exact h.queue.moves hmoves hstarted
  · obtain ⟨y,hy,hxy⟩:=exists_moved hmoves hx
    rw [hxy.made_eq]
    exact h.made_lt y hy
  · have hat:=h.write_at op w hw hl
    cases hstage : w.stage with
    | inFlight | completed =>
      rw [hstage] at hat
      exact hopen w.epoch hat
    | named q =>
      rw [hstage] at hat
      obtain ⟨habove,s,hs,hseq,hstarted⟩:=hat
      obtain ⟨s',hs',hmove,hiff⟩:=hwaits w.epoch s hs
      exact ⟨hdurable ▸ habove,s',hs',hmove.seq.trans hseq,fun hw'=>hstarted (hiff.mp hw')⟩
  · exact hopen a.epoch (h.held_at op g a hg ha hl)

def EmptyStays (e e' : Empty E) : Prop := EmptyMoves e e' ∧ (e.finished = false → e'.finished = false)

omit [LinearOrder E] in
theorem EmptyStays.option_refl (e : Option (Empty E)) : Option.Rel EmptyStays e e := by
  cases e with
  | none=>exact .none
  | some e=>exact .some ⟨.refl e,id⟩

theorem LineageOk.stays {l : Key} {seals : Seals E} {writes : Table OpId (Write E T)}
    {held : Table OpId (HeldOp E T)} (h : LineageOk l st seals writes held sealsMade)
    (hdurable : st'.durableThrough=st.durableThrough) (hsealed : st'.sealedThrough=st.sealedThrough)
    (hleading : Option.Rel EmptyStays st.leading st'.leading)
    (hseals : List.Forall₂ (fun s s' => SealMoves s s' ∧ Option.Rel EmptyStays s.trailing
      s'.trailing ∧ (s'.stage=.waiting ↔ s.stage=.waiting)) (sealsOf seals l) (sealsOf seals' l)) :
    LineageOk l st' seals' writes held sealsMade := by
  refine h.moves hdurable hsealed (rel_imp (fun _ _ he=>he.1) hleading)
    (hseals.imp fun _ _ hs=>⟨hs.1,rel_imp (fun _ _ he=>he.1) hs.2.1,hs.2.2⟩)
    (started_moves h.queue.started (slots_forall₂ ?_ ?_))
  · exact rel_imp (fun _ _ he=>⟨id,he.2⟩) hleading
  · exact hseals.imp fun _ _ hs=>⟨⟨hs.2.2.mp,hs.2.2.mpr⟩,rel_imp (fun _ _ he=>⟨id,he.2⟩) hs.2.1⟩

theorem LineageOk.congr {l : Key} {seals : Seals E} {writes : Table OpId (Write E T)}
    {held : Table OpId (HeldOp E T)} {sealsMade' : ℕ}
    (h : LineageOk l st seals writes held sealsMade) (hseals : sealsOf seals' l=sealsOf seals l)
    (hmade : sealsMade ≤ sealsMade') : LineageOk l st seals' writes held sealsMade' where
  queue := by
    rw [hseals]
    exact h.queue
  made_lt x hx:=by
    rw [hseals] at hx
    exact (h.made_lt x hx).trans_le hmade
  write_at:=by
    rw [hseals]
    exact h.write_at
  held_at:=by
    rw [hseals]
    exact h.held_at

end WindowsThreadpoolSys.DurableIoring
