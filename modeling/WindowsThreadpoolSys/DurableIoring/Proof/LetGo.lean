import WindowsThreadpoolSys.DurableIoring.Proof.Invariant

/-! A write that stops being uncovered leaves its table, its span's entry and its place, and is kept if a
failure suspects it. Each family says what of it that keeps. What the write must satisfy to leave is
`Leaves`: nothing asked for it is still out. -/
namespace WindowsThreadpoolSys.DurableIoring
open Library Durability Table Option Spans

variable {E T I : Type} [LinearOrder E]

/-! ## The records -/

section Records

variable {writes : Table OpId (Write E T)} {held : Table OpId (HeldOp E T)} {seals : Seals E}
  {kept : Kept E} {op : OpId} {w : Write E T} {now : ℕ}

section

omit [LinearOrder E]

theorem KeysOk.erase (h : KeysOk writes held seals kept) (op : OpId) :
    KeysOk (writes.erase op) held seals kept where
  write_key op' w' hw := h.write_key op' w' (get_of_erase hw)
  held_key:=h.held_key
  held_write_key:=h.held_write_key
  seal_key:=h.seal_key
  kept_key:=h.kept_key
  write_not_held op' w' hw:=h.write_not_held op' w' (get_of_erase hw)
  kept_not_write op' g hg:=by
    rw [get_erase,h.kept_not_write op' g hg,ite_self]
  kept_not_held:=h.kept_not_held

theorem KeysOk.keep (h : KeysOk writes held seals kept) (now : ℕ) (hw : writes.get op=some w) :
    KeysOk (writes.erase op) held seals (kept.insert w.op (w.gone now)) where
  write_key op' w' hw' := h.write_key op' w' (get_of_erase hw')
  held_key:=h.held_key
  held_write_key:=h.held_write_key
  seal_key:=h.seal_key
  kept_key op' g hg:=by
    rcases of_insert hg with ⟨hop,rfl⟩ | hg
    · exact hop.symm
    · exact h.kept_key op' g hg
  write_not_held op' w' hw':=h.write_not_held op' w' (get_of_erase hw')
  kept_not_write op' g hg:=by
    rw [get_insert,h.write_key op w hw] at hg
    rw [get_erase]
    split_ifs at hg ⊢ with hop
    · rfl
    · exact h.kept_not_write op' g hg
  kept_not_held op' g hg:=by
    rw [get_insert,h.write_key op w hw] at hg
    split_ifs at hg with hop
    · rw [hop]
      exact h.write_not_held op w hw
    · exact h.kept_not_held op' g hg

theorem KeysOk.letGo {kept' : Kept E} (h : KeysOk writes held seals kept)
    (hw : writes.get op=some w) (hkept : kept'=kept.insert op (w.gone now) ∨ kept'=kept) :
    KeysOk (writes.erase op) held seals kept' := by
  rcases hkept with rfl | rfl
  · have hkeep:=h.keep now hw
    rwa [h.write_key op w hw] at hkeep
  · exact h.erase op

theorem ClocksOk.letGo {lineages : Table Key (LineageState E)} {nextPush nextFailure : ℕ}
    {nextLineage : Key} (h : ClocksOk writes held kept lineages nextPush nextFailure nextLineage)
    {kept' : Kept E} (hw : writes.get op=some w) (huntil : ∀ u,w.until_=some u → u ≤ nextFailure)
    (hkept : kept'=kept.insert op (w.gone nextFailure) ∨ kept'=kept) :
    ClocksOk (writes.erase op) held kept' lineages nextPush nextFailure nextLineage where
  write_clock op' w' hw' := h.write_clock op' w' (get_of_erase hw')
  held_clock:=h.held_clock
  kept_clock op' g hg:=by
    rcases hkept with rfl | rfl
    · rcases of_insert hg with ⟨hsame,rfl⟩ | hg
      · obtain ⟨hpush,hborn⟩:=h.write_clock op w hw
        refine ⟨hsame ▸ hpush,hborn,?_⟩
        cases hu : w.until_ with
        | none=>simp [Write.gone,hu]
        | some u=>simpa [Write.gone,hu] using huntil u hu
      · exact h.kept_clock op' g hg
    · exact h.kept_clock op' g hg
  lineage_clock:=h.lineage_clock

end

theorem MarksOk.letGo {lineages : Table Key (LineageState E)} {sealsMade : ℕ}
    (h : MarksOk lineages seals writes held sealsMade) {writes' : Table OpId (Write E T)}
    (hsub : writes'.Sub writes) : MarksOk lineages seals writes' held sealsMade := by
  intro l st hst hlive
  have hl:=h l st hst hlive
  exact ⟨hl.queue,hl.made_lt,fun op' w' hw=>hl.write_at op' w' (hsub _ _ hw),hl.held_at⟩

theorem CountsOk.erase {inFlightByEpoch heldByEpoch : Counts E}
    {gated : Table (GatedKey E) (Gate E)}
    (h : CountsOk writes held inFlightByEpoch heldByEpoch gated) (hw : writes.get op=some w)
    (hstage : w.stage ≠ .inFlight) :
    CountsOk (writes.erase op) held inFlightByEpoch heldByEpoch gated := { h with
  inFlight_count l e:=by
    have hnot : isInFlightAt l e w=false:=by simp [isInFlightAt,hstage]
    rw [h.inFlight_count,count_erase _ hw,hnot]
    rfl }

theorem CountsOk.erase_inFlight {inFlightByEpoch heldByEpoch : Counts E}
    {gated : Table (GatedKey E) (Gate E)}
    (h : CountsOk writes held inFlightByEpoch heldByEpoch gated) (hw : writes.get op=some w)
    (hstage : w.stage=.inFlight) :
    CountsOk (writes.erase op) held (inFlightByEpoch.countDown w.lineage w.epoch) heldByEpoch
      gated := { h with
  inFlight_proper:=Counts.countDown_proper h.inFlight_proper _ _
  inFlight_count l e:=by
    rw [Counts.countDown_countAt,h.inFlight_count,count_erase _ hw]
    have hat : isInFlightAt l e w=true ↔ l=w.lineage ∧ e=w.epoch:=by
      rw [isInFlightAt_iff]
      exact and_iff_left hstage
    simp only [hat,Nat.add_sub_cancel] }

end Records

/-! ## Spans and parts -/

section Parts

variable {writes : Table OpId (Write E T)} {held : Table OpId (HeldOp E T)} {seals : Seals E}
  {spans spans' : Spans} {sealDomains : SealDomains} {lineages : Table Key (LineageState E)}
  {lists : DomainLists} {served : List DomainId} {op : OpId} {w : Write E T} {lost : Inconsistency}

omit [LinearOrder E] in
theorem SpansOk.letGo (h : SpansOk writes spans) (hw : writes.get op=some w)
    (hleave : spans.leave w.spanKey lost=.ok spans') : SpansOk (writes.erase op) spans' where
  proper := leave_proper h.proper hleave
  count key:=by
    have hold:=leave_writesAt h.proper hleave key
    rw [h.count,count_erase _ hw] at hold
    by_cases hkey : w.spanKey=key
    · simp only [hkey,decide_true,if_true] at hold
      omega
    · simp only [hkey,decide_false,Bool.false_eq_true,if_false,Ne.symm hkey] at hold
      omega
  unsealed_entry l file entry hget:=by
    obtain ⟨e,he,heq⟩:=leave_get hleave hget
    rw [heq]
    exact h.unsealed_entry l file e he
  answered_flushed key entry hget hans:=by
    obtain ⟨e,he,heq⟩:=leave_get hleave hget
    rw [heq] at hans ⊢
    exact h.answered_flushed key e he hans
  ok_answered key entry hget hok:=by
    obtain ⟨e,he,heq⟩:=leave_get hleave hget
    rw [heq] at hok ⊢
    exact h.ok_answered key e he hok

omit [LinearOrder E] in
theorem SpansOk.get_of_write (h : SpansOk writes spans) (hw : writes.get op=some w) :
    ∃ entry,spans.get w.spanKey=some entry := by
  refine isSome_iff_exists.mp ((writesAt_pos h.proper _).mp ?_)
  rw [h.count,count_pos]
  exact ⟨op,w,hw,by simp⟩

variable {entry : SpanFile}

omit [LinearOrder E] in
theorem SpansOk.entry_of_write (h : SpansOk writes spans') (hw : writes.get op=some w)
    {key : SpanKey} (hleave : spans.leave key lost=.ok spans')
    (hentry : spans.get w.spanKey=some entry) :
    ∃ n,spans'.get w.spanKey=some { entry with writes := n } := by
  obtain ⟨entry',hentry'⟩:=h.get_of_write hw
  obtain ⟨e,he,heq⟩:=leave_get hleave hentry'
  rw [hentry] at he
  cases he
  exact ⟨entry'.writes,by rw [hentry',← heq]⟩

theorem leave_count_out {l : Key} {q : ℕ} {key : SpanKey} (hentry : spans.get key=some entry)
    (hin : isOut l q key entry=false) (hleave : spans.leave key lost=.ok spans') :
    (spans'.count fun k e => isOut l q k e)=spans.count fun k e => isOut l q k e := by
  obtain ⟨e,he,rfl⟩:=leave_ok hleave
  rw [hentry] at he
  cases he
  split_ifs with hlast
  · rw [count_erase _ hentry,hin]
    simp
  · have hnew : isOut l q key { entry with writes:=entry.writes-1 }=false:=hin
    have:=count_replace { entry with writes:=entry.writes-1 }
      (fun k e=>isOut l q k e) hentry
    simpa [hin,hnew] using this

/-- Nothing asked for `w` is still out: its file's flush has answered, and so has every domain of it
its seal asked about. -/
def Leaves (lineages : Table Key (LineageState E)) (spans : Spans) (sealDomains : SealDomains)
    (lists : DomainLists) (w : Write E T) : Prop :=
  ∀ q, w.stage = .named q →
    (∀ entry, spans.get ⟨w.lineage, w.file, .sealed q⟩ = some entry → entry.flushed = true →
      entry.answered = true) ∧
    ∀ st domain part, lineages.get w.lineage = some st → st.ended = false →
      domain ∈ lists.get w.domains → sealDomains.get ⟨w.lineage, q, domain⟩ = some part →
      part.answered = true

section

omit [LinearOrder E]

theorem Leaves.not_out {l : Key} {q : ℕ} (h : Leaves lineages spans sealDomains lists w)
    (hentry : spans.get w.spanKey=some entry) : isOut l q w.spanKey entry=false := by
  cases hstage : w.stage with
  | inFlight | completed=>simp [isOut,Write.spanKey,hstage,Span.ofStage]
  | named q' =>
    have hkey : w.spanKey=⟨w.lineage,w.file,.sealed q'⟩:=by
      simp [Write.spanKey,hstage,Span.ofStage]
    cases hflushed : entry.flushed with
    | false=>simp [isOut,hflushed]
    | true=>simp [isOut,(h q' hstage).1 entry (hkey ▸ hentry) hflushed]

theorem PartsOk.letGo (h : PartsOk lineages seals spans sealDomains writes lists served)
    (hspans : SpansOk writes spans) (hw : writes.get op=some w)
    (hleaves : Leaves lineages spans sealDomains lists w)
    (hleave : spans.leave w.spanKey lost=.ok spans') :
    PartsOk lineages seals spans' sealDomains (writes.erase op) lists served := by
  have hspans':=hspans.letGo hw hleave
  obtain ⟨entry₀,hentry₀⟩:=hspans.get_of_write hw
  refine { h with
    flushing:=fun k s n failed hs hstage=>?_
    done_file:=fun k s ok hs hstage file entry hget hflushed=>?_
    named_seal:=fun op' w' q hw'=>h.named_seal op' w' q (get_of_erase hw')
    named_flush:=fun op' w' q hw' hstage hdefault=>?_
    flushed_default:=fun op' w' q entry hw' hstage hget hflushed=>?_
    named_asked:=fun op' w' q st hw'=>h.named_asked op' w' q st (get_of_erase hw')
    asked_write:=fun k part st hpart hans hst hlive=>?_ }
  · rw [leave_count_out hentry₀ (hleaves.not_out hentry₀) hleave]
    exact h.flushing k s n failed hs hstage
  · obtain ⟨e,he,heq⟩:=leave_get hleave hget
    rw [heq] at hflushed ⊢
    exact h.done_file k s ok hs hstage file e he hflushed
  · have hkey : w'.spanKey=⟨w'.lineage,w'.file,.sealed q⟩:=by
      simp [Write.spanKey,hstage,Span.ofStage]
    obtain ⟨entry,hentry,hflushed⟩:=h.named_flush op' w' q (get_of_erase hw') hstage hdefault
    obtain ⟨n,hn⟩:=hspans'.entry_of_write hw' hleave (hkey ▸ hentry)
    exact ⟨{ entry with writes:=n },hkey ▸ hn,hflushed⟩
  · obtain ⟨e,he,heq⟩:=leave_get hleave hget
    rw [heq] at hflushed
    exact h.flushed_default op' w' q e (get_of_erase hw') hstage he hflushed
  · obtain ⟨op',w',hw',hl,hstage,hdomain⟩:=h.asked_write k part st hpart hans hst hlive
    refine ⟨op',w',?_,hl,hstage,hdomain⟩
    rw [get_erase,if_neg,hw']
    rintro rfl
    rw [hw] at hw'
    cases hw'
    have hanswered:=(hleaves k.seq hstage).2 st k.domain part (hl ▸ hst) hlive hdomain (by
      rw [hl]
      exact hpart)
    rw [hans] at hanswered
    cases hanswered

theorem CoverOk.letGo (h : CoverOk lineages spans sealDomains writes lists served)
    (hleave : spans.leave w.spanKey lost=.ok spans') :
    CoverOk lineages spans' sealDomains (writes.erase op) lists served := by
  intro op' w' q st hw' hstage hst hlive hcovered
  refine h op' w' q st (get_of_erase hw') hstage hst hlive ⟨fun hdefault=>?_,hcovered.2⟩
  obtain ⟨entry,hentry,hok⟩:=hcovered.1 hdefault
  obtain ⟨e,he,heq⟩:=leave_get hleave hentry
  rw [heq] at hok
  exact ⟨e,he,hok⟩

theorem FilesOk.letGo (h : FilesOk lineages writes held spans lists served)
    (hleave : spans.leave w.spanKey lost=.ok spans') :
    FilesOk lineages (writes.erase op) held spans' lists served := { h with
  write_routed op' w' st hw':=h.write_routed op' w' st (get_of_erase hw')
  same_write op₁ w₁ op₂ w₂ h₁ h₂:=h.same_write op₁ w₁ op₂ w₂ (get_of_erase h₁) (get_of_erase h₂)
  same_held op' w' op₂ h₂ a hw':=h.same_held op' w' op₂ h₂ a (get_of_erase hw')
  entry_domains op' w' e hw' hget:=by
    obtain ⟨e',he',heq⟩:=leave_get hleave hget
    rw [heq]
    exact h.entry_domains op' w' e' (get_of_erase hw') he' }

theorem LivesOk.letGo {nextFailure : ℕ}
    (h : LivesOk lineages writes seals sealDomains served nextFailure)
    {writes' : Table OpId (Write E T)} (hsub : writes'.Sub writes) :
    LivesOk lineages writes' seals sealDomains served nextFailure :=
    { h with write_lineage op' w' hw':=h.write_lineage op' w' (hsub _ _ hw') }

end

theorem EndsOk.letGo {abandoned : Table (EpochKey E) OpId}
    (h : EndsOk lineages writes held seals spans abandoned) (hspans : SpansOk writes spans)
    (hw : writes.get op=some w) (hleave : spans.leave w.spanKey lost=.ok spans') :
    EndsOk lineages (writes.erase op) held seals spans' abandoned where
  ended_write op' w' st hw' hst hended := by
    refine (h.ended_write op' w' st (get_of_erase hw') hst hended).imp id ?_
    rintro ⟨q,entry,hstage,hentry,hflushed,hanswered⟩
    have hkey : w'.spanKey=⟨w'.lineage,w'.file,.sealed q⟩:=by
      simp [Write.spanKey,hstage,Span.ofStage]
    obtain ⟨n,hn⟩:=(hspans.letGo hw hleave).entry_of_write hw' hleave (hkey ▸ hentry)
    exact ⟨q,{ entry with writes:=n },hstage,hkey ▸ hn,hflushed,hanswered⟩
  ended_seal:=h.ended_seal
  held_lineage:=h.held_lineage
  gate_lineage:=h.gate_lineage
  abandoned_lineage:=h.abandoned_lineage

end Parts

/-! ## Suspects and places -/

section Suspects

variable {failures : List (Failure I)} {writes : Table OpId (Write E T)}
  {held : Table OpId (HeldOp E T)} {kept kept' : Kept E} {lists : DomainLists}
  {lineages : Table Key (LineageState E)} {nextFailure : ℕ} {instance_ : InstanceId} {op : OpId}
  {w : Write E T} {window window' : Window} {seals : Seals E}
  {abandoned : Table (EpochKey E) OpId} {operations : ℕ}

omit [LinearOrder E] in
theorem gone_namedBy {f : Failure I} (hclock : f.id.seq < nextFailure) :
    (w.gone nextFailure).namedBy lists f=w.namedBy lists f := by
  unfold Gone.namedBy Write.namedBy Failure.names Write.gone
  cases hu : w.until_ with
  | none=>simp [hclock]
  | some u=>simp

theorem WindowOk.suspect_pos
    (h : WindowOk window writes held kept failures seals abandoned operations) (op : OpId) :
    0 < window.level op .suspect ↔ ∃ f ∈ failures,op ∈ f.listed := by
  rw [h.suspect_level,List.countP_pos_iff]
  simp

omit [LinearOrder E] in
theorem SuspectsOk.letGo (h : SuspectsOk failures writes kept lists lineages nextFailure instance_)
    (hw : writes.get op=some w) (hlineage : ∃ st,lineages.get w.lineage=some st)
    (hkept : (∃ f ∈ failures,op ∈ f.listed) ∧ kept'=kept.insert op (w.gone nextFailure) ∨
      ¬(∃ f ∈ failures,op ∈ f.listed) ∧ kept'=kept) :
    SuspectsOk failures (writes.erase op) kept' lists lineages nextFailure instance_ where
  order := h.order
  clock:=h.clock
  listed_sorted:=h.listed_sorted
  write_named f hf op' w' st hw':=h.write_named f hf op' w' st (get_of_erase hw')
  kept_named f hf op' g hg:=by
    rcases hkept with ⟨hlisted,rfl⟩ | ⟨-,rfl⟩
    · rcases of_insert hg with ⟨hsame,rfl⟩ | hg
      · obtain ⟨st,hst⟩:=hlineage
        rw [hsame,gone_namedBy (h.clock f hf).1]
        exact h.write_named f hf op w st hw hst (.inr hlisted)
      · exact h.kept_named f hf op' g hg
    · exact h.kept_named f hf op' g hg
  listed_record f hf op' hop':=by
    by_cases hsame : op'=op
    · subst hsame
      have hlisted : ∃ f ∈ failures,op' ∈ f.listed:=⟨f,hf,hop'⟩
      rcases hkept with ⟨-,rfl⟩ | ⟨hnot, -⟩
      · exact .inr ⟨_,get_insert_self _ _ _⟩
      · exact absurd hlisted hnot
    · rcases h.listed_record f hf op' hop' with ⟨w',hw'⟩ | ⟨g,hg⟩
      · exact .inl ⟨w',by rw [get_erase,if_neg hsame,hw']⟩
      · refine .inr ⟨g,?_⟩
        rcases hkept with ⟨-,rfl⟩ | ⟨-,rfl⟩
        · rw [get_insert_of_ne _ _ hsame,hg]
        · exact hg
  kept_listed op' g hg:=by
    rcases hkept with ⟨hlisted,rfl⟩ | ⟨-,rfl⟩
    · rcases of_insert hg with ⟨rfl, -⟩ | hg
      · exact hlisted
      · exact h.kept_listed op' g hg
    · exact h.kept_listed op' g hg

theorem WindowOk.letGo (h : WindowOk window writes held kept failures seals abandoned operations)
    (hw : writes.get op=some w) (hrelease : window.release op .uncovered=.ok window')
    (hkept : kept'=kept.insert op (w.gone nextFailure) ∨ kept'=kept) :
    WindowOk window' (writes.erase op) held kept' failures seals abandoned operations := by
  have hlevel:=Window.release_level hrelease
  have hother : ∀ op' k,k≠.uncovered → window'.level op' k=window.level op' k:=by
    intro op' k hk
    rw [hlevel op' k,if_neg fun hsame=>hk hsame.2,Nat.add_zero]
  refine {
    proper:=Window.release_proper h.proper hrelease
    size_le:=(Window.release_size_le hrelease).trans h.size_le
    held_level:=fun op' g hg=>by rw [hother _ _ (by simp),h.held_level op' g hg]
    uncovered_level:=fun op'=>?_
    suspect_level:=fun op'=>by rw [hother _ _ (by simp),h.suspect_level]
    pin_level:=fun op'=>by rw [hother _ _ (by simp),h.pin_level]
    abandoned_level:=fun op'=>by rw [hother _ _ (by simp),h.abandoned_level]
    seal_pin:=fun k s hs=>?_
    abandoned_pin:=fun k op' hk=>?_ }
  · have hat:=hlevel op' .uncovered
    rw [h.uncovered_level] at hat
    rw [get_erase]
    by_cases hsame : op'=op
    · subst hsame
      simp only [hw,isSome_some,if_true,and_self] at hat
      simp only [if_true,isSome_none,Bool.false_eq_true,if_false]
      omega
    · simp only [hsame,false_and,if_false,Nat.add_zero] at hat ⊢
      exact hat.symm
  · obtain ⟨pin,hpin,hwrite,hheld⟩:=h.seal_pin k s hs
    exact ⟨pin,hpin,fun w' hw'=>hwrite w' (get_of_erase hw'),hheld⟩
  · obtain ⟨hheld,hwrite,hgone⟩:=h.abandoned_pin k op' hk
    refine ⟨hheld,fun w' hw'=>hwrite w' (get_of_erase hw'),fun g hg=>?_⟩
    rcases hkept with rfl | rfl
    · rcases of_insert hg with ⟨hsame,rfl⟩ | hg
      · exact hwrite w (hsame ▸ hw)
      · exact hgone g hg
    · exact hgone g hg

end Suspects

/-! ## The core

The lineages, the seals and the domains asked about are given apart: the mark passes a seal by taking
it off the queue first and letting its writes go after, and until they have gone the records agree
with the queue as it was. -/

section Core

variable {d d' : Durability E T I} {lineages : Table Key (LineageState E)} {seals : Seals E}
  {sealDomains : SealDomains}

/-- The core's records hold together, with the places they hold, as read beside `lineages`, `seals`
and `sealDomains`. -/
structure InvBeside (lineages : Table Key (LineageState E)) (seals : Seals E)
    (sealDomains : SealDomains) (d : Durability E T I) : Prop where
  tables : TablesOk { d with lineages := lineages, seals := seals, sealDomains := sealDomains }
  window : WindowOk d.window d.writes d.held d.kept d.failures d.seals d.abandoned
    d.capacity.operations

theorem Inv.beside (h : Inv d) : InvBeside d.lineages d.seals d.sealDomains d :=
  ⟨h.toTablesOk,h.window⟩

theorem InvBeside.letGoOne {op : OpId} {w : Write E T} {inFlightByEpoch : Counts E}
    (h : InvBeside lineages seals sealDomains d) (hw : d.writes.get op=some w)
    (hleaves : Leaves lineages d.spans sealDomains d.lists w)
    (hcounts : CountsOk (d.writes.erase op) d.held inFlightByEpoch d.heldByEpoch d.gated)
    (hone : d.letGoOne op=.ok d') :
    InvBeside lineages seals sealDomains { d' with inFlightByEpoch := inFlightByEpoch } := by
  have ht:=h.tables
  have hop : w.op=op:=ht.keys.write_key op w hw
  obtain ⟨st,hst,huntil,hended⟩:=ht.lives.write_lineage op w hw
  obtain ⟨spans,window,kept,hleave,hrelease,hkept,rfl⟩:=letGoOne_ok hw hone
  rw [hop] at hrelease hkept
  have hlevel : window.level op .suspect=d.window.level op .suspect:=by
    rw [Window.release_level hrelease op .suspect]
    simp
  have hsuspect:=h.window.suspect_pos op
  rw [← hlevel,← Window.suspected_iff] at hsuspect
  have hkept' : kept=d.kept.insert op (w.gone d.nextFailure) ∨ kept=d.kept :=
    hkept.imp (fun hk=>hk.2.2) fun hk=>hk.2
  have hlisted : (∃ f ∈ d.failures,op ∈ f.listed) ∧ kept=d.kept.insert op (w.gone d.nextFailure) ∨
      ¬(∃ f ∈ d.failures,op ∈ f.listed) ∧ kept=d.kept:=by
    refine hkept.imp (fun hk=>⟨hsuspect.mp hk.1,hk.2.2⟩) fun hk=>⟨fun hf=>?_,hk.2⟩
    rw [hsuspect.mpr hf] at hk
    cases hk.1
  have hclock : ∀ u,w.until_=some u → u ≤ d.nextFailure:=by
    intro u hu
    cases hend : st.ended with
    | false =>
      rw [huntil hend] at hu
      cases hu
    | true =>
      obtain ⟨u',hu',hle⟩:=hended hend
      rw [hu] at hu'
      cases hu'
      exact hle
  exact {
    tables :=
      { keys:=ht.keys.letGo hw hkept'
        clocks:=ht.clocks.letGo hw hclock hkept'
        counts:=hcounts
        spans:=ht.spans.letGo hw hleave
        lives:=ht.lives.letGo (sub_erase _ _)
        marks:=ht.marks.letGo (sub_erase _ _)
        parts:=ht.parts.letGo ht.spans hw hleaves hleave
        files:=ht.files.letGo hleave
        suspects:=ht.suspects.letGo hw ⟨st,hst⟩ hlisted
        tokens:=ht.tokens }
    window:=h.window.letGo hw hrelease hkept' }

omit [LinearOrder E] in
theorem Leaves.of_leave {w w₀ : Write E T} {spans spans' : Spans} {lists : DomainLists}
    {lost : Inconsistency} (h : Leaves lineages spans sealDomains lists w)
    (hleave : spans.leave w₀.spanKey lost=.ok spans') :
    Leaves lineages spans' sealDomains lists w := by
  intro q hstage
  refine ⟨fun entry hentry hflushed=>?_,(h q hstage).2⟩
  obtain ⟨e,he,heq⟩:=leave_get hleave hentry
  rw [heq] at hflushed ⊢
  exact (h q hstage).1 e he hflushed

theorem InvBeside.letGo {leaves : Write E T → Bool} (h : InvBeside lineages seals sealDomains d)
    (hleaves : ∀ op w,d.writes.get op=some w → leaves w=true →
      w.stage ≠ .inFlight ∧ Leaves lineages d.spans sealDomains d.lists w)
    (hgo : d.letGo leaves=.ok d') : InvBeside lineages seals sealDomains d' := by
  refine (letGo_induction
    (fun s=>InvBeside lineages seals sealDomains s ∧ ∀ op w,s.writes.get op=some w →
      leaves w=true → w.stage≠.inFlight ∧ Leaves lineages s.spans sealDomains s.lists w)
    (fun s s' op w hs hw hpick hone=>?_) ⟨h,hleaves⟩ hgo).1
  obtain ⟨hs,hrest⟩:=hs
  obtain ⟨hstage,hleave⟩:=hrest op w hw hpick
  refine ⟨?_,?_⟩
  · have hnext:=hs.letGoOne hw hleave (hs.tables.counts.erase hw hstage) hone
    obtain ⟨spans,window,kept, -, -, -,rfl⟩:=letGoOne_ok hw hone
    exact hnext
  · obtain ⟨spans,window,kept,hleft, -, -,rfl⟩:=letGoOne_ok hw hone
    intro op' w' hw' hpick'
    obtain ⟨hstage',hleave'⟩:=hrest op' w' (get_of_erase hw') hpick'
    exact ⟨hstage',hleave'.of_leave hleft⟩

theorem letGo_spans {leaves : Write E T → Bool} (P : Table OpId (Write E T) → Spans → Prop)
    (hstep : ∀ writes spans spans' op w lost,P writes spans → SpansOk writes spans →
      writes.get op=some w → leaves w=true → Spans.leave spans w.spanKey lost=.ok spans' →
      P (writes.erase op) spans')
    (h : P d.writes d.spans) (hspans : SpansOk d.writes d.spans) (hgo : d.letGo leaves=.ok d') :
    P d'.writes d'.spans := by
  refine (letGo_induction (fun s=>P s.writes s.spans ∧ SpansOk s.writes s.spans)
    (fun s s' op w hs hw hleaves hone=>?_) ⟨h,hspans⟩ hgo).1
  obtain ⟨spans,window,kept,hleave, -, -,rfl⟩:=letGoOne_ok hw hone
  exact ⟨hstep s.writes s.spans spans op w _ hs.1 hs.2 hw hleaves hleave,hs.2.letGo hw hleave⟩

end Core

end WindowsThreadpoolSys.DurableIoring
