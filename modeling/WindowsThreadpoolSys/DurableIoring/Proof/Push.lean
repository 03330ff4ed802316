import WindowsThreadpoolSys.DurableIoring.Proof.LetGo

/-! A write goes in flight when it is pushed, or when it is issued after being held for its gate. What it
must satisfy is `Enters`; a fresh write that may join its epoch and a held write whose gate is durable
both do. -/
namespace WindowsThreadpoolSys.DurableIoring
open Library Durability Table Option

variable {E T I : Type} [LinearOrder E] {abandoned : Table (EpochKey E) OpId}
  {failures : List (Failure I)}

/-- What a write about to go in flight satisfies: no record has its number, its lineage is live, its
epoch is not yet named, and it is routed as its file is. -/
structure Enters (d : Durability E T I) (a : Accepted E T) : Prop where
  no_write : d.writes.get a.op = none
  no_held : d.held.get a.op = none
  no_kept : d.kept.get a.op = none
  lineage_live : ∃ st, d.lineages.get a.lineage = some st ∧ st.ended = false
  open_at : ∀ st, d.lineages.get a.lineage = some st → st.ended = false →
    OpenAt (slots st.leading (sealsOf d.seals a.lineage)) st.durableThrough st.sealedThrough a.epoch
  routed : a.routing = routing (d.lists.get a.domains) d.served
  written : ∀ op w, d.writes.get op = some w → w.lineage = a.lineage → w.file = a.file →
    w.domains = a.domains
  held_same : ∀ op h w, d.held.get op = some h → h.write = some w → w.lineage = a.lineage →
    w.file = a.file → w.domains = a.domains
  pin : ∀ k s, d.seals.get k = some s → s.pin = some a.op →
    a.lineage = k.lineage ∧ a.epoch ≤ s.through
  no_abandoned : ∀ k, d.abandoned.get k ≠ some a.op

/-! ## The families -/

section Families

variable {writes : Table OpId (Write E T)} {held : Table OpId (HeldOp E T)} {seals : Seals E}
  {kept : Kept E} {lineages : Table Key (LineageState E)} {spans spans' : Spans}
  {sealDomains : SealDomains} {lists : DomainLists} {served : List DomainId} {a : Accepted E T}
  {now limit : ℕ}

omit [LinearOrder E] in
theorem KeysOk.push (h : KeysOk writes held seals kept) (hheld : held.get a.op=none)
    (hkept : kept.get a.op=none) : KeysOk (writes.insert a.op (a.record now)) held seals kept :=
  { h with
    write_key:=fun op w hw=>by
      rcases of_insert hw with ⟨hop,rfl⟩ | hw
      · exact hop.symm
      · exact h.write_key op w hw
    write_not_held:=fun op w hw=>by
      rcases of_insert hw with ⟨hop, -⟩ | hw
      · rw [hop,hheld]
      · exact h.write_not_held op w hw
    kept_not_write:=fun op g hg=>by
      rw [get_insert,if_neg,h.kept_not_write op g hg]
      rintro rfl
      rw [hkept] at hg
      cases hg }

variable {domains : DomainList}

omit [LinearOrder E] in
theorem SpansOk.enter (h : SpansOk writes spans) {op : OpId} {w : Write E T}
    (hnone : writes.get op=none) (henter : spans.enter limit w.spanKey domains=.ok spans') :
    SpansOk (writes.insert op w) spans' where
  proper := Spans.enter_proper h.proper henter
  count key:=by
    rw [Spans.enter_writesAt henter,h.count,count_insert _ _ hnone]
    simp only [decide_eq_true_eq,@eq_comm _ key]
  unsealed_entry l file entry hget:=by
    rcases Spans.enter_get henter hget with ⟨-, -,heq⟩ | ⟨e,he,heq⟩
    · rw [heq]
      rfl
    · rw [heq]
      exact h.unsealed_entry l file e he
  answered_flushed key entry hget hans:=by
    rcases Spans.enter_get henter hget with ⟨-, -,heq⟩ | ⟨e,he,heq⟩
    · rw [heq] at hans
      cases hans
    · rw [heq] at hans ⊢
      exact h.answered_flushed key e he hans
  ok_answered key entry hget hok:=by
    rcases Spans.enter_get henter hget with ⟨-, -,heq⟩ | ⟨e,he,heq⟩
    · rw [heq] at hok
      cases hok
    · rw [heq] at hok ⊢
      exact h.ok_answered key e he hok

omit [LinearOrder E] in
theorem SpansOk.push (h : SpansOk writes spans) (hnone : writes.get a.op=none)
    (henter : spans.enter limit ⟨a.lineage,a.file,.unsealed⟩ a.domains=.ok spans') :
    SpansOk (writes.insert a.op (a.record now)) spans' :=
  h.enter hnone henter

theorem enter_sealed {l : Key} {file : IoTargetKey}
    (henter : spans.enter limit ⟨l,file,.unsealed⟩ domains=.ok spans') (l' : Key)
    (file' : IoTargetKey) (q : ℕ) :
    spans'.get ⟨l',file',.sealed q⟩=spans.get ⟨l',file',.sealed q⟩ :=
  Spans.enter_get_of_ne henter (by simp)

theorem enter_count_out {l : Key} {key : SpanKey} {q : ℕ}
    (henter : spans.enter limit key domains=.ok spans') :
    (spans'.count fun k e => isOut l q k e)=spans.count fun k e => isOut l q k e := by
  obtain ⟨-,rfl⟩:=Spans.enter_ok henter
  cases hget : spans.get key with
  | none =>
    have hnot : ∀ n,¬isOut l q key { SpanFile.new domains with writes:=n }=true:=fun n=>by
      simp [isOut,SpanFile.new]
    rw [count_insert _ _ hget]
    exact congrArg _ (if_neg (hnot _))
  | some entry =>
    have hsame : isOut l q key { entry with writes:=entry.writes+1 }=isOut l q key entry:=rfl
    have hreplace:=count_replace { entry with writes:=entry.writes+1 }
      (fun k e=>isOut l q k e) hget
    rw [hsame] at hreplace
    exact Nat.add_right_cancel hreplace

omit [LinearOrder E] in
theorem PartsOk.push (h : PartsOk lineages seals spans sealDomains writes lists served)
    (hnone : writes.get a.op=none)
    (henter : spans.enter limit ⟨a.lineage,a.file,.unsealed⟩ a.domains=.ok spans') :
    PartsOk lineages seals spans' sealDomains (writes.insert a.op (a.record now)) lists served := by
  have hget : ∀ op w q,(writes.insert a.op (a.record now)).get op=some w → w.stage=.named q →
      writes.get op=some w:=by
    intro op w q hw hstage
    rcases of_insert hw with ⟨-,rfl⟩ | hw
    · cases hstage
    · exact hw
  exact { h with
    flushing:=fun k s n failed hs hstage=>by
      rw [enter_count_out henter]
      exact h.flushing k s n failed hs hstage
    done_file:=fun k s ok hs hstage file entry hentry=>by
      rw [enter_sealed henter] at hentry
      exact h.done_file k s ok hs hstage file entry hentry
    named_seal:=fun op w q hw hstage=>h.named_seal op w q (hget op w q hw hstage) hstage
    named_flush:=fun op w q hw hstage hdefault=>by
      rw [enter_sealed henter]
      exact h.named_flush op w q (hget op w q hw hstage) hstage hdefault
    flushed_default:=fun op w q entry hw hstage hentry=>by
      rw [enter_sealed henter] at hentry
      exact h.flushed_default op w q entry (hget op w q hw hstage) hstage hentry
    named_asked:=fun op w q st hw hstage=>h.named_asked op w q st (hget op w q hw hstage) hstage
    asked_write:=fun k part st hpart hans hst hlive=>by
      obtain ⟨op,w,hw,hrest⟩:=h.asked_write k part st hpart hans hst hlive
      refine ⟨op,w,?_,hrest⟩
      rw [get_insert_of_ne _ _,hw]
      rintro rfl
      rw [hnone] at hw
      cases hw }

omit [LinearOrder E] in
theorem CoverOk.push (h : CoverOk lineages spans sealDomains writes lists served)
    (henter : spans.enter limit ⟨a.lineage,a.file,.unsealed⟩ a.domains=.ok spans') :
    CoverOk lineages spans' sealDomains (writes.insert a.op (a.record now)) lists served := by
  intro op w q st hw hstage hst hlive hcovered
  rcases of_insert hw with ⟨-,rfl⟩ | hw
  · cases hstage
  · unfold CoveredBy at hcovered
    rw [enter_sealed henter] at hcovered
    exact h op w q st hw hstage hst hlive hcovered

theorem EndsOk.push (h : EndsOk lineages writes held seals spans abandoned)
    (henter : spans.enter limit ⟨a.lineage,a.file,.unsealed⟩ a.domains=.ok spans') :
    EndsOk lineages (writes.insert a.op (a.record now)) held seals spans' abandoned := { h with
  ended_write:=fun op w st hw hst hended=>by
    rcases of_insert hw with ⟨-,rfl⟩ | hw
    · exact .inl rfl
    · simp only [enter_sealed henter]
      exact h.ended_write op w st hw hst hended }

omit [LinearOrder E] in
theorem FilesOk.push (h : FilesOk lineages writes held spans lists served)
    (hspans : SpansOk writes spans) (hrouted : a.routing=routing (lists.get a.domains) served)
    (hwritten : ∀ op w,writes.get op=some w → w.lineage=a.lineage → w.file=a.file →
      w.domains=a.domains)
    (hheld : ∀ op h w,held.get op=some h → h.write=some w → w.lineage=a.lineage →
      w.file=a.file → w.domains=a.domains)
    (henter : spans.enter limit ⟨a.lineage,a.file,.unsealed⟩ a.domains=.ok spans') :
    FilesOk lineages (writes.insert a.op (a.record now)) held spans' lists served := by
  exact { h with
    write_routed:=fun op w st hw hst hlive=>by
      rcases of_insert hw with ⟨-,rfl⟩ | hw
      · exact hrouted
      · exact h.write_routed op w st hw hst hlive
    same_write:=fun op w op' w' hw hw' hl hf=>by
      rcases of_insert hw with ⟨-,rfl⟩ | hw
      · rcases of_insert hw' with ⟨-,rfl⟩ | hw'
        · rfl
        · exact (hwritten op' w' hw' hl.symm hf.symm).symm
      · rcases of_insert hw' with ⟨-,rfl⟩ | hw'
        · exact hwritten op w hw hl hf
        · exact h.same_write op w op' w' hw hw' hl hf
    same_held:=fun op w op' g b hw hg hb hl hf=>by
      rcases of_insert hw with ⟨-,rfl⟩ | hw
      · exact (hheld op' g b hg hb hl.symm hf.symm).symm
      · exact h.same_held op w op' g b hw hg hb hl hf
    entry_domains:=fun op w e hw he=>by
      rcases Spans.enter_get henter he with ⟨hkey,hget,heq⟩ | ⟨e',he',heq⟩
      · rw [heq]
        rcases of_insert hw with ⟨-,rfl⟩ | hw
        · rfl
        · obtain ⟨entry,hentry⟩:=hspans.get_of_write hw
          rw [hkey,hget] at hentry
          cases hentry
      · rw [heq]
        rcases of_insert hw with ⟨-,rfl⟩ | hw
        · -- The entry was there, so another write of the file is in it.
          have hpos:=(Spans.writesAt_pos hspans.proper _).mpr (by rw [he']; rfl)
          rw [hspans.count,count_pos] at hpos
          obtain ⟨op₂,w₂,hw₂,hkey₂⟩:=hpos
          have hkey₂ : w₂.spanKey=(a.record now).spanKey:=by simpa using hkey₂
          obtain ⟨hl,hf, -⟩:=SpanKey.mk.inj hkey₂
          rw [← hkey₂] at he'
          rw [show e'.domains=w₂.domains from h.entry_domains op₂ w₂ e' hw₂ he']
          exact hwritten op₂ w₂ hw₂ hl hf
        · exact h.entry_domains op w e' hw he' }

end Families

section Core

variable {d d' : Durability E T I} {a : Accepted E T}

omit [LinearOrder E] in
theorem SuspectsOk.push {writes : Table OpId (Write E T)} {kept : Kept E} {lists : DomainLists}
    {lineages : Table Key (LineageState E)} {now : ℕ} {instance_ : InstanceId}
    (h : SuspectsOk failures writes kept lists lineages now instance_)
    (hnone : writes.get a.op=none) (hkept : kept.get a.op=none) :
    SuspectsOk failures (writes.insert a.op (a.record now)) kept lists lineages now instance_ :=
  { h with
    write_named:=fun f hf op w st hw hst hread=>by
      rcases of_insert hw with ⟨hop,rfl⟩ | hw
      · have hnot : op ∉ f.listed:=fun hmem=>by
          rcases h.listed_record f hf op hmem with ⟨w,hw⟩ | ⟨g,hg⟩
          · rw [hop,hnone] at hw
            cases hw
          · rw [hop,hkept] at hg
            cases hg
        have hclock:=(h.clock f hf).1
        simp [Write.namedBy,Failure.names,Accepted.record,hnot,Nat.not_le.mpr hclock]
      · exact h.write_named f hf op w st hw hst hread
    listed_record:=fun f hf op hmem=>by
      refine (h.listed_record f hf op hmem).imp_left ?_
      rintro ⟨w,hw⟩
      refine ⟨w,?_⟩
      rw [get_insert_of_ne _ _,hw]
      rintro rfl
      rw [hnone] at hw
      cases hw }

theorem WindowOk.push {window window' : Window} {writes : Table OpId (Write E T)}
    {held : Table OpId (HeldOp E T)} {kept : Kept E} {seals : Seals E} {operations now : ℕ}
    (h : WindowOk window writes held kept failures seals abandoned operations)
    (hnone : writes.get a.op=none)
    (hpin : ∀ k s,seals.get k=some s → s.pin=some a.op → a.lineage=k.lineage ∧ a.epoch ≤ s.through)
    (habandoned : ∀ k,abandoned.get k ≠ some a.op)
    (hhold : window.hold operations a.op .uncovered=.ok window') :
    WindowOk window' (writes.insert a.op (a.record now)) held kept failures seals abandoned
      operations := by
  have hlevel:=Window.hold_level hhold
  have hother : ∀ op k,k≠.uncovered → window'.level op k=window.level op k:=by
    intro op k hk
    rw [hlevel op k,if_neg fun hsame=>hk hsame.2,Nat.add_zero]
  exact {
    proper:=Window.hold_proper h.proper hhold
    size_le:=Window.hold_size_le h.size_le hhold
    held_level:=fun op g hg=>by rw [hother _ _ (by simp),h.held_level op g hg]
    uncovered_level:=fun op=>by
      rw [hlevel,h.uncovered_level,get_insert]
      by_cases hop : op=a.op
      · simp [hop,hnone]
      · simp [hop]
    suspect_level:=fun op=>by rw [hother _ _ (by simp),h.suspect_level]
    pin_level:=fun op=>by rw [hother _ _ (by simp),h.pin_level]
    abandoned_level:=fun op=>by rw [hother _ _ (by simp),h.abandoned_level]
    seal_pin:=fun k s hs=>by
      obtain ⟨pin,hp,hwrite,hheld⟩:=h.seal_pin k s hs
      refine ⟨pin,hp,fun w hw=>?_,hheld⟩
      rcases of_insert hw with ⟨hop,rfl⟩ | hw
      · exact hpin k s hs (hop ▸ hp)
      · exact hwrite w hw
    abandoned_pin:=fun k op hk=>by
      obtain ⟨hheld,hwrite,hgone⟩:=h.abandoned_pin k op hk
      refine ⟨hheld,fun w hw=>?_,hgone⟩
      rcases of_insert hw with ⟨hop, -⟩ | hw
      · exact absurd (hop ▸ hk) (habandoned k)
      · exact hwrite w hw }

theorem Inv.inFlight {wasHeld : Bool} (h : Inv d) (he : Enters d a)
    (hpush : wasHeld=true → a.op < d.nextPush) (hok : d.inFlight a wasHeld=.ok d') : Inv d' := by
  obtain ⟨counts,spans,window, -,hcount,henter,hhold,rfl⟩:=inFlight_ok hok
  obtain ⟨st,hst,hlive⟩:=he.lineage_live
  have hclock : a.op<(if wasHeld then d.nextPush else max d.nextPush (a.op+1)):=by
    split_ifs with hheld
    · exact hpush hheld
    · exact (Nat.lt_succ_self a.op).trans_le (le_max_right _ _)
  have hmono : d.nextPush≤(if wasHeld then d.nextPush else max d.nextPush (a.op+1)):=by
    split_ifs <;> omega
  refine {
    keys:=h.keys.push he.no_held he.no_kept
    clocks :=
      { write_clock:=fun op w hw=>?_
        held_clock:=fun op g b hg hb=>(h.clocks.held_clock op g b hg hb).trans_le hmono
        kept_clock:=fun op g hg=>?_
        lineage_clock:=h.clocks.lineage_clock }
    counts:={ h.counts with
      inFlight_proper:=Counts.countUp_proper h.counts.inFlight_proper hcount
      inFlight_count:=fun l e=>?_ }
    spans:=h.spans.push he.no_write henter
    lives:={ h.lives with write_lineage:=fun op w hw=>?_ }
    marks:=fun l st' hst' hlive'=>?_
    parts:=h.parts.push he.no_write henter
    files:=h.files.push h.spans he.routed he.written he.held_same henter
    suspects:=h.suspects.push he.no_write he.no_kept
    tokens:=h.tokens
    cover:=h.cover.push henter
    ends:=h.ends.push henter
    window:=h.window.push he.no_write he.pin he.no_abandoned hhold }
  · rcases of_insert hw with ⟨rfl,rfl⟩ | hw
    · exact ⟨hclock,le_rfl⟩
    · exact ⟨(h.clocks.write_clock op w hw).1.trans_le hmono,(h.clocks.write_clock op w hw).2⟩
  · obtain ⟨hlt,hrest⟩:=h.clocks.kept_clock op g hg
    exact ⟨hlt.trans_le hmono,hrest⟩
  · rw [Counts.countUp_countAt hcount,h.counts.inFlight_count,count_insert _ _ he.no_write]
    have hat : isInFlightAt l e (a.record d.nextFailure)=true ↔ l=a.lineage ∧ e=a.epoch:=by
      rw [isInFlightAt_iff]
      exact and_iff_left rfl
    simp only [hat]
  · rcases of_insert hw with ⟨-,rfl⟩ | hw
    · exact ⟨st,hst,fun _=>rfl,fun hended=>by rw [hlive] at hended; cases hended⟩
    · exact h.lives.write_lineage op w hw
  · have hl:=h.marks l st' hst' hlive'
    refine { hl with write_at:=fun op w hw hwl=>?_ }
    rcases of_insert hw with ⟨-,rfl⟩ | hw
    · obtain rfl : a.lineage=l:=hwl
      exact he.open_at st' hst' hlive'
    · exact hl.write_at op w hw hwl

end Core

/-! ## Pushing -/

section Pushing

variable {d d' : Durability E T I} {a : Accepted E T} {op : OpId}

theorem Durability.Fresh.level (h : d.Fresh op) {holder : Holder} (hne : holder ≠ .operation) :
    d.window.level op holder=0 := by
  unfold Window.level
  rw [h.admitted]
  cases holder <;> simp_all [Holds.level,Holds.default]

theorem Durability.Fresh.no_write (h : d.Fresh op) (hinv : Inv d) : d.writes.get op=none := by
  have hlevel:=hinv.window.uncovered_level op
  rw [h.level (by simp)] at hlevel
  cases hw : d.writes.get op with
  | none=>rfl
  | some w=>simp [hw] at hlevel

theorem Durability.Fresh.no_kept (h : d.Fresh op) (hinv : Inv d) : d.kept.get op=none := by
  cases hg : d.kept.get op with
  | none=>rfl
  | some g =>
    have hpos:=(hinv.window.suspect_pos op).mpr (hinv.suspects.kept_listed op g hg)
    rw [h.level (by simp)] at hpos
    cases hpos

theorem Durability.Fresh.no_pin (h : d.Fresh op) (hinv : Inv d) (k : SealKey) (s : Seal E)
    (hs : d.seals.get k=some s) : s.pin ≠ some op := by
  have hlevel:=hinv.window.pin_level op
  rw [h.level (by simp),eq_comm,count_eq_zero] at hlevel
  simpa using hlevel k s hs

theorem Durability.Fresh.no_abandoned (h : d.Fresh op) (hinv : Inv d) (k : EpochKey E) :
    d.abandoned.get k ≠ some op := by
  intro hk
  have hlevel:=hinv.window.abandoned_level op
  rw [h.level (by simp),eq_comm,count_eq_zero] at hlevel
  simpa using hlevel k op hk

theorem Durability.Joins.above_sealed (h : d.Joins a) {st : LineageState E}
    (hst : d.lineages.get a.lineage=some st) (hlive : st.ended=false) :
    above st.sealedThrough a.epoch=true := by
  have hrefuses:=h.unsealed
  simp only [refuses,live_eq_some.mpr ⟨hst,hlive⟩] at hrefuses
  cases hsealed : st.sealedThrough with
  | none=>rfl
  | some e =>
    rw [hsealed] at hrefuses
    simpa [above,filter_some] using hrefuses

theorem Durability.Joins.enters (h : d.Joins a) (hinv : Inv d) (hlive : d.isLive a.lineage=true) :
    Enters d a where
  no_write := h.fresh.no_write hinv
  no_held:=h.fresh.held
  no_kept:=h.fresh.no_kept hinv
  lineage_live:=isLive_iff.mp hlive
  open_at st hst hended :=
    have habove:=h.above_sealed hst hended
    ⟨(hinv.marks a.lineage st hst hended).queue.above_durable habove,fun hnot=>absurd habove hnot⟩
  routed:=h.routed
  written:=h.written
  held_same:=h.held
  pin k s hs hpin:=absurd hpin (h.fresh.no_pin hinv k s hs)
  no_abandoned:=h.fresh.no_abandoned hinv

theorem Inv.pushed (h : Inv d) (hjoins : d.Joins a) (hok : d.pushed a=.ok d') : Inv d' := by
  unfold Durability.pushed at hok
  obtain ⟨-, -, -,hlive, -⟩:=inFlight_ok hok
  exact h.inFlight (hjoins.enters h hlive) (by simp) hok

end Pushing

/-! ## Issuing -/

section Issuing

variable {d d' : Durability E T I} {op : OpId} {g : HeldOp E T}
  {heldByEpoch : Counts E} {gated : Table (GatedKey E) (Gate E)}

theorem CountsOk.unhold {writes : Table OpId (Write E T)} {held : Table OpId (HeldOp E T)}
    {inFlightByEpoch : Counts E} (h : CountsOk writes held inFlightByEpoch heldByEpoch gated)
    (hg : held.get op=some g) (hready : g.ready=true) :
    CountsOk writes (held.erase op) inFlightByEpoch
      (g.write.elim heldByEpoch fun a => heldByEpoch.countDown a.lineage a.epoch) gated := { h with
  held_proper:=by
    cases g.write with
    | none=>exact h.held_proper
    | some a=>exact Counts.countDown_proper h.held_proper _ _
  held_count:=fun l e=>by
    have hcount:=h.held_count l e
    rw [count_erase _ hg] at hcount
    cases hwrite : g.write with
    | none =>
      have hnot : ¬isHeldAt l e g=true:=by simp [isHeldAt_iff,hwrite]
      rw [if_neg hnot] at hcount
      exact hcount
    | some a =>
      have hat : isHeldAt l e g=true ↔ l=a.lineage ∧ e=a.epoch:=by
        simp [isHeldAt_iff,hwrite]
      simp only [elim_some,Counts.countDown_countAt,hcount,hat,Nat.add_sub_cancel]
  gated_iff:=fun k gate=>by
    rw [h.gated_iff]
    refine exists_congr fun g'=>exists_congr fun a=>and_congr_left fun hrest=>?_
    rw [get_erase]
    split_ifs with hop
    · rw [hop,hg]
      refine ⟨fun hsame=>?_,fun hnone=>by cases hnone⟩
      cases hsame
      rw [hready] at hrest
      cases hrest.1
    · rfl }

theorem TablesOk.shrinkHeld {held : Table OpId (HeldOp E T)} (h : TablesOk d)
    (hsub : held.Sub d.held) (hcounts : CountsOk d.writes held d.inFlightByEpoch heldByEpoch gated) :
    TablesOk { d with held := held,heldByEpoch := heldByEpoch,gated := gated } := { h with
  keys:={ h.keys with
    held_key:=fun op g hg=>h.keys.held_key op g (hsub op g hg)
    held_write_key:=fun op g a hg=>h.keys.held_write_key op g a (hsub op g hg)
    write_not_held:=fun op w hw=>hsub.get_none (h.keys.write_not_held op w hw)
    kept_not_held:=fun op k hk=>hsub.get_none (h.keys.kept_not_held op k hk) }
  clocks:={ h.clocks with
    held_clock:=fun op g a hg=>h.clocks.held_clock op g a (hsub op g hg) }
  counts:=hcounts
  marks:=fun l st hst hlive =>
    { h.marks l st hst hlive with
      held_at:=fun op g a hg=>(h.marks l st hst hlive).held_at op g a (hsub op g hg) }
  files:={ h.files with
    held_routed:=fun op g a hg=>h.files.held_routed op g a (hsub op g hg)
    same_held:=fun op₁ w op g a hw hg=>h.files.same_held op₁ w op g a hw (hsub op g hg)
    held_same:=fun op₁ g₁ a₁ op₂ g₂ a₂ hg₁ ha₁ hg₂ =>
      h.files.held_same op₁ g₁ a₁ op₂ g₂ a₂ (hsub op₁ g₁ hg₁) ha₁ (hsub op₂ g₂ hg₂) } }

theorem WindowOk.shrinkHeld {window : Window} {writes : Table OpId (Write E T)}
    {held held' : Table OpId (HeldOp E T)} {kept : Kept E} {seals : Seals E} {operations : ℕ}
    (h : WindowOk window writes held kept failures seals abandoned operations)
    (hsub : held'.Sub held) :
    WindowOk window writes held' kept failures seals abandoned operations := { h with
  held_level:=fun op g hg=>h.held_level op g (hsub op g hg)
  seal_pin:=fun k s hs=>by
    obtain ⟨pin,hpin,hwrite,hheld⟩:=h.seal_pin k s hs
    exact ⟨pin,hpin,hwrite,fun g hg=>hheld g (hsub pin g hg)⟩
  abandoned_pin:=fun k op hk=>by
    obtain ⟨hheld,hrest⟩:=h.abandoned_pin k op hk
    exact ⟨hsub.get_none hheld,hrest⟩ }

theorem EndsOk.shrinkHeld {lineages : Table Key (LineageState E)} {writes : Table OpId (Write E T)}
    {held held' : Table OpId (HeldOp E T)} {seals : Seals E} {spans : Spans}
    (h : EndsOk lineages writes held seals spans abandoned) (hsub : held'.Sub held) :
    EndsOk lineages writes held' seals spans abandoned := { h with
  held_lineage:=fun op g a hg=>h.held_lineage op g a (hsub op g hg)
  gate_lineage:=fun op g hg=>h.gate_lineage op g (hsub op g hg) }

theorem Inv.shrinkHeld {held : Table OpId (HeldOp E T)} (h : Inv d) (hsub : held.Sub d.held)
    (hcounts : CountsOk d.writes held d.inFlightByEpoch heldByEpoch gated) :
    Inv { d with held := held,heldByEpoch := heldByEpoch,gated := gated } :=
  { h.toTablesOk.shrinkHeld hsub hcounts with
    cover:=h.cover
    ends:=h.ends.shrinkHeld hsub
    window:=h.window.shrinkHeld hsub }

theorem Inv.unhold (h : Inv d) (hg : d.held.get op=some g) (hready : g.ready=true) : Inv { d with
      held := d.held.erase op
      heldByEpoch := g.write.elim d.heldByEpoch fun a =>
        d.heldByEpoch.countDown a.lineage a.epoch } :=
  h.shrinkHeld (sub_erase _ _) (h.counts.unhold hg hready)

theorem Inv.held_enters {a : Accepted E T} (h : Inv d) (hg : d.held.get op=some g)
    (hwrite : g.write=some a) :
    Enters { d with held := d.held.erase op,heldByEpoch := heldByEpoch } a := by
  obtain rfl : a.op=op:=h.keys.held_write_key op g a hg hwrite
  have hno_write : d.writes.get a.op=none:=by
    cases hw : d.writes.get a.op with
    | none=>rfl
    | some w =>
      rw [h.keys.write_not_held _ w hw] at hg
      cases hg
  exact {
    no_write:=hno_write
    no_held:=get_erase_self _ _
    no_kept:=by
      cases hk : d.kept.get a.op with
      | none=>rfl
      | some k =>
        rw [h.keys.kept_not_held _ k hk] at hg
        cases hg
    lineage_live:=h.ends.held_lineage _ g a hg hwrite
    open_at:=fun st hst hlive=>(h.marks _ st hst hlive).held_at _ g a hg hwrite rfl
    routed:=h.files.held_routed _ g a hg hwrite
    written:=fun op w hw hl hf=>h.files.same_held op w _ g a hw hg hwrite hl hf
    held_same:=fun op g' w hg' hw hl hf =>
      h.files.held_same op g' w _ g a (get_of_erase hg') hw hg hwrite hl hf
    pin:=fun k s hs hpin=>by
      obtain ⟨pin,hp, -,hheld⟩:=h.window.seal_pin k s hs
      rw [hpin] at hp
      cases hp
      obtain ⟨a',ha',hrest⟩:=hheld g hg
      rw [hwrite] at ha'
      cases ha'
      exact hrest
    no_abandoned:=fun k hk=>by
      have hheld:=(h.window.abandoned_pin k _ hk).1
      rw [hg] at hheld
      cases hheld }

theorem Inv.issued (h : Inv d) (hok : d.issued op=.ok d') : Inv d' := by
  obtain ⟨g,hg,hready,hrest⟩:=issued_ok hok
  have hmid:=h.unhold hg hready
  rcases hrest with ⟨hwrite,rfl⟩ | ⟨a,hwrite,hin⟩
  · rw [hwrite] at hmid
    exact hmid
  · rw [hwrite] at hmid
    have hop:=h.keys.held_write_key op g a hg hwrite
    refine hmid.inFlight (h.held_enters hg hwrite) (fun _=>?_) hin
    rw [hop]
    exact h.clocks.held_clock op g a hg hwrite

end Issuing

end WindowsThreadpoolSys.DurableIoring
