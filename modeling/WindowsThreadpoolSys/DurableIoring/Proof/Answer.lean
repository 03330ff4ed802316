import WindowsThreadpoolSys.DurableIoring.Proof.MakeSeal

/-! A flush or a domain of a seal answers once. Success covers the writes whose parts have now all
answered so; a failure is the seal's own answer. -/
namespace WindowsThreadpoolSys.DurableIoring
open Library Durability List Table

variable {E T I : Type} [LinearOrder E] {d d' : Durability E T I} {l : Key}

/-! ## A seal's answer -/

def Seal.answer (s : Seal E) (unanswered : ℕ) (failed failedNow : Bool) : Seal E :=
  { s with
    stage := .flushing unanswered (failed || failedNow)
    answered := s.answered || failedNow }

section SealAnswer

variable {s : Seal E} {n m : ℕ} {failed failedNow : Bool}

omit [LinearOrder E] in
theorem Seal.answer_stays : SealStays s (s.answer m failed failedNow) :=
  ⟨rfl,rfl,rfl,fun h=>by cases h⟩

omit [LinearOrder E] in
theorem Seal.answer_waiting (hstage : s.stage=.flushing n failed) :
    (s.answer m failed failedNow).stage=.waiting ↔ s.stage=.waiting := by
  rw [hstage]
  simp [answer]

theorem MarksOk.answer {lineages : Table Key (LineageState E)} {seals : Seals E}
    {writes : Table OpId (Write E T)} {held : Table OpId (HeldOp E T)} {sealsMade : ℕ}
    (h : MarksOk lineages seals writes held sealsMade) (hs : seals.get ⟨l,s.seq⟩=some s)
    (hstage : s.stage=.flushing n failed) :
    MarksOk lineages (seals.insert ⟨l,s.seq⟩ (s.answer m failed failedNow)) writes held
      sealsMade := by
  intro l' st hst hlive
  rw [insert_seal _ hs]
  have hseals : List.Forall₂
      (fun v v'=>SealMoves v v' ∧ Option.Rel EmptyStays v.trailing v'.trailing ∧
        (v'.stage=.waiting ↔ v.stage=.waiting))
      (sealsOf seals l') (sealsOf (seals.map fun k v =>
        if k=⟨l,s.seq⟩ then s.answer m failed failedNow else v) l'):=by
    refine sealsOf_map fun k v hv _=>?_
    split_ifs with hk
    · rw [hk,hs] at hv
      cases hv
      exact ⟨⟨rfl,rfl,rfl⟩,EmptyStays.option_refl _,Seal.answer_waiting hstage⟩
    · exact ⟨.refl v,EmptyStays.option_refl _,Iff.rfl⟩
  exact (h l' st hst hlive).stays rfl rfl (EmptyStays.option_refl _) hseals

omit [LinearOrder E] in
theorem answer_stays {seals : Seals E} (m : ℕ) (failed failedNow : Bool)
    (hs : seals.get ⟨l,s.seq⟩=some s) (k : SealKey) (v : Seal E) (hv : seals.get k=some v) :
    SealStays v (if k=⟨l,s.seq⟩ then s.answer m failed failedNow else v) := by
  split_ifs with hk
  · rw [hk,hs] at hv
    cases hv
    exact Seal.answer_stays
  · exact ⟨rfl,rfl,rfl,id⟩

end SealAnswer

/-! ## A flush answers -/

section Flush

variable {s : Seal E} {n : ℕ} {failed failedNow : Bool} {file : IoTargetKey} {entry : SpanFile}
  {writes : Table OpId (Write E T)} {spans : Spans} {seals : Seals E} {sealDomains : SealDomains}
  {lineages : Table Key (LineageState E)} {lists : DomainLists} {served : List DomainId}

def SpanFile.answer (entry : SpanFile) (failedNow : Bool) : SpanFile :=
  { entry with answered := true, ok := !failedNow }

omit [LinearOrder E] in
theorem SpansOk.answer {q : ℕ} (h : SpansOk writes spans)
    (hentry : spans.get ⟨l,file,.sealed q⟩=some entry) (hflushed : entry.flushed=true) :
    SpansOk writes (spans.insert ⟨l,file,.sealed q⟩ (entry.answer failedNow)) where
  proper key e he := by
    rcases of_insert he with ⟨-,rfl⟩ | he
    · exact h.proper _ entry hentry
    · exact h.proper key e he
  count key:=by
    rw [← h.count]
    unfold Spans.writesAt
    rw [get_insert]
    split_ifs with hkey
    · rw [hkey,hentry]
      rfl
    · rfl
  unsealed_entry l' file' e he:=by
    rw [get_insert_of_ne _ _ (by simp)] at he
    exact h.unsealed_entry l' file' e he
  answered_flushed key e he hans:=by
    rcases of_insert he with ⟨-,rfl⟩ | he
    · exact hflushed
    · exact h.answered_flushed key e he hans
  ok_answered key e he hok:=by
    rcases of_insert he with ⟨-,rfl⟩ | he
    · rfl
    · exact h.ok_answered key e he hok

theorem answered_entry {key₀ key : SpanKey} {e : SpanFile} (hentry : spans.get key₀=some entry)
    (he : (spans.insert key₀ (entry.answer failedNow)).get key=some e) :
    ∃ e₀,spans.get key=some e₀ ∧ e₀.flushed=e.flushed ∧ e.domains=e₀.domains := by
  rcases of_insert he with ⟨rfl,rfl⟩ | he
  · exact ⟨entry,hentry,rfl,rfl⟩
  · exact ⟨e,he,rfl,rfl⟩

theorem count_out_answer {q : ℕ} (failedNow : Bool)
    (hentry : spans.get ⟨l,file,.sealed q⟩=some entry)
    (hflushed : entry.flushed=true) (hans : entry.answered=false) (l' : Key) (q' : ℕ) :
    ((spans.insert ⟨l,file,.sealed q⟩ (entry.answer failedNow)).count
        fun k e => isOut l' q' k e)+(if l'=l ∧ q'=q then 1 else 0) =
      spans.count fun k e => isOut l' q' k e := by
  have hreplace:=Table.count_replace (entry.answer failedNow)
    (fun k e=>isOut l' q' k e) hentry
  have hnew : ¬isOut l' q' ⟨l,file,.sealed q⟩ (entry.answer failedNow)=true:=by
    simp [isOut,SpanFile.answer]
  have hold : isOut l' q' ⟨l,file,.sealed q⟩ entry=true ↔ l'=l ∧ q'=q:=by
    simp [isOut,hflushed,hans,@eq_comm _ l',@eq_comm _ q']
  simp only [if_neg hnew,hold,Nat.add_zero] at hreplace
  exact hreplace

omit [LinearOrder E] in
theorem PartsOk.answerFlush {q : ℕ}
    (h : PartsOk lineages seals spans sealDomains writes lists served)
    (hs : seals.get ⟨l,s.seq⟩=some s) (hstage : s.stage=.flushing n failed) (hq : s.seq=q)
    (hentry : spans.get ⟨l,file,.sealed q⟩=some entry) (hflushed : entry.flushed=true)
    (hans : entry.answered=false) :
    PartsOk lineages (seals.insert ⟨l,s.seq⟩ (s.answer (n-1) failed failedNow))
      (spans.insert ⟨l,file,.sealed q⟩ (entry.answer failedNow)) sealDomains writes lists
      served := by
  subst hq
  have hfree : ∀ k,k≠(⟨l,s.seq⟩ : SealKey) → ∀ file',
      (⟨k.lineage,file',.sealed k.seq⟩ : SpanKey)≠⟨l,file,.sealed s.seq⟩:=by
    intro k hk file' hsame
    simp only [SpanKey.mk.injEq,Span.sealed.injEq] at hsame
    exact hk (by rw [← hsame.1,← hsame.2.2])
  exact { h with
    flushing:=fun k v m failed' hv hstage'=>by
      have hcount:=count_out_answer failedNow hentry hflushed hans k.lineage k.seq
      rcases insert_cases hv with ⟨rfl,rfl⟩ | ⟨hk,hv⟩
      · cases hstage'
        rw [if_pos ⟨rfl,rfl⟩] at hcount
        have hn:=h.flushing _ s n failed hs hstage
        rw [hn,← hcount,Nat.add_sub_cancel]
      · rw [if_neg,Nat.add_zero] at hcount
        · rw [hcount]
          exact h.flushing k v m failed' hv hstage'
        · rintro ⟨hl,hseq⟩
          exact hk (by rw [← hl,← hseq])
    done_file:=fun k v ok hv hstage' file' e he hflushed'=>by
      rcases insert_cases hv with ⟨rfl,rfl⟩ | ⟨hk,hv⟩
      · cases hstage'
      · rw [get_insert_of_ne _ _ (hfree k hk file')] at he
        exact h.done_file k v ok hv hstage' file' e he hflushed'
    done_domain:=fun k v ok hv hstage'=>by
      rcases insert_cases hv with ⟨rfl,rfl⟩ | ⟨hk,hv⟩
      · cases hstage'
      · exact h.done_domain k v ok hv hstage'
    named_seal:=fun op w q' hw hq'=>by
      obtain ⟨v,hv,hstarted⟩:=h.named_seal op w q' hw hq'
      rw [get_insert]
      split_ifs with hk
      · exact ⟨_,rfl,by simp [Seal.answer]⟩
      · exact ⟨v,hv,hstarted⟩
    named_flush:=fun op w q' hw hq' hdefault=>by
      obtain ⟨e,he,hflushed'⟩:=h.named_flush op w q' hw hq' hdefault
      rw [get_insert]
      split_ifs with hkey
      · exact ⟨_,rfl,hflushed⟩
      · exact ⟨e,he,hflushed'⟩
    flushed_default:=fun op w q' e hw hq' he hflushed'=>by
      obtain ⟨e₀,he₀,heq, -⟩:=answered_entry hentry he
      exact h.flushed_default op w q' e₀ hw hq' he₀ (heq.trans hflushed')
    failed_answered:=fun k v hv hfailed=>by
      rcases insert_cases hv with ⟨rfl,rfl⟩ | ⟨hk,hv⟩
      · have hfailed' : (failed || failedNow)=true:=hfailed
        change (s.answered || failedNow)=true
        rw [Bool.or_eq_true] at hfailed' ⊢
        refine hfailed'.imp_left fun hf=>h.failed_answered _ s hs ?_
        rw [hstage]
        exact hf
      · exact h.failed_answered k v hv hfailed }

theorem TablesOk.answerFlush {through : E} {q : ℕ} {domains : DomainList} (h : TablesOk d)
    (hok : d.answer l through file failedNow=.ok (q,domains,d')) : TablesOk d' := by
  obtain ⟨s,n,failed,entry,hmem, -,hq,hstage,hentry,hflushed,hans, -,rfl⟩:=answer_ok hok
  have hs:=h.keys.mem_sealsOf.mp hmem
  subst hq
  have hkeys:=h.keys.reseal (answer_stays (n-1) failed failedNow hs)
  have hlives:=h.lives.reseal (answer_stays (n-1) failed failedNow hs)
  rw [← insert_seal _ hs] at hkeys hlives
  exact { h with
    keys:=hkeys
    spans:=h.spans.answer hentry hflushed
    lives:=hlives
    marks:=h.marks.answer hs hstage
    parts:=h.parts.answerFlush hs hstage rfl hentry hflushed hans
    files:={ h.files with
      entry_domains:=fun op w e hw he=>by
        obtain ⟨e₀,he₀, -,heq⟩:=answered_entry hentry he
        rw [heq]
        exact h.files.entry_domains op w e₀ hw he₀ } }

theorem WindowOk.answerFlush {through : E} {q : ℕ} {domains : DomainList} (hkeys : TablesOk d)
    (h : WindowOk d.window d.writes d.held d.kept d.failures d.seals d.abandoned
      d.capacity.operations) (hok : d.answer l through file failedNow=.ok (q,domains,d')) :
    WindowOk d'.window d'.writes d'.held d'.kept d'.failures d'.seals d'.abandoned
      d'.capacity.operations := by
  obtain ⟨s,n,failed,entry,hmem, -,hq,hstage, -, -, -, -,rfl⟩:=answer_ok hok
  have hs:=hkeys.keys.mem_sealsOf.mp hmem
  subst hq
  have hwindow:=h.reseal (answer_stays (n-1) failed failedNow hs)
  rw [← insert_seal _ hs] at hwindow
  exact hwindow

theorem EndsOk.answerFlush {through : E} {q : ℕ} {domains : DomainList}
    (h : EndsOk d.lineages d.writes d.held d.seals d.spans d.abandoned) {st : LineageState E}
    (hst : d.lineages.get l=some st) (hlive : st.ended=false)
    (hok : d.answer l through file failedNow=.ok (q,domains,d')) :
    EndsOk d'.lineages d'.writes d'.held d'.seals d'.spans d'.abandoned := by
  obtain ⟨s,n,failed,entry,hmem, -,hq,hstage,hentry,hflushed,hans, -,rfl⟩:=answer_ok hok
  subst hq
  have hother : ∀ l' st',d.lineages.get l'=some st' → st'.ended=true → l'≠l:=by
    intro l' st' hst' hended
    exact (ne_of_ended hst' hended hst hlive).symm
  exact { h with
    ended_write:=fun op w st' hw hst' hended=>by
      refine (h.ended_write op w st' hw hst' hended).imp_right ?_
      rintro ⟨q,e,hstage',he,hrest⟩
      refine ⟨q,e,hstage',?_,hrest⟩
      rw [get_insert_of_ne _ _,he]
      intro hkey
      exact hother _ st' hst' hended (SpanKey.mk.inj hkey).1
    ended_seal:=fun k v st' hv hst' hended=>by
      rw [get_insert_of_ne] at hv
      · exact h.ended_seal k v st' hv hst' hended
      · rintro rfl
        exact hother _ st' hst' hended rfl }

end Flush

/-! ## Covering -/

section Cover

variable {q : ℕ} {w : Write E T}

theorem Durability.isCovered_iff : d.isCovered l q w=true ↔ w.lineage=l ∧ w.stage=.named q ∧
      CoveredBy d.spans d.sealDomains d.lists d.served w q := by
  simp only [isCovered,CoveredBy,Bool.and_eq_true,Bool.or_eq_true,
    Bool.not_eq_eq_eq_not,Bool.not_true,decide_eq_true_eq,all_eq_true,mem_filter,
    contains_iff_mem,Option.any_eq_true,and_imp]
  constructor
  · rintro ⟨⟨⟨rfl,hstage⟩,hfile⟩,hdomains⟩
    refine ⟨rfl,hstage,fun hdefault=>?_,hdomains⟩
    rcases hfile with hfile | hfile
    · rw [hdefault] at hfile
      cases hfile
    · exact hfile
  · rintro ⟨rfl,hstage,hfile,hdomains⟩
    refine ⟨⟨⟨rfl,hstage⟩,?_⟩,hdomains⟩
    cases hdefault : w.routing.default with
    | false=>exact .inl rfl
    | true=>exact .inr (hfile hdefault)

theorem TablesOk.covered_leaves (h : TablesOk d) {op : OpId} (hw : d.writes.get op=some w)
    (hstage : w.stage=.named q) (hcovered : CoveredBy d.spans d.sealDomains d.lists d.served w q) :
    Leaves d.lineages d.spans d.sealDomains d.lists w := by
  intro q' hq'
  rw [hstage] at hq'
  cases hq'
  refine ⟨fun entry hentry hflushed=>?_,fun st domain part _ _ hdomain hpart=>?_⟩
  · obtain ⟨e,he,hok⟩:=hcovered.1 (h.parts.flushed_default op w q entry hw hstage hentry hflushed)
    rw [hentry] at he
    cases he
    exact h.spans.ok_answered _ entry hentry hok
  · obtain ⟨hserved, -⟩:=h.lives.domain_seal _ part hpart
    obtain ⟨p,hp,hok⟩:=hcovered.2 domain hdomain hserved
    rw [hpart] at hp
    cases hp
    exact h.parts.part_ok _ part hpart hok

omit [LinearOrder E] in
theorem CoveredBy.of_leave {spans spans' : Spans} {sealDomains : SealDomains} {lists : DomainLists}
    {served : List DomainId} {key : SpanKey} {lost : Inconsistency}
    (h : CoveredBy spans' sealDomains lists served w q) (hleave : spans.leave key lost=.ok spans') :
    CoveredBy spans sealDomains lists served w q := by
  refine ⟨fun hdefault=>?_,h.2⟩
  obtain ⟨entry,hentry,hok⟩:=h.1 hdefault
  obtain ⟨e,he,heq⟩:=Spans.leave_get hleave hentry
  rw [heq] at hok
  exact ⟨e,he,hok⟩

theorem Inv.coverSeal (htables : TablesOk d)
    (hends : EndsOk d.lineages d.writes d.held d.seals d.spans d.abandoned)
    (hwindow : WindowOk d.window d.writes d.held d.kept d.failures d.seals d.abandoned
      d.capacity.operations) (hrest : ∀ op w q' st,d.writes.get op=some w → w.stage=.named q' →
      d.lineages.get w.lineage=some st → st.ended=false → ¬(w.lineage=l ∧ q'=q) →
      ¬CoveredBy d.spans d.sealDomains d.lists d.served w q')
    {s : Seal E} {n : ℕ} {failed : Bool} (hs : d.seals.get ⟨l,q⟩=some s)
    (hstage : s.stage=.flushing n failed) (hok : d.cover l q=.ok d') : Inv d' := by
  unfold Durability.cover at hok
  simp only [hs,hstage,bind_eq_ok] at hok
  obtain ⟨mid,hmid,hmarks⟩:=hok
  have hleaves : ∀ op w,d.writes.get op=some w →
      ((((d.writes.vals.filter fun w=>d.isCovered l q w).map Write.op).contains w.op)=true ↔
        d.isCovered l q w=true):=by
    intro op w hw
    rw [contains_iff_mem,mem_map]
    constructor
    · rintro ⟨w',hw',hop⟩
      obtain ⟨hmem,hcovered⟩:=mem_filter.mp hw'
      obtain ⟨op',hget⟩:=mem_vals.mp hmem
      rw [htables.keys.write_key op' w' hget,htables.keys.write_key op w hw] at hop
      rw [hop,hw] at hget
      cases hget
      exact hcovered
    · intro hcovered
      exact ⟨w,mem_filter.mpr ⟨mem_vals.mpr ⟨op,hw⟩,hcovered⟩,rfl⟩
  have hbeside : InvBeside d.lineages d.seals d.sealDomains mid:=by
    refine InvBeside.letGo ⟨htables,hwindow⟩ (fun op w hw hpick=>?_) hmid
    obtain ⟨-,hnamed,hcovered⟩:=isCovered_iff.mp ((hleaves op w hw).mp hpick)
    exact ⟨by simp [hnamed],htables.covered_leaves hw hnamed hcovered⟩
  have hends':=letGo_spans
    (fun writes spans=>EndsOk d.lineages writes d.held d.seals spans d.abandoned)
    (fun _ _ _ _ _ _ he hspans hw _ hleave=>he.letGo hspans hw hleave) hends htables.spans hmid
  have hback:=letGo_spans
    (fun _ spans=>∀ (w : Write E T) q',CoveredBy spans d.sealDomains d.lists d.served w q' →
      CoveredBy d.spans d.sealDomains d.lists d.served w q')
    (fun _ _ _ _ _ _ hP _ _ _ hleave w q' hc=>hP w q' (hc.of_leave hleave))
    (fun _ _=>id) htables.spans hmid
  have hinv : Inv mid:=by
    obtain ⟨spans,window,kept,rfl⟩:=letGo_ok hmid
    refine { hbeside.tables with cover:=?_,ends:=hends',window:=hbeside.window }
    intro op w q' st hw hnamed hst hlive hafter
    have hcovered:=hback w q' hafter
    rw [get_filter,Option.filter_eq_some_iff] at hw
    obtain ⟨hw,hstays⟩:=hw
    refine hrest op w q' st hw hnamed hst hlive ?_ hcovered
    rintro ⟨hl,rfl⟩
    rw [(hleaves op w hw).mpr (isCovered_iff.mpr ⟨hl,hnamed,hcovered⟩)] at hstays
    cases hstays
  have htold:=foldlM_invariant
    (fun s=>∃ reads told,s={ mid with reads:=reads,told:=told })
    (fun s w s' _ hs hmark=>by
      obtain ⟨reads,told,rfl⟩:=hs
      obtain ⟨reads',told',rfl⟩:=mark_ok hmark
      exact ⟨reads',told',rfl⟩) ⟨mid.reads,mid.told,rfl⟩ hmarks
  obtain ⟨reads,told,rfl⟩:=htold
  exact { hinv with }

end Cover

section Core

variable {through : E} {file : IoTargetKey} {q : ℕ} {domains : DomainList} {st : LineageState E}

theorem Inv.flushFailed (h : Inv d) (hst : d.lineages.get l=some st) (hlive : st.ended=false)
    (hok : d.answer l through file true=.ok (q,domains,d')) : Inv d' := by
  refine { h.toTablesOk.answerFlush hok with
    cover:=?_
    ends:=h.ends.answerFlush hst hlive hok
    window:=h.window.answerFlush h.toTablesOk hok }
  obtain ⟨s,n,failed,entry, -, -, -, -,hentry, -,hans, -,rfl⟩:=answer_ok hok
  intro op w q' st' hw hstage hst' hlive' hcovered
  refine h.cover op w q' st' hw hstage hst' hlive' ⟨fun hdefault=>?_,hcovered.2⟩
  obtain ⟨e,he,hok'⟩:=hcovered.1 hdefault
  rcases of_insert he with ⟨-,rfl⟩ | he
  · cases hok'
  · exact ⟨e,he,hok'⟩

theorem Inv.flushSucceeded {mid : Durability E T I} (h : Inv d) (hst : d.lineages.get l=some st)
    (hlive : st.ended=false) (hok : d.answer l through file false=.ok (q,domains,mid))
    (hcover : mid.cover l q=.ok d') : Inv d' := by
  have htables:=h.toTablesOk.answerFlush hok
  have hends:=h.ends.answerFlush hst hlive hok
  have hwindow:=h.window.answerFlush h.toTablesOk hok
  obtain ⟨s,n,failed,entry,hmem, -,hq,hstage,hentry, -, -, -,rfl⟩:=answer_ok hok
  refine coverSeal htables hends hwindow (fun op w q' st' hw hnamed hst' hlive' hother hcovered =>
    ?_) (get_insert_self _ _ _) rfl hcover
  refine h.cover op w q' st' hw hnamed hst' hlive' ⟨fun hdefault=>?_,hcovered.2⟩
  obtain ⟨e,he,hok'⟩:=hcovered.1 hdefault
  rw [get_insert_of_ne] at he
  · exact ⟨e,he,hok'⟩
  · simp only [ne_eq,SpanKey.mk.injEq,Span.sealed.injEq,not_and]
    rintro hl-hq'
    exact hother ⟨hl,hq'⟩

end Core

/-! ## A domain answers -/

section Domain

variable {s : Seal E} {n q : ℕ} {failed failedNow : Bool} {domain : DomainId} {part : SealDomain}

def Durability.answerDomain (d : Durability E T I) (l : Key) (s : Seal E) (n : ℕ)
    (failed failedNow : Bool) (domain : DomainId) : Durability E T I :=
  { d with
    sealDomains := d.sealDomains.insert ⟨l, s.seq, domain⟩ { answered := true, ok := !failedNow }
    seals := d.seals.insert ⟨l, s.seq⟩ (s.answer n failed failedNow) }

omit [LinearOrder E] in
theorem PartsOk.answerDomain {lineages : Table Key (LineageState E)} {seals : Seals E}
    {spans : Spans} {sealDomains : SealDomains} {writes : Table OpId (Write E T)}
    {lists : DomainLists} {served : List DomainId}
    (h : PartsOk lineages seals spans sealDomains writes lists served)
    (hs : seals.get ⟨l,s.seq⟩=some s) (hstage : s.stage=.flushing n failed) :
    PartsOk lineages (seals.insert ⟨l,s.seq⟩ (s.answer n failed failedNow)) spans
      (sealDomains.insert ⟨l,s.seq,domain⟩ { answered := true,ok := !failedNow }) writes lists
      served := by
  exact { h with
    flushing:=fun k v m failed' hv hstage'=>by
      rcases of_insert hv with ⟨rfl,rfl⟩ | hv
      · cases hstage'
        exact h.flushing _ s n failed hs hstage
      · exact h.flushing k v m failed' hv hstage'
    done_file:=fun k v ok hv hstage'=>by
      rcases of_insert hv with ⟨rfl,rfl⟩ | hv
      · cases hstage'
      · exact h.done_file k v ok hv hstage'
    done_domain:=fun k v ok hv hstage' domain' p hp=>by
      rcases of_insert hv with ⟨rfl,rfl⟩ | hv
      · cases hstage'
      · rcases of_insert hp with ⟨-,rfl⟩ | hp
        · rfl
        · exact h.done_domain k v ok hv hstage' domain' p hp
    named_seal:=fun op w q' hw hq'=>by
      obtain ⟨v,hv,hstarted⟩:=h.named_seal op w q' hw hq'
      rw [get_insert]
      split_ifs with hk
      · exact ⟨_,rfl,by simp [Seal.answer]⟩
      · exact ⟨v,hv,hstarted⟩
    named_asked:=fun op w q' st hw hq' hst hlive hprovider domain' hdomain hserved=>by
      obtain ⟨p,hp⟩:=h.named_asked op w q' st hw hq' hst hlive hprovider domain' hdomain hserved
      rw [get_insert]
      split_ifs with hk
      · exact ⟨_,rfl⟩
      · exact ⟨p,hp⟩
    asked_write:=fun k p st hp hans hst hlive=>by
      rcases of_insert hp with ⟨-,rfl⟩ | hp
      · cases hans
      · exact h.asked_write k p st hp hans hst hlive
    part_ok:=fun k p hp hok=>by
      rcases of_insert hp with ⟨-,rfl⟩ | hp
      · rfl
      · exact h.part_ok k p hp hok
    failed_answered:=fun k v hv hfailed=>by
      rcases of_insert hv with ⟨rfl,rfl⟩ | hv
      · have hfailed' : (failed || failedNow)=true:=hfailed
        change (s.answered || failedNow)=true
        rw [Bool.or_eq_true] at hfailed' ⊢
        refine hfailed'.imp_left fun hf=>h.failed_answered _ s hs ?_
        rw [hstage]
        exact hf
      · exact h.failed_answered k v hv hfailed }

theorem TablesOk.answerDomain (h : TablesOk d) (hs : d.seals.get ⟨l,s.seq⟩=some s)
    (hstage : s.stage=.flushing n failed) (hpart : d.sealDomains.get ⟨l,s.seq,domain⟩=some part) :
    TablesOk (d.answerDomain l s n failed failedNow domain) := by
  have hkeys:=h.keys.reseal (answer_stays n failed failedNow hs)
  have hlives:=h.lives.reseal (answer_stays n failed failedNow hs)
  rw [← insert_seal _ hs] at hkeys hlives
  exact { h with
    keys:=hkeys
    lives:={ hlives with
      domain_seal:=fun k p hp=>by
        have hold : ∃ p₀,d.sealDomains.get k=some p₀:=by
          unfold Durability.answerDomain at hp
          rcases of_insert hp with ⟨hk, -⟩ | hp
          · exact ⟨part,hk ▸ hpart⟩
          · exact ⟨p,hp⟩
        obtain ⟨p₀,hp₀⟩:=hold
        exact hlives.domain_seal k p₀ hp₀ }
    marks:=h.marks.answer hs hstage
    parts:=h.parts.answerDomain hs hstage }

theorem Inv.answerDomain_rest {st : LineageState E} (h : Inv d) (n : ℕ) (failed failedNow : Bool)
    (hs : d.seals.get ⟨l,s.seq⟩=some s) (hst : d.lineages.get l=some st) (hlive : st.ended=false) :
    EndsOk d.lineages d.writes d.held (d.seals.insert ⟨l,s.seq⟩ (s.answer n failed failedNow))
        d.spans d.abandoned ∧ WindowOk d.window d.writes d.held d.kept d.failures
        (d.seals.insert ⟨l,s.seq⟩ (s.answer n failed failedNow)) d.abandoned
        d.capacity.operations := by
  have hwindow:=h.window.reseal (answer_stays n failed failedNow hs)
  rw [← insert_seal _ hs] at hwindow
  refine ⟨{ h.ends with ended_seal:=fun k v st' hv hst' hended=>?_ },hwindow⟩
  rw [get_insert_of_ne] at hv
  · exact h.ends.ended_seal k v st' hv hst' hended
  · rintro rfl
    exact ne_of_ended hst' hended hst hlive rfl

theorem Inv.domainFailed {st : LineageState E} (h : Inv d) (hst : d.lineages.get l=some st)
    (hlive : st.ended=false) (hs : d.seals.get ⟨l,s.seq⟩=some s)
    (hstage : s.stage=.flushing n failed) (hpart : d.sealDomains.get ⟨l,s.seq,domain⟩=some part) :
    Inv (d.answerDomain l s n failed true domain) := by
  obtain ⟨hends,hwindow⟩:=h.answerDomain_rest n failed true hs hst hlive
  refine { h.toTablesOk.answerDomain hs hstage hpart with
    cover:=?_,ends:=hends,window:=hwindow }
  intro op w q' st' hw hnamed hst' hlive' hcovered
  refine h.cover op w q' st' hw hnamed hst' hlive' ⟨hcovered.1,fun domain' hdomain hserved=>?_⟩
  obtain ⟨p,hp,hok⟩:=hcovered.2 domain' hdomain hserved
  unfold answerDomain at hp
  rcases of_insert hp with ⟨-,rfl⟩ | hp
  · cases hok
  · exact ⟨p,hp,hok⟩

theorem Inv.domainSucceeded {st : LineageState E} (h : Inv d) (hst : d.lineages.get l=some st)
    (hlive : st.ended=false) (hs : d.seals.get ⟨l,s.seq⟩=some s)
    (hstage : s.stage=.flushing n failed) (hpart : d.sealDomains.get ⟨l,s.seq,domain⟩=some part)
    (hcover : (d.answerDomain l s n failed false domain).cover l s.seq=.ok d') : Inv d' := by
  obtain ⟨hends,hwindow⟩:=h.answerDomain_rest n failed false hs hst hlive
  refine coverSeal (h.toTablesOk.answerDomain hs hstage hpart) hends hwindow
    (fun op w q' st' hw hnamed hst' hlive' hother hcovered=>?_) (get_insert_self _ _ _) rfl
    hcover
  refine h.cover op w q' st' hw hnamed hst' hlive' ⟨hcovered.1,fun domain' hdomain hserved=>?_⟩
  obtain ⟨p,hp,hok⟩:=hcovered.2 domain' hdomain hserved
  unfold answerDomain at hp
  rw [get_insert_of_ne] at hp
  · exact ⟨p,hp,hok⟩
  · simp only [ne_eq,DomainKey.mk.injEq,not_and]
    intro hl hq'
    exact absurd ⟨hl,hq'⟩ hother

end Domain

end WindowsThreadpoolSys.DurableIoring
