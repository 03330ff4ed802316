import WindowsThreadpoolSys.DurableIoring.Contract.Heals

/-! A write that completed is covered by the parts of its seal, or a part failed and the failure observed
then suspects it. The core forgets both, so a `Past` is kept beside it. `Accounts` says what the past
owes each write a live lineage completed; every step of an advance and every call keeps it. -/
namespace WindowsThreadpoolSys.DurableIoring
open Library Durability List Table
open Relation (ReflTransGen)

variable {E T I : Type} [LinearOrder E] {d d' : Durability E T I} {c c' : Change E T I} {l : Key}

/-! ## Failed parts -/

def PartFailedOf (spans : Spans) (sealDomains : SealDomains) (lists : DomainLists) (w : Write E T)
    (q : ℕ) : Prop :=
  (∃ e, spans.get ⟨w.lineage, w.file, .sealed q⟩ = some e ∧ e.answered = true ∧ e.ok = false) ∨
    ∃ domain ∈ lists.get w.domains, ∃ p, sealDomains.get ⟨w.lineage, q, domain⟩ = some p ∧
      p.answered = true ∧ p.ok = false

def FailedFrom (d d' : Durability E T I) : Prop :=
  ∀ op w' q, d'.writes.get op = some w' → d'.isLive w'.lineage = true → w'.stage = .named q →
    PartFailedOf d'.spans d'.sealDomains d'.lists w' q →
    ∃ w, d.writes.get op = some w ∧ w.lineage = w'.lineage ∧ d.isLive w.lineage = true ∧
      w.stage = .named q ∧ PartFailedOf d.spans d.sealDomains d.lists w q

theorem FailedFrom.of_failed
    (hwrites : ∀ op w q,d'.writes.get op=some w → d'.isLive w.lineage=true →
      w.stage=.named q → d.writes.get op=some w)
    (hspans : ∀ k l file q,k=(⟨l,file,.sealed q⟩ : SpanKey) → ∀ e',d'.spans.get k=some e' →
      d'.isLive l=true → e'.answered=true → e'.ok=false →
      ∃ e,d.spans.get k=some e ∧ e.answered=true ∧ e.ok=false)
    (hdomains : ∀ k part,d'.sealDomains.get k=some part → part.ok=false →
      d.sealDomains.get k=some part)
    (hlists : ∀ op w,d.writes.get op=some w → d.isLive w.lineage=true →
      d'.lists.get w.domains=d.lists.get w.domains)
    (hlives : ∀ k,d'.isLive k=true → d.isLive k=true) : FailedFrom d d' := by
  intro op w q hw hlive hstage hfailed
  have hw₀:=hwrites op w q hw hlive hstage
  refine ⟨w,hw₀,rfl,hlives _ hlive,hstage,?_⟩
  rcases hfailed with ⟨e',he',hans,hok⟩ | ⟨domain,hdomain,part,hpart,hans,hok⟩
  · exact .inl (hspans _ _ _ _ rfl e' he' hlive hans hok)
  · exact .inr ⟨domain,hlists op w hw₀ (hlives _ hlive) ▸ hdomain,part,hdomains _ part hpart hok,hans,hok⟩

/-- Each entry of `spans'` answered in `spans` as it does. -/
def FlagsFrom (spans spans' : Spans) : Prop :=
  ∀ key e', spans'.get key = some e' → ∃ e, spans.get key = some e ∧ e.answered = e'.answered ∧ e.ok = e'.ok

theorem FlagsFrom.refl (spans : Spans) : FlagsFrom spans spans := fun _ e he=>⟨e,he,rfl,rfl⟩

theorem FlagsFrom.leave {spans mid spans' : Spans} {key : SpanKey} {lost : Inconsistency}
    (h : FlagsFrom spans mid) (hleave : mid.leave key lost=.ok spans') : FlagsFrom spans spans' := by
  intro key e' he'
  obtain ⟨e₁,he₁,heq⟩:=Spans.leave_get hleave he'
  rw [heq]
  exact h key e₁ he₁

theorem FailedFrom.of_sub (hwrites : ∀ op w,d'.writes.get op=some w → d.writes.get op=some w)
    (hspans : FlagsFrom d.spans d'.spans)
    (hdomains : ∀ k p,d'.sealDomains.get k=some p → d.sealDomains.get k=some p)
    (hlists : d'.lists=d.lists) (hlives : ∀ k,d'.isLive k=true → d.isLive k=true) :
    FailedFrom d d' := by
  refine .of_failed (fun op w _ hw _ _=>hwrites op w hw) (fun k _ _ _ _ e' he' _ hans hok=>?_)
    (fun k part hpart _=>hdomains k part hpart) (fun _ _ _ _=>by rw [hlists]) hlives
  obtain ⟨e,he,hans',hok'⟩:=hspans k e' he'
  exact ⟨e,he,hans'.trans hans,hok'.trans hok⟩

theorem FailedFrom.of_same (hwrites : d'.writes=d.writes) (hspans : d'.spans=d.spans)
    (hdomains : d'.sealDomains=d.sealDomains) (hlists : d'.lists=d.lists)
    (hlives : ∀ k,d'.isLive k=true → d.isLive k=true) : FailedFrom d d' :=
  .of_sub (fun _ _ hw=>hwrites ▸ hw) (hspans ▸ .refl _)
    (fun _ _ hp=>hdomains ▸ hp) hlists hlives

theorem isLive_of_lineages (h : d'.lineages=d.lineages) (k : Key) : d'.isLive k=d.isLive k := by
  unfold isLive live
  rw [h]

theorem letGo_flags {leaves : Write E T → Bool} (hinv : SpansOk d.writes d.spans)
    (hgo : d.letGo leaves=.ok d') : FlagsFrom d.spans d'.spans :=
  letGo_spans (fun _ spans=>FlagsFrom d.spans spans) (fun _ _ _ _ _ _ h _ _ _ hleave=>h.leave hleave)
    (.refl _) hinv hgo

theorem FailedFrom.letGo {leaves : Write E T → Bool} (hinv : SpansOk d.writes d.spans)
    (hgo : d.letGo leaves=.ok d') : FailedFrom d d' := by
  have hflags:=letGo_flags hinv hgo
  obtain ⟨spans,window,kept,rfl⟩:=letGo_ok hgo
  exact .of_sub (fun _ _ hw=>get_of_filter hw) hflags (fun _ _ hp=>hp) rfl fun _ h=>h

/-! ## What a run has done -/

/-- What the calls of a run so far did, of what the core itself forgets. -/
structure Past (E : Type) where
  /-- The failure was abandoned. -/
  abandoned : FailureId → Prop
  /-- The failure was healed, and when. -/
  healed : FailureId → HealAt → Prop
  /-- The failure was observed, and suspected the write. -/
  observed : FailureId → OpId → Prop
  /-- Every part the write depended on answered success. -/
  covered : OpId → Prop
  /-- The write, of a live lineage, completed successfully. -/
  completed : OpId → Key → E → Prop

variable {p : Past E}

/-- A failure that suspected `op` was abandoned, or `l` has released its heal. -/
def Past.Excused (p : Past E) (d : Durability E T I) (l : Key) (op : OpId) : Prop :=
  ∃ id, p.observed id op ∧ (p.abandoned id ∨ ∃ at_, p.healed id at_ ∧
    ∃ st r, d.lineages.get l = some st ∧ st.released = some r ∧ at_ ≤ r)

/-- A failure not resolved suspects `op`, or one that did excuses it. -/
def Past.Blamed (p : Past E) (d : Durability E T I) (l : Key) (op : OpId) : Prop :=
  p.Excused d l op ∨ ∃ f ∈ d.failures, p.observed f.id op ∧ op ∈ f.listed ∧ f.standing ≠ .resolved

def Past.Fate (p : Past E) (d : Durability E T I) (l : Key) (e : E) (op : OpId) : Prop :=
  (∃ w, d.writes.get op = some w ∧ w.lineage = l ∧ w.epoch = e ∧ w.stage ≠ .inFlight) ∨
    p.covered op ∨ p.Excused d l op

structure Accounts (p : Past E) (d : Durability E T I) : Prop where
  healed : ∀ f ∈ d.failures, ∀ at_, f.standing = .healing at_ → p.healed f.id at_
  blamed : ∀ op w q, d.writes.get op = some w → d.isLive w.lineage = true → w.stage = .named q →
    PartFailedOf d.spans d.sealDomains d.lists w q → p.Blamed d w.lineage op
  fate : ∀ op l e, p.completed op l e → d.isLive l = true → p.Fate d l e op

def ReleasedOn (d d' : Durability E T I) : Prop :=
  ∀ l st', d'.lineages.get l = some st' → st'.ended = false →
    ∃ st, d.lineages.get l = some st ∧ st.ended = false ∧ UpTo st.released st'.released

theorem Descends.releasedOn (h : Descends UpTo d d') : ReleasedOn d d' := by
  intro l st' hst' hlive
  obtain ⟨st,hst,hended, -,hreleased⟩:=h.lineage l st' hst' hlive
  exact ⟨st,hst,hended,hreleased⟩

theorem ReleasedOn.of_lineages (h : d'.lineages=d.lineages) : ReleasedOn d d' :=
  fun _ st hst hended=>⟨st,h ▸ hst,hended,.refl _⟩

theorem ReleasedOn.isLive (h : ReleasedOn d d') (hlive : d'.isLive l=true) : d.isLive l=true := by
  obtain ⟨st',hst',hended'⟩:=isLive_iff.mp hlive
  obtain ⟨st,hst,hended, -⟩:=h l st' hst' hended'
  exact isLive_iff.mpr ⟨st,hst,hended⟩

variable {op : OpId}

theorem Past.Excused.on (h : p.Excused d l op) (hon : ReleasedOn d d')
    (hlive : d'.isLive l=true) : p.Excused d' l op := by
  obtain ⟨id,hobserved,habandoned | ⟨at_,hhealed,st,r,hst,hr,hle⟩⟩:=h
  · exact ⟨id,hobserved,.inl habandoned⟩
  · obtain ⟨st',hst',hended'⟩:=isLive_iff.mp hlive
    obtain ⟨st₀,hst₀, -,hup⟩:=hon l st' hst' hended'
    rw [hst] at hst₀
    cases hst₀
    obtain ⟨r',hr',hle'⟩:=hup r hr
    exact ⟨id,hobserved,.inr ⟨at_,hhealed,st',r',hst',hr',hle.trans hle'⟩⟩

theorem Accounts.on (h : Accounts p d) (hon : ReleasedOn d d') (hfrom : FailedFrom d d')
    (hheals : ∀ f ∈ d'.failures,∀ at_,f.standing=.healing at_ → p.healed f.id at_)
    (hfailures : ∀ f ∈ d.failures,f.standing ≠ .resolved → ∀ op w,d.writes.get op=some w →
      d'.isLive w.lineage=true → op ∈ f.listed → p.observed f.id op →
      (∃ f' ∈ d'.failures,f'.id=f.id ∧ f'.listed=f.listed ∧ f'.standing ≠ .resolved) ∨
        p.Excused d' w.lineage op)
    (hwrites : ∀ op w,d.writes.get op=some w → d'.isLive w.lineage=true →
      w.stage ≠ .inFlight → p.Fate d' w.lineage w.epoch op) : Accounts p d' := by
  refine ⟨hheals,fun op w' q hw' hlive hstage hfailed=>?_,fun op l e hcompleted hlive=>?_⟩
  · obtain ⟨w,hw,hl,hlive₀,hstage₀,hfailed₀⟩:=hfrom op w' q hw' hlive hstage hfailed
    rcases h.blamed op w q hw hlive₀ hstage₀ hfailed₀ with hexcused | ⟨f,hf,hobs,hlisted,hopen⟩
    · rw [hl] at hexcused
      exact .inl (hexcused.on hon hlive)
    · rcases hfailures f hf hopen op w hw (hl ▸ hlive) hlisted hobs with
        ⟨f',hf',hid,hlisted',hopen'⟩ | hexcused
      · exact .inr ⟨f',hf',hid ▸ hobs,hlisted' ▸ hlisted,hopen'⟩
      · exact .inl (hl ▸ hexcused)
  · rcases h.fate op l e hcompleted (hon.isLive hlive) with ⟨w,hw,rfl,rfl,hstage⟩ | hcovered | hexcused
    · exact hwrites op w hw hlive hstage
    · exact .inr (.inl hcovered)
    · exact .inr (.inr (hexcused.on hon hlive))

theorem Accounts.on_same (h : Accounts p d) (hon : ReleasedOn d d') (hfrom : FailedFrom d d')
    (hfailures : d'.failures=d.failures)
    (hwrites : ∀ op w,d.writes.get op=some w → d'.isLive w.lineage=true →
      w.stage ≠ .inFlight → ∃ w',d'.writes.get op=some w' ∧ w'.lineage=w.lineage ∧
        w'.epoch=w.epoch ∧ w'.stage ≠ .inFlight) : Accounts p d' :=
  h.on hon hfrom (fun f hf=>h.healed f (hfailures ▸ hf))
    (fun f hf hopen _ _ _ _ _ _=>.inl ⟨f,hfailures ▸ hf,rfl,rfl,hopen⟩)
    fun op w hw hlive hstage=>.inl (hwrites op w hw hlive hstage)

/-! ## The steps of an advance -/

variable {f : Failure I}

theorem Accounts.excused_of_free (h : Accounts p d)
    (hf : f ∈ d.failures) (hopen : f.standing ≠ .resolved) (hfree : d.pendingOn f l=false)
    (hlive : d.isLive l=true) (hobserved : p.observed f.id op) : p.Excused d l op := by
  obtain ⟨st,hst,hended⟩:=isLive_iff.mp hlive
  unfold pendingOn at hfree
  cases hstanding : f.standing with
  | «open»=>simp [hstanding] at hfree
  | resolved=>exact absurd hstanding hopen
  | healing at_ =>
    cases hreleased : st.released with
    | none=>simp [hstanding,hst,hended,hreleased] at hfree
    | some r =>
      have hle : at_ ≤ r:=by simpa [hstanding,hst,hended,hreleased] using hfree
      exact ⟨f.id,hobserved,.inr ⟨at_,h.healed f hf at_ hstanding,st,r,hst,hreleased,hle⟩⟩

variable {w : Write E T}

theorem Inv.suspect_of_listed (hinv : Inv d) (hf : f ∈ d.failures) (hw : d.writes.get op=some w)
    (hlive : d.isLive w.lineage=true) (hlisted : op ∈ f.listed) : w.suspect ∈ d.suspects f := by
  obtain ⟨st,hst,hended⟩:=isLive_iff.mp hlive
  have hnamed:=(hinv.suspects.write_named f hf op w st hw hst (.inl hended)).mpr hlisted
  exact mem_suspects.mpr (.inl ⟨op,w,hw,hnamed,rfl⟩)

variable {st : LineageState E} {through : E}

theorem Passes.partFailed {recorded : Option (Seal E)} (passes : Passes d l st through recorded)
    (hinv : Inv d) (hw : d.writes.get op=some w) (hl : w.lineage=l) (hle : w.epoch ≤ through) :
    ∃ q,w.stage=.named q ∧ PartFailedOf d.spans d.sealDomains d.lists w q := by
  have ht:=hinv.toTablesOk
  have hst : d.lineages.get w.lineage=some st:=hl ▸ passes.lineage
  have hat:=(ht.marks l st passes.lineage passes.live).write_at op w hw hl
  cases hstage : w.stage with
  | inFlight | completed =>
    rw [hstage] at hat
    exact absurd hle (passes.above_open ht hat).not_ge
  | named q =>
    rw [hstage] at hat
    obtain ⟨s,hs,rfl⟩:=passes.named_to ht hat hle
    obtain ⟨hget, -,ok,hdone⟩:=passes.recorded_get ht.keys hs
    rw [← hl] at hget
    refine ⟨s.seq,rfl,?_⟩
    -- every part has answered, so one that failed is all that keeps the write from being covered
    by_contra hnone
    refine hinv.cover op w s.seq st hw hstage hst passes.live ⟨fun hdefault=>?_,fun domain hmem hserved=>?_⟩
    · obtain ⟨e,he,hflushed⟩:=ht.parts.named_flush op w s.seq hw hstage hdefault
      have hans:=ht.parts.done_file _ s ok hget hdone w.file e he hflushed
      refine ⟨e,he,?_⟩
      by_contra hok
      exact hnone (.inl ⟨e,he,hans,by simpa using hok⟩)
    · have hprovider : w.routing.provider=true:=by
        rw [ht.files.write_routed op w st hw hst passes.live,routing,if_neg]
        · exact any_eq_true.mpr ⟨domain,hmem,contains_iff_mem.mpr hserved⟩
        · intro hempty
          rw [List.isEmpty_iff.mp hempty] at hmem
          cases hmem
      obtain ⟨part,hpart⟩ :=
        ht.parts.named_asked op w s.seq st hw hstage hst passes.live hprovider domain hmem hserved
      have hans:=ht.parts.done_domain _ s ok hget hdone domain part hpart
      refine ⟨part,hpart,?_⟩
      by_contra hok
      exact hnone (.inr ⟨domain,hmem,part,hpart,hans,by simpa using hok⟩)

theorem Accounts.excused_of_passed {recorded : Option (Seal E)} (h : Accounts p d) (hinv : Inv d)
    (passes : Passes d l st through recorded) (free : d.blocking l through=none)
    (hw : d.writes.get op=some w) (hl : w.lineage=l) (hle : w.epoch ≤ through) :
    p.Excused d l op := by
  have hlive : d.isLive w.lineage=true:=isLive_iff.mpr ⟨st,hl ▸ passes.lineage,passes.live⟩
  obtain ⟨q,hstage,hfailed⟩:=passes.partFailed hinv hw hl hle
  rcases h.blamed op w q hw hlive hstage hfailed with hexcused | ⟨f,hf,hobserved,hlisted,hopen⟩
  · exact hl ▸ hexcused
  · have hsuspect:=hinv.suspect_of_listed hf hw hlive hlisted
    have hat:=(hinv.marks l st passes.lineage passes.live).write_at op w hw hl
    have habove:=hat.above
    unfold blocking at free
    simp only [passes.lineage,hinv.passes_above passes,if_true,Option.map_eq_none_iff,
      List.find?_eq_none] at free
    refine h.excused_of_free hf hopen ?_ (hl ▸ hlive) hobserved
    by_contra hpending
    refine free f hf ?_
    rw [holdsWithin,Bool.and_eq_true,any_eq_true]
    refine ⟨by simpa using hpending,w.suspect,hsuspect,?_⟩
    simp only [Bool.and_eq_true,decide_eq_true_eq]
    exact ⟨hl,habove,hle⟩

theorem Accounts.on_frame (h : Accounts p d) (hon : ReleasedOn d d')
    (hsame : (d'.writes,d'.spans,d'.sealDomains,d'.lists,d'.failures) =
      (d.writes,d.spans,d.sealDomains,d.lists,d.failures)) : Accounts p d' := by
  simp only [Prod.mk.injEq] at hsame
  obtain ⟨hwrites,hspans,hdomains,hlists,hfailures⟩:=hsame
  exact h.on_same hon (.of_same hwrites hspans hdomains hlists fun _=>hon.isLive) hfailures
    fun _ w hw _ hstage=>⟨w,hwrites ▸ hw,rfl,rfl,hstage⟩

variable {s : Seal E}

theorem Write.named_stage (hstage : w.stage ≠ .inFlight) : (w.named l s).stage ≠ .inFlight := by
  unfold named
  split_ifs
  · simp
  · exact hstage

theorem Starts.failedFrom (starts : Starts c.core l st s) (hinv : Inv c.core)
    (hok : startSeal c l s=.ok c') : FailedFrom c.core c'.core := by
  have ht:=hinv.toTablesOk
  obtain ⟨n,sealDomains,hn,hasked,rfl⟩:=startSeal_ok hok
  have hnaming:=ht.naming starts.lineage starts.live starts.queued starts.waits hn
  intro op w' q hw' hlive hstage hfailed
  simp only [get_map,Option.map_eq_some_iff] at hw'
  obtain ⟨w,hw,rfl⟩:=hw'
  have hsame : Write.Same 0 w (w.named l s):=Write.same_named w l s
  by_cases hthis : w.lineage=l ∧ q=s.seq
  · obtain ⟨hl,rfl⟩:=hthis
    exfalso
    rcases hfailed with ⟨e,he,hans, -⟩ | ⟨domain, -,part,hpart,hans, -⟩
    · rw [hsame.lineage,hl] at he
      rw [hnaming.fresh _ e he] at hans
      cases hans
    · rw [hsame.lineage,hl,askDomains_get hasked] at hpart
      split_ifs at hpart
      · cases hpart
        cases hans
      · obtain ⟨-,s',hs',hstarted⟩:=ht.lives.domain_seal _ part hpart
        rw [starts.queued] at hs'
        cases hs'
        exact hstarted starts.waits
  · -- the write is not one the seal names
    have hsame' : w.named l s=w:=by
      unfold Write.named at hstage ⊢
      split_ifs at hstage ⊢ with hnamed
      · cases hstage
        exact absurd ⟨(isNamedBy_iff.mp hnamed).1,rfl⟩ hthis
      · rfl
    rw [hsame'] at hlive hstage hfailed ⊢
    refine ⟨w,hw,rfl,hlive,hstage,?_⟩
    rcases hfailed with ⟨e,he,hflags⟩ | ⟨domain,hdomain,part,hpart,hflags⟩
    · refine .inl ⟨e,?_,hflags⟩
      rw [← hnaming.other _ (by simpa using hthis)]
      exact he
    · refine .inr ⟨domain,hdomain,part,?_,hflags⟩
      rw [askDomains_get hasked,if_neg (fun hk=>hthis ⟨hk.1,hk.2.1⟩)] at hpart
      exact hpart

theorem ProgressStep.accounts (hstep : ProgressStep l c c') (hinv : Inv c.core)
    (h : Accounts p c.core) : Accounts p c'.core := by
  have hon:=hstep.descends.releasedOn
  cases hstep with
  | @start c' st s starts hok =>
    have hfrom:=starts.failedFrom hinv hok
    obtain ⟨n,sealDomains, -, -,rfl⟩:=startSeal_ok hok
    refine h.on_same hon hfrom rfl fun op w hw _ hstage=>?_
    have hsame : Write.Same 0 w (w.named l s):=Write.same_named w l s
    exact ⟨w.named l s,by simp only [get_map,hw,Option.map_some],hsame.lineage,hsame.epoch,
      Write.named_stage hstage⟩
  | empties live =>
    obtain ⟨st,hst, -⟩:=isLive_iff.mp live
    rcases finishEmpties_cases hst with heq | ⟨e, -, -,heq⟩ <;>
      exact h.on_frame hon (by rw [heq]; rfl)
  | seals live =>
    rcases c.core.finishSeals_cases l with heq | ⟨s, -, -, -,heq⟩ <;>
      exact h.on_frame hon (by rw [heq]; rfl)

theorem Accounts.releaseHealed (h : Accounts p c.core) (hinv : Inv c.core) :
    Accounts p (releaseHealed c).core := by
  have hon : ReleasedOn c.core (Durability.releaseHealed c).core :=
    ((AdvanceStep.healed c).descends hinv).releasedOn
  refine h.on hon (.of_same rfl rfl rfl rfl fun _=>hon.isLive) (fun f' hf' at_ hat=>?_)
    (fun f hf hopen op w hw hlive hlisted hobserved=>?_)
    fun op w hw _ hstage=>.inl ⟨w,hw,rfl,rfl,hstage⟩
  · obtain ⟨f,hf,rfl⟩:=mem_map.mp hf'
    split_ifs at hat ⊢
    exact h.healed f hf at_ hat
  · by_cases hhealed : c.core.isHealed f=true
    · have hsuspect:=hinv.suspect_of_listed hf hw (hon.isLive hlive) hlisted
      rw [isHealed,Bool.and_eq_true,Bool.not_eq_true',any_eq_false] at hhealed
      have hfree : c.core.pendingOn f w.lineage=false :=
        Bool.eq_false_iff.mpr (hhealed.2 w.suspect hsuspect)
      exact .inr ((h.excused_of_free hf hopen hfree (hon.isLive hlive) hobserved).on hon hlive)
    · exact .inl ⟨f,mem_map.mpr ⟨f,hf,if_neg hhealed⟩,rfl,rfl,hopen⟩

theorem MarkStep.accounts (hstep : MarkStep l c c') (hinv : Inv c.core) (h : Accounts p c.core) :
    Accounts p c'.core := by
  have hon:=(hstep.descends hinv).releasedOn
  cases hstep with
  | @pass c' st through recorded passes free hok =>
    obtain ⟨window,d₂,d₃, -,hgo,hforget,rfl⟩:=passSeal_ok hok
    have hflags:=letGo_flags (by exact hinv.spans) hgo
    obtain ⟨spans,window₂,kept,rfl⟩:=letGo_ok hgo
    obtain ⟨window₃, -,rfl⟩:=forgetAbandoned_ok hforget
    have hfrom : FailedFrom c.core _ :=
      .of_sub (fun _ _ hw=>get_of_filter hw) hflags
        (fun _ _ hp=>domainsWithout_sub _ _ _ _ _ _ hp) rfl fun _=>hon.isLive
    refine h.on hon hfrom h.healed
      (fun f hf hopen _ _ _ _ _ _=>.inl ⟨f,hf,rfl,rfl,hopen⟩)
      fun op w hw hlive hstage=>?_
    by_cases hbelow : w.isBelow l through=true
    · simp only [Write.isBelow,Bool.and_eq_true,decide_eq_true_eq] at hbelow
      have hexcused:=h.excused_of_passed hinv passes free hw hbelow.1 hbelow.2
      rw [← hbelow.1] at hexcused
      exact .inr (.inr (hexcused.on hon hlive))
    · refine .inl ⟨w,?_,rfl,rfl,hstage⟩
      show (c.core.writes.filter fun _ w=>!w.isBelow l through).get op=some w
      rw [get_filter,hw,Option.filter_eq_some_iff]
      exact ⟨rfl,by simpa using hbelow⟩
  | @answer place through blocker live due blocked=>cases place <;> exact h.on_frame hon rfl

theorem AdvanceStep.accounts (hstep : AdvanceStep c c') (hinv : Inv c.core)
    (h : Accounts p c.core) : Accounts p c'.core := by
  cases hstep with
  | progress l step | mark l step=>exact step.accounts hinv h
  | healed=>exact h.releaseHealed hinv

theorem steps_accounts (hsteps : ReflTransGen AdvanceStep c c') (hinv : Inv c.core)
    (h : Accounts p c.core) : Inv c'.core ∧ Accounts p c'.core :=
  steps_invariant (P:=fun c=>Inv c.core ∧ Accounts p c.core) hsteps ⟨hinv,h⟩
    fun _ _ hstep hc=>⟨hstep.inv hc.1,hstep.accounts hc.1 hc.2⟩

/-- `mid` is `d` with the success the call tells of recorded: of a flush or a domain that was out. -/
def AnswersOk (d : Durability E T I) (call : Call E T) (mid : Durability E T I) : Prop :=
  (∃ l through file q domains, call = .flushed l through file none ∧
    d.answer l through file false = .ok (q, domains, mid)) ∨
  ∃ l s n failed domain part, call = .provided l s.seq domain none ∧
    d.seals.get ⟨l, s.seq⟩ = some s ∧ s.stage = .flushing n failed ∧
    d.sealDomains.get ⟨l, s.seq, domain⟩ = some part ∧ part.answered = false ∧
    mid = d.answerDomain l s n failed false domain

/-- With the success the call tells of, every part write `op` depends on has answered success. -/
def CoversOp (d : Durability E T I) (call : Call E T) (op : OpId) : Prop :=
  ∃ mid w q, AnswersOk d call mid ∧ d.writes.get op = some w ∧ w.stage = .named q ∧
    CoveredBy mid.spans mid.sealDomains mid.lists mid.served w q

structure Past.Has (p : Past E) (d : Durability E T I) (call : Call E T) (c : Change E T I) :
    Prop where
  abandoned : ∀ id, Event.abandoned id ∈ c.due.events → p.abandoned id
  healed : ∀ items item, call = .resolve items → item ∈ items → item.2 = .heal →
    p.healed item.1.id d.healNow
  observed : ∀ f, Observes d f c → ∀ op ∈ f.listed, p.observed f.id op
  covered : ∀ op, CoversOp d call op → p.covered op

variable {mid : Durability E T I} {call : Call E T} {q : ℕ}

theorem Accounts.cover (h : Accounts p mid) (hspans : SpansOk mid.writes mid.spans)
    (hkeys : ∀ op w,mid.writes.get op=some w → w.op=op) (hans : AnswersOk d call mid)
    (hwrites : mid.writes=d.writes) (hcovered : ∀ op,CoversOp d call op → p.covered op)
    (hok : mid.cover l q=.ok d') : Accounts p d' := by
  rcases cover_ok hok with rfl | ⟨mid₂,reads,told,hgo,rfl⟩
  · exact h
  · have hfrom:=FailedFrom.letGo hspans hgo
    obtain ⟨spans,window,kept,rfl⟩:=letGo_ok hgo
    refine h.on (fun _ st hst hended=>⟨st,hst,hended,.refl _⟩) hfrom h.healed
      (fun f hf hopen _ _ _ _ _ _=>.inl ⟨f,hf,rfl,rfl,hopen⟩)
      fun op w hw _ hstage=>?_
    by_cases hpick : ((mid.writes.vals.filter (mid.isCovered l q)).map Write.op).contains w.op=true
    · rw [contains_iff_mem,mem_map] at hpick
      obtain ⟨w',hw',hop⟩:=hpick
      obtain ⟨hmem,hcov⟩:=mem_filter.mp hw'
      obtain ⟨op',hget⟩:=mem_vals.mp hmem
      obtain ⟨-,hnamed,hby⟩:=isCovered_iff.mp hcov
      have hop' : op'=op:=by rw [← hkeys op' w' hget,hop,hkeys op w hw]
      rw [hop',hwrites] at hget
      exact .inr (.inl (hcovered op ⟨mid,w',q,hans,hget,hnamed,hby⟩))
    · refine .inl ⟨w,?_,rfl,rfl,hstage⟩
      show (mid.writes.filter _).get op=some w
      rw [get_filter,hw,Option.filter_eq_some_iff]
      exact ⟨rfl,by simpa using hpick⟩

theorem Accounts.observe (h : Accounts p d)
    (hobserves : Observes d f c) (hobserved : ∀ op ∈ f.listed,p.observed f.id op)
    (hspans : c.core.spans=mid.spans) (hdomains : c.core.sealDomains=mid.sealDomains)
    (hparts : ∀ op w q,d.writes.get op=some w → d.isLive w.lineage=true → w.stage=.named q →
      PartFailedOf mid.spans mid.sealDomains d.lists w q →
      PartFailedOf d.spans d.sealDomains d.lists w q ∨ op ∈ f.listed) : Accounts p c.core := by
  have hlives:=isLive_of_lineages hobserves.lineages
  have hon : ReleasedOn d c.core:=fun _ st hst hended=>⟨st,hobserves.lineages ▸ hst,hended,.refl _⟩
  have hold : ∀ g ∈ d.failures,g ∈ c.core.failures :=
    fun g hg=>by rw [hobserves.failures]; exact mem_append_left _ hg
  have hnew : f ∈ c.core.failures:=by rw [hobserves.failures]; simp
  refine ⟨fun g hg at_ hat=>?_,fun op w q hw hlive hstage hfailed=>?_,
    fun op l e hcompleted hlive=>?_⟩
  · rw [hobserves.failures,mem_append,mem_singleton] at hg
    rcases hg with hg | rfl
    · exact h.healed g hg at_ hat
    · rw [hobserves.open] at hat
      cases hat
  · rw [hobserves.writes] at hw
    rw [hspans,hdomains,hobserves.lists] at hfailed
    have hlive₀ : d.isLive w.lineage=true:=hlives _ ▸ hlive
    rcases hparts op w q hw hlive₀ hstage hfailed with hfailed | hlisted
    · rcases h.blamed op w q hw hlive₀ hstage hfailed with hexcused | ⟨g,hg,hrest⟩
      · exact .inl (hexcused.on hon hlive)
      · exact .inr ⟨g,hold g hg,hrest⟩
    · refine .inr ⟨f,hnew,hobserved op hlisted,hlisted,?_⟩
      rw [hobserves.open]
      simp
  · rcases h.fate op l e hcompleted (hlives _ ▸ hlive) with hthere | hcovered | hexcused
    · exact .inl (hobserves.writes ▸ hthere)
    · exact .inr (.inl hcovered)
    · exact .inr (.inr (hexcused.on hon hlive))

variable {id : FailureId}

theorem Observes.listed_reach {cause : FailureCause} {reach : Reach} {only : Option Key}
    (h : Observes d f c) (hok : observe (begin_ mid) cause reach only=.ok (id,c))
    (hfailures : mid.failures=d.failures) : f.listed=d.observedWrites reach only := by
  obtain ⟨slot,freeTokens,window,told, -, -, -, -, -,hcore, -⟩:=observe_ok hok
  have hlast:=h.failures
  rw [hcore,← hfailures] at hlast
  have hf : [mid.observedFailure cause reach only slot]=[f]:=append_cancel_left hlast
  rw [h.listed,← singleton_inj.mp hf]
  rfl

theorem Reach.ofFile_reaches (lists : DomainLists) (domains : DomainList) :
    (Reach.ofFile domains).reaches lists (lists.get domains)=true := by
  unfold ofFile
  split_ifs
  · rfl
  · cases hlist : lists.get domains with
    | nil=>simp [reaches]
    | cons x xs=>simp [reaches,hlist]

theorem letGoEnded_flags (hgo : d.letGoEnded l=.ok d') : FlagsFrom d.spans d'.spans := by
  refine letGoEnded_induction (fun s=>FlagsFrom d.spans s.spans)
    (fun s s' op w hs hw _ hone=>?_) (.refl _) hgo
  obtain ⟨spans,window,kept,hleave, -, -,rfl⟩:=letGoOne_ok hw hone
  exact hs.leave hleave

theorem standing_self {st : Standing} (h : f.id=id) :
    standing id st f={ f with standing := st } := if_pos h

theorem standing_other {st : Standing} (h : f.id ≠ id) : standing id st f=f := if_neg h

theorem Accounts.resolveOne {item : FailureToken × Resolution} (h : Accounts p c.core)
    (hok : resolveOne c item=.ok c')
    (habandoned : ∀ id,Event.abandoned id ∈ c'.due.events → p.abandoned id)
    (hhealed : item.2=.heal → p.healed item.1.id c.core.healNow) : Accounts p c'.core := by
  have hon:=(Descends.resolveOne hok).releasedOn
  obtain ⟨f,hf,hid,⟨hheal, -,hcore⟩ | ⟨-,mid,habandon,hdue,hcore⟩⟩:=resolveOne_ok hok
  · rw [(dropToken_frame _ item.1).choose_spec] at hcore
    rw [hcore] at hon ⊢
    refine h.on hon (.of_same rfl rfl rfl rfl fun _=>hon.isLive) (fun g' hg' at_ hat=>?_)
      (fun g hg hopen op w hw hlive hlisted hobserved=>.inl ?_)
      fun op w hw _ hstage=>.inl ⟨w,hw,rfl,rfl,hstage⟩
    · obtain ⟨g,hg,rfl⟩:=mem_map.mp hg'
      by_cases hthis : g.id=f.id
      · rw [standing_self hthis] at hat ⊢
        cases hat
        show p.healed g.id _
        rw [hthis,hid]
        exact hhealed hheal
      · rw [standing_other hthis] at hat ⊢
        exact h.healed g hg at_ hat
    · refine ⟨_,mem_map.mpr ⟨g,hg,rfl⟩,?_⟩
      by_cases hthis : g.id=f.id
      · rw [standing_self hthis]
        exact ⟨rfl,rfl,by simp⟩
      · rw [standing_other hthis]
        exact ⟨rfl,rfl,hopen⟩
  · have hgone : p.abandoned f.id:=by
      refine habandoned f.id ?_
      rw [hdue]
      exact mem_append_left _ (mem_append_right _ (mem_singleton_self _))
    obtain ⟨window,abandoned,rfl⟩:=abandonEpochs_frame habandon
    rw [(dropToken_frame _ item.1).choose_spec] at hcore
    rw [hcore] at hon ⊢
    refine h.on hon (.of_same rfl rfl rfl rfl fun _=>hon.isLive) (fun g' hg' at_ hat=>?_)
      (fun g hg hopen op w hw hlive hlisted hobserved=>?_)
      fun op w hw _ hstage=>.inl ⟨w,hw,rfl,rfl,hstage⟩
    · obtain ⟨g,hg,rfl⟩:=mem_map.mp hg'
      by_cases hthis : g.id=f.id
      · rw [standing_self hthis] at hat
        cases hat
      · rw [standing_other hthis] at hat ⊢
        exact h.healed g hg at_ hat
    · by_cases hthis : g.id=f.id
      · exact .inr ⟨g.id,hobserved,.inl (hthis ▸ hgone)⟩
      · exact .inl ⟨g,mem_map.mpr ⟨g,hg,if_neg hthis⟩,rfl,rfl,hopen⟩

theorem resolveOne_due {item : FailureToken × Resolution} (hok : resolveOne c item=.ok c') :
    (∀ e ∈ c.due.events,e ∈ c'.due.events) ∧ c'.core.healNow=c.core.healNow := by
  obtain ⟨f, -, -,⟨-,hdue,hcore⟩ | ⟨-,mid,habandon,hdue,hcore⟩⟩:=resolveOne_ok hok
  · rw [hdue,hcore,(dropToken_frame _ item.1).choose_spec]
    exact ⟨fun _ he=>he,rfl⟩
  · obtain ⟨window,abandoned,rfl⟩:=abandonEpochs_frame habandon
    rw [hdue,hcore,(dropToken_frame _ item.1).choose_spec]
    exact ⟨fun _ he=>mem_append_left _ (mem_append_left _ he),rfl⟩

theorem Accounts.resolveAll {items : List (FailureToken × Resolution)} (h : Accounts p d)
    (hfold : items.foldlM Durability.resolveOne (Durability.begin_ d)=.ok c)
    (habandoned : ∀ id,Event.abandoned id ∈ c.due.events → p.abandoned id)
    (hhealed : ∀ item ∈ items,item.2=.heal → p.healed item.1.id d.healNow) : Accounts p c.core := by
  -- the entries due only grow, so what is abandoned at the end is assumed of every item before it
  refine (foldlM_invariant (fun s=>s.core.healNow=d.healNow ∧
    ((∀ id,Event.abandoned id ∈ s.due.events → p.abandoned id) → Accounts p s.core))
    (fun s item s' hitem hs hone=>?_) ⟨rfl,fun _=>h⟩ hfold).2 habandoned
  obtain ⟨hevents,hnow⟩:=resolveOne_due hone
  refine ⟨hnow.trans hs.1,fun hall=>?_⟩
  refine (hs.2 fun id hid=>hall id (hevents _ hid)).resolveOne hone hall fun hheal=>?_
  rw [hs.1]
  exact hhealed item hitem hheal

theorem Accounts.retireIfDrained (h : Accounts p d) (l : Key) : Accounts p (d.retireIfDrained l) := by
  rcases d.retireIfDrained_cases l with heq | ⟨st, -, -, -, -,heq⟩ <;> rw [heq]
  · exact h
  · exact h.on_frame (fun _ st' hst' hended=>⟨st',get_of_erase hst',hended,.refl _⟩) rfl

theorem Accounts.on_other (h : Accounts p d) (hon : ReleasedOn d d') (hdead : d'.isLive l ≠ true)
    (hwrites : ∀ op w,w.lineage ≠ l → (d'.writes.get op=some w ↔ d.writes.get op=some w))
    (hspans : ∀ k e',k.lineage ≠ l → d'.spans.get k=some e' →
      ∃ e,d.spans.get k=some e ∧ e.answered=e'.answered ∧ e.ok=e'.ok)
    (hdomains : ∀ k part,d'.sealDomains.get k=some part → d.sealDomains.get k=some part)
    (hlists : d'.lists=d.lists) (hfailures : d'.failures=d.failures) : Accounts p d' := by
  have hother : ∀ {k : Key},d'.isLive k=true → k≠l:=by
    rintro k hlive rfl
    exact hdead hlive
  refine h.on_same hon (.of_failed (fun op w _ hw hlive _=>(hwrites op w (hother hlive)).mp hw)
    (fun k l' file q hk e' he' hlive hans hok=>?_) (fun k part hpart _=>hdomains k part hpart)
    (fun _ _ _ _=>by rw [hlists]) fun _=>hon.isLive) hfailures
    fun op w hw hlive hstage=>⟨w,(hwrites op w (hother hlive)).mpr hw,rfl,rfl,hstage⟩
  subst hk
  obtain ⟨e,he,hans',hok'⟩:=hspans _ e' (hother hlive) he'
  exact ⟨e,he,hans'.trans hans,hok'.trans hok⟩

theorem retainSealing_domains (hok : d.retainSealing l=.ok d') (k : DomainKey) (part : SealDomain)
    (hpart : d'.sealDomains.get k=some part) : d.sealDomains.get k=some part := by
  obtain ⟨window, -,rfl⟩:=retainSealing_ok hok
  exact (retained_domain hpart).1

variable {file : IoTargetKey} {domains : DomainList} {d₁ d₂ : Durability E T I}

theorem Accounts.endedFlush {failedNow : Bool} {d₃ : Durability E T I} (h : Accounts p d)
    (hinv : Inv d) (hst : d.lineages.get l=some st) (hended : st.ended=true)
    (hans : d.answer l through file failedNow=.ok (q,domains,d₁))
    (hgo : d₁.letGo (fun w => decide (w.lineage=l) && decide (w.file=file) &&
      decide (w.stage=.named q))=.ok d₂) (hretain : d₂.retainSealing l=.ok d₃) : Accounts p d₃ := by
  have hflags:=letGo_flags (hinv.toTablesOk.answerFlush hans).spans hgo
  have hdomains:=retainSealing_domains hretain
  obtain ⟨s,n,failed,entry, -, -, -, -, -, -, -, -,rfl⟩:=answer_ok hans
  obtain ⟨spans,window,kept,rfl⟩:=letGo_ok hgo
  obtain ⟨window, -,rfl⟩:=retainSealing_ok hretain
  refine h.on_other (l:=l) (fun _ st' hst' hended'=>⟨st',hst',hended',.refl _⟩)
    (not_isLive hst hended) (fun op w hne=>?_) (fun k e' hne he'=>?_)
    hdomains rfl rfl
  · show (d.writes.filter _).get op=some w ↔ _
    rw [get_filter,Option.filter_eq_some_iff]
    simp [hne]
  · obtain ⟨e,he,hrest⟩:=hflags k e' he'
    refine ⟨e,?_,hrest⟩
    rw [← he]
    exact (get_insert_of_ne _ _ fun hk=>hne (by rw [hk])).symm

theorem Accounts.endLineage {d₄ d₅ : Durability E T I} {due : Due E T I} (h : Accounts p d)
    (hforget : forgetAbandoned { d with lineages := d.lineages.insert l st.finish } l
      none=.ok d₂) (hgo : letGoEnded
      { d₂ with writes := d₂.writes.map fun _ w => w.stopAt l d₂.nextFailure } l=.ok d₄)
    (hretain : retainSealing
      { d₄ with seals := d₄.seals.map fun k s => s.untrail l k } l=.ok d₅) :
    Accounts p (endHeld ⟨d₅,due⟩ l).core := by
  have hflags:=letGoEnded_flags hgo
  have hdomains:=retainSealing_domains hretain
  obtain ⟨window, -,rfl⟩:=forgetAbandoned_ok hforget
  obtain ⟨spans,window,kept,rfl⟩:=letGoEnded_ok hgo
  obtain ⟨window, -,rfl⟩:=retainSealing_ok hretain
  have hstop : ∀ w : Write E T,w.lineage≠l → w.stopAt l d.nextFailure=w:=fun w hne=>if_neg hne
  have hlineage : ∀ w : Write E T,(w.stopAt l d.nextFailure).lineage=w.lineage :=
    fun w=>(w.same_stopAt l d.nextFailure).lineage
  refine h.on_other (l:=l) (fun k st' hst' hended'=>?_)
    (not_isLive (get_insert_self _ _ _) rfl) (fun op w hne=>?_)
    (fun k e' _ he'=>hflags k e' he') hdomains rfl rfl
  · change (d.lineages.insert l st.finish).get k=some st' at hst'
    rcases of_insert hst' with ⟨-,rfl⟩ | hst'
    · cases hended'
    · exact ⟨st',hst',hended',.refl _⟩
  · show ((d.writes.map fun _ w=>w.stopAt l d.nextFailure).filter _).get op=some w ↔ _
    rw [get_filter,Option.filter_eq_some_iff,get_map,Option.map_eq_some_iff]
    constructor
    · rintro ⟨⟨w₀,hw₀,rfl⟩, -⟩
      rw [hlineage] at hne
      rw [hstop w₀ hne]
      exact hw₀
    · intro hw
      refine ⟨⟨w,hw,hstop w hne⟩,?_⟩
      simp [staysEnded,hne]

theorem Accounts.succeeded {inFlightByEpoch : Counts E} (h : Accounts p d)
    (hw : d.writes.get op=some w) (hstage : w.stage=.inFlight) : Accounts p { d with
      writes := d.writes.insert op { w with stage := .completed }
      inFlightByEpoch := inFlightByEpoch } := by
  have hget : ∀ op',(d.writes.insert op { w with stage:=.completed }).get op' =
      if op'=op then some { w with stage:=.completed } else d.writes.get op' :=
    fun op'=>get_insert _ _ _ _
  refine h.on_same (.of_lineages rfl) (.of_failed (fun op' w' q hw' _ hnamed=>?_)
    (fun _ _ _ _ _ e he _ hans hok=>⟨e,he,hans,hok⟩) (fun _ _ hpart _=>hpart)
    (fun _ _ _ _=>rfl) fun _ hlive=>hlive) rfl fun op' w' hw' _ hstage'=>?_
  · have hthere:=(hget op').symm.trans hw'
    split_ifs at hthere
    · cases hthere
      cases hnamed
    · exact hthere
  · refine ⟨w',?_,rfl,rfl,hstage'⟩
    refine (hget op').trans ?_
    rw [if_neg]
    · exact hw'
    · rintro rfl
      rw [hw] at hw'
      cases hw'
      exact hstage' hstage

theorem Accounts.letGoOne {reads : ℕ}
    {told : Option (List (Told E I))} {inFlightByEpoch : Counts E} (h : Accounts p d)
    (hw : d.writes.get op=some w) (hstage : w.stage=.inFlight) (hone : d.letGoOne op=.ok mid) :
    Accounts p { mid with reads := reads,told := told,inFlightByEpoch := inFlightByEpoch } := by
  obtain ⟨spans,window,kept,hleave, -, -,rfl⟩:=letGoOne_ok hw hone
  refine h.on_same (.of_lineages rfl)
    (.of_sub (fun _ _ hw'=>get_of_erase hw') ((FlagsFrom.refl _).leave hleave) (fun _ _ hp=>hp)
      rfl fun _ hlive=>hlive) rfl fun op' w' hw' _ hstage'=>⟨w',?_,rfl,rfl,hstage'⟩
  refine (get_erase _ _ _).trans ?_
  rw [if_neg]
  · exact hw'
  · rintro rfl
    rw [hw] at hw'
    cases hw'
    exact hstage' hstage

theorem Accounts.flushOk (h : Accounts p d) (hinv : Inv d)
    (hcovered : ∀ op,CoversOp d (.flushed l through file none) op → p.covered op)
    (hans : d.answer l through file false=.ok (q,domains,d₁)) (hcover : d₁.cover l q=.ok d₂) :
    Accounts p d₂ := by
  have ht:=hinv.toTablesOk.answerFlush hans
  have hanswers : AnswersOk d (.flushed l through file none) d₁ :=
    Or.inl ⟨l,through,file,q,domains,rfl,hans⟩
  have hwrites : d₁.writes=d.writes:=by
    obtain ⟨s,n,failed,entry, -, -, -, -, -, -, -, -,rfl⟩:=answer_ok hans
    rfl
  refine cover ?_ ht.spans ht.keys.write_key hanswers hwrites hcovered hcover
  obtain ⟨s,n,failed,entry, -, -, -, -, -, -, -, -,rfl⟩:=answer_ok hans
  -- the part answers success, so none fails that had not
  refine h.on_same (.of_lineages rfl)
    (.of_failed (fun _ _ _ hw _ _=>hw) (fun k _ _ _ _ e' he' _ hans hok=>?_)
      (fun _ _ hpart _=>hpart) (fun _ _ _ _=>rfl) fun _ hlive=>hlive) rfl
    fun op w hw _ hstage=>⟨w,hw,rfl,rfl,hstage⟩
  rcases of_insert he' with ⟨-,rfl⟩ | he'
  · cases hok
  · exact ⟨e',he',hans,hok⟩

theorem Accounts.flushFailed {fault : IoFault} (h : Accounts p d) (hinv : Inv d)
    (hobserved : ∀ f,Observes d f c → ∀ op ∈ f.listed,p.observed f.id op)
    (hans : d.answer l through file true=.ok (q,domains,d₁))
    (hobserve : Durability.observe (Durability.begin_ d₁) (.commit file fault)
      (Reach.ofFile domains) none=.ok (id,c)) : Accounts p c.core := by
  obtain ⟨s,n,failed,entry, -, -, -, -,hentry, -, -,hdomains,rfl⟩:=Durability.answer_ok hans
  obtain ⟨slot,freeTokens,window,told, -, -, -, -, -,hcore, -⟩:=observe_ok hobserve
  obtain ⟨f,hobserves⟩:=observe_observes (d:=d) hobserve rfl
  have hf:=hobserves.listed_reach hobserve rfl
  refine h.observe hobserves (hobserved f hobserves) (by rw [hcore]) (by rw [hcore])
    fun op w q' hw hlive' hstage hfailed=>?_
  rcases hfailed with ⟨e,he,hans',hok⟩ | hpart
  · simp only [begin_,get_insert] at he
    split_ifs at he with hkey
    · refine .inr ?_
      obtain ⟨hl,hfile,hspan⟩:=SpanKey.mk.inj hkey
      have hwkey : w.spanKey=⟨l,file,.sealed q⟩:=by
        rw [← hl,← hfile,← hspan]
        simp [Write.spanKey,hstage,Span.ofStage]
      have hlist : w.domains=domains:=by
        rw [← hinv.files.entry_domains op w entry hw (hwkey ▸ hentry),hdomains]
      rw [hf,hinv.mem_observedWrites]
      exact ⟨w,hw,rfl,hlive',hlist ▸ Reach.ofFile_reaches d.lists w.domains⟩
    · exact .inl (.inl ⟨e,he,hans',hok⟩)
  · exact .inl (.inr hpart)

theorem Accounts.domainOk {domain : DomainId} {n : ℕ} {failed : Bool} {part : SealDomain}
    (h : Accounts p d) (hinv : Inv d)
    (hcovered : ∀ op,CoversOp d (.provided l s.seq domain none) op → p.covered op)
    (hs : d.seals.get ⟨l,s.seq⟩=some s) (hstage : s.stage=.flushing n failed)
    (hpart : d.sealDomains.get ⟨l,s.seq,domain⟩=some part) (hans : part.answered=false)
    (hcover : (d.answerDomain l s n failed false domain).cover l s.seq=.ok d₂) : Accounts p d₂ := by
  have ht : TablesOk (d.answerDomain l s n failed false domain) :=
    hinv.toTablesOk.answerDomain hs hstage hpart
  have hanswers : AnswersOk d (.provided l s.seq domain none)
      (d.answerDomain l s n failed false domain) :=
    Or.inr ⟨l,s,n,failed,domain,part,rfl,hs,hstage,hpart,hans,rfl⟩
  refine cover ?_ ht.spans ht.keys.write_key hanswers rfl hcovered hcover
  refine h.on_same (.of_lineages rfl)
    (.of_failed (fun _ _ _ hw _ _=>hw)
      (fun _ _ _ _ _ e he _ hans hok=>⟨e,he,hans,hok⟩) (fun k part' hpart' hok=>?_)
      (fun _ _ _ _=>rfl) fun _ hlive=>hlive) rfl
    fun op w hw _ hstage=>⟨w,hw,rfl,rfl,hstage⟩
  simp only [answerDomain,get_insert] at hpart'
  split_ifs at hpart'
  · cases hpart'
    cases hok
  · exact hpart'

theorem Accounts.domainFailed {domain : DomainId} {cause : FailureCause} {n : ℕ} {failed : Bool}
    (h : Accounts p d) (hinv : Inv d)
    (hobserved : ∀ f,Observes d f c → ∀ op ∈ f.listed,p.observed f.id op)
    (hobserve : Durability.observe (Durability.begin_ (d.answerDomain l s n failed true domain))
      cause (.domain domain) none=.ok (id,c)) : Accounts p c.core := by
  obtain ⟨slot,freeTokens,window,told, -, -, -, -, -,hcore, -⟩:=Durability.observe_ok hobserve
  obtain ⟨f,hobserves⟩:=observe_observes (d:=d) hobserve rfl
  have hf:=hobserves.listed_reach hobserve rfl
  refine h.observe hobserves (hobserved f hobserves) (by rw [hcore]) (by rw [hcore])
    fun op w q' hw hlive' hstage hfailed=>?_
  rcases hfailed with hfile | ⟨domain',hmem,part',hpart',hrest⟩
  · exact .inl (.inl hfile)
  · simp only [begin_,answerDomain,get_insert] at hpart'
    split_ifs at hpart' with hkey
    · refine .inr ?_
      obtain ⟨-, -,rfl⟩:=DomainKey.mk.inj hkey
      rw [hf,hinv.mem_observedWrites]
      refine ⟨w,hw,rfl,hlive',?_⟩
      simp [Reach.reaches,hmem]
    · exact .inl (.inr ⟨domain',hmem,part',hpart',hrest⟩)

theorem Prepared.accounts (hinv : Inv d) (hpromised : d.Promised call) (hprep : Prepared d call c)
    (has : p.Has d call c) (h : Accounts p d) : Accounts p c.core := by
  have hon:=(hprep.descends hinv).releasedOn
  cases hprep with
  | succeeded hw hstage hlive=>exact h.succeeded hw hstage
  | gone hw hstage hone hend =>
    unfold begin_
    simp only
    split_ifs
    · exact h.letGoOne hw hstage hone
    · exact (h.letGoOne hw hstage hone).retireIfDrained _
  | @emptySeal l through st hst hlive habove hcycle hpin =>
    rcases recordEmpty_core (c:=begin_ (d.sealing l st through)) (Empty.new d.sealsMade through)
        (get_insert_self ..) with ⟨s, -,heq⟩ | ⟨-,heq⟩ <;> rw [heq] at hon ⊢ <;>
      exact h.on_frame hon rfl
  | recordedSeal=>exact h.on_frame hon rfl
  | strayFlush=>exact h
  | endedFlush hst hended hans hgo hretain =>
    exact (h.endedFlush hinv hst hended hans hgo hretain).retireIfDrained _
  | flushOk hst hlive hans hcover=>exact h.flushOk hinv has.covered hans hcover
  | flushFailed hst hlive hans hobserve=>exact h.flushFailed hinv has.observed hans hobserve
  | domainOk hst hlive hs hstage hpart hans hcover =>
    exact h.domainOk hinv has.covered hs hstage hpart hans hcover
  | domainFailed hst hlive hs hstage hpart hans hobserve =>
    exact h.domainFailed hinv has.observed hobserve
  | imported hobserve =>
    obtain ⟨slot,freeTokens,window,told, -, -, -, -, -,hcore, -⟩:=observe_ok hobserve
    obtain ⟨f,hobserves⟩:=observe_observes (d:=d) hobserve rfl
    have hspans : c.core.spans=d.spans:=by rw [hcore]; rfl
    have hdomains : c.core.sealDomains=d.sealDomains:=by rw [hcore]; rfl
    exact h.observe hobserves (has.observed f hobserves) hspans hdomains
      fun _ _ _ _ _ _ hfailed=>.inl hfailed
  | @resolved items c₁ hinstance hfold =>
    have hinv₁ : Inv c₁.core:=Inv.resolveAll (c:=begin_ d) hinv hpromised.1 hinstance
      (fun item hitem=>hpromised.2 item hitem (hinstance item hitem)) hfold
    refine (h.resolveAll hfold (fun id hid=>?_) fun item hitem hheal=>?_).releaseHealed hinv₁
    · exact has.abandoned id (mem_append_left _ hid)
    · exact has.healed items item rfl hitem hheal
  | ended hst hlive hne hforget hgo hretain =>
    exact (h.endLineage hforget hgo hretain).retireIfDrained _

theorem Accounts.inFlight {a : Accepted E T} {wasHeld : Bool} (h : Accounts p d)
    (hfresh : d.writes.get a.op=none) (hok : d.inFlight a wasHeld=.ok d') : Accounts p d' := by
  obtain ⟨inFlightByEpoch,spans,window, -, -,henter, -,rfl⟩:=inFlight_ok hok
  refine h.on_same (.of_lineages rfl) (.of_failed (fun op w q hw _ hnamed=>?_)
    (fun k l file q hk e' he' _ hans hok=>⟨e',?_,hans,hok⟩) (fun _ _ hpart _=>hpart)
    (fun _ _ _ _=>rfl) fun _ hlive=>hlive) rfl fun op w hw _ hstage=>⟨w,?_,rfl,rfl,hstage⟩
  · rcases of_insert hw with ⟨-,rfl⟩ | hw
    · cases hnamed
    · exact hw
  · subst hk
    rw [← Spans.enter_get_of_ne henter (by simp)]
    exact he'
  · simp only [get_insert]
    rw [if_neg]
    · exact hw
    · rintro rfl
      rw [hfresh] at hw
      cases hw

theorem Accounts.mint (h : Accounts p d) (hinv : Inv d)
    (hknown : ∀ op l e,p.completed op l e → l < d.nextLineage) : Accounts p d.minted := by
  have hget : ∀ l,l < d.nextLineage →
      (d.lineages.insert d.nextLineage LineageState.new).get l=d.lineages.get l :=
    fun l hlt=>get_insert_of_ne _ _ hlt.ne
  have hlives : ∀ l,l < d.nextLineage → isLive d.minted l=d.isLive l:=by
    intro l hlt
    unfold isLive live
    simp only [hget l hlt]
  have hexcused : ∀ l op,l < d.nextLineage → p.Excused d l op → p.Excused d.minted l op:=by
    rintro l op hlt ⟨id,hobserved,habandoned | ⟨at_,hhealed,st,r,hst,hrest⟩⟩
    · exact ⟨id,hobserved,.inl habandoned⟩
    · exact ⟨id,hobserved,.inr ⟨at_,hhealed,st,r,(hget l hlt).trans hst,hrest⟩⟩
  refine ⟨h.healed,fun op w q hw hlive hstage hfailed=>?_,fun op l e hcompleted hlive=>?_⟩
  · obtain ⟨st,hst, -⟩:=hinv.lives.write_lineage op w hw
    have hlt:=hinv.clocks.lineage_clock _ st hst
    rcases h.blamed op w q hw (hlives _ hlt ▸ hlive) hstage hfailed with hex | hblamed
    · exact .inl (hexcused _ op hlt hex)
    · exact .inr hblamed
  · have hlt:=hknown op l e hcompleted
    rcases h.fate op l e hcompleted (hlives l hlt ▸ hlive) with hthere | hcovered | hex
    · exact .inl hthere
    · exact .inr (.inl hcovered)
    · exact .inr (.inr (hexcused l op hlt hex))

theorem Accounts.relist {lists : DomainLists} (h : Accounts p d) (hsame : ∀ op w,
    d.writes.get op=some w → d.isLive w.lineage=true → lists.get w.domains=d.lists.get w.domains) :
    Accounts p { d with lists := lists } :=
  h.on_same (.of_lineages rfl) (.of_failed (fun _ _ _ hw _ _=>hw)
    (fun _ _ _ _ _ e he _ hans hok=>⟨e,he,hans,hok⟩) (fun _ _ hpart _=>hpart) hsame
    fun _ hlive=>hlive) rfl fun _ w hw _ hstage=>⟨w,hw,rfl,rfl,hstage⟩

theorem Quiet.accounts (hquiet : Quiet d call d') (hinv : Inv d) (hpromised : d.Promised call)
    (h : Accounts p d) (hknown : ∀ op l e,p.completed op l e → l < d.nextLineage) :
    Accounts p d' := by
  cases hquiet.quieted with
  | places | tokens=>exact h.on_frame (.of_lineages rfl) rfl
  | joins held heldByEpoch hfrom hin =>
    have hbefore : Accounts p { d with held,heldByEpoch }:=h.on_frame (.of_lineages rfl) rfl
    exact hbefore.inFlight (hinv.joins_fresh hpromised hfrom).1 hin
  | @forget f window d' hf hresolved hok heq =>
    have hfilter : Accounts p (d.forgot f window):=by
      refine h.on (.of_lineages rfl) (.of_same rfl rfl rfl rfl fun _ hlive=>hlive)
        (fun g hg=>h.healed g (mem_filter.mp hg).1) (fun g hg hopen _ _ _ _ _ _=>?_)
        fun op w hw _ hstage=>.inl ⟨w,hw,rfl,rfl,hstage⟩
      refine .inl ⟨g,mem_filter.mpr ⟨hg,decide_eq_true fun hgid=>hopen ?_⟩,rfl,rfl,hopen⟩
      rw [hinv.suspects.unique hg hf (by rw [hgid])]
      exact hresolved
    rw [heq]
    obtain ⟨lists,hlists⟩:=releaseReach_frame (d.forgot f window) f.reach
    have hsame : ∀ list,lists.get list=d.lists.get list:=by
      intro list
      have heq':=congrArg (fun s=>s.lists.get list) hlists
      cases hreach : f.reach <;> rw [hreach] at heq' <;>
        simp only [releaseReach,DomainLists.release_get] at heq' <;> exact heq'.symm
    rw [hlists]
    exact hfilter.relist fun _ w _ _=>hsame w.domains
  | mint=>exact h.mint hinv hknown
  | @endPopped l st hst hended =>
    refine Accounts.retireIfDrained ?_ l
    exact h.on_frame (Descends.insert_ended { st with endUnpopped:=false } hended).releasedOn rfl
  | retire hforget =>
    obtain ⟨window, -,rfl⟩:=forgetAbandoned_ok hforget
    exact h.on_frame (fun _ st' hst' hended=>⟨st',get_of_erase hst',hended,.refl _⟩) rfl
  | relist=>exact h.relist fun op w hw hlive=>hpromised w.domains (.live op w hw hlive rfl)

end WindowsThreadpoolSys.DurableIoring
