import WindowsThreadpoolSys.DurableIoring.Proof.Finish

/-! The first seal of a lineage, once finished and held by no failure, leaves the queue: what is left at
or below it is let go, its lineage's abandoned epochs there are forgotten, and what waited for them
is released. -/
namespace WindowsThreadpoolSys.DurableIoring
open Library Durability List Table

variable {E T I : Type} [LinearOrder E] {d d' : Durability E T I} {l : Key} {st : LineageState E}
  {through : E} {recorded : Option (Seal E)}
variable {c c' : Change E T I}

/-! ## The seal taken -/

def sealsWithout (seals : Seals E) (l : Key) : Option (Seal E) → Seals E
  | none => seals
  | some s => seals.erase ⟨l, s.seq⟩

def domainsWithout (sealDomains : SealDomains) (served : List DomainId) (l : Key) :
    Option (Seal E) → SealDomains
  | none => sealDomains
  | some s => forgetDomains sealDomains served l s.seq

def LineageState.passed (st : LineageState E) (through : E) (recorded : Option (Seal E)) :
    LineageState E :=
  { st with leading := recorded.bind Seal.trailing, durableThrough := some through }

def Durability.taken (d : Durability E T I) (l : Key) (st : LineageState E) (through : E)
    (recorded : Option (Seal E)) (window : Window) : Durability E T I :=
  { d with
    seals := sealsWithout d.seals l recorded
    sealDomains := domainsWithout d.sealDomains d.served l recorded
    lineages := d.lineages.insert l (st.passed through recorded)
    window := window }

/-- The first seal of live lineage `l` is finished: the recorded seal `recorded`, or the leading empty
one. -/
structure Passes (d : Durability E T I) (l : Key) (st : LineageState E) (through : E)
    (recorded : Option (Seal E)) : Prop where
  lineage : d.lineages.get l = some st
  live : st.ended = false
  next : d.nextFinished l st = some (through, recorded)

theorem Durability.takeSeal_ok (h : d.takeSeal l st through recorded=.ok d') :
    ∃ window,d.window.unpin (recorded.bind Seal.pin)=.ok window ∧
      d'=d.taken l st through recorded window := by
  cases recorded with
  | none =>
    cases h
    exact ⟨d.window,rfl,rfl⟩
  | some s =>
    unfold takeSeal at h
    rw [bind_eq_ok] at h
    obtain ⟨window,hwindow,h⟩:=h
    cases h
    exact ⟨window,hwindow,rfl⟩

theorem Durability.nextFinished_cases (h : d.nextFinished l st=some (through,recorded)) :
    (∃ e,recorded=none ∧ st.leading=some e ∧ e.finished=true ∧ e.through=through) ∨
      ∃ s rest ok,recorded=some s ∧ st.leading=none ∧ sealsOf d.seals l=s::rest ∧
        s.through=through ∧ s.stage=.done ok := by
  unfold nextFinished at h
  cases hleading : st.leading with
  | some e =>
    simp only [hleading] at h
    split_ifs at h with hfinished
    cases h
    exact .inl ⟨e,rfl,rfl,hfinished,rfl⟩
  | none =>
    simp only [hleading] at h
    cases hseals : sealsOf d.seals l with
    | nil =>
      simp only [hseals] at h
      cases h
    | cons s rest =>
      simp only [hseals] at h
      split_ifs at h with hdone
      cases h
      refine .inr ⟨s,rest,?_⟩
      cases hstage : s.stage with
      | waiting | flushing n failed=>simp [hstage,SealStage.isDone] at hdone
      | done ok=>exact ⟨ok,rfl,rfl,rfl,rfl,rfl⟩

theorem forgetDomains_get (sealDomains : SealDomains) (served : List DomainId) (l : Key) (q : ℕ)
    (k : DomainKey) : (forgetDomains sealDomains served l q).get k =
      if k.lineage=l ∧ k.seq=q ∧ k.domain ∈ served then none else sealDomains.get k := by
  unfold forgetDomains
  induction served generalizing sealDomains with
  | nil=>simp
  | cons domain rest ih =>
    rw [foldl_cons,ih,get_erase]
    obtain ⟨kl,kq,kd⟩:=k
    simp only [DomainKey.mk.injEq,mem_cons]
    by_cases hl : kl=l <;> by_cases hq : kq=q <;> by_cases hd : kd=domain <;>
      by_cases hr : kd ∈ rest <;> simp [hl,hq,hd,hr]

omit [LinearOrder E] in
theorem sealsWithout_sub (seals : Seals E) (l : Key) (recorded : Option (Seal E)) :
    (sealsWithout seals l recorded).Sub seals := by
  cases recorded with
  | none=>exact Table.Sub.refl _
  | some s=>exact sub_erase _ _

omit [LinearOrder E] in
theorem domainsWithout_sub (sealDomains : SealDomains) (served : List DomainId) (l : Key)
    (recorded : Option (Seal E)) :
    (domainsWithout sealDomains served l recorded).Sub sealDomains := by
  cases recorded with
  | none=>exact Table.Sub.refl _
  | some s =>
    intro k part hpart
    rw [domainsWithout,forgetDomains_get] at hpart
    split_ifs at hpart
    exact hpart

variable {seals : Seals E}

omit [LinearOrder E] in
theorem sealsWithout_get {k : SealKey} {s : Seal E} (hs : seals.get k=some s)
    (hne : ∀ s',recorded=some s' → k ≠ ⟨l,s'.seq⟩) :
    (sealsWithout seals l recorded).get k=some s := by
  cases recorded with
  | none=>exact hs
  | some s'=>rw [sealsWithout,get_erase,if_neg (hne s' rfl),hs]

omit [LinearOrder E] in
theorem domainsWithout_get {sealDomains : SealDomains} {served : List DomainId} {k : DomainKey}
    {part : SealDomain} (hpart : sealDomains.get k=some part)
    (hne : ∀ s,recorded=some s → ¬(k.lineage=l ∧ k.seq=s.seq)) :
    (domainsWithout sealDomains served l recorded).get k=some part := by
  cases recorded with
  | none=>exact hpart
  | some s=>rw [domainsWithout,forgetDomains_get,if_neg fun hk=>hne s rfl ⟨hk.1,hk.2.1⟩,hpart]

namespace Passes

variable (h : Passes d l st through recorded)

include h

theorem slots_eq (hkeys : KeysOk d.writes d.held d.seals d.kept) :
    ∃ x : Slot E,slots st.leading (sealsOf d.seals l) =
        x::slots (st.passed through recorded).leading (sealsOf (sealsWithout d.seals l recorded) l) ∧
      x.through=through ∧ x.finished=true ∧ ∀ s,x=.recorded s ↔ recorded=some s := by
  rcases nextFinished_cases h.next with
    ⟨e,rfl,hleading,hfinished,hthrough⟩ | ⟨s,rest,ok,rfl,hleading,hseals,hthrough,hstage⟩
  · refine ⟨.empty e,?_,hthrough,hfinished,by simp⟩
    rw [hleading,slots_leading]
    rfl
  · refine ⟨.recorded s,?_,hthrough,by simp [Slot.finished,hstage,SealStage.isDone],
      by simp⟩
    have hrest : sealsOf (d.seals.erase ⟨l,s.seq⟩) l=rest:=by
      have hsorted:=hkeys.sealsOf_sorted l
      have hfilter : sealsOf (d.seals.erase ⟨l,s.seq⟩) l =
          (sealsOf d.seals l).filter fun s'=>decide (s'.seq≠s.seq):=by
        unfold sealsOf Table.erase
        rw [select_filter,Table.select,filter_map]
        congr 1
        refine filter_congr fun e he=>?_
        obtain ⟨hmem,hl⟩:=mem_filter.mp he
        have hl : e.1.lineage=l:=by simpa using hl
        have hseq:=hkeys.seal_key e.1 e.2 (mem_entries.mp hmem)
        obtain ⟨⟨kl,kq⟩,v⟩:=e
        simp_all
      rw [hfilter,hseals]
      rw [hseals,pairwise_cons] at hsorted
      rw [filter_cons_of_neg (by simp),filter_eq_self.mpr]
      intro s' hs'
      simpa using (hsorted.1 s' hs').ne'
    rw [hleading,hseals,slots_recorded,sealsWithout,hrest]
    rfl

variable {epoch : E}

theorem above_open (ht : TablesOk d)
    (hopen : OpenAt (slots st.leading (sealsOf d.seals l)) st.durableThrough st.sealedThrough epoch) :
    through < epoch := by
  obtain ⟨x,hslots,hthrough,hfinished, -⟩:=h.slots_eq ht.keys
  have hqueue:=(ht.marks l st h.lineage h.live).queue
  by_contra hle
  rw [not_lt] at hle
  have hx : x ∈ slots st.leading (sealsOf d.seals l):=by rw [hslots]; exact mem_cons_self
  obtain ⟨e,he,hxe⟩:=hqueue.le_sealed hx
  obtain ⟨s,hcovering,hwaits⟩:=hopen.2
    (not_above_iff.mpr ⟨e,he,(hthrough ▸ hle).trans hxe⟩)
  rw [hslots,covering,List.find?_cons_of_pos (by simpa [hthrough] using hle)] at hcovering
  cases hcovering
  simp [Slot.finished,hwaits,SealStage.isDone] at hfinished

theorem named_to (ht : TablesOk d) {q : ℕ}
    (hnamed : NamedAt (slots st.leading (sealsOf d.seals l)) st.durableThrough epoch q)
    (hle : epoch ≤ through) : ∃ s,recorded=some s ∧ s.seq=q := by
  obtain ⟨x,hslots,hthrough, -,hrecorded⟩:=h.slots_eq ht.keys
  obtain ⟨-,s,hcovering,hseq, -⟩:=hnamed
  rw [hslots,covering,List.find?_cons_of_pos (by simpa [hthrough] using hle)] at hcovering
  exact ⟨s,(hrecorded s).mp (Option.some.inj hcovering),hseq⟩

theorem recorded_get (hkeys : KeysOk d.writes d.held d.seals d.kept) {s : Seal E}
    (hs : recorded=some s) :
    d.seals.get ⟨l,s.seq⟩=some s ∧ s.through=through ∧ ∃ ok,s.stage=.done ok := by
  rcases nextFinished_cases h.next with
    ⟨e,rfl, -⟩ | ⟨s',rest,ok,rfl, -,hseals,hthrough,hstage⟩
  · cases hs
  · cases hs
    exact ⟨hkeys.mem_sealsOf.mp (by rw [hseals]; exact mem_cons_self),hthrough,ok,hstage⟩

theorem named_other (ht : TablesOk d) {q : ℕ}
    (hnamed : NamedAt (slots st.leading (sealsOf d.seals l)) st.durableThrough epoch q)
    (hlt : through < epoch) : ∀ s,recorded=some s → s.seq ≠ q := by
  rintro s hs rfl
  obtain ⟨hget,hthrough, -⟩:=h.recorded_get ht.keys hs
  obtain ⟨-,s',hcovering,hseq, -⟩:=hnamed
  have hget':=ht.keys.mem_sealsOf.mp ((recorded_mem_slots _ _).mp (covering_mem hcovering))
  rw [hseq,hget] at hget'
  cases hget'
  exact absurd (covering_le hcovering) (by simpa [Slot.through,hthrough] using hlt)

theorem leaves (ht : TablesOk d) {op : OpId} {w : Write E T} (hw : d.writes.get op=some w)
    (hl : w.lineage=l) (hle : w.epoch ≤ through) :
    w.stage ≠ .inFlight ∧ Leaves d.lineages d.spans d.sealDomains d.lists w := by
  have hat:=(ht.marks l st h.lineage h.live).write_at op w hw hl
  cases hstage : w.stage with
  | inFlight | completed =>
    rw [hstage] at hat
    exact absurd hle (h.above_open ht hat).not_ge
  | named q =>
    rw [hstage] at hat
    obtain ⟨s,hs,rfl⟩:=h.named_to ht hat hle
    obtain ⟨hget, -,ok,hdone⟩:=h.recorded_get ht.keys hs
    refine ⟨by simp,fun q hq=>?_⟩
    rw [hstage] at hq
    cases hq
    rw [← hl] at hget
    exact ⟨fun e he hflushed=>ht.parts.done_file _ s ok hget hdone w.file e he hflushed,
      fun _ domain part _ _ _ hpart=>ht.parts.done_domain _ s ok hget hdone domain part hpart⟩

end Passes

/-! ## The lineage passed -/

def Write.isBelow (l : Key) (through : E) (w : Write E T) : Bool :=
  decide (w.lineage = l) && decide (w.epoch ≤ through)

theorem Write.isBelow_eq_false {w : Write E T} :
    (!w.isBelow l through)=true ↔ (w.lineage=l → through < w.epoch) := by
  simp [isBelow,← not_le,imp_iff_not_or]

theorem LineageOk.pass (ht : TablesOk d) (h : Passes d l st through recorded) :
    LineageOk l (st.passed through recorded) (sealsWithout d.seals l recorded)
      (d.writes.filter fun _ w => !w.isBelow l through) d.held d.sealsMade := by
  have hl:=ht.marks l st h.lineage h.live
  obtain ⟨x,hslots,hthrough,hfinished, -⟩:=h.slots_eq ht.keys
  have hcovering : ∀ {epoch},through < epoch →
      covering (slots (st.passed through recorded).leading
        (sealsOf (sealsWithout d.seals l recorded) l)) epoch =
        covering (slots st.leading (sealsOf d.seals l)) epoch:=by
    intro epoch hlt
    rw [hslots,covering_tail (hthrough.symm ▸ hlt)]
  have hqueue:=hl.queue
  rw [hslots] at hqueue
  refine {
    queue:=hthrough ▸ hqueue.tail
    made_lt:=fun y hy=>hl.made_lt y (by rw [hslots]; exact mem_cons_of_mem _ hy)
    write_at:=fun op w hw hwl=>?_
    held_at:=fun op g a hg ha hal=>?_ }
  · rw [get_filter,Option.filter_eq_some_iff] at hw
    have hlt:=Write.isBelow_eq_false.mp hw.2 hwl
    have hat:=hl.write_at op w hw.1 hwl
    cases hstage : w.stage with
    | inFlight | completed =>
      rw [hstage] at hat
      refine ⟨above_some.mpr hlt,fun hsealed=>?_⟩
      rw [hcovering hlt]
      exact hat.2 hsealed
    | named q =>
      rw [hstage] at hat
      refine ⟨above_some.mpr hlt,?_⟩
      rw [hcovering hlt]
      exact hat.2
  · have hat:=hl.held_at op g a hg ha hal
    have hlt:=h.above_open ht hat
    refine ⟨above_some.mpr hlt,fun hsealed=>?_⟩
    rw [hcovering hlt]
    exact hat.2 hsealed

theorem MarksOk.pass (ht : TablesOk d) (h : Passes d l st through recorded) :
    MarksOk (d.lineages.insert l (st.passed through recorded)) (sealsWithout d.seals l recorded)
      (d.writes.filter fun _ w => !w.isBelow l through) d.held d.sealsMade := by
  intro l' st' hst' hlive'
  rcases insert_cases hst' with ⟨hl,rfl⟩ | ⟨hl,hst'⟩
  · subst hl
    exact LineageOk.pass ht h
  · have hseals : sealsOf (sealsWithout d.seals l recorded) l'=sealsOf d.seals l':=by
      cases recorded with
      | none=>rfl
      | some s=>exact select_erase_of_not (by simpa using Ne.symm hl)
    have hother:=(ht.marks l' st' hst' hlive').congr hseals le_rfl
    exact { hother with write_at:=fun op w hw=>hother.write_at op w (get_of_filter hw) }

theorem PartsOk.pass (ht : TablesOk d) (h : Passes d l st through recorded)
    {writes : Table OpId (Write E T)} {spans : Spans}
    (hwrites : writes=d.writes.filter fun _ w => !w.isBelow l through)
    (hparts : PartsOk d.lineages d.seals spans d.sealDomains writes d.lists d.served) :
    PartsOk (d.lineages.insert l (st.passed through recorded))
      (sealsWithout d.seals l recorded) spans (domainsWithout d.sealDomains d.served l recorded)
      writes d.lists d.served := by
  have hrelives : Relives d.lineages (d.lineages.insert l (st.passed through recorded)) :=
    Relives.insert h.lineage rfl le_rfl
  have hsub:=sealsWithout_sub d.seals l recorded
  have hdomains:=domainsWithout_sub d.sealDomains d.served l recorded
  -- a write left is named to a seal that is not the one passed
  have hother : ∀ {op w q},writes.get op=some w → w.stage=.named q → w.lineage=l →
      ∀ s,recorded=some s → s.seq≠q:=by
    intro op w q hw hstage hl
    rw [hwrites,get_filter,Option.filter_eq_some_iff] at hw
    have hat:=(ht.marks l st h.lineage h.live).write_at op w hw.1 hl
    rw [hstage] at hat
    exact h.named_other ht hat (Write.isBelow_eq_false.mp hw.2 hl)
  have hp:=hrelives.parts hparts
  exact { hp with
    flushing:=fun k s n failed hs=>hp.flushing k s n failed (hsub _ _ hs)
    done_file:=fun k s ok hs=>hp.done_file k s ok (hsub _ _ hs)
    done_domain:=fun k s ok hs hstage domain part hpart =>
      hp.done_domain k s ok (hsub _ _ hs) hstage domain part (hdomains _ _ hpart)
    named_seal:=fun op w q hw hstage=>by
      obtain ⟨s,hs,hstarted⟩:=hp.named_seal op w q hw hstage
      refine ⟨s,sealsWithout_get hs fun s' hs' hk=>?_,hstarted⟩
      obtain ⟨hl,hq⟩:=SealKey.mk.inj hk
      exact hother hw hstage hl s' hs' hq.symm
    named_asked:=fun op w q st' hw hstage hst' hlive' hprovider domain hmem hserved=>by
      obtain ⟨part,hpart⟩ :=
        hp.named_asked op w q st' hw hstage hst' hlive' hprovider domain hmem hserved
      refine ⟨part,domainsWithout_get hpart fun s hs hk=>?_⟩
      exact hother hw hstage hk.1 s hs hk.2.symm
    asked_write:=fun k part st' hpart=>hp.asked_write k part st' (hdomains _ _ hpart)
    part_ok:=fun k part hpart=>hp.part_ok k part (hdomains _ _ hpart)
    failed_answered:=fun k s hs=>hp.failed_answered k s (hsub _ _ hs) }

theorem LivesOk.pass {nextFailure : ℕ} {writes : Table OpId (Write E T)}
    (h : Passes d l st through recorded)
    (hlives : LivesOk d.lineages writes d.seals d.sealDomains d.served nextFailure) :
    LivesOk (d.lineages.insert l (st.passed through recorded))
      writes (sealsWithout d.seals l recorded) (domainsWithout d.sealDomains d.served l recorded)
      d.served nextFailure := by
  have hrelives : Relives d.lineages (d.lineages.insert l (st.passed through recorded)) :=
    Relives.insert h.lineage rfl le_rfl
  have hp:=hrelives.lives hlives
  exact { hp with
    seal_lineage:=fun k s hs=>hp.seal_lineage k s (sealsWithout_sub _ _ _ _ _ hs)
    domain_seal:=fun k part hpart=>by
      obtain ⟨hserved,s,hs,hstarted⟩:=hp.domain_seal k part (domainsWithout_sub _ _ _ _ _ _ hpart)
      refine ⟨hserved,s,sealsWithout_get hs fun s' hs' hk=>?_,hstarted⟩
      obtain ⟨hl,hq⟩:=SealKey.mk.inj hk
      rw [hs',domainsWithout,forgetDomains_get,if_pos ⟨hl,hq,hserved⟩] at hpart
      cases hpart }

/-! ## The places let go -/

section Places

variable {window window' : Window} {writes : Table OpId (Write E T)}
  {held : Table OpId (HeldOp E T)} {kept : Kept E} {failures : List (Failure I)} {seals : Seals E}
  {abandoned : Table (EpochKey E) OpId} {operations : ℕ}

theorem WindowOk.unpin (h : WindowOk window writes held kept failures seals abandoned operations)
    (hs : ∀ s,recorded=some s → seals.get ⟨l,s.seq⟩=some s)
    (hunpin : window.unpin (recorded.bind Seal.pin)=.ok window') :
    WindowOk window' writes held kept failures (sealsWithout seals l recorded) abandoned
      operations := by
  cases recorded with
  | none =>
    cases hunpin
    exact h
  | some s =>
    have hget:=hs s rfl
    obtain ⟨op,hpin, -, -⟩:=h.seal_pin _ s hget
    have hrelease : window.release op .pin=.ok window':=by
      simpa [Window.unpin,hpin] using hunpin
    have hlevel:=Window.release_level hrelease
    have hother : ∀ op' k,k≠.pin → window'.level op' k=window.level op' k:=by
      intro op' k hk
      rw [hlevel op' k,if_neg fun hsame=>hk hsame.2,Nat.add_zero]
    exact {
      proper:=Window.release_proper h.proper hrelease
      size_le:=(Window.release_size_le hrelease).trans h.size_le
      held_level:=fun op' g hg=>by rw [hother _ _ (by simp),h.held_level op' g hg]
      uncovered_level:=fun op'=>by rw [hother _ _ (by simp),h.uncovered_level]
      suspect_level:=fun op'=>by rw [hother _ _ (by simp),h.suspect_level]
      pin_level:=fun op'=>by
        have hat:=hlevel op' .pin
        rw [h.pin_level,Table.count_erase _ hget,hpin] at hat
        simp only [Option.some.injEq,decide_eq_true_eq,and_true,@eq_comm _ op] at hat
        exact (Nat.add_right_cancel hat).symm
      abandoned_level:=fun op'=>by rw [hother _ _ (by simp),h.abandoned_level]
      seal_pin:=fun k s' hs'=>h.seal_pin k s' (sealsWithout_sub _ _ _ _ _ hs')
      abandoned_pin:=h.abandoned_pin }

theorem WindowOk.forgetAbandoned
    (h : WindowOk window writes held kept failures seals abandoned operations)
    (goes : EpochKey E → Bool) (hfold : (abandoned.entries.filter fun e => goes e.1).foldlM
      (fun (win : Window) e => win.release e.2 .abandoned) window=.ok window') :
    WindowOk window' writes held kept failures seals (abandoned.filter fun k _ => !goes k)
      operations := by
  have hlevel:=Window.foldRelease_level hfold
  have hother : ∀ op k,k≠.abandoned → window'.level op k=window.level op k:=by
    intro op k hk
    rw [hlevel op k,if_neg hk,Nat.add_zero]
  exact {
    proper:=Window.foldRelease_proper h.proper hfold
    size_le:=(Window.foldRelease_size_le hfold).trans h.size_le
    held_level:=fun op g hg=>by rw [hother _ _ (by simp),h.held_level op g hg]
    uncovered_level:=fun op=>by rw [hother _ _ (by simp),h.uncovered_level]
    suspect_level:=fun op=>by rw [hother _ _ (by simp),h.suspect_level]
    pin_level:=fun op=>by rw [hother _ _ (by simp),h.pin_level]
    abandoned_level:=fun op=>by
      have hat:=hlevel op .abandoned
      rw [h.abandoned_level,if_pos rfl] at hat
      have hsplit : (abandoned.count fun _ v=>decide (v=op)) =
          ((abandoned.filter fun k _=>!goes k).count fun _ v=>decide (v=op)) +
            ((abandoned.entries.filter fun e=>goes e.1).map Prod.snd).count op:=by
        unfold Table.count Table.filter
        rw [count_eq_countP,countP_map,countP_filter,countP_filter]
        rw [countP_eq_countP_filter_add _ _ fun e=>!goes e.1,countP_filter,
          countP_filter]
        congr 1
        refine countP_congr fun e _=>?_
        simp [Function.comp]
      omega
    seal_pin:=h.seal_pin
    abandoned_pin:=fun k op hk=>h.abandoned_pin k op (get_of_filter hk) }

end Places

/-! ## What waited for the mark -/

section Ready

variable {writes : Table OpId (Write E T)} {held : Table OpId (HeldOp E T)}

def HeldOp.readied (l : Key) (through : E) (h : HeldOp E T) : HeldOp E T :=
  if waitsWithin l through h then { h with ready := true } else h

theorem HeldOp.readied_eq (h : HeldOp E T) :
    h.readied l through={ h with ready := (h.readied l through).ready } := by
  unfold readied
  split_ifs <;> rfl

theorem HeldOp.readied_waits {h : HeldOp E T} (hready : (h.readied l through).ready=false) :
    h.ready=false ∧ waitsWithin l through h=false := by
  unfold readied at hready
  split_ifs at hready with hwaits
  exact ⟨hready,by simpa using hwaits⟩

theorem readied_back {op : OpId} {g' : HeldOp E T}
    (h : (held.map fun _ g => g.readied l through).get op=some g') :
    ∃ g,held.get op=some g ∧ g'=g.readied l through ∧ g'.op=g.op ∧ g'.write=g.write ∧
      g'.gate=g.gate := by
  rw [get_map] at h
  obtain ⟨g,hg,rfl⟩:=Option.map_eq_some_iff.mp h
  refine ⟨g,hg,rfl,?_⟩
  rw [HeldOp.readied_eq]
  exact ⟨rfl,rfl,rfl⟩

theorem CountsOk.ready {kept : Kept E} {inFlightByEpoch heldByEpoch : Counts E}
    {gated : Table (GatedKey E) (Gate E)} (hkeys : KeysOk writes held seals kept)
    (h : CountsOk writes held inFlightByEpoch heldByEpoch gated) :
    CountsOk writes (held.map fun _ g => g.readied l through) inFlightByEpoch heldByEpoch
      (gated.filter fun k _ => decide (k ∉
        (held.vals.filter (waitsWithin l through)).filterMap fun h =>
          h.write.map fun w => (⟨w.lineage,w.epoch,h.op⟩ : GatedKey E))) := { h with
  held_count:=fun l' e=>by
    rw [h.held_count,count_map]
    refine count_congr fun op g _=>?_
    rw [HeldOp.readied_eq]
    rfl
  gated_iff:=fun k gate=>by
    have hreleased : k ∈ ((held.vals.filter (waitsWithin l through)).filterMap fun h =>
        h.write.map fun w=>(⟨w.lineage,w.epoch,h.op⟩ : GatedKey E)) ↔
        ∃ g a,held.get k.op=some g ∧ waitsWithin l through g=true ∧
          g.write=some a ∧ a.lineage=k.lineage ∧ a.epoch=k.epoch:=by
      simp only [mem_filterMap,mem_filter,mem_vals,Option.map_eq_some_iff]
      constructor
      · rintro ⟨g,⟨⟨op,hg⟩,hwaits⟩,a,ha,rfl⟩
        exact ⟨g,a,by rw [hkeys.held_key op g hg]; exact hg,hwaits,ha,rfl,rfl⟩
      · rintro ⟨g,a,hg,hwaits,ha,hl,he⟩
        refine ⟨g,⟨⟨k.op,hg⟩,hwaits⟩,a,ha,?_⟩
        rw [hl,he,hkeys.held_key k.op g hg]
    rw [get_filter,Option.filter_eq_some_iff,h.gated_iff]
    simp only [decide_eq_true_eq]
    rw [hreleased]
    constructor
    · rintro ⟨⟨g,a,hg,hready,ha,hl,he,hgate⟩,hnot⟩
      have hwaits : waitsWithin l through g=false:=by
        by_contra hwaits
        exact hnot ⟨g,a,hg,by simpa using hwaits,ha,hl,he⟩
      refine ⟨g,a,?_,hready,ha,hl,he,hgate⟩
      rw [get_map,hg,Option.map_some,HeldOp.readied,if_neg (by simp [hwaits])]
    · rintro ⟨g',a,hg',hready,ha,hl,he,hgate⟩
      obtain ⟨g,hg,rfl, -,hwrite,hgate'⟩:=readied_back hg'
      obtain ⟨hready',hwaits⟩:=HeldOp.readied_waits hready
      refine ⟨⟨g,a,hg,hready',hwrite ▸ ha,hl,he,hgate' ▸ hgate⟩,?_⟩
      rintro ⟨g₂,a₂,hg₂,hwaits₂, -⟩
      rw [hg] at hg₂
      cases hg₂
      rw [hwaits] at hwaits₂
      cases hwaits₂ }

theorem TablesOk.ready (h : TablesOk d) : TablesOk { d with
      held := d.held.map fun _ g => g.readied l through
      gated := d.gated.filter fun k _ => decide (k ∉
        (d.held.vals.filter (waitsWithin l through)).filterMap fun h =>
          h.write.map fun w => (⟨w.lineage,w.epoch,h.op⟩ : GatedKey E)) } :=
  { h with
    keys :=
      { h.keys with
        held_key:=fun op g' hg'=>by
          obtain ⟨g,hg, -,hop, -, -⟩:=readied_back hg'
          rw [hop]
          exact h.keys.held_key op g hg
        held_write_key:=fun op g' a hg' ha=>by
          obtain ⟨g,hg, -, -,hwrite, -⟩:=readied_back hg'
          exact h.keys.held_write_key op g a hg (hwrite ▸ ha)
        write_not_held:=fun op w hw=>by
          rw [get_map,h.keys.write_not_held op w hw]
          rfl
        kept_not_held:=fun op g hg=>by
          rw [get_map,h.keys.kept_not_held op g hg]
          rfl }
    clocks :=
      { h.clocks with
        held_clock:=fun op g' a hg' ha=>by
          obtain ⟨g,hg, -, -,hwrite, -⟩:=readied_back hg'
          exact h.clocks.held_clock op g a hg (hwrite ▸ ha) }
    counts:=h.counts.ready h.keys
    marks:=fun l' st' hst' hlive' =>
      { h.marks l' st' hst' hlive' with
        held_at:=fun op g' a hg' ha hl=>by
          obtain ⟨g,hg, -, -,hwrite, -⟩:=readied_back hg'
          exact (h.marks l' st' hst' hlive').held_at op g a hg (hwrite ▸ ha) hl }
    files :=
      { h.files with
        held_routed:=fun op g' a hg' ha=>by
          obtain ⟨g,hg, -, -,hwrite, -⟩:=readied_back hg'
          exact h.files.held_routed op g a hg (hwrite ▸ ha)
        same_held:=fun op w op' g' a hw hg' ha=>by
          obtain ⟨g,hg, -, -,hwrite, -⟩:=readied_back hg'
          exact h.files.same_held op w op' g a hw hg (hwrite ▸ ha)
        held_same:=fun op g₁' a op' g₂' a' hg₁' ha hg₂' ha'=>by
          obtain ⟨g₁,hg₁, -, -,hwrite₁, -⟩:=readied_back hg₁'
          obtain ⟨g₂,hg₂, -, -,hwrite₂, -⟩:=readied_back hg₂'
          exact h.files.held_same op g₁ a op' g₂ a' hg₁ (hwrite₁ ▸ ha) hg₂ (hwrite₂ ▸ ha') } }

theorem WindowOk.ready {window : Window} {kept : Kept E} {failures : List (Failure I)}
    {abandoned : Table (EpochKey E) OpId} {operations : ℕ}
    (h : WindowOk window writes held kept failures seals abandoned operations) :
    WindowOk window writes (held.map fun _ g => g.readied l through) kept failures seals abandoned
      operations := { h with
  held_level:=fun op g' hg'=>by
    obtain ⟨g,hg, -⟩:=readied_back hg'
    exact h.held_level op g hg
  seal_pin:=fun k s hs=>by
    obtain ⟨op,hpin,hwrite,hheld⟩:=h.seal_pin k s hs
    refine ⟨op,hpin,hwrite,fun g' hg'=>?_⟩
    obtain ⟨g,hg, -, -,hsame, -⟩:=readied_back hg'
    obtain ⟨a,ha,hrest⟩:=hheld g hg
    exact ⟨a,hsame.trans ha,hrest⟩
  abandoned_pin:=fun k op hk=>by
    obtain ⟨hheld,hrest⟩:=h.abandoned_pin k op hk
    refine ⟨?_,hrest⟩
    rw [get_map,hheld]
    rfl }

end Ready

theorem EndsOk.pass {writes : Table OpId (Write E T)} {spans : Spans}
    (hends : EndsOk d.lineages writes d.held d.seals spans d.abandoned)
    (h : Passes d l st through recorded) :
    EndsOk (d.lineages.insert l (st.passed through recorded)) writes
      (d.held.map fun _ g => g.readied l through) (sealsWithout d.seals l recorded) spans
      (d.abandoned.filter fun k _ =>
        !(decide (k.lineage=l) && (some through).all fun t => decide (k.epoch ≤ t))) := by
  have hrelives : Relives d.lineages (d.lineages.insert l (st.passed through recorded)) :=
    Relives.insert h.lineage rfl le_rfl
  -- an epoch above the old mark, and above the seal passed if it is of `l`, is above the new mark
  have habove : ∀ {l' st'} {e : E},d.lineages.get l'=some st' → st'.ended=false →
      above st'.durableThrough e=true → (l'=l → through < e) →
      ∃ st'',(d.lineages.insert l (st.passed through recorded)).get l'=some st'' ∧
        st''.ended=false ∧ above st''.durableThrough e=true:=by
    intro l' st' e hst' hlive' habove hlt
    rw [get_insert]
    split_ifs with hl
    · exact ⟨_,rfl,h.live,above_some.mpr (hlt hl)⟩
    · exact ⟨st',hst',hlive',habove⟩
  exact {
    ended_write:=fun op w st' hw hst' hended=>by
      obtain ⟨st₀,hst₀,heq⟩:=hrelives.back _ st' hst'
      exact hends.ended_write op w st₀ hw hst₀ (heq.symm.trans hended)
    ended_seal:=fun k s st' hs hst' hended=>by
      obtain ⟨st₀,hst₀,heq⟩:=hrelives.back _ st' hst'
      exact hends.ended_seal k s st₀ (sealsWithout_sub _ _ _ _ _ hs) hst₀ (heq.symm.trans hended)
    held_lineage:=fun op g' a hg' ha=>by
      obtain ⟨g,hg, -, -,hwrite, -⟩:=readied_back hg'
      obtain ⟨st',hst',hlive'⟩:=hends.held_lineage op g a hg (hwrite ▸ ha)
      obtain ⟨st'',hst'',heq, -⟩:=hrelives.forth _ st' hst'
      exact ⟨st'',hst'',heq.trans hlive'⟩
    gate_lineage:=fun op g' hg' hready=>by
      obtain ⟨g,hg,rfl, -, -,hgate⟩:=readied_back hg'
      obtain ⟨hready',hwaits⟩:=HeldOp.readied_waits hready
      obtain ⟨st',hst',hlive',hmark⟩:=hends.gate_lineage op g hg hready'
      rw [hgate]
      refine habove hst' hlive' hmark fun hl=>?_
      simpa [waitsWithin,hready',hl] using hwaits
    abandoned_lineage:=fun k op hk=>by
      rw [get_filter,Option.filter_eq_some_iff] at hk
      obtain ⟨st',hst',hlive',hmark⟩:=hends.abandoned_lineage k op hk.1
      refine habove hst' hlive' hmark fun hl=>?_
      simpa [hl] using hk.2 }

theorem Durability.passSeal_ok (h : passSeal c l st through recorded=.ok c') :
    ∃ window d₂ d₃, c.core.window.unpin (recorded.bind Seal.pin)=.ok window ∧
      (c.core.taken l st through recorded window).letGo (fun w => w.isBelow l through)=.ok d₂ ∧
      d₂.forgetAbandoned l (some through)=.ok d₃ ∧ c'=releaseThrough
        { core := d₃,due := { c.due with events := c.due.events++[.durable l through] } }
        l through := by
  unfold passSeal at h
  simp only [bind_eq_ok] at h
  obtain ⟨d₁,htake,d₂,hgo,d₃,hforget,h⟩:=h
  cases h
  obtain ⟨window,hunpin,rfl⟩:=takeSeal_ok htake
  exact ⟨window,d₂,d₃,hunpin,hgo,hforget,rfl⟩

theorem Durability.passSeal_eq (h : passSeal c l st through recorded=.ok c') :
    ∃ spans taken window kept abandoned,c'=releaseThrough
      { core := { c.core.taken l st through recorded taken with
          writes := c.core.writes.filter fun _ w => !w.isBelow l through
          spans,window,kept,abandoned }
        due := { c.due with events := c.due.events++[.durable l through] } } l through := by
  obtain ⟨taken,d₂,d₃, -,hgo,hforget,rfl⟩:=passSeal_ok h
  obtain ⟨spans,window₂,kept,rfl⟩:=letGo_ok hgo
  obtain ⟨window, -,rfl⟩:=forgetAbandoned_ok hforget
  exact ⟨spans,taken,window,kept,_,rfl⟩

theorem Inv.passSeal (h : Inv c.core) (hpasses : Passes c.core l st through recorded)
    (hok : passSeal c l st through recorded=.ok c') : Inv c'.core := by
  obtain ⟨window,d₂,d₃,hunpin,hgo,hforget,rfl⟩:=passSeal_ok hok
  have ht:=h.toTablesOk
  have hrelives : Relives c.core.lineages
      (c.core.lineages.insert l (st.passed through recorded)) :=
    Relives.insert hpasses.lineage rfl le_rfl
  -- the writes left at or below go, as read beside the queue as it was
  have htaken : InvBeside c.core.lineages c.core.seals c.core.sealDomains
      (c.core.taken l st through recorded window) :=
    ⟨{ ht with },h.window.unpin (fun s hs=>(hpasses.recorded_get ht.keys hs).1) hunpin⟩
  have hbeside : InvBeside c.core.lineages c.core.seals c.core.sealDomains d₂:=by
    refine htaken.letGo (fun op w hw hbelow=>?_) hgo
    simp only [Write.isBelow,Bool.and_eq_true,decide_eq_true_eq] at hbelow
    exact hpasses.leaves ht hw hbelow.1 hbelow.2
  have hcover : CoverOk c.core.lineages d₂.spans c.core.sealDomains d₂.writes c.core.lists
      c.core.served :=
    letGo_spans
      (fun writes spans=>CoverOk c.core.lineages spans c.core.sealDomains writes c.core.lists
        c.core.served)
      (fun _ _ _ _ _ _ hc _ _ _ hleave=>hc.letGo hleave) (by exact h.cover) (by exact h.spans) hgo
  have hends : EndsOk c.core.lineages d₂.writes c.core.held c.core.seals d₂.spans
      c.core.abandoned :=
    letGo_spans
      (fun writes spans=>EndsOk c.core.lineages writes c.core.held c.core.seals spans
        c.core.abandoned)
      (fun _ _ _ _ _ _ he hs hw _ hleave=>he.letGo hs hw hleave) (by exact h.ends)
      (by exact h.spans) hgo
  obtain ⟨spans,window₂,kept,rfl⟩:=letGo_ok hgo
  obtain ⟨window₃,hfold,rfl⟩:=forgetAbandoned_ok hforget
  have htables : TablesOk { c.core.taken l st through recorded window₃ with
      writes:=c.core.writes.filter fun _ w=>!w.isBelow l through
      spans:=spans
      kept:=kept
      abandoned:=c.core.abandoned.filter fun k _ =>
        !(decide (k.lineage=l) && (some through).all fun t=>decide (k.epoch ≤ t)) } :=
    { hbeside.tables with
      keys:={ hbeside.tables.keys with
        seal_key:=fun k s hs=>ht.keys.seal_key k s (sealsWithout_sub _ _ _ _ _ hs) }
      clocks:=hrelives.clocks hbeside.tables.clocks
      lives:=hbeside.tables.lives.pass hpasses
      marks:=MarksOk.pass ht hpasses
      parts:=hbeside.tables.parts.pass ht hpasses rfl
      files:=hrelives.files hbeside.tables.files
      suspects:=hrelives.suspects hbeside.tables.suspects }
  refine { htables.ready with cover:=?_,ends:=?_,window:=?_ }
  · refine hrelives.cover fun op w q st' hw hstage hst' hlive' hcovered=>?_
    refine hcover op w q st' hw hstage hst' hlive' ⟨hcovered.1,fun domain hmem hserved=>?_⟩
    obtain ⟨part,hpart,hok⟩:=hcovered.2 domain hmem hserved
    exact ⟨part,domainsWithout_sub _ _ _ _ _ _ hpart,hok⟩
  · exact hends.pass hpasses
  · refine WindowOk.ready (hbeside.window.forgetAbandoned
      (fun k=>decide (k.lineage=l) && (some through).all fun t=>decide (k.epoch ≤ t)) ?_)
    exact hfold

end WindowsThreadpoolSys.DurableIoring
