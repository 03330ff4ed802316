import WindowsThreadpoolSys.DurableIoring.Proof.Reseal

/-! A seal is made above the seal point. One that covers a write is recorded and pins the write's place;
one that covers none goes in the empty slot at the end of the queue, over the one there if any. -/
namespace WindowsThreadpoolSys.DurableIoring
open Library Durability List Table Option DurableIoring.Empty

variable {E T I : Type} [LinearOrder E] {d d' : Durability E T I} {l : Key}
  {st : LineageState E} {through : E}

/-! ## The write a seal pins -/

theorem pinnedBy_none (hst : d.lineages.get l=some st) (hpin : d.pinnedBy l through=none) :
    (∀ op w,d.writes.get op=some w → w.lineage=l → above st.sealedThrough w.epoch=true →
        through < w.epoch) ∧ ∀ op g a,d.held.get op=some g → g.write=some a → a.lineage=l →
        above st.sealedThrough a.epoch=true → through < a.epoch := by
  unfold pinnedBy at hpin
  simp only [hst] at hpin
  split at hpin
  · cases hpin
  · cases hpin
  · next hwritten =>
    rw [map_eq_none_iff,List.find?_eq_none] at hwritten hpin
    refine ⟨fun op w hw hl habove=>?_,fun op g a hg ha hl habove=>?_⟩
    · simpa [hl,habove] using hwritten (op,w) (mem_entries.mpr hw)
    · simpa [ha,hl,habove] using hpin (op,g) (mem_entries.mpr hg)

variable {op : OpId}

theorem pinnedBy_some (hst : d.lineages.get l=some st) (hpin : d.pinnedBy l through=some op) :
    (∃ w,d.writes.get op=some w ∧ w.lineage=l ∧ above st.sealedThrough w.epoch=true ∧
        w.epoch ≤ through) ∨ ∃ g a,d.held.get op=some g ∧ g.write=some a ∧ a.lineage=l ∧
        above st.sealedThrough a.epoch=true ∧ a.epoch ≤ through := by
  have hwrite : ∀ {op},((d.writes.entries.find? fun e =>
      decide (e.2.lineage=l) && above st.sealedThrough e.2.epoch &&
        decide (e.2.epoch ≤ through)).map Prod.fst)=some op →
      ∃ w,d.writes.get op=some w ∧ w.lineage=l ∧ above st.sealedThrough w.epoch=true ∧
        w.epoch ≤ through:=by
    intro op hfind
    obtain ⟨⟨op',w⟩,hfound,rfl⟩:=map_eq_some_iff.mp hfind
    have hsome:=List.find?_some hfound
    simp only [Bool.and_eq_true,decide_eq_true_eq] at hsome
    exact ⟨w,mem_entries.mp (List.mem_of_find?_eq_some hfound),hsome.1.1,hsome.1.2,hsome.2⟩
  have hheld : ∀ {op},((d.held.entries.find? fun e=>e.2.write.any fun w =>
      decide (w.lineage=l) && above st.sealedThrough w.epoch &&
        decide (w.epoch ≤ through)).map Prod.fst)=some op →
      ∃ g a,d.held.get op=some g ∧ g.write=some a ∧ a.lineage=l ∧
        above st.sealedThrough a.epoch=true ∧ a.epoch ≤ through:=by
    intro op hfind
    obtain ⟨⟨op',g⟩,hfound,rfl⟩:=map_eq_some_iff.mp hfind
    have hsome:=List.find?_some hfound
    simp only [Option.any_eq_true,Bool.and_eq_true,decide_eq_true_eq] at hsome
    obtain ⟨a,ha,hsome⟩:=hsome
    exact ⟨g,a,mem_entries.mp (List.mem_of_find?_eq_some hfound),ha,hsome.1.1,hsome.1.2,hsome.2⟩
  unfold pinnedBy at hpin
  simp only [hst] at hpin
  split at hpin
  · next a b ha hb =>
    cases hpin
    rcases min_choice a b with hmin | hmin
    · rw [hmin]
      exact .inl (hwrite ha)
    · rw [hmin]
      exact .inr (hheld hb)
  · next a ha hb =>
    cases hpin
    exact .inl (hwrite ha)
  · exact .inr (hheld hpin)

/-! ## A recorded seal -/

def LineageState.sealedTo (st : LineageState E) (through : E) : LineageState E :=
  { st with sealedThrough := some through, nextSeal := st.nextSeal + 1 }

def Seal.waitingFor (seq made : ℕ) (through : E) (pin : OpId) : Seal E :=
  { seq := seq, made := made, through := through, stage := .waiting, answered := false,
    trailing := none, pin := some pin }

abbrev Durability.sealing (d : Durability E T I) (l : Key) (st : LineageState E) (through : E) :
    Durability E T I :=
  { d with lineages := d.lineages.insert l (st.sealedTo through), sealsMade := d.sealsMade + 1 }

abbrev Durability.pinning (d : Durability E T I) (l : Key) (st : LineageState E) (through : E)
    (op : OpId) (window : Window) : Durability E T I :=
  { d.sealing l st through with
    seals := d.seals.insert ⟨l, st.nextSeal⟩ (Seal.waitingFor st.nextSeal d.sealsMade through op)
    window := window }

theorem Inv.seal_fresh (h : Inv d) (hst : d.lineages.get l=some st) :
    d.seals.get ⟨l,st.nextSeal⟩=none := by
  cases hs : d.seals.get ⟨l,st.nextSeal⟩ with
  | none=>rfl
  | some s =>
    obtain ⟨st',hst',hlt⟩:=h.lives.seal_lineage _ s hs
    rw [hst] at hst'
    cases hst'
    exact absurd hlt (lt_irrefl _)

theorem Inv.sealsOf_insert (h : Inv d) (hst : d.lineages.get l=some st) (s : Seal E) :
    sealsOf (d.seals.insert ⟨l,st.nextSeal⟩ s) l=sealsOf d.seals l++[s] := by
  unfold sealsOf
  refine select_insert_last s (by simp) (fun k v hk hv=>?_)
  have hk : k.lineage=l:=by simpa using hk
  obtain ⟨st',hst',hlt⟩:=h.lives.seal_lineage k v hv
  rw [hk,hst] at hst'
  cases hst'
  exact SealKey.lt_iff.mpr (.inr ⟨hk,hlt⟩)

theorem OpenAt.push {xs : List (Slot E)} {durable sealed : Option E} {s : Seal E} {epoch : E}
    (h : OpenAt xs durable sealed epoch) (hq : QueueOk xs durable sealed)
    (hwaiting : s.stage=.waiting) : OpenAt (xs++[.recorded s]) durable (some s.through) epoch := by
  refine ⟨h.1,fun hnot=>?_⟩
  by_cases hsealed : above sealed epoch=true
  · have hle : epoch ≤ s.through:=by simpa using hnot
    exact ⟨s,covering_push hq hsealed hle,hwaiting⟩
  · obtain ⟨s',hs',hwaiting'⟩:=h.2 hsealed
    exact ⟨s',covering_append hs' _,hwaiting'⟩

variable {seals : Seals E} {writes : Table OpId (Write E T)} {held : Table OpId (HeldOp E T)}

theorem LineageOk.record {seals' : Seals E} {sealsMade : ℕ}
    (h : LineageOk l st seals writes held sealsMade)
    (habove : above st.sealedThrough through=true) (hseals : sealsOf seals' l =
      sealsOf seals l++[Seal.waitingFor st.nextSeal sealsMade through op]) :
    LineageOk l (st.sealedTo through) seals' writes held (sealsMade+1) := by
  have hslots : slots st.leading (sealsOf seals' l)=slots st.leading (sealsOf seals l) ++
      [.recorded (Seal.waitingFor st.nextSeal sealsMade through op)]:=by
    rw [hseals,slots_append]
    rfl
  have hopen : ∀ epoch,OpenAt (slots st.leading (sealsOf seals l)) st.durableThrough
      st.sealedThrough epoch → OpenAt (slots st.leading (sealsOf seals' l)) st.durableThrough
        (some through) epoch:=fun epoch hepoch=>by
    rw [hslots]
    exact hepoch.push h.queue rfl
  refine ⟨?_,fun x hx=>?_,fun op' w hw hl=>?_,fun op' g a hg ha hl=>?_⟩
  · change QueueOk (slots st.leading (sealsOf seals' l)) st.durableThrough (some through)
    rw [hslots]
    exact h.queue.push habove (fun y hy=>h.made_lt y hy) rfl
  · change x ∈ slots st.leading (sealsOf seals' l) at hx
    rw [hslots] at hx
    rcases mem_append.mp hx with hx | hx
    · exact (h.made_lt x hx).trans (Nat.lt_succ_self _)
    · rw [mem_singleton.mp hx]
      exact Nat.lt_succ_self _
  · have hat:=h.write_at op' w hw hl
    cases hstage : w.stage with
    | inFlight | completed =>
      rw [hstage] at hat
      exact hopen w.epoch hat
    | named q =>
      rw [hstage] at hat
      obtain ⟨hmark,s,hs,hseq⟩:=hat
      refine ⟨hmark,s,?_,hseq⟩
      change covering (slots st.leading (sealsOf seals' l)) w.epoch=_
      rw [hslots]
      exact covering_append hs _
  · exact hopen a.epoch (h.held_at op' g a hg ha hl)

theorem Inv.makeRecorded {window : Window} (h : Inv d) (hst : d.lineages.get l=some st)
    (hlive : st.ended=false) (habove : above st.sealedThrough through=true)
    (hpin : d.pinnedBy l through=some op)
    (hhold : d.window.hold d.capacity.operations op .pin=.ok window) :
    Inv (d.pinning l st through op window) := by
  have hfresh:=h.seal_fresh hst
  have hrelives : Relives d.lineages (d.lineages.insert l (st.sealedTo through)) :=
    .insert hst rfl (Nat.le_succ _)
  have hlevel:=Window.hold_level hhold
  have hother : ∀ op' k,k≠.pin → window.level op' k=d.window.level op' k:=by
    intro op' k hk
    rw [hlevel op' k,if_neg fun hsame=>hk hsame.2,Nat.add_zero]
  have hstays : ∀ k s,d.seals.get k=some s → (d.seals.insert ⟨l,st.nextSeal⟩
      (Seal.waitingFor st.nextSeal d.sealsMade through op)).get k=some s:=by
    intro k s hs
    rw [get_insert_of_ne _ _,hs]
    rintro rfl
    rw [hfresh] at hs
    cases hs
  refine { h with
    keys:={ h.keys with seal_key:=fun k s hs=>?_ }
    clocks:=hrelives.clocks h.clocks
    lives:={ hrelives.lives h.lives with
      seal_lineage:=fun k s hs=>?_
      domain_seal:=fun k part hpart=>?_ }
    marks:=fun l' st' hst' hlive'=>?_
    parts:={ hrelives.parts h.parts with
      flushing:=fun k s n failed hs hstage=>?_
      done_file:=fun k s ok hs hstage=>?_
      done_domain:=fun k s ok hs hstage=>?_
      named_seal:=fun op' w q hw hq=>?_
      failed_answered:=fun k s hs hfailed=>?_ }
    files:=hrelives.files h.files
    suspects:=hrelives.suspects h.suspects
    cover:=hrelives.cover h.cover
    ends:={ hrelives.ends (Relives.durable_insert _ hst rfl) h.ends with
      ended_seal:=fun k s st' hs hst' hended=>?_ }
    window :=
      { proper:=Window.hold_proper h.window.proper hhold
        size_le:=Window.hold_size_le h.window.size_le hhold
        held_level:=fun op' g hg=>by rw [hother _ _ (by simp),h.window.held_level op' g hg]
        uncovered_level:=fun op'=>by rw [hother _ _ (by simp),h.window.uncovered_level]
        suspect_level:=fun op'=>by rw [hother _ _ (by simp),h.window.suspect_level]
        pin_level:=fun op'=>?_
        abandoned_level:=fun op'=>by rw [hother _ _ (by simp),h.window.abandoned_level]
        seal_pin:=fun k s hs=>?_
        abandoned_pin:=h.window.abandoned_pin } }
  · rcases of_insert hs with ⟨rfl,rfl⟩ | hs
    · rfl
    · exact h.keys.seal_key k s hs
  · rcases of_insert hs with ⟨rfl, -⟩ | hs
    · exact ⟨_,get_insert_self _ _ _,Nat.lt_succ_self _⟩
    · exact (hrelives.lives h.lives).seal_lineage k s hs
  · obtain ⟨hserved,s,hs,hstarted⟩:=h.lives.domain_seal k part hpart
    exact ⟨hserved,s,hstays _ s hs,hstarted⟩
  · rcases insert_cases hst' with ⟨hl,rfl⟩ | ⟨hl,hst'⟩
    · subst hl
      exact (h.marks l' st hst hlive).record habove (h.sealsOf_insert hst _)
    · refine (h.marks l' st' hst' hlive').congr ?_ (Nat.le_succ _)
      exact select_insert_of_not _ (by simpa using Ne.symm hl)
  · rcases of_insert hs with ⟨-,rfl⟩ | hs
    · cases hstage
    · exact h.parts.flushing k s n failed hs hstage
  · rcases of_insert hs with ⟨-,rfl⟩ | hs
    · cases hstage
    · exact h.parts.done_file k s ok hs hstage
  · rcases of_insert hs with ⟨-,rfl⟩ | hs
    · cases hstage
    · exact h.parts.done_domain k s ok hs hstage
  · obtain ⟨s,hs,hstarted⟩:=h.parts.named_seal op' w q hw hq
    exact ⟨s,hstays _ s hs,hstarted⟩
  · rcases of_insert hs with ⟨-,rfl⟩ | hs
    · cases hfailed
    · exact h.parts.failed_answered k s hs hfailed
  · rcases of_insert hs with ⟨rfl, -⟩ | hs
    · rw [get_insert_self] at hst'
      cases hst'
      change st.ended=true at hended
      rw [hlive] at hended
      cases hended
    · obtain ⟨st₀,hst₀,heq⟩:=hrelives.back _ st' hst'
      exact h.ends.ended_seal k s st₀ hs hst₀ (heq.symm.trans hended)
  · rw [hlevel,h.window.pin_level,Table.count_insert _ _ hfresh]
    simp [Seal.waitingFor,@eq_comm _ op']
  · rcases of_insert hs with ⟨rfl,rfl⟩ | hs
    · refine ⟨op,rfl,?_⟩
      rcases pinnedBy_some hst hpin with ⟨w,hw,hl, -,hle⟩ | ⟨g,a,hg,ha,hl, -,hle⟩
      · refine ⟨fun w' hw'=>?_,fun g hg=>?_⟩
        · rw [hw] at hw'
          cases hw'
          exact ⟨hl,hle⟩
        · rw [h.keys.write_not_held op w hw] at hg
          cases hg
      · refine ⟨fun w hw=>?_,fun g' hg'=>?_⟩
        · rw [h.keys.write_not_held op w hw] at hg
          cases hg
        · rw [hg] at hg'
          cases hg'
          exact ⟨a,ha,hl,hle⟩
    · exact h.window.seal_pin k s hs

/-! ## An empty seal -/

def SameStage (s s' : Seal E) : Prop := s'.stage = s.stage

theorem LineageOk.recordEmpty {st' : LineageState E} {seals' : Seals E} {sealsMade : ℕ}
    (h : LineageOk l st seals writes held sealsMade) (base base' : List (Slot E))
    (e₀ : Option (Empty E)) (e : Empty E)
    (hslots : slots st.leading (sealsOf seals l)=base++e₀.toList.map .empty)
    (hslots' : slots st'.leading (sealsOf seals' l)=base'++[.empty e])
    (hmoves : List.Forall₂ (Slot.Moves SameStage) base base')
    (hkeep : List.Forall₂ (fun x y : Slot E => (y.Waits → x.Waits) ∧ (x.Unstarted → y.Unstarted))
      base base') (hdurable : st'.durableThrough=st.durableThrough)
    (hsealed : st'.sealedThrough=some e.through)
    (habove : above st.sealedThrough e.through=true) (hmade : e.made=sealsMade)
    (hfinished : e.finished=false) (hwrites : ∀ op w,writes.get op=some w → w.lineage=l →
      above st.sealedThrough w.epoch=true → e.through < w.epoch)
    (hheld : ∀ op g a,held.get op=some g → g.write=some a → a.lineage=l →
      above st.sealedThrough a.epoch=true → e.through < a.epoch) :
    LineageOk l st' seals' writes held (sealsMade+1) := by
  have hqueue:=h.queue
  rw [hslots] at hqueue
  obtain ⟨sealed₀,hq,hsub⟩:=hqueue.drop_empty
  have hbase : ∀ y ∈ base',y.made < sealsMade:=by
    intro y hy
    obtain ⟨x,hx,hxy⟩:=exists_moved hmoves hy
    rw [hxy.made_eq]
    refine h.made_lt x ?_
    rw [hslots]
    exact mem_append_left _ hx
  have hrecorded : ∀ epoch s,covering (slots st.leading (sealsOf seals l)) epoch =
      some (.recorded s) → ∃ s',covering (slots st'.leading (sealsOf seals' l)) epoch =
        some (.recorded s') ∧ SealMoves s s' ∧ s'.stage=s.stage:=by
    intro epoch s hs
    rw [hslots] at hs
    obtain ⟨s',hs',hmove,hstage⟩ :=
      covering_recorded (covering_drop_empty hs ▸ covering_moves epoch hmoves)
    rw [hslots']
    exact ⟨s',covering_append hs' _,hmove,hstage⟩
  have hopen : ∀ epoch,(above st.sealedThrough epoch=true → e.through < epoch) →
      OpenAt (slots st.leading (sealsOf seals l)) st.durableThrough st.sealedThrough epoch →
      OpenAt (slots st'.leading (sealsOf seals' l)) st'.durableThrough st'.sealedThrough epoch:=by
    rintro epoch hfree ⟨hmark,hcovering⟩
    rw [OpenAt,hdurable,hsealed]
    refine ⟨hmark,fun hnot=>?_⟩
    have hnot' : ¬above st.sealedThrough epoch=true:=fun hab=>hnot (above_some.mpr (hfree hab))
    obtain ⟨s,hs,hwaiting⟩:=hcovering hnot'
    obtain ⟨s',hs', -,hstage⟩:=hrecorded epoch s hs
    exact ⟨s',hs',hstage.trans hwaiting⟩
  refine ⟨?_,fun x hx=>?_,fun op w hw hl=>?_,fun op g a hg ha hl=>?_⟩
  · rw [hslots',hdurable,hsealed]
    refine (hq.moves hmoves (started_moves hq.started hkeep)).push (x:=.empty e)
      (hsub _ habove) (fun y hy=>?_) hfinished
    change y.made < e.made
    rw [hmade]
    exact hbase y hy
  · rw [hslots'] at hx
    rcases mem_append.mp hx with hx | hx
    · exact (hbase x hx).trans (Nat.lt_succ_self _)
    · rw [mem_singleton.mp hx]
      change e.made < sealsMade+1
      rw [hmade]
      exact Nat.lt_succ_self _
  · have hat:=h.write_at op w hw hl
    have hfree:=hwrites op w hw hl
    cases hstage : w.stage with
    | inFlight | completed =>
      rw [hstage] at hat
      exact hopen w.epoch hfree hat
    | named q =>
      rw [hstage] at hat
      obtain ⟨hmark,s,hs,hseq,hstarted⟩:=hat
      obtain ⟨s',hs',hmove,hsame⟩:=hrecorded w.epoch s hs
      exact ⟨hdurable ▸ hmark,s',hs',hmove.seq.trans hseq,hsame ▸ hstarted⟩
  · exact hopen a.epoch (hheld op g a hg ha hl) (h.held_at op g a hg ha hl)

theorem recordEmpty_core {c : Change E T I} {st : LineageState E} (e : Empty E)
    (hst : c.core.lineages.get l=some st) : (∃ s,(sealsOf c.core.seals l).getLast? = some s ∧
        (recordEmpty c l e).core = { c.core with
            seals := c.core.seals.insert ⟨l,s.seq⟩ { s with trailing := some e } }) ∨
      (sealsOf c.core.seals l=[] ∧ (recordEmpty c l e).core = { c.core with
            lineages := c.core.lineages.insert l { st with leading := some e } }) := by
  unfold recordEmpty
  simp only [hst]
  cases hlast : (sealsOf c.core.seals l).getLast? with
  | some s=>exact .inl ⟨s,rfl,rfl⟩
  | none=>exact .inr ⟨List.getLast?_eq_none_iff.mp hlast,rfl⟩

omit [LinearOrder E] in
theorem KeysOk.sealsOf_setLast {kept : Kept E} (h : KeysOk writes held seals kept)
    {init : List (Seal E)} {s : Seal E} (s' : Seal E) (hlast : sealsOf seals l=init++[s]) :
    sealsOf (seals.insert ⟨l,s.seq⟩ s') l=init++[s'] := by
  have hs : seals.get ⟨l,s.seq⟩=some s:=h.mem_sealsOf.mp (by rw [hlast]; simp)
  have hsorted:=h.sealsOf_sorted l
  rw [hlast,pairwise_append] at hsorted
  rw [insert_seal s' hs,sealsOf_map_eq (g:=fun v=>if v.seq=s.seq then s' else v),hlast,
    map_append,map_singleton,if_pos rfl]
  · congr 1
    refine (map_congr_left fun v hv=>if_neg ?_).trans (List.map_id _)
    exact (hsorted.2.2 v hv s (mem_singleton.mpr rfl)).ne
  · intro k v hv hk
    have hkey : k=⟨l,s.seq⟩ ↔ v.seq=s.seq:=by
      rw [h.seal_key k v hv]
      refine ⟨fun heq=>by rw [heq],fun heq=>?_⟩
      rw [← hk,← heq]
    simp only [hkey]

theorem Inv.makeEmpty (h : Inv d) (hst : d.lineages.get l=some st) (hlive : st.ended=false)
    (habove : above st.sealedThrough through=true) (hpin : d.pinnedBy l through=none)
    {due : Due E T I} : Inv (recordEmpty
      { core := d.sealing l st through,due := due } l (Empty.new d.sealsMade through)).core := by
  obtain ⟨hwrites,hheld⟩:=pinnedBy_none hst hpin
  have hl:=h.marks l st hst hlive
  have hrelives : Relives d.lineages (d.lineages.insert l (st.sealedTo through)) :=
    .insert hst rfl (Nat.le_succ _)
  have hdurable:=Relives.durable_insert (st.sealedTo through) hst rfl
  rcases recordEmpty_core (c:={ core:=d.sealing l st through,due:=due })
      (Empty.new d.sealsMade through) (get_insert_self _ _ _) with
    ⟨s,hlast,hcore⟩ | ⟨hnil,hcore⟩
  · rw [hcore]
    obtain ⟨init,hinit⟩:=List.getLast?_eq_some_iff.mp hlast
    have hs : d.seals.get ⟨l,s.seq⟩=some s:=h.keys.mem_sealsOf.mp (by rw [hinit]; simp)
    have hsealsOf:=h.keys.sealsOf_setLast
      { s with trailing:=some (Empty.new d.sealsMade through) } hinit
    have hother : ∀ l',l'≠l → sealsOf (d.seals.insert ⟨l,s.seq⟩
        { s with trailing:=some (Empty.new d.sealsMade through) }) l'=sealsOf d.seals l' :=
      fun l' hl'=>select_insert_of_not _ (by simpa using Ne.symm hl')
    rw [insert_seal _ hs] at hsealsOf hother ⊢
    have hstays : ∀ k v,d.seals.get k=some v → SealStays v
        (if k=⟨l,s.seq⟩ then { s with trailing:=some (Empty.new d.sealsMade through) }
          else v):=by
      intro k v hv
      split_ifs with hk
      · rw [hk,hs] at hv
        cases hv
        exact ⟨rfl,rfl,rfl,id⟩
      · exact ⟨rfl,rfl,rfl,id⟩
    have hsame : ∀ k v,d.seals.get k=some v →
        (if k=⟨l,s.seq⟩ then { s with trailing:=some (Empty.new d.sealsMade through) }
          else v).stage=v.stage ∧ (v.answered=true →
            (if k=⟨l,s.seq⟩ then { s with trailing:=some (Empty.new d.sealsMade through) }
              else v).answered=true):=by
      intro k v hv
      split_ifs with hk
      · rw [hk,hs] at hv
        cases hv
        exact ⟨rfl,id⟩
      · exact ⟨rfl,id⟩
    have hended : ∀ k v st',d.seals.get k=some v →
        (d.lineages.insert l (st.sealedTo through)).get k.lineage=some st' → st'.ended=true →
        (if k=⟨l,s.seq⟩ then { s with trailing:=some (Empty.new d.sealsMade through) }
          else v)=v:=by
      intro k v st' _ hst' hended
      refine if_neg fun hk=>?_
      rw [hk,get_insert_self] at hst'
      cases hst'
      change st.ended=true at hended
      rw [hlive] at hended
      cases hended
    refine { h with
      keys:=h.keys.reseal hstays
      clocks:=hrelives.clocks h.clocks
      lives:=(hrelives.lives h.lives).reseal hstays
      marks:=fun l' st' (hst' : (d.lineages.insert l (st.sealedTo through)).get l'=some st')
        hlive'=>?_
      parts:=(hrelives.parts h.parts).reseal hsame
      files:=hrelives.files h.files
      suspects:=hrelives.suspects h.suspects
      cover:=hrelives.cover h.cover
      ends:=(hrelives.ends hdurable h.ends).reseal hended
      window:=h.window.reseal hstays }
    · rcases insert_cases hst' with ⟨hl',rfl⟩ | ⟨hl',hst'⟩
      · subst hl'
        refine hl.recordEmpty (slots st.leading init++[.recorded s])
          (slots st.leading init ++
            [.recorded { s with trailing:=some (Empty.new d.sealsMade through) }])
          s.trailing (Empty.new d.sealsMade through) ?_ ?_ ?_ ?_
          rfl rfl habove rfl rfl hwrites hheld
        · rw [hinit,slots_append,append_assoc]
          rfl
        · change slots st.leading _=_
          rw [hsealsOf,slots_append,append_assoc]
          rfl
        · refine rel_append (moves_refl (fun s=>?_) _) (.cons (.recorded ?_ ?_) .nil)
          · exact rfl
          · exact ⟨rfl,rfl,rfl⟩
          · exact rfl
        · exact rel_append (List.forall₂_same.mpr fun _ _=>⟨id,id⟩) (.cons ⟨id,id⟩ .nil)
      · exact (h.marks l' st' hst' hlive').congr (hother l' hl') (Nat.le_succ _)
  · rw [hcore]
    have hnil : sealsOf d.seals l=[]:=hnil
    have hrelives' : Relives d.lineages ((d.lineages.insert l (st.sealedTo through)).insert l
        { st.sealedTo through with leading:=some (Empty.new d.sealsMade through) }) :=
      hrelives.trans (.insert (get_insert_self _ _ _) rfl le_rfl)
    refine { h with
      clocks:=hrelives'.clocks h.clocks
      lives:=hrelives'.lives h.lives
      marks:=fun l' st' hst' hlive'=>?_
      parts:=hrelives'.parts h.parts
      files:=hrelives'.files h.files
      suspects:=hrelives'.suspects h.suspects
      cover:=hrelives'.cover h.cover
      ends:=hrelives'.ends (fun l₁ st₁ st₁' h₁ h₁'=>?_) h.ends }
    · rcases insert_cases hst' with ⟨hl',rfl⟩ | ⟨hl',hst'⟩
      · subst hl'
        refine hl.recordEmpty [] [] st.leading (Empty.new d.sealsMade through) ?_ ?_ .nil .nil rfl rfl habove rfl rfl hwrites hheld
        · rw [hnil,slots_nil,nil_append]
        · change slots (some (Empty.new d.sealsMade through)) (sealsOf d.seals l')=_
          rw [hnil,slots_nil]
          rfl
      · rw [get_insert_of_ne _ _ hl'] at hst'
        exact (h.marks l' st' hst' hlive').congr rfl (Nat.le_succ _)
    · obtain ⟨st₂,hst₂, -⟩:=hrelives.forth l₁ st₁ h₁
      rw [← hdurable l₁ st₁ st₂ h₁ hst₂]
      exact Relives.durable_insert _ (get_insert_self _ _ _) (by rfl) l₁ st₂ st₁' hst₂ h₁'

theorem Durability.sealThrough_ok {c : Change E T I}
    (hok : d.sealThrough l through=.ok (.submitted c)) :
    ∃ st,d.lineages.get l=some st ∧ st.ended=false ∧
      above st.sealedThrough through=true ∧ d.sealCycle l through=false ∧
      (d.pinnedBy l through=none ∧
          advance (recordEmpty (begin_ (d.sealing l st through)) l (Empty.new d.sealsMade through))=.ok c ∨
        ∃ op window,d.pinnedBy l through=some op ∧
          d.window.hold d.capacity.operations op .pin=.ok window ∧
          advance (begin_ (d.pinning l st through op window))=.ok c) := by
  unfold sealThrough at hok
  split at hok
  · cases hok
  · next st hlive =>
    obtain ⟨hst,hended⟩:=live_eq_some.mp hlive
    by_cases habove : above st.sealedThrough through=true
    swap
    · rw [if_pos (by simpa using habove)] at hok
      cases hok
    rw [if_neg (by simpa using habove)] at hok
    by_cases hcycle : d.sealCycle l through=true
    · rw [if_pos hcycle] at hok
      cases hok
    rw [if_neg hcycle] at hok
    refine ⟨st,hst,hended,habove,by simpa using hcycle,?_⟩
    simp only at hok
    split at hok
    · next hpin =>
      rw [bind_eq_ok] at hok
      obtain ⟨c',hadvance,hok⟩:=hok
      cases hok
      exact .inl ⟨hpin,hadvance⟩
    · next op hpin =>
      split at hok
      · cases hok
      · next seals hins =>
        obtain ⟨-,rfl⟩:=insertWithin_eq_some.mp hins
        simp only [bind_eq_ok] at hok
        obtain ⟨window,hhold,c',hadvance,hok⟩:=hok
        cases hok
        exact .inr ⟨op,window,hpin,hhold,hadvance⟩

end WindowsThreadpoolSys.DurableIoring
