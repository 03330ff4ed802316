import WindowsThreadpoolSys.DurableIoring.Proof.Hold

/-! A failure lists the writes observation finds, and from then on its rule names exactly those. Each
takes one more hold on its place. -/
namespace WindowsThreadpoolSys.DurableIoring
open Library Durability List Table

variable {E T I : Type} [LinearOrder E] {d d' : Durability E T I}

/-! ## The writes a failure suspects -/

theorem Durability.mem_suspects {f : Failure I} {s : Suspect E} : s ∈ d.suspects f ↔
      (∃ op w,d.writes.get op=some w ∧ w.namedBy d.lists f=true ∧ w.suspect=s) ∨
        ∃ op g,d.kept.get op=some g ∧ g.namedBy d.lists f=true ∧ g.suspect=s := by
  simp only [suspects,uncoveredSuspects,keptSuspects,mem_append,mem_map,mem_filter,mem_vals]
  refine or_congr ⟨?_,?_⟩ ⟨?_,?_⟩
  · rintro ⟨w,⟨⟨op,hw⟩,hnamed⟩,heq⟩
    exact ⟨op,w,hw,hnamed,heq⟩
  · rintro ⟨op,w,hw,hnamed,heq⟩
    exact ⟨w,⟨⟨op,hw⟩,hnamed⟩,heq⟩
  · rintro ⟨g,⟨⟨op,hg⟩,hnamed⟩,heq⟩
    exact ⟨op,g,hg,hnamed,heq⟩
  · rintro ⟨op,g,hg,hnamed,heq⟩
    exact ⟨g,⟨⟨op,hg⟩,hnamed⟩,heq⟩

theorem Durability.suspects_ops (f : Failure I) : (d.suspects f).map Suspect.op =
      (d.writes.vals.filter fun w => w.namedBy d.lists f).map Write.op ++
        (d.kept.vals.filter fun g => g.namedBy d.lists f).map Gone.op := by
  simp only [suspects,uncoveredSuspects,keptSuspects,map_append,map_map]
  rfl

omit [LinearOrder E] in
theorem KeysOk.write_ops {writes : Table OpId (Write E T)} {held : Table OpId (HeldOp E T)}
    {seals : Seals E} {kept : Kept E} (h : KeysOk writes held seals kept) :
    writes.vals.map Write.op=writes.keys := by
  unfold Table.vals Table.keys
  rw [map_map]
  exact map_congr_left fun e he=>h.write_key e.1 e.2 (mem_entries.mp he)

omit [LinearOrder E] in
theorem KeysOk.ops_sorted {writes : Table OpId (Write E T)} {held : Table OpId (HeldOp E T)}
    {seals : Seals E} {kept : Kept E} (h : KeysOk writes held seals kept) (p : Write E T → Bool) :
    ((writes.vals.filter p).map Write.op).Pairwise (·<·) := by
  refine List.Pairwise.sublist ((filter_sublist (p:=p)).map Write.op) ?_
  rw [h.write_ops]
  exact writes.keys_sorted

theorem Inv.mem_observedWrites (h : Inv d) {reach : Reach} {only : Option Key} {op : OpId} :
    op ∈ d.observedWrites reach only ↔
      ∃ w,d.writes.get op=some w ∧ only.all (fun l => decide (w.lineage=l))=true ∧
        d.isLive w.lineage=true ∧ reach.reaches d.lists (d.lists.get w.domains)=true := by
  simp only [observedWrites,mem_map,mem_filter,mem_vals,Bool.and_eq_true]
  constructor
  · rintro ⟨w,⟨⟨op',hw⟩,⟨honly,hlive⟩,hreach⟩,rfl⟩
    rw [h.keys.write_key op' w hw]
    exact ⟨w,hw,honly,hlive,hreach⟩
  · rintro ⟨w,hw,honly,hlive,hreach⟩
    exact ⟨w,⟨⟨op,hw⟩,⟨honly,hlive⟩,hreach⟩,h.keys.write_key op w hw⟩

/-! ## A failure just observed -/

section Observed

variable {cause : FailureCause} {reach : Reach} {only : Option Key} {slot : ℕ}

theorem Inv.observed_names (h : Inv d) {op : OpId} {w : Write E T} (hw : d.writes.get op=some w) :
    w.namedBy d.lists (d.observedFailure cause reach only slot) =
      (only.all (fun l => decide (w.lineage=l)) && d.isLive w.lineage &&
        reach.reaches d.lists (d.lists.get w.domains)) := by
  obtain ⟨st,hst,huntil,hended⟩:=h.lives.write_lineage op w hw
  have hborn:=(h.clocks.write_clock op w hw).2
  have honly : (only.all fun l=>decide (l=w.lineage)) =
      only.all fun l=>decide (w.lineage=l):=by
    simp only [@eq_comm _ _ w.lineage]
  simp only [Write.namedBy,Failure.names,observedFailure,hborn,decide_true,Bool.true_and,honly]
  cases hend : st.ended with
  | false =>
    have hlive : d.isLive w.lineage=true:=isLive_iff.mpr ⟨st,hst,hend⟩
    simp [huntil hend,hlive]
  | true =>
    obtain ⟨u,hu,hle⟩:=hended hend
    have hnot : d.isLive w.lineage=false:=Bool.eq_false_iff.mpr (not_isLive hst hend)
    simp [hu,hnot,Nat.not_lt.mpr hle]

theorem Inv.observed_not_kept (h : Inv d) {op : OpId} {g : Gone E} (hg : d.kept.get op=some g) :
    g.namedBy d.lists (d.observedFailure cause reach only slot)=false := by
  have hle:=(h.clocks.kept_clock op g hg).2.2
  simp [Gone.namedBy,Failure.names,observedFailure,Nat.not_lt.mpr hle]

theorem Inv.observed_suspects (h : Inv d) :
    (d.suspects (d.observedFailure cause reach only slot)).map Suspect.op =
      d.observedWrites reach only := by
  have hkept : (d.kept.vals.filter fun g =>
      g.namedBy d.lists (d.observedFailure cause reach only slot))=[]:=by
    rw [filter_eq_nil_iff]
    intro g hg
    obtain ⟨op,hop⟩:=mem_vals.mp hg
    simp [h.observed_not_kept hop]
  rw [suspects_ops,hkept,map_nil,append_nil]
  unfold observedWrites
  congr 1
  refine filter_congr fun w hw=>?_
  obtain ⟨op,hop⟩:=mem_vals.mp hw
  exact h.observed_names hop

theorem Inv.observed_sorted (h : Inv d) : (d.observedWrites reach only).Pairwise (·<·) :=
  h.keys.ops_sorted _

theorem Inv.suspects_observe (h : Inv d) :
    SuspectsOk (d.failures++[d.observedFailure cause reach only slot]) d.writes d.kept d.lists
      d.lineages (d.nextFailure+1) d.instance_ := by
  have hs:=h.suspects
  have hlive : ∀ op w st,d.writes.get op=some w → d.lineages.get w.lineage=some st →
      op ∈ d.observedWrites reach only → st.ended=false:=by
    intro op w st hw hst hmem
    obtain ⟨w',hw', -,hlive, -⟩:=h.mem_observedWrites.mp hmem
    rw [hw] at hw'
    cases hw'
    obtain ⟨st',hst',hended⟩:=isLive_iff.mp hlive
    rw [hst] at hst'
    cases hst'
    exact hended
  refine {
    order:=?_
    clock:=fun f hf=>?_
    listed_sorted:=fun f hf=>?_
    write_named:=fun f hf op w st hw hst hread=>?_
    kept_named:=fun f hf op g hg=>?_
    listed_record:=fun f hf op hmem=>?_
    kept_listed:=fun op g hg=>?_ }
  · rw [pairwise_append]
    refine ⟨hs.order,pairwise_singleton _ _,fun f hf g hg=>?_⟩
    rw [mem_singleton.mp hg]
    exact (hs.clock f hf).1
  · rcases mem_append.mp hf with hf | hf
    · exact ⟨(hs.clock f hf).1.trans (Nat.lt_succ_self _),(hs.clock f hf).2⟩
    · rw [mem_singleton.mp hf]
      exact ⟨Nat.lt_succ_self _,rfl⟩
  · rcases mem_append.mp hf with hf | hf
    · exact hs.listed_sorted f hf
    · rw [mem_singleton.mp hf]
      exact h.observed_sorted
  · rcases mem_append.mp hf with hf | hf
    · refine hs.write_named f hf op w st hw hst (hread.elim Or.inl ?_)
      rintro ⟨g,hg,hmem⟩
      rcases mem_append.mp hg with hg | hg
      · exact .inr ⟨g,hg,hmem⟩
      · rw [mem_singleton.mp hg] at hmem
        exact .inl (hlive op w st hw hst hmem)
    · rw [mem_singleton.mp hf,h.observed_names hw]
      refine Iff.trans ?_ h.mem_observedWrites.symm
      simp only [Bool.and_eq_true]
      constructor
      · rintro ⟨⟨honly,hlive⟩,hreach⟩
        exact ⟨w,hw,honly,hlive,hreach⟩
      · rintro ⟨w',hw',honly,hlive,hreach⟩
        rw [hw] at hw'
        cases hw'
        exact ⟨⟨honly,hlive⟩,hreach⟩
  · rcases mem_append.mp hf with hf | hf
    · exact hs.kept_named f hf op g hg
    · rw [mem_singleton.mp hf,h.observed_not_kept hg]
      refine ⟨fun hfalse=>(by cases hfalse),fun hmem=>?_⟩
      obtain ⟨w,hw, -⟩:=h.mem_observedWrites.mp hmem
      rw [h.keys.kept_not_write op g hg] at hw
      cases hw
  · rcases mem_append.mp hf with hf | hf
    · exact hs.listed_record f hf op hmem
    · rw [mem_singleton.mp hf] at hmem
      obtain ⟨w,hw, -⟩:=h.mem_observedWrites.mp hmem
      exact .inl ⟨w,hw⟩
  · obtain ⟨f,hf,hmem⟩:=hs.kept_listed op g hg
    exact ⟨f,mem_append_left _ hf,hmem⟩

theorem Inv.window_observe (h : Inv d) {window : Window}
    (hhold : (d.suspects (d.observedFailure cause reach only slot)).foldlM
      (fun (win : Window) w => win.hold d.capacity.operations w.op .suspect) d.window =
        .ok window) : WindowOk window d.writes d.held d.kept
      (d.failures++[d.observedFailure cause reach only slot]) d.seals d.abandoned
      d.capacity.operations := by
  have hlevel:=Window.foldHold_level hhold
  have hother : ∀ op k,k≠.suspect → window.level op k=d.window.level op k:=by
    intro op k hk
    rw [hlevel op k,if_neg hk,Nat.add_zero]
  exact { h.window with
    proper:=Window.foldHold_proper h.window.proper hhold
    size_le:=Window.foldHold_size_le h.window.size_le hhold
    held_level:=fun op g hg=>by rw [hother _ _ (by simp),h.window.held_level op g hg]
    uncovered_level:=fun op=>by rw [hother _ _ (by simp),h.window.uncovered_level]
    suspect_level:=fun op=>by
      have hnodup : (d.observedWrites reach only).Nodup:=h.observed_sorted.imp fun hlt=>hlt.ne
      rw [hlevel,if_pos rfl,h.observed_suspects,h.window.suspect_level,countP_append,
        countP_singleton,List.Nodup.count hnodup]
      by_cases hmem : op ∈ d.observedWrites reach only <;>
        simp [hmem,observedFailure]
    pin_level:=fun op=>by rw [hother _ _ (by simp),h.window.pin_level]
    abandoned_level:=fun op=>by rw [hother _ _ (by simp),h.window.abandoned_level] }

theorem Inv.tokens_observe (h : Inv d) {free : List ℕ} (hfree : d.freeTokens=slot::free) :
    TokensOk (d.failures++[d.observedFailure cause reach only slot])
      (d.tokens.set slot ⟨d.nextFailure,true⟩) free := by
  have ht:=h.tokens
  have hnodup:=ht.free.1
  rw [hfree] at hnodup
  obtain ⟨hslot,hrest⟩:=nodup_cons.mp hnodup
  have hlt : slot < d.tokens.length:=ht.free.2 slot (by rw [hfree]; exact mem_cons_self)
  have hused : ∀ f ∈ d.failures,f.token≠slot:=by
    intro f hf hsame
    exact (ht.slot f hf).2 (by rw [hfree,hsame]; exact mem_cons_self)
  refine {
    slot:=fun f hf=>?_
    free:=⟨hrest,fun s hs=>?_⟩
    distinct:=?_
    live_open:=fun s n hget=>?_ }
  · rw [length_set]
    rcases mem_append.mp hf with hf | hf
    · refine ⟨(ht.slot f hf).1,fun hmem=>(ht.slot f hf).2 ?_⟩
      rw [hfree]
      exact mem_cons_of_mem _ hmem
    · rw [mem_singleton.mp hf]
      exact ⟨hlt,hslot⟩
  · rw [length_set]
    exact ht.free.2 s (by rw [hfree]; exact mem_cons_of_mem _ hs)
  · rw [pairwise_append]
    refine ⟨ht.distinct,pairwise_singleton _ _,fun f hf g hg=>?_⟩
    rw [mem_singleton.mp hg]
    exact hused f hf
  · rw [List.getElem?_set] at hget
    split_ifs at hget with hsame
    · cases hget
      exact ⟨_,mem_append_right _ (mem_singleton.mpr rfl),rfl,hsame,rfl⟩
    · obtain ⟨f,hf,hrest⟩:=ht.live_open s n hget
      exact ⟨f,mem_append_left _ hf,hrest⟩

end Observed

theorem Inv.observe {c c' : Change E T I} {cause : FailureCause} {reach : Reach} {only : Option Key}
    {id : FailureId} (h : Inv c.core)
    (hok : observe c cause reach only=.ok (id,c')) : Inv c'.core := by
  obtain ⟨slot,free,window,told,hfree, -, -,hhold, -,hcore, -⟩:=observe_ok hok
  rw [hcore]
  exact { h with
    clocks:={ h.clocks with
      write_clock:=fun op w hw =>
        ⟨(h.clocks.write_clock op w hw).1,(h.clocks.write_clock op w hw).2.trans (Nat.le_succ _)⟩
      kept_clock:=fun op g hg=>by
        obtain ⟨hpush,hborn,huntil⟩:=h.clocks.kept_clock op g hg
        exact ⟨hpush,hborn.trans (Nat.le_succ _),huntil.trans (Nat.le_succ _)⟩ }
    lives:={ h.lives with
      write_lineage:=fun op w hw=>by
        obtain ⟨st,hst,hlive,hended⟩:=h.lives.write_lineage op w hw
        refine ⟨st,hst,hlive,fun hend=>?_⟩
        obtain ⟨u,hu,hle⟩:=hended hend
        exact ⟨u,hu,hle.trans (Nat.le_succ _)⟩ }
    suspects:=h.suspects_observe
    tokens:=h.tokens_observe hfree
    window:=h.window_observe hhold }

end WindowsThreadpoolSys.DurableIoring
