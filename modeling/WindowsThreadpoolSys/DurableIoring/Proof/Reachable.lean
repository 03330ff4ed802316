import WindowsThreadpoolSys.DurableIoring.Proof.Lineages

/-! Every operation of the core keeps the invariant and leaves the core quiescent: the operations that
make something due because they end with an advance, the others because nothing they change lets a
seal start or finish, a mark pass, or a heal take effect. -/
namespace WindowsThreadpoolSys.DurableIoring
open Library Durability List Table

variable {E T I : Type} [LinearOrder E] {d d' : Durability E T I} {l : Key}

/-! ## What leaves the core quiescent -/

theorem TablesOk.outstandingBelow_iff (h : TablesOk d) {through : E} :
    OutstandingBelow d l through ↔
      (∃ op w,d.writes.get op=some w ∧ w.lineage=l ∧ w.stage=.inFlight ∧ w.epoch ≤ through) ∨
      ∃ op g a,d.held.get op=some g ∧ g.write=some a ∧ a.lineage=l ∧ a.epoch ≤ through := by
  constructor
  · rintro ⟨o,ho,hle⟩
    rcases h.oldest_outstanding ho with ⟨op,w,hw,hl,rfl,hstage⟩ | ⟨op,g,a,hg,ha,hl,rfl⟩
    · exact .inl ⟨op,w,hw,hl,hstage,hle⟩
    · exact .inr ⟨op,g,a,hg,ha,hl,hle⟩
  · rintro (⟨op,w,hw,rfl,hstage,hle⟩ | ⟨op,g,a,hg,ha,rfl,hle⟩)
    · obtain ⟨o,ho,hole⟩:=h.oldest_le_write hw hstage
      exact ⟨o,ho,hole.trans hle⟩
    · obtain ⟨o,ho,hole⟩:=h.oldest_le_held hg ha
      exact ⟨o,ho,hole.trans hle⟩

def LineageKeeps (d d' : Durability E T I) (l : Key) : Prop :=
  d'.lineages.get l = d.lineages.get l ∨
    d.lineages.get l = none ∧ sealsOf d.seals l = [] ∧
      ∀ st, d'.lineages.get l = some st → st.leading = none

structure Keeps (d d' : Durability E T I) : Prop where
  lineage : ∀ l, d'.isLive l = true → LineageKeeps d d' l
  served : d'.served = d.served
  seals : d'.seals = d.seals
  sealDomains : d'.sealDomains = d.sealDomains
  outstanding : ∀ l through, OutstandingBelow d l through → OutstandingBelow d' l through
  failures : ∃ keep : Failure I → Bool, d'.failures = d.failures.filter keep ∧
    ∀ f ∈ d.failures, keep f = false → f.standing = .resolved
  suspects : ∀ f ∈ d'.failures, ∀ x : Suspect E, d'.isLive x.lineage = true →
    (x ∈ d'.suspects f ↔ x ∈ d.suspects f)
  pending : ∀ f ∈ d'.failures, ∀ at_, f.standing = .healing at_ → ∀ x ∈ d.suspects f,
    d.pendingOn f x.lineage = true → d'.isLive x.lineage = true

variable {f : Failure I}

theorem pendingOn_get (h : d'.lineages.get l=d.lineages.get l) :
    d'.pendingOn f l=d.pendingOn f l := by
  unfold pendingOn
  rw [h]

namespace Keeps

variable (h : Keeps d d')

include h

theorem blocking (hlive : d'.isLive l=true) (hsame : d'.lineages.get l=d.lineages.get l)
    (through : E) : d'.blocking l through=d.blocking l through := by
  obtain ⟨keep,hfailures,hresolved⟩:=h.failures
  unfold Durability.blocking
  rw [hsame]
  cases hst : d.lineages.get l with
  | none=>rfl
  | some st =>
    simp only
    split_ifs
    · congr 1
      rw [hfailures,List.find?_filter]
      refine List.find?_congr fun f hf=>?_
      cases hkeep : keep f with
      | true =>
        have hmem : f ∈ d'.failures:=by
          rw [hfailures]
          exact mem_filter.mpr ⟨hf,hkeep⟩
        rw [holdsWithin_congr (pendingOn_get hsame) fun x hx=>h.suspects f hmem x (hx ▸ hlive)]
        simp
      | false =>
        have hnot : d.pendingOn f l=false:=by
          unfold pendingOn
          rw [hresolved f hf hkeep]
        simp [holdsWithin,hnot]
    · rfl

theorem settled (hq : Quiescent d) (hlive : d'.isLive l=true) : Settled d' l := by
  rcases h.lineage l hlive with hsame | ⟨-,hnone,hleading⟩
  · have hwas : d.isLive l=true:=by
      unfold isLive live at hlive ⊢
      rwa [← hsame]
    have hsettled:=hq.settled l hwas
    refine ⟨fun s hs hwaits=>?_,fun s hs=>?_,fun e he hunfinished=>?_⟩
    · rw [h.seals] at hs
      exact h.outstanding l _ (hsettled.waiting s hs hwaits)
    · rw [h.seals] at hs
      rw [hasAnswered_congr h.served (fun _=>by rw [h.sealDomains]) rfl]
      exact hsettled.flushing s hs
    · refine h.outstanding l _ (hsettled.empty e (he.imp ?_ ?_) hunfinished)
      · rw [hsame]
        exact id
      · rw [h.seals]
        exact id
  · refine ⟨fun s hs _=>?_,fun s hs=>?_,fun e he _=>?_⟩
    · rw [h.seals,hnone] at hs
      cases hs
    · rw [h.seals,hnone] at hs
      cases hs
    · rcases he with ⟨st,hst,he⟩ | ⟨s,hs, -⟩
      · rw [hleading st hst] at he
        cases he
      · rw [h.seals,hnone] at hs
        cases hs

theorem stands (hq : Quiescent d) (hlive : d'.isLive l=true) : Stands d' l := by
  rcases h.lineage l hlive with hsame | ⟨-,hnone,hleading⟩
  · have hwas : d.isLive l=true:=by
      unfold isLive live at hlive ⊢
      rwa [← hsame]
    exact (hq.stands l hwas).congr hsame (fun q=>by rw [h.seals]) (by rw [h.seals])
      fun _ _ through=>h.blocking hlive hsame through
  · have hnoseal : ∀ q,d.seals.get ⟨l,q⟩=none:=by
      intro q
      cases hget : d.seals.get ⟨l,q⟩ with
      | none=>rfl
      | some s =>
        have hmem : s ∈ sealsOf d.seals l:=mem_sealsOf.mpr ⟨_,rfl,hget⟩
        rw [hnone] at hmem
        cases hmem
    refine ⟨fun st through recorded hst hnext=>?_,fun place through hdue=>?_⟩
    · unfold nextFinished at hnext
      rw [hleading st hst,h.seals,hnone] at hnext
      cases hnext
    · unfold answerable at hdue
      cases hst : d'.lineages.get l with
      | none =>
        rw [hst] at hdue
        cases hdue
      | some st =>
        simp only [hst,h.seals,hnoseal,hleading st hst] at hdue
        cases place <;> cases hdue

theorem healed (hq : Quiescent d) (hf : f ∈ d'.failures) : d'.isHealed f=false := by
  obtain ⟨keep,hfailures, -⟩:=h.failures
  have hwas:=hq.healed f (mem_of_mem_filter (hfailures ▸ hf))
  unfold isHealed at hwas ⊢
  cases hstanding : f.standing with
  | «open» | resolved=>simp [Failure.healingAt,hstanding]
  | healing at_ =>
    simp only [Failure.healingAt,hstanding,Option.isSome_some,Bool.true_and,
      Bool.not_eq_eq_eq_not,Bool.not_false,any_eq_true] at hwas ⊢
    obtain ⟨x,hx,hpending⟩:=hwas
    have hlive:=h.pending f hf at_ hstanding x hx hpending
    refine ⟨x,(h.suspects f hf x hlive).mpr hx,?_⟩
    rcases h.lineage x.lineage hlive with hsame | ⟨hnone, -⟩
    · rwa [pendingOn_get hsame]
    · simp [pendingOn,hstanding,hnone] at hpending

theorem quiescent (hq : Quiescent d) : Quiescent d' :=
  ⟨fun _ hlive=>h.settled hq hlive,fun _ hlive=>h.stands hq hlive,
    fun _ hf=>h.healed hq hf⟩

end Keeps

/-! ## The operations that make nothing due -/

theorem pendingOn_live {at_ : HealAt} (hstanding : f.standing=.healing at_)
    (h : d.pendingOn f l=true) : d.isLive l=true := by
  unfold pendingOn at h
  rw [hstanding] at h
  cases hst : d.lineages.get l with
  | none=>simp [hst] at h
  | some st =>
    simp only [hst,Bool.and_eq_true,Bool.not_eq_true'] at h
    exact isLive_iff.mpr ⟨st,hst,h.1⟩

theorem Keeps.of_same (hsame : (d'.lineages,d'.served,d'.seals,d'.sealDomains,d'.failures) =
    (d.lineages,d.served,d.seals,d.sealDomains,d.failures))
    (houtstanding : ∀ l through,OutstandingBelow d l through → OutstandingBelow d' l through)
    (hsuspects : ∀ f ∈ d.failures,∀ x : Suspect E,d.isLive x.lineage=true →
      (x ∈ d'.suspects f ↔ x ∈ d.suspects f)) : Keeps d d' := by
  simp only [Prod.mk.injEq] at hsame
  obtain ⟨hlineages,hserved,hseals,hdomains,hfailures⟩:=hsame
  have hlive : ∀ l,d'.isLive l=d.isLive l:=by
    intro l
    unfold isLive live
    rw [hlineages]
  exact {
    lineage:=fun l _=>.inl (by rw [hlineages])
    served:=hserved
    seals:=hseals
    sealDomains:=hdomains
    outstanding:=houtstanding
    failures:=⟨fun _=>true,by rw [hfailures,filter_true],fun _ _ h=>(by cases h)⟩
    suspects:=fun f hf x hx=>hsuspects f (hfailures ▸ hf) x ((hlive _).symm.trans hx)
    pending:=fun f _ at_ hstanding x _ hpending =>
      (hlive _).trans (pendingOn_live hstanding hpending) }

variable {a : Accepted E T}

omit [LinearOrder E] in
theorem record_not_named {now : ℕ} (lists : DomainLists) (hclock : f.id.seq < now) :
    (a.record now).namedBy lists f=false := by
  have hlt : ¬now ≤ f.id.seq:=Nat.not_le.mpr hclock
  simp [Write.namedBy,Failure.names,Accepted.record,hlt]

theorem Keeps.inFlight {d₁ : Durability E T I} {wasHeld : Bool} {held : Table OpId (HeldOp E T)}
    {heldByEpoch : Counts E} (h : Inv d) (h' : Inv d')
    (hd₁ : d₁={ d with held := held,heldByEpoch := heldByEpoch })
    (hheld : ∀ op g b,d.held.get op=some g → g.write=some b →
      held.get op=some g ∨ b=a) (hnone : d.writes.get a.op=none)
    (hok : d₁.inFlight a wasHeld=.ok d') : Keeps d d' := by
  subst hd₁
  obtain ⟨counts,spans,window, -, -, -, -,rfl⟩:=inFlight_ok hok
  refine of_same rfl (fun l through hbelow=>?_) fun f hf x _=>?_
  · rw [h'.toTablesOk.outstandingBelow_iff]
    rcases h.toTablesOk.outstandingBelow_iff.mp hbelow with
      ⟨op,w,hw,hl,hstage,hle⟩ | ⟨op,g,b,hg,hb,hl,hle⟩
    · refine .inl ⟨op,w,?_,hl,hstage,hle⟩
      rw [get_insert_of_ne,hw]
      rintro rfl
      rw [hnone] at hw
      cases hw
    · rcases hheld op g b hg hb with hg' | rfl
      · exact .inr ⟨op,g,b,hg',hb,hl,hle⟩
      · exact .inl ⟨b.op,b.record d.nextFailure,get_insert_self _ _ _,hl,rfl,hle⟩
  · rw [mem_suspects,mem_suspects]
    refine or_congr ⟨?_,?_⟩ Iff.rfl
    · rintro ⟨op,w,hw,hnamed,rfl⟩
      rcases of_insert hw with ⟨-,rfl⟩ | hw
      · rw [record_not_named d.lists (h.suspects.clock f hf).1] at hnamed
        cases hnamed
      · exact ⟨op,w,hw,hnamed,rfl⟩
    · rintro ⟨op,w,hw,hnamed,rfl⟩
      refine ⟨op,w,?_,hnamed,rfl⟩
      rw [get_insert_of_ne,hw]
      rintro rfl
      rw [hnone] at hw
      cases hw

theorem Keeps.pushed (h : Inv d) (hjoins : d.Joins a) (hok : d.pushed a=.ok d') : Keeps d d' :=
  inFlight h (h.pushed hjoins hok) rfl (fun _ _ _ hg _=>.inl hg)
    (hjoins.fresh.no_write h) hok

theorem Keeps.issued {op : OpId} (h : Inv d) (hok : d.issued op=.ok d') : Keeps d d' := by
  have h':=h.issued hok
  obtain ⟨g,hg,hready,⟨hwrite,rfl⟩ | ⟨a,hwrite,hok⟩⟩:=issued_ok hok
  · refine of_same rfl (fun l through hbelow=>?_) fun f _ x _=>Iff.rfl
    rw [h'.toTablesOk.outstandingBelow_iff]
    refine (h.toTablesOk.outstandingBelow_iff.mp hbelow).imp_right ?_
    rintro ⟨op',g',b,hg',hb,hrest⟩
    refine ⟨op',g',b,?_,hb,hrest⟩
    rw [get_erase,if_neg,hg']
    rintro rfl
    rw [hg] at hg'
    cases hg'
    rw [hwrite] at hb
    cases hb
  · refine inFlight h h' rfl (fun op' g' b hg' hb=>?_) ?_ hok
    · by_cases hop : op'=op
      · subst hop
        rw [hg] at hg'
        cases hg'
        rw [hwrite] at hb
        cases hb
        exact .inr rfl
      · exact .inl (by rw [get_erase,if_neg hop,hg'])
    · have hkey:=h.keys.held_write_key op g a hg hwrite
      cases hw : d.writes.get a.op with
      | none=>rfl
      | some w =>
        have hnot:=h.keys.write_not_held a.op w hw
        rw [hkey,hg] at hnot
        cases hnot

theorem Keeps.hold {op : OpId} {write : Option (Accepted E T)} {gate : Gate E} (h : Inv d)
    (h' : Inv d') (hfresh : d.Fresh op) (hok : d.hold op write gate=.ok d') : Keeps d d' := by
  have houtstanding : d'.writes=d.writes →
      (∀ op' g,d.held.get op'=some g → d'.held.get op'=some g) → ∀ l through,
      OutstandingBelow d l through → OutstandingBelow d' l through:=by
    intro hwrites hheld l through hbelow
    rw [h'.toTablesOk.outstandingBelow_iff,hwrites]
    refine (h.toTablesOk.outstandingBelow_iff.mp hbelow).imp_right ?_
    rintro ⟨op',g,b,hg,hrest⟩
    exact ⟨op',g,b,hheld op' g hg,hrest⟩
  have hinsert : ∀ (g₀ : HeldOp E T) op' g,d.held.get op'=some g →
      (d.held.insert op g₀).get op'=some g:=by
    intro g₀ op' g hg
    rw [get_insert_of_ne,hg]
    rintro rfl
    rw [hfresh.held] at hg
    cases hg
  obtain ⟨-, -,⟨-,rfl⟩ | ⟨a,heldByEpoch, -, -,rfl⟩⟩:=hold_ok hok
  · exact of_same rfl (houtstanding rfl (hinsert _)) fun _ _ _ _=>Iff.rfl
  · exact of_same rfl (houtstanding rfl (hinsert _)) fun _ _ _ _=>Iff.rfl

theorem Keeps.places (d : Durability E T I) (window : Window) (tokens : List TokenSlot) :
    Keeps d { d with window := window,tokens := tokens } :=
  of_same rfl (fun _ _ h=>h) fun _ _ _ _=>Iff.rfl

theorem Keeps.mint {k : Key} (h : Inv d) (hok : d.mint=.ok (k,d')) : Keeps d d' := by
  obtain ⟨-,rfl⟩:=mint_ok hok
  exact {
    lineage:=fun l hlive=>by
      by_cases hl : l=d.nextLineage
      · subst hl
        refine .inr ⟨h.lineage_fresh,?_,fun st hst=>?_⟩
        · refine eq_nil_iff_forall_not_mem.mpr fun s hs=>?_
          obtain ⟨k,hk,hget⟩:=mem_sealsOf.mp hs
          obtain ⟨st,hst, -⟩:=h.lives.seal_lineage k s hget
          rw [hk,h.lineage_fresh] at hst
          cases hst
        · rw [get_insert_self] at hst
          cases hst
          rfl
      · exact .inl (get_insert_of_ne _ _ hl)
    served:=rfl
    seals:=rfl
    sealDomains:=rfl
    outstanding:=fun _ _ hbelow=>hbelow
    failures:=⟨fun _=>true,by rw [filter_true],fun _ _ h=>(by cases h)⟩
    suspects:=fun _ _ _ _=>Iff.rfl
    pending:=fun f _ at_ hstanding x _ hpending=>by
      obtain ⟨st,hst,hlive⟩:=isLive_iff.mp (pendingOn_live hstanding hpending)
      refine isLive_iff.mpr ⟨st,?_,hlive⟩
      rw [get_insert_of_ne,hst]
      rintro hl
      rw [hl,h.lineage_fresh] at hst
      cases hst }

theorem Keeps.dropLineage {window : Window} {abandoned : Table (EpochKey E) OpId}
    (hidle : ∀ f ∈ d.failures,∀ at_,f.standing=.healing at_ → ∀ x ∈ d.suspects f,
      d.pendingOn f x.lineage=true → x.lineage ≠ l) : Keeps d { d with
      window := window,abandoned := abandoned,lineages := d.lineages.erase l } where
  lineage l' hlive := by
    obtain ⟨st,hst, -⟩:=isLive_iff.mp hlive
    exact .inl (hst.trans (get_of_erase hst).symm)
  served:=rfl
  seals:=rfl
  sealDomains:=rfl
  outstanding _ _ hbelow:=hbelow
  failures:=⟨fun _=>true,by rw [filter_true],fun _ _ h=>(by cases h)⟩
  suspects _ _ _ _:=Iff.rfl
  pending f hf at_ hstanding x hx hpending:=by
    obtain ⟨st,hst,hlive⟩:=isLive_iff.mp (pendingOn_live hstanding hpending)
    refine isLive_iff.mpr ⟨st,?_,hlive⟩
    rw [get_erase,if_neg (hidle f hf at_ hstanding x hx hpending),hst]

theorem Keeps.retire (hok : d.retire l=.ok (.ok d')) : Keeps d d' := by
  obtain ⟨st,mid,hst,hlive, -, -, -, -,hfailures,hforget,rfl⟩:=retire_ok hok
  obtain ⟨window, -,rfl⟩:=forgetAbandoned_ok hforget
  refine dropLineage fun f hf at_ hstanding x hx hpending hl=>?_
  have hmem : f ∈ d.lineageFailures l:=by
    refine mem_filter.mpr ⟨hf,?_⟩
    unfold holdsWithin
    rw [Bool.and_eq_true,any_eq_true]
    exact ⟨hl ▸ hpending,x,hx,by simp [hl]⟩
  rw [length_eq_zero_iff.mp hfailures] at hmem
  cases hmem

theorem Keeps.endPopped (hok : d.endPopped l=.ok d') : Keeps d d' := by
  obtain ⟨st,hst,hended,rfl⟩:=endPopped_ok hok
  have hnot : ∀ l',d.isLive l'=true → l'≠l:=by
    rintro l' hlive rfl
    exact not_isLive hst hended hlive
  obtain ⟨lineages,hframe,hget,hgone⟩ : ∃ lineages,retireIfDrained
      { d with lineages:=d.lineages.insert l { st with endUnpopped:=false } } l={ d with lineages } ∧
        (∀ l',l'≠l → lineages.get l'=d.lineages.get l') ∧
        ∀ st',lineages.get l=some st' → st'.ended=true:=by
    rcases retireIfDrained_cases
      { d with lineages:=d.lineages.insert l { st with endUnpopped:=false } } l with
      heq | ⟨st₁, -, -, -, -,heq⟩
    · refine ⟨_,heq,fun l' hne=>get_insert_of_ne _ _ hne,fun st' hst'=>?_⟩
      rw [get_insert_self] at hst'
      cases hst'
      exact hended
    · refine ⟨_,heq,fun l' hne=>?_,fun st' hst'=>?_⟩
      · rw [get_erase,if_neg hne,get_insert_of_ne _ _ hne]
      · rw [get_erase_self] at hst'
        cases hst'
  have hlive : ∀ l',isLive { d with lineages } l'=true → l'≠l:=by
    rintro l' hl' rfl
    obtain ⟨st',hst',hfalse⟩:=isLive_iff.mp hl'
    exact Bool.false_ne_true (hfalse.symm.trans (hgone st' hst'))
  rw [hframe]
  exact {
    lineage:=fun l' hl'=>.inl (hget l' (hlive l' hl'))
    served:=rfl
    seals:=rfl
    sealDomains:=rfl
    outstanding:=fun _ _ hbelow=>hbelow
    failures:=⟨fun _=>true,by rw [filter_true],fun _ _ h=>(by cases h)⟩
    suspects:=fun _ _ _ _=>Iff.rfl
    pending:=fun f _ at_ hstanding x _ hpending=>by
      have hwas:=pendingOn_live hstanding hpending
      obtain ⟨st',hst',hfalse⟩:=isLive_iff.mp hwas
      exact isLive_iff.mpr ⟨st',(hget _ (hnot _ hwas)).trans hst',hfalse⟩ }

theorem names_release (f : Failure I) (reach : Reach) (born : ℕ) (until_ : Option ℕ) (l : Key)
    (domains : DomainList) : f.names (d.releaseReach reach).lists born until_ l domains =
      f.names d.lists born until_ l domains := by
  have hget : ∀ list,(d.releaseReach reach).lists.get list=d.lists.get list:=by
    intro list
    cases reach with
    | named list'=>exact DomainLists.release_get _ _ _
    | all | file _ | domain _=>rfl
  exact Failure.names_congr (fun list _=>hget list) (fun list _=>hget list) (hget domains)

theorem releaseReach_frame (d : Durability E T I) (reach : Reach) :
    ∃ lists,d.releaseReach reach={ d with lists := lists } := by
  cases reach <;> exact ⟨_,rfl⟩

theorem mem_suspects_release (reach : Reach) (f : Failure I) (x : Suspect E) :
    x ∈ (d.releaseReach reach).suspects f ↔ x ∈ d.suspects f := by
  have hnames:=names_release (d:=d) f reach
  obtain ⟨lists,hlists⟩:=releaseReach_frame d reach
  rw [hlists] at hnames ⊢
  rw [mem_suspects,mem_suspects]
  unfold Write.namedBy Gone.namedBy
  simp only [hnames]

theorem Keeps.forget {id : FailureId} (h : Inv d) (hok : d.forget id=.ok d') : Keeps d d' := by
  obtain ⟨f,window,hf,hid,hresolved,hrelease,rfl⟩:=forget_ok hok
  subst hid
  have hsuspects : ∀ g ∈ d.failures.filter (fun g=>decide (g.id≠f.id)),∀ x : Suspect E,
      (x ∈ (d.forgot f window).suspects g ↔ x ∈ d.suspects g):=by
    intro g hg x
    rw [mem_suspects,mem_suspects]
    refine or_congr Iff.rfl ⟨?_,?_⟩
    · rintro ⟨op,k,hk,hnamed,rfl⟩
      exact ⟨op,k,get_of_filter hk,hnamed,rfl⟩
    · rintro ⟨op,k,hk,hnamed,rfl⟩
      refine ⟨op,k,?_,hnamed,rfl⟩
      rw [get_filter,hk]
      refine Option.filter_eq_some_iff.mpr ⟨rfl,?_⟩
      -- a record another failure names stays
      have hlisted:=(h.suspects.kept_named g (mem_of_mem_filter hg) op k hk).mp hnamed
      have hlevel:=h.forget_level hf hrelease op
      have hpos : 0 < window.level op .suspect:=by
        rw [hlevel,countP_pos_iff]
        exact ⟨g,hg,decide_eq_true hlisted⟩
      rw [h.keys.kept_key op k hk,Window.suspected_iff.mpr hpos,Bool.or_true]
  have hkeeps : Keeps d (d.forgot f window) :=
    { lineage:=fun l _=>.inl rfl
      served:=rfl
      seals:=rfl
      sealDomains:=rfl
      outstanding:=fun _ _ hbelow=>hbelow
      failures:=⟨_,rfl,fun g hg hgone=>by
        have hsame : g.id=f.id:=by simpa using hgone
        rw [h.suspects.unique hg hf (congrArg FailureId.seq hsame)]
        exact hresolved⟩
      suspects:=fun g hg x _=>hsuspects g hg x
      pending:=fun g _ at_ hstanding x _ hpending=>pendingOn_live hstanding hpending }
  obtain ⟨lists,hlists⟩:=releaseReach_frame (d.forgot f window) f.reach
  have hrelist:=mem_suspects_release (d:=d.forgot f window) f.reach
  rw [hlists] at hrelist ⊢
  exact { hkeeps with
    suspects:=fun g hg x hlive=>(hrelist g x).trans (hkeeps.suspects g hg x hlive) }

theorem Keeps.relist {lists : DomainLists}
    (hlists : ∀ list,d.Named list → lists.get list=d.lists.get list) :
    Keeps d { d with lists := lists } := by
  refine of_same rfl (fun _ _ hbelow=>hbelow) fun f hf x hlive=>?_
  have hnames : ∀ born until_ l domains,lists.get domains=d.lists.get domains →
      f.names lists born until_ l domains=f.names d.lists born until_ l domains :=
    fun born until_ l domains hdomains=>Failure.names_congr
      (fun list hreach=>hlists list (.file f hf hreach))
      (fun list hreach=>hlists list (.reach f hf hreach)) hdomains
  rw [mem_suspects,mem_suspects]
  refine or_congr ?_ ?_
  · have hsame : ∀ op w,d.writes.get op=some w → w.suspect=x →
        w.namedBy lists f=w.namedBy d.lists f:=by
      rintro op w hw rfl
      exact hnames _ _ _ _ (hlists _ (.live op w hw hlive rfl))
    constructor
    · rintro ⟨op,w,hw,hnamed,hx⟩
      exact ⟨op,w,hw,(hsame op w hw hx).symm.trans hnamed,hx⟩
    · rintro ⟨op,w,hw,hnamed,hx⟩
      exact ⟨op,w,hw,(hsame op w hw hx).trans hnamed,hx⟩
  · have hsame : ∀ op g,d.kept.get op=some g → g.namedBy lists f=g.namedBy d.lists f :=
      fun op g hg=>hnames _ _ _ _ (hlists _ (.kept op g hg rfl))
    constructor
    · rintro ⟨op,g,hg,hnamed,hx⟩
      exact ⟨op,g,hg,(hsame op g hg).symm.trans hnamed,hx⟩
    · rintro ⟨op,g,hg,hnamed,hx⟩
      exact ⟨op,g,hg,(hsame op g hg).trans hnamed,hx⟩

end WindowsThreadpoolSys.DurableIoring
