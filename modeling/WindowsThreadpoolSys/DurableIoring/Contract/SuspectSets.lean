import WindowsThreadpoolSys.DurableIoring.Proof.Failures
import WindowsThreadpoolSys.DurableIoring.Durability.Play

/-! Nothing stores a failure's suspects: its rule is read again over the records there are. As long as
the domain list of a recorded write reads as it did, the rule names exactly the writes the
observation listed, from then until the failure is forgotten. -/
namespace WindowsThreadpoolSys.DurableIoring
open Library Durability List

variable {E T I : Type} [LinearOrder E] {d d' : Durability E T I} {c c' : Change E T I}
  {ticks : List (Tick E T I)}

/-! ## Every uncovered write -/

/-- A failure's rule names exactly the uncovered writes it listed, those of ended lineages too. -/
def ListedAll (d : Durability E T I) : Prop :=
  ∀ f ∈ d.failures, ∀ op w, d.writes.get op = some w →
    (w.namedBy d.lists f = true ↔ op ∈ f.listed)

variable {f : Failure I}

omit [LinearOrder E] in
theorem Write.Same.namedBy {now : ℕ} {w w' : Write E T} (h : Write.Same now w w')
    (hclock : f.id.seq < now) (lists : DomainLists) : w'.namedBy lists f=w.namedBy lists f := by
  unfold Write.namedBy
  rw [h.born,h.lineage,h.domains]
  rcases h.stopped with heq | ⟨hnone,u,hu,hge⟩
  · rw [heq]
  · simp [Failure.names,hnone,hu,hclock.trans_le hge]

theorem ListedAll.descends (h : ListedAll d) (hinv : Inv d) (hgoes : Descends UpTo d d')
    (hfailures : FailuresStand d d') : ListedAll d' := by
  intro f' hf' op w' hw'
  obtain ⟨f,hf,hsame⟩:=hfailures.back hf'
  obtain ⟨w,hw,hwrite⟩:=hgoes.write op w' hw'
  have hnames : w'.namedBy d'.lists f'=w'.namedBy d.lists f:=by
    rw [hgoes.lists]
    exact hsame.names _ _ _ _ _
  rw [hnames,hwrite.namedBy (hinv.suspects.clock f hf).1,hsame.listed]
  exact h f hf op w hw

theorem ListedAll.observes (h : ListedAll d) (hinv : Inv d) (hobs : Observes d f c) :
    ListedAll c.core := by
  intro g hg op w hw
  rw [hobs.failures] at hg
  rw [hobs.writes] at hw
  rw [hobs.lists]
  rcases mem_append.mp hg with hg | hg
  · exact h g hg op w hw
  · rw [mem_singleton.mp hg,hobs.listed]
    obtain ⟨st,hst,huntil,hended⟩:=hinv.lives.write_lineage op w hw
    have hborn : w.born ≤ f.id.seq:=by
      rw [hobs.id]
      exact (hinv.clocks.write_clock op w hw).2
    have honly : (f.only.all fun l=>decide (l=w.lineage)) =
        f.only.all fun l=>decide (w.lineage=l):=by
      simp only [@eq_comm _ _ w.lineage]
    have hunstopped : (w.until_.all fun u=>decide (f.id.seq < u))=d.isLive w.lineage:=by
      rw [hobs.id]
      cases hlive : st.ended with
      | false =>
        rw [huntil hlive,isLive_iff.mpr ⟨st,hst,hlive⟩]
        rfl
      | true =>
        obtain ⟨u,hu,hle⟩:=hended hlive
        have hnot : d.isLive w.lineage=false:=by
          simp [isLive,live,hst,hlive]
        rw [hu,hnot]
        exact decide_eq_false (Nat.not_lt.mpr hle)
    rw [hinv.mem_observedWrites,Write.namedBy,Failure.names,hunstopped,honly]
    simp only [hborn,decide_true,Bool.true_and,Bool.and_eq_true]
    constructor
    · rintro ⟨⟨hlive,honly⟩,hreach⟩
      exact ⟨w,hw,honly,hlive,hreach⟩
    · rintro ⟨w',hw',honly,hlive,hreach⟩
      rw [hw] at hw'
      cases hw'
      exact ⟨⟨hlive,honly⟩,hreach⟩

theorem ListedAll.inFlight {a : Accepted E T} {wasHeld : Bool} (h : ListedAll d)
    (hsuspects : SuspectsOk d.failures d.writes d.kept d.lists d.lineages d.nextFailure d.instance_)
    (hwrite : d.writes.get a.op=none) (hkept : d.kept.get a.op=none)
    (hok : d.inFlight a wasHeld=.ok d') : ListedAll d' := by
  obtain ⟨inFlightByEpoch,spans,window, -, -, -, -,rfl⟩:=inFlight_ok hok
  intro f hf op w hw
  rcases Table.of_insert hw with ⟨hop,rfl⟩ | hw
  · subst hop
    refine ⟨fun hnamed=>?_,fun hlisted=>?_⟩
    · rw [record_not_named d.lists (hsuspects.clock f hf).1] at hnamed
      cases hnamed
    · rcases hsuspects.listed_record f hf a.op hlisted with ⟨w,hw⟩ | ⟨g,hg⟩
      · rw [hwrite] at hw
        cases hw
      · rw [hkept] at hg
        cases hg
  · exact h f hf op w hw

/-- No relisting of the run changed the list of a recorded write. -/
def ListsKept (ticks : List (Tick E T I)) : Prop :=
  ∀ t ∈ ticks, ∀ lists, t.call = .relist lists → ∀ op w, t.before.writes.get op = some w →
    lists.get w.domains = t.before.lists.get w.domains

theorem Quiet.listedAll {call : Call E T} (hquiet : Quiet d call d') (hinv : Inv d)
    (hpromised : d.Promised call) (h : ListedAll d)
    (hlists : ∀ lists,call=.relist lists → ∀ op w,d.writes.get op=some w →
      lists.get w.domains=d.lists.get w.domains) : ListedAll d' := by
  cases hquiet.quieted with
  | places | tokens | mint=>exact h
  | joins held heldByEpoch hfrom hin =>
    obtain ⟨hwrite,hkept⟩:=hinv.joins_fresh hpromised hfrom
    exact ListedAll.inFlight (d:={ d with held,heldByEpoch }) h hinv.suspects hwrite hkept hin
  | @forget f window d' hf hresolved hok heq =>
    rw [heq]
    intro g hg op w hw
    rw [(releaseReach_frame _ _).choose_spec] at hg hw
    have hmem : g ∈ d.failures:=(mem_filter.mp hg).1
    rw [Write.namedBy,names_release]
    exact h g hmem op w hw
  | endPopped =>
    rw [(retireIfDrained_frame _ _).choose_spec]
    exact h
  | retire hforget =>
    obtain ⟨window, -,rfl⟩:=forgetAbandoned_ok hforget
    exact h
  | @relist lists =>
    intro f hf op w hw
    have hnames : w.namedBy lists f=w.namedBy d.lists f :=
      Failure.names_congr (fun list hreach=>hpromised list (.file f hf hreach))
        (fun list hreach=>hpromised list (.reach f hf hreach)) (hlists lists rfl op w hw)
    show w.namedBy lists f=true ↔ op ∈ f.listed
    rw [hnames]
    exact h f hf op w hw

theorem Run.listedAll (run : Run ticks d) (hkept : ListsKept ticks) : ListedAll d := by
  induction run using Run.steps with
  | new hinit =>
    cases hinit
    exact fun f hf=>(by cases hf)
  | @step ticks d call change run hinv hpromised hcall ih =>
    have h:=ih fun t ht=>hkept t (mem_cons_of_mem _ ht)
    rcases call_calls hinv hcall with ⟨d',rfl,hquiet⟩ | ⟨c₁,hprep,hadvance⟩
    · exact hquiet.listedAll hinv hpromised h fun lists hrelist=>hkept _ mem_cons_self lists hrelist
    · have hinv₁:=hprep.inv hinv hpromised
      have h₁ : ListedAll c₁.core:=by
        rcases hprep.failures with hstand | ⟨f,hobs⟩
        · exact h.descends hinv (hprep.descends hinv) hstand
        · exact h.observes hinv hobs
      exact h₁.descends hinv₁ (advance_descends hinv₁ hadvance) (advance_failures hinv₁ hadvance)

/-! ## The observation -/

def ObservedIn (ticks : List (Tick E T I)) (f : Failure I) : Prop :=
  ∃ t ∈ ticks, (∃ e, Event.failed e ∈ t.events ∧ e.id = f.id) ∧ Inv t.before ∧
    f.listed = t.before.observedWrites f.reach f.only

theorem ObservedIn.same {f' : Failure I} (h : ObservedIn ticks f) (hsame : f.Same f') :
    ObservedIn ticks f' := by
  unfold ObservedIn
  rw [hsame.id,hsame.listed,hsame.reach,hsame.only]
  exact h

theorem ObservedIn.cons (h : ObservedIn ticks f) (t : Tick E T I) : ObservedIn (t::ticks) f := by
  obtain ⟨t',ht',hrest⟩:=h
  exact ⟨t',mem_cons_of_mem _ ht',hrest⟩

theorem AdvanceStep.events_subset (hstep : AdvanceStep c c') :
    ∀ e ∈ c.due.events,e ∈ c'.due.events := by
  intro e he
  cases hstep with
  | progress l step =>
    cases step with
    | start starts hok =>
      obtain ⟨n,sealDomains, -, -,rfl⟩:=startSeal_ok hok
      exact he
    | empties | seals=>exact he
  | healed=>exact mem_append_left _ he
  | mark l step =>
    cases step with
    | pass passes free hok =>
      obtain ⟨window,d₂,d₃, -, -, -,rfl⟩:=passSeal_ok hok
      exact mem_append_left _ he
    | answer=>exact mem_append_left _ he

theorem advance_events_subset (hinv : Inv c.core) (hok : advance c=.ok c') :
    ∀ e ∈ c.due.events,e ∈ c'.due.events :=
  steps_invariant (P:=fun s=>∀ e ∈ c.due.events,e ∈ s.due.events) (advance_steps hinv hok).1
    (fun _ he=>he) fun _ _ hstep hs e he=>hstep.events_subset e (hs e he)

theorem Run.observedIn (run : Run ticks d) : ∀ f ∈ d.failures,ObservedIn ticks f := by
  induction run using Run.steps with
  | new hinit =>
    cases hinit
    exact fun f hf=>(by cases hf)
  | @step ticks d call change run hinv hpromised hcall ih =>
    intro f' hf'
    rcases call_calls hinv hcall with ⟨d',rfl,hquiet⟩ | ⟨c₁,hprep,hadvance⟩
    · rcases hquiet.failures with heq | ⟨id, -, -,heq⟩
      · exact (ih f' (heq ▸ hf')).cons _
      · have hmem : f' ∈ d.failures.filter fun g=>decide (g.id≠id):=heq ▸ hf'
        exact (ih f' (mem_filter.mp hmem).1).cons _
    · have hinv₁:=hprep.inv hinv hpromised
      obtain ⟨f₁,hf₁,hsame₁⟩:=(advance_failures hinv₁ hadvance).back hf'
      refine ObservedIn.same ?_ hsame₁
      rcases hprep.failures with hstand | ⟨f,hobs⟩
      · obtain ⟨f,hf,hsame⟩:=hstand.back hf₁
        exact ((ih f hf).cons _).same hsame
      · rw [hobs.failures] at hf₁
        rcases mem_append.mp hf₁ with hf₁ | hf₁
        · exact (ih f₁ hf₁).cons _
        · rw [mem_singleton.mp hf₁]
          obtain ⟨e,he,hid⟩:=hobs.told
          exact ⟨_,mem_cons_self,⟨e,advance_events_subset hinv₁ hadvance _ he,hid⟩,hinv,hobs.listed⟩

/-- Write `op` was uncovered in `d`, of a live lineage, the one confined to if any, in a file the
reach covers. -/
def Reached (d : Durability E T I) (f : Failure I) (op : OpId) : Prop :=
  ∃ w, d.writes.get op = some w ∧ f.only.all (fun l => decide (w.lineage = l)) = true ∧
    d.isLive w.lineage = true ∧ f.reach.reaches d.lists (d.lists.get w.domains) = true

/-- In every state a run reaches, with the lists of recorded writes kept, the writes a failure's rule
names over the uncovered and the kept records are exactly those it reached as it was observed. -/
theorem suspects_frozen (run : Run ticks d) (hkept : ListsKept ticks) :
    ∀ f ∈ d.failures, ∃ t ∈ ticks, (∃ e, Event.failed e ∈ t.events ∧ e.id = f.id) ∧
      ∀ op, (∃ x ∈ d.suspects f, x.op = op) ↔ Reached t.before f op := by
  intro f hf
  obtain ⟨hinv, -⟩:=run.keeps
  obtain ⟨t,ht,hfailed,hbefore,hlisted⟩:=run.observedIn f hf
  refine ⟨t,ht,hfailed,fun op=>?_⟩
  have hwrites:=run.listedAll hkept f hf
  have hreached : Reached t.before f op ↔ op ∈ f.listed:=by
    rw [hlisted,hbefore.mem_observedWrites]
    rfl
  rw [hreached]
  constructor
  · rintro ⟨x,hx,rfl⟩
    rcases mem_suspects.mp hx with ⟨op,w,hw,hnamed,rfl⟩ | ⟨op,g,hg,hnamed,rfl⟩
    · show w.op ∈ f.listed
      rw [hinv.keys.write_key op w hw]
      exact (hwrites op w hw).mp hnamed
    · show g.op ∈ f.listed
      rw [hinv.keys.kept_key op g hg]
      exact (hinv.suspects.kept_named f hf op g hg).mp hnamed
  · intro hmem
    rcases hinv.suspects.listed_record f hf op hmem with ⟨w,hw⟩ | ⟨g,hg⟩
    · exact ⟨w.suspect,mem_suspects.mpr (.inl ⟨op,w,hw,
        (hwrites op w hw).mpr hmem,rfl⟩),hinv.keys.write_key op w hw⟩
    · exact ⟨g.suspect,mem_suspects.mpr (.inr ⟨op,g,hg,
        (hinv.suspects.kept_named f hf op g hg).mpr hmem,rfl⟩),hinv.keys.kept_key op g hg⟩

/-- A write pushed to the failed file after the failure is not among its suspects. -/
theorem suspects_frozen_pushed_after :
    ∃ (ticks : List (Tick ℕ Unit ℕ)) (d : Durability ℕ Unit ℕ), Run ticks d ∧
      (d.writes.keys = [1, 2] ∧
        d.failures.map (fun f => (d.suspects f).map Suspect.op) = [[1]]) ∧
      ∀ f ∈ d.failures, ∃ t ∈ ticks, (∃ e, Event.failed e ∈ t.events ∧ e.id = f.id) ∧
        ∀ op, (∃ x ∈ d.suspects f, x.op = op) ↔ Reached t.before f op := by
  obtain ⟨ticks,d,run,hcheck⟩:=(smallCore_run List.Pairwise.nil).play make
    makes_of_make (flushedThenFailed++[.admit_ 2,.pushed (plainWrite 2 0 3 0)])
    (fun ticks d=>decide (d.writes.keys=[1,2] ∧
      d.failures.map (fun f=>(d.suspects f).map Suspect.op)=[[1]]) &&
      ticks.all fun t=>!(Tick.call t).isRelist) (by decide +kernel)
  rw [Bool.and_eq_true,all_eq_true] at hcheck
  refine ⟨ticks,d,run,of_decide_eq_true hcheck.1,suspects_frozen run fun t ht lists hrelist=>?_⟩
  have hnot:=hcheck.2 t ht
  rw [hrelist] at hnot
  cases hnot

end WindowsThreadpoolSys.DurableIoring
