import WindowsThreadpoolSys.DurableIoring.Contract.Accounts

/-! The past of a run is what its ticks observed, abandoned, healed and covered. Where the mark passes an
epoch, no write of it is out, and each that completed was covered, or suspected by a failure abandoned
since or whose heal the lineage has released. -/
namespace WindowsThreadpoolSys.DurableIoring
open Library Durability List
open Relation (ReflTransGen)

variable {E T I : Type} [LinearOrder E] {d d' : Durability E T I} {c c' : Change E T I} {l : Key}
  {ticks : List (Tick E T I)} {p : Past E}

/-- What the ticks so far did. A resolution counts if none of its tokens is another instance's, which
would refuse it whole. -/
def pastOf (ticks : List (Tick E T I)) : Past E where
  abandoned id := ∃ t ∈ ticks, Event.abandoned id ∈ t.events
  healed id at_ := ∃ t ∈ ticks, ∃ items item, t.call = .resolve items ∧
    (∀ other ∈ items, other.1.id.instance_ = t.before.instance_) ∧ item ∈ items ∧
    item.2 = .heal ∧ item.1.id = id ∧ t.before.healNow = at_
  observed id op := ∃ t ∈ ticks, (∃ e, Event.failed e ∈ t.events ∧ e.id = id) ∧
    ∃ f ∈ t.after.failures, f.id = id ∧ op ∈ (t.after.suspects f).map Suspect.op
  covered op := ∃ t ∈ ticks, CoversOp t.before t.call op
  completed op l e := ∃ t ∈ ticks, t.call = .completed op .succeeded ∧
    ∃ w, t.before.writes.get op = some w ∧ w.lineage = l ∧ w.epoch = e

theorem Accounts.widen {past : Past E} (h : Accounts p d)
    (habandoned : ∀ id,p.abandoned id → past.abandoned id)
    (hhealed : ∀ id at_,p.healed id at_ → past.healed id at_)
    (hobserved : ∀ id op,p.observed id op → past.observed id op)
    (hcovered : ∀ op,p.covered op → past.covered op) :
    Accounts { past with completed := p.completed } d := by
  have hexcused : ∀ l op,p.Excused d l op →
      Past.Excused { past with completed:=p.completed } d l op:=by
    rintro l op ⟨id,hobs,hab | ⟨at_,hheal,hrest⟩⟩
    · exact ⟨id,hobserved id op hobs,.inl (habandoned id hab)⟩
    · exact ⟨id,hobserved id op hobs,.inr ⟨at_,hhealed id at_ hheal,hrest⟩⟩
  refine ⟨fun f hf at_ hat=>hhealed _ _ (h.healed f hf at_ hat),
    fun op w q hw hlive hstage hfailed=>?_,fun op l e hcompleted hlive=>?_⟩
  · rcases h.blamed op w q hw hlive hstage hfailed with hex | ⟨f,hf,hobs,hrest⟩
    · exact .inl (hexcused _ _ hex)
    · exact .inr ⟨f,hf,hobserved _ _ hobs,hrest⟩
  · rcases h.fate op l e hcompleted hlive with hthere | hcov | hex
    · exact .inl hthere
    · exact .inr (.inl (hcovered op hcov))
    · exact .inr (.inr (hexcused _ _ hex))

theorem Accounts.cons (h : Accounts (pastOf ticks) d) (t : Tick E T I) :
    Accounts { pastOf (t::ticks) with completed := (pastOf ticks).completed } d := by
  refine h.widen ?_ ?_ ?_ ?_
  · rintro id ⟨t',ht',hrest⟩
    exact ⟨t',mem_cons_of_mem _ ht',hrest⟩
  · rintro id at_ ⟨t',ht',hrest⟩
    exact ⟨t',mem_cons_of_mem _ ht',hrest⟩
  · rintro id op ⟨t',ht',hrest⟩
    exact ⟨t',mem_cons_of_mem _ ht',hrest⟩
  · rintro op ⟨t',ht',hrest⟩
    exact ⟨t',mem_cons_of_mem _ ht',hrest⟩

variable {call : Call E T}

theorem call_calls_completed (hinv : Inv d) (hok : d.call call=.ok c) :
    (∃ d',c=begin_ d' ∧ Quiet d call d' ∧ ∀ op end_,call ≠ .completed op end_) ∨
      ∃ c₁,Prepared d call c₁ ∧ advance c₁=.ok c := by
  by_cases hcompleted : ∃ op end_,call=.completed op end_
  · obtain ⟨op,end_,rfl⟩:=hcompleted
    exact .inr (completed_calls hok)
  · rcases call_calls hinv hok with ⟨d',rfl,hquiet⟩ | hprepared
    · exact .inl ⟨d',rfl,hquiet,fun op end_ heq=>hcompleted ⟨op,end_,heq⟩⟩
    · exact .inr hprepared

theorem pastOf_has {c₁ : Change E T I} (hinv₁ : Inv c₁.core) (hprep : Prepared d call c₁)
    (hadvance : advance c₁=.ok c) (hinv : Inv c.core) :
    Past.Has { pastOf (⟨d,⟨call,c⟩,c.core⟩::ticks) with completed := (pastOf ticks).completed }
      d call c₁ := by
  have hevents:=advance_events_subset hinv₁ hadvance
  refine {
    abandoned:=fun id hid=>⟨_,mem_cons_self,hevents _ hid⟩
    healed:=fun items item hcall hitem hheal=>?_
    observed:=fun f hobserves op hlisted=>?_
    covered:=fun op hcovers=>⟨_,mem_cons_self,hcovers⟩ }
  · subst hcall
    cases hprep with
    | resolved hinstance hfold=>exact ⟨_,mem_cons_self,items,item,rfl,hinstance,hitem,hheal,rfl,rfl⟩
  · obtain ⟨e,he,hid⟩:=hobserves.told
    have hf : f ∈ c₁.core.failures:=by rw [hobserves.failures]; simp
    obtain ⟨f',hf',hsame⟩:=(advance_failures hinv₁ hadvance).forth hf
    have hlisted' : op ∈ f'.listed:=hsame.listed ▸ hlisted
    exact ⟨_,mem_cons_self,⟨e,hevents _ he,hid⟩,f',hf',hsame.id,
      (hinv.mem_suspects_ops hf' ⟨f',hf',hlisted'⟩).mpr hlisted'⟩

theorem Accounts.completing {c₁ : Change E T I} (hinv : Inv d) (hprep : Prepared d call c₁)
    (h : Accounts { pastOf (⟨d,⟨call,c⟩,c.core⟩::ticks) with completed := (pastOf ticks).completed }
      c₁.core) : Accounts (pastOf (⟨d,⟨call,c⟩,c.core⟩::ticks)) c₁.core := by
  have hon:=(hprep.descends hinv).releasedOn
  refine ⟨h.healed,h.blamed,fun op l e hcompleted hlive=>?_⟩
  obtain ⟨t,ht,hrest⟩:=hcompleted
  rcases mem_cons.mp ht with rfl | ht
  · obtain ⟨hcall,w,hw,rfl,rfl⟩:=hrest
    simp only at hcall hw
    subst hcall
    cases hprep with
    | @succeeded _ w' hw' hstage _ =>
      rw [hw] at hw'
      cases hw'
      exact .inl ⟨{ w with stage:=.completed },Table.get_insert_self _ _ _,rfl,rfl,by simp⟩
    | @gone _ _ w' mid reads told hw' hstage hone hend =>
      rw [hw] at hw'
      cases hw'
      have hdead:=hend rfl
      rw [hon.isLive hlive] at hdead
      cases hdead
  · exact h.fate op l e ⟨t,ht,hrest⟩ hlive

theorem Run.completed_known (run : Run ticks d) :
    ∀ op l e,(pastOf ticks).completed op l e → l < d.nextLineage := by
  induction run using Run.steps with
  | new=>rintro op l e ⟨t,ht, -⟩; cases ht
  | @step ticks d call change run hinv hpromised hcall ih =>
    have hle:=(call_descends hinv hpromised hcall).nextLineage
    rintro op l e ⟨t,ht,hrest⟩
    rcases mem_cons.mp ht with rfl | ht
    · obtain ⟨-,w,hw,rfl, -⟩:=hrest
      obtain ⟨st,hst, -⟩:=hinv.lives.write_lineage op w hw
      exact (hinv.clocks.lineage_clock _ st hst).trans_le hle
    · exact (ih op l e ⟨t,ht,hrest⟩).trans_le hle

theorem Run.accounts (run : Run ticks d) : Accounts (pastOf ticks) d := by
  induction run using Run.steps with
  | new hinit =>
    cases hinit
    exact ⟨fun f hf=>(by cases hf),fun op w q hw=>(by cases hw),
      fun op l e hcompleted=>(by obtain ⟨t,ht, -⟩:=hcompleted; cases ht)⟩
  | @step ticks d call change run hinv hpromised hcall ih =>
    rcases call_calls_completed hinv hcall with ⟨d',rfl,hquiet,hnot⟩ | ⟨c₁,hprep,hadvance⟩
    · have hwide:=ih.cons ⟨d,⟨call,begin_ d'⟩,d'⟩
      have h:=hquiet.accounts hinv hpromised hwide (Run.completed_known run)
      refine ⟨h.healed,h.blamed,fun op l e hcompleted hlive=>?_⟩
      obtain ⟨t,ht,hrest⟩:=hcompleted
      rcases mem_cons.mp ht with rfl | ht
      · exact absurd hrest.1 (hnot op .succeeded)
      · exact h.fate op l e ⟨t,ht,hrest⟩ hlive
    · have hinv₁:=hprep.inv hinv hpromised
      have hsteps:=(advance_steps hinv₁ hadvance).1
      have hinv':=steps_invariant (P:=fun s=>Inv s.core) hsteps hinv₁ fun _ _ hs hi=>hs.inv hi
      have h:=hprep.accounts hinv hpromised (pastOf_has hinv₁ hprep hadvance hinv')
        (ih.cons ⟨d,⟨call,change⟩,change.core⟩)
      exact (steps_accounts hsteps hinv₁ (h.completing hinv hprep)).2

theorem steps_first {e : Event E I} (hsteps : ReflTransGen AdvanceStep c c')
    (hnot : e ∉ c.due.events) (he : e ∈ c'.due.events) :
    ∃ a b,ReflTransGen AdvanceStep c a ∧ AdvanceStep a b ∧ ReflTransGen AdvanceStep b c' ∧
      e ∉ a.due.events ∧ e ∈ b.due.events := by
  induction hsteps with
  | refl=>exact absurd he hnot
  | @tail a b hsteps hlast ih =>
    by_cases hbefore : e ∈ a.due.events
    · obtain ⟨x,y,hx,hstep,hy,hrest⟩:=ih hbefore
      exact ⟨x,y,hx,hstep,hy.tail hlast,hrest⟩
    · exact ⟨a,b,hsteps,hlast,.refl,hbefore,he⟩

/-- Where a `Durable` entry is made due, each completed write at or below it was covered, or
suspected by a failure abandoned or healed by then. -/
theorem durable_covered {t : Tick E T I} {through : E} (run : Run (t :: ticks) d)
    (hdurable : Event.durable l through ∈ t.events) :
    ∃ c, Within t c ∧
      (∃ st, c.core.lineages.get l = some st ∧ st.ended = false ∧
        st.durableThrough = some through) ∧
      (∀ op w, c.core.writes.get op = some w → w.lineage = l → through < w.epoch) ∧
      (∀ op h a, c.core.held.get op = some h → h.write = some a → a.lineage = l →
        through < a.epoch) ∧
      ∀ op e, (pastOf (t :: ticks)).completed op l e → e ≤ through →
        (pastOf (t :: ticks)).covered op ∨ (pastOf (t :: ticks)).Excused c.core l op := by
  cases run with
  | next run _ hstep =>
    obtain ⟨call,change,hpromised,hcall⟩:=hstep
    obtain ⟨hinv, -⟩:=Run.keeps run
    rcases call_calls_completed hinv hcall with ⟨d',rfl, -, -⟩ | ⟨c₁,hprep,hadvance⟩
    · cases hdurable
    · have hinv₁:=hprep.inv hinv hpromised
      have hsteps:=(advance_steps hinv₁ hadvance).1
      have hinv':=steps_invariant (P:=fun s=>Inv s.core) hsteps hinv₁ fun _ _ hs hi=>hs.inv hi
      have hmarkless : Event.durable l through ∉ c₁.due.events:=by
        intro hmem
        have hmark:=hprep.no_mark _ hmem
        cases hmark
      obtain ⟨a,b,ha,hstep,hb,hnew,hn⟩:=steps_first hsteps hmarkless hdurable
      have h₁:=(hprep.accounts hinv hpromised (pastOf_has hinv₁ hprep hadvance hinv')
        ((Run.accounts run).cons ⟨_,⟨call,change⟩,change.core⟩)).completing hinv hprep
      obtain ⟨hinvb,hb'⟩:=steps_accounts (ha.tail hstep) hinv₁ h₁
      obtain ⟨st,hst,hended,hmark⟩:=hstep.durable_new hnew hn
      have hrest:=hinvb.prefixOk hst hended
      have habove : ∀ e : E,above st.durableThrough e=true → through < e:=by
        intro e he
        rw [hmark] at he
        exact above_some.mp he
      refine ⟨b,⟨c₁,hprep,ha.tail hstep,hb⟩,⟨st,hst,hended,hmark⟩,
        fun op w hw hl=>habove _ (hrest.write_above op w hw hl),
        fun op h a hh ha hl=>habove _ (hrest.held_above op h a hh ha hl),
        fun op e hcompleted hle=>?_⟩
      rcases hb'.fate op l e hcompleted (isLive_iff.mpr ⟨st,hst,hended⟩) with
        ⟨w,hw,hl,rfl, -⟩ | hcovered | hexcused
      · exact absurd hle (habove _ (hrest.write_above op w hw hl)).not_ge
      · exact .inl hcovered
      · exact .inr hexcused

def latestTells (ticks : List (Tick ℕ Unit ℕ)) (l : Key) (through : ℕ) : Bool :=
  ticks.head?.any fun t => (durables l t.events).contains through

def Tick.completes (t : Tick ℕ Unit ℕ) (op : OpId) (l : Key) (e : ℕ) : Bool :=
  match t.call with
  | .completed op' .succeeded => decide (op' = op) && (t.before.writes.get op).any fun w =>
      decide (w.lineage = l) && decide (w.epoch = e)
  | _ => false

theorem Tick.completed_of_check {t : Tick ℕ Unit ℕ} {ticks : List (Tick ℕ Unit ℕ)} {op : OpId}
    {e : ℕ} (ht : t ∈ ticks) (h : t.completes op l e=true) : (pastOf ticks).completed op l e := by
  unfold completes at h
  split at h
  · next op' hcall =>
    simp only [Bool.and_eq_true,decide_eq_true_eq,Option.any_eq_true] at h
    obtain ⟨rfl,w,hw,hl,he⟩:=h
    exact ⟨t,ht,hcall,w,hw,hl,he⟩
  · cases h

/-- Epoch 1's flush fails and is healed; the flush of epoch 2 releases the heal, and the mark passes
both. Epoch 1's write completed, and is accounted for. -/
theorem durable_covered_after_heal :
    ∃ (t : Tick ℕ Unit ℕ) (ticks : List (Tick ℕ Unit ℕ)) (d : Durability ℕ Unit ℕ),
      Run (t :: ticks) d ∧ Event.durable 0 1 ∈ t.events ∧ (pastOf (t :: ticks)).completed 0 0 1 ∧
      ∃ c, Within t c ∧
      (∃ st, c.core.lineages.get 0 = some st ∧ st.ended = false ∧ st.durableThrough = some 1) ∧
      (∀ op w, c.core.writes.get op = some w → w.lineage = 0 → 1 < w.epoch) ∧
      (∀ op h a, c.core.held.get op = some h → h.write = some a → a.lineage = 0 → 1 < a.epoch) ∧
      ∀ op e, (pastOf (t :: ticks)).completed op 0 e → e ≤ 1 →
        (pastOf (t :: ticks)).covered op ∨ (pastOf (t :: ticks)).Excused c.core 0 op := by
  obtain ⟨ticks,d,run,hcheck⟩:=(smallCore_run List.Pairwise.nil).play make
    makes_of_make (healedThenSealed++[.flushed 0 2 0 none])
    (fun ticks _=>latestTells ticks 0 1 && ticks.any fun t=>Tick.completes t 0 0 1)
    (by decide +kernel)
  rw [Bool.and_eq_true,any_eq_true] at hcheck
  obtain ⟨htells,t₁,ht₁,hcompletes⟩:=hcheck
  cases ticks with
  | nil=>cases htells
  | cons t ticks =>
    have hdurable : Event.durable 0 1 ∈ Tick.events t:=mem_durables.mp (contains_iff_mem.mp htells)
    exact ⟨t,ticks,d,run,hdurable,Tick.completed_of_check ht₁ hcompletes,
      durable_covered run hdurable⟩

end WindowsThreadpoolSys.DurableIoring
