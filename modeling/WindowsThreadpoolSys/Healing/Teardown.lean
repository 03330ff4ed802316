import WindowsThreadpoolSys.Healing.Owed

/-! The last reference to an entry goes after the registry's, and the registry lets an entry go only when
nothing is outstanding. A tick works on a snapshot, though: it may have seen the entry unhealed, and
submit its repair after the entry was healed, released and retired. Where no tick submits for an entry
that was healed since it looked, nothing is queued when the last reference goes. -/
namespace WindowsThreadpoolSys.Healing
open Library PoolEntry List Option State

variable {s s' : State} {failFast : Bool}

def Op.holding (e : ℕ) : Op → ℕ
  | release _ e' (.check _) => if e' = e then 1 else 0
  | release _ e' .retire => if e' = e then 1 else 0
  | tick left _ _ => left.count e
  | drops entries => entries.count e
  | _ => 0

/-- Every repair that was counted and not yet noted is outstanding, and none of an entry that has been
torn down with something queued. -/
structure Exact (entry : PoolEntry) : Prop where
  outstanding : entry.outstanding + entry.noted = entry.submitted
  closed : ∀ queued outstanding, entry.closedWith = some (queued, outstanding) →
    queued = 0 ∧ outstanding = 0

/-- What the holder of the lock has found of the entries it will retire. -/
def OpQuiet (s : State) : Op → Prop
  | .release _ e .retire => (s.entries e).outstanding = 0
  | .idle left kept out _ => (∀ e ∈ out, (s.entries e).outstanding = 0) ∧
      ∀ e, s.registry.count e = kept.count e + out.count e + left.count e
  | _ => True

structure Quiet (s : State) : Prop where
  exact_ : ∀ e, Exact (s.entries e)
  retired : ∀ e, e ∉ s.registry → (s.entries e).outstanding = 0
  refs : ∀ e, (s.entries e).refs = s.registry.count e +
    s.registrations.countP (fun r => decide (r.entry = some e)) + s.total (Op.holding e)
  ops : ∀ op ∈ s.ops, OpQuiet s op

theorem Quiet.new : Quiet .new where
  exact_ := fun e=>⟨rfl,by simp [State.new,PoolEntry.new]⟩
  retired:=fun e _=>rfl
  refs:=fun e=>rfl
  ops:=by simp [State.new]

structure Untouched (a b : PoolEntry) : Prop where
  outstanding : b.outstanding = a.outstanding
  noted : b.noted = a.noted
  submitted : b.submitted = a.submitted
  refs : b.refs = a.refs
  closedWith : b.closedWith = a.closedWith

theorem Untouched.refl (a : PoolEntry) : Untouched a a := ⟨rfl,rfl,rfl,rfl,rfl⟩

theorem Exact.untouched {a b : PoolEntry} (h : Exact a) (hsame : Untouched a b) : Exact b := by
  refine ⟨?_,?_⟩
  · rw [hsame.outstanding,hsame.noted,hsame.submitted]
    exact h.outstanding
  · rw [hsame.closedWith]
    exact h.closed

variable {op : Op}

theorem OpQuiet.kept (h : OpQuiet s op) (hok : OpOk s op)
    (hkept : ∀ e,(s.entries e).outstanding=0 → Retirable (s.entries e) →
      (s'.entries e).outstanding=0) (hregistry : s'.registry=s.registry) : OpQuiet s' op := by
  cases op with
  | owe r e pc | tick left pc since | drops entries | callback e pc=>trivial
  | release r e pc =>
    cases pc with
    | enter | check pc=>trivial
    | retire=>exact hkept e h hok.2
  | idle left kept out pc =>
    refine ⟨fun e he=>hkept e (h.1 e he) (hok.2.2.1 e he),?_⟩
    rw [hregistry]
    exact h.2

theorem OpQuiet.unlocked (s : State) (hlocking : op.locking=0) : OpQuiet s op := by
  cases op with
  | release r e pc =>
    cases pc with
    | retire=>cases hlocking
    | enter | check pc=>trivial
  | idle left kept out pc=>cases hlocking
  | owe r e pc | tick left pc since | drops entries | callback e pc=>trivial

theorem queued_zero {entry : PoolEntry} {handing reading unnoted : ℕ}
    (hb : Balanced entry handing reading unnoted) (he : Exact entry) (hzero : entry.outstanding=0) :
    entry.queued=0 := by
  have h1:=hb.submitted
  have h2:=hb.begun
  have h3:=hb.read
  have h4:=he.outstanding
  omega

section
variable (h : Quiet s) (hok : Ok s) (hop : op ∈ s.ops) (next : Option Op)
include h hok hop

theorem Quiet.moved (entries : ℕ → PoolEntry) (hexact : ∀ e,Exact (entries e))
    (hkept : ∀ e,(s.entries e).outstanding=0 → e ∉ s.registry ∨ Retirable (s.entries e) →
      (entries e).outstanding=0) (hrefs : ∀ e,(entries e).refs+op.holding e =
      (s.entries e).refs+(next.map (Op.holding e)).getD 0)
    (hnext : next.elim True (OpQuiet (({ s with entries } : State).go op next))) :
    Quiet (({ s with entries } : State).go op next) where
  exact_ := hexact
  retired:=fun e hnot=>hkept e (h.retired e hnot) (.inl hnot)
  refs:=by
    intro e
    have htotal:=total_go (s:={ s with entries }) hop next (Op.holding e)
    have hsame : ({ s with entries } : State).total (Op.holding e)=s.total (Op.holding e):=rfl
    have hold:=h.refs e
    have hnew:=hrefs e
    show (entries e).refs=s.registry.count e +
      s.registrations.countP (fun r=>decide (r.entry=some e))+_
    rw [hsame] at htotal
    omega
  ops:=by
    intro op' hop'
    obtain rfl | hold:=mem_go hop'
    · exact hnext
    · exact (h.ops op' hold).kept (hok.ops op' hold) (fun e hzero hret=>hkept e hzero (.inr hret)) rfl

theorem Quiet.go (hholding : ∀ e,(next.map (Op.holding e)).getD 0=op.holding e)
    (hnext : next.elim True (OpQuiet s)) : Quiet (s.go op next) :=
  h.moved hok hop next s.entries h.exact_ (fun _ hzero _=>hzero) (fun e=>by rw [hholding]) hnext

variable {e : ℕ}

theorem Quiet.changeGo (f : PoolEntry → PoolEntry) (hexact : Exact (f (s.entries e)))
    (hkept : (s.entries e).outstanding=0 → e ∉ s.registry ∨ Retirable (s.entries e) →
      (f (s.entries e)).outstanding=0) (hrefs : (f (s.entries e)).refs+op.holding e =
      (s.entries e).refs+(next.map (Op.holding e)).getD 0)
    (hother : ∀ e',e' ≠ e → (next.map (Op.holding e')).getD 0=op.holding e')
    (hnext : (next.map Op.locking).getD 0=0) : Quiet ((s.change e f).go op next) := by
  refine h.moved hok hop next (s.change e f).entries
    (fun e'=>change_forall e' hexact fun e' _=>h.exact_ e')
    (fun e'=>change_forall e' hkept fun _ _ hzero _=>hzero)
    (fun e'=>change_forall e' hrefs fun e' hne=>by rw [hother e' hne]) ?_
  cases next with
  | none=>trivial
  | some op'=>exact OpQuiet.unlocked _ hnext

theorem Quiet.touchGo (f : PoolEntry → PoolEntry) (hsame : Untouched (s.entries e) (f (s.entries e)))
    (hholding : ∀ e,(next.map (Op.holding e)).getD 0=op.holding e)
    (hnext : (next.map Op.locking).getD 0=0) : Quiet ((s.change e f).go op next) := by
  refine h.changeGo hok hop next f ((h.exact_ e).untouched hsame) (fun hzero _=>?_) ?_
    (fun e' _=>hholding e') hnext
  · rw [hsame.outstanding]
    exact hzero
  · rw [hsame.refs,hholding]

theorem Quiet.dropRef (next : Op) (hholding : op.holding e=next.holding e+1)
    (hother : ∀ e',e' ≠ e → next.holding e'=op.holding e') (hnext : next.locking=0) :
    Quiet ((s.change e PoolEntry.dropRef).go op (some next)) := by
  have hrefs:=h.refs e
  have hheld:=State.le_total hop (Op.holding e)
  refine h.changeGo hok hop (some next) PoolEntry.dropRef ⟨(h.exact_ e).outstanding,?_⟩
    (fun hzero _=>hzero) ?_ hother hnext
  · intro queued outstanding hclosed
    simp only [PoolEntry.dropRef] at hclosed
    split_ifs at hclosed with hlast
    · cases hclosed
      have hcount : s.registry.count e=0:=by omega
      have hzero:=h.retired e (List.count_eq_zero.mp hcount)
      exact ⟨queued_zero (hok.balanced e) (h.exact_ e) hzero,hzero⟩
    · exact (h.exact_ e).closed queued outstanding hclosed
  · show (s.entries e).refs-1+op.holding e=(s.entries e).refs+next.holding e
    omega

end

/-! ## Submitting -/

theorem Exact.submit {entry : PoolEntry} (h : Exact entry) (pc : SubmitPc)
    (hroom : pc=.count → entry.outstanding+1<2 ^ 32) : Exact (pc.effect entry) := by
  cases pc with
  | readClock=>exact h
  | stamp now | hand=>exact h.untouched ⟨rfl,rfl,rfl,rfl,rfl⟩
  | count =>
    have hout:=h.outstanding
    refine ⟨?_,h.closed⟩
    show (entry.outstanding+1) % 2 ^ 32+entry.noted=entry.submitted+1
    rw [Nat.mod_eq_of_lt (hroom rfl)]
    omega

theorem Quiet.submitGo (h : Quiet s) (hok : Ok s) (hop : op ∈ s.ops) (next : Option Op)
    (pc : SubmitPc) (hroom : pc=.count → (s.entries e).outstanding+1<2 ^ 32)
    (hcount : pc=.count → e ∈ s.registry ∧ ¬ Retirable (s.entries e))
    (hholding : ∀ e,(next.map (Op.holding e)).getD 0=op.holding e)
    (hnext : (next.map Op.locking).getD 0=0) : Quiet ((s.change e pc.effect).go op next) := by
  refine h.changeGo hok hop next pc.effect ((h.exact_ e).submit pc hroom) (fun hzero hwhere=>?_) ?_
    (fun e' _=>hholding e') hnext
  · cases pc with
    | readClock | stamp now | hand=>exact hzero
    | count =>
      obtain ⟨hin,hnot⟩:=hcount rfl
      exact hwhere.elim (fun hout=>absurd hin hout) (fun hret=>absurd hret hnot)
  · rw [hholding]
    cases pc <;> rfl

/-- A step that counts a repair finds room in the counter, and a tick's finds its entry still unhealed. -/
def timely (tick : Tick) : Bool :=
  match tick.event with
  | .act (.owe _ e (.submit .count)) _ => (tick.before.entries e).outstanding + 1 < 2 ^ 32
  | .act (.tick (e :: _) (.submit .count) _) _ =>
    (tick.before.entries e).unhealed && decide ((tick.before.entries e).outstanding + 1 < 2 ^ 32)
  | _ => true

section

variable (h : Quiet s)
include h

theorem Quiet.setStopped (stopped : Bool) : Quiet { s with stopped } :=
  ⟨h.exact_,h.retired,h.refs,h.ops⟩

theorem Quiet.actOwe (hok : Ok s) {choice : Bool} {r : Registration} {pc : OwePc}
    (hop : Op.owe r e pc ∈ s.ops) (hroom : pc=.submit .count → (s.entries e).outstanding+1<2 ^ 32) :
    Quiet (s.actOwe choice r e pc) := by
  obtain ⟨hr,hentry, -⟩:=hok.ops _ hop
  cases pc with
  | readClock=>exact h.go hok hop _ (fun _=>rfl) trivial
  | mark now =>
    exact h.touchGo hok hop (some (.owe r e .arrange)) (stampCancelled now) ⟨rfl,rfl,rfl,rfl,rfl⟩
      (fun _=>rfl) rfl
  | arrange =>
    cases choice with
    | true=>exact h.go hok hop none (fun _=>rfl) trivial
    | false=>exact h.go hok hop _ (fun _=>rfl) trivial
  | submit pc =>
    refine h.submitGo hok hop _ pc (fun hpc=>hroom (by rw [hpc])) (fun _=>⟨?_,fun hret=>?_⟩)
      (fun e'=>?_) ?_
    · exact hok.registered r hr e hentry
    · exact absurd hret.1 (hok.objects_pos hr hentry).ne'
    all_goals cases pc <;> rfl

theorem Quiet.actVisit (hok : Ok s) {rest : List ℕ} {pc : VisitPc} {since : PoolEntry}
    (hop : Op.tick (e::rest) pc since ∈ s.ops)
    (htimely : pc=.submit .count → (s.entries e).unhealed=true ∧
      (s.entries e).outstanding+1<2 ^ 32) : Quiet (s.actVisit failFast e rest pc since) := by
  have hlook : ∀ pc' since',Quiet (s.go (.tick (e::rest) pc since)
      (some (.tick (e::rest) pc' since'))):=fun pc' since' =>
    h.go hok hop _ (fun _=>rfl) trivial
  cases pc with
  | cancelled | started c | inFlight | overdueClock | overdueInFlight now | overdueSubmitted now=>exact hlook _ _
  | noteOverdue =>
    exact (h.touchGo hok hop (some (.tick (e::rest) (.submit .readClock) since)) noteOverdue
      ⟨rfl,rfl,rfl,rfl,rfl⟩ (fun _=>rfl) rfl).setStopped _
  | submit pc =>
    refine h.submitGo hok hop (some _) pc (fun hpc=>(htimely (by rw [hpc])).2) (fun hpc=>?_)
      (fun _=>rfl) rfl
    have hunhealed : ¬ (s.entries e).Healed:=by
      rw [healed_iff,(htimely (by rw [hpc])).1]
      simp
    refine ⟨?_,fun hret=>hunhealed hret.2⟩
    by_contra hnot
    exact hunhealed (hok.healed e hnot)
  | letGo =>
    refine h.dropRef hok hop (.tick rest .cancelled (.new 0)) ?_ (fun e' hne=>?_) rfl
    · exact count_cons_self
    · exact (count_cons_of_ne (Ne.symm hne)).symm

theorem Quiet.actCallback (hok : Ok s) {pc : CallbackPc}
    (hop : Op.callback e pc ∈ s.ops) : Quiet (s.actCallback e pc) := by
  cases pc with
  | readClock =>
    exact h.touchGo hok hop (some (.callback e (.stamp s.clock))) (readStart s.clock)
      ⟨rfl,rfl,rfl,rfl,rfl⟩ (fun _=>rfl) rfl
  | stamp now =>
    exact h.touchGo hok hop (some (.callback e .note)) (stampStarted now)
      ⟨rfl,rfl,rfl,rfl,rfl⟩ (fun _=>rfl) rfl
  | note =>
    -- this very callback is counted and not yet noted
    have hunnoted : 1 ≤ s.total (Op.unnoted e):=by
      have hle:=State.le_total hop (Op.unnoted e)
      simpa [Op.unnoted] using hle
    have hb:=hok.balanced e
    have h1:=hb.submitted
    have h2:=hb.begun
    have h3:=hb.read
    have hout:=(h.exact_ e).outstanding
    refine h.changeGo hok hop (some (.callback e .countRun)) noteStarted ⟨?_,(h.exact_ e).closed⟩
      (fun hzero _=>?_) rfl (fun _ _=>rfl) rfl
    · show (s.entries e).outstanding-1+((s.entries e).noted+1)=(s.entries e).submitted
      omega
    · show (s.entries e).outstanding-1=0
      omega
  | countRun =>
    exact h.touchGo hok hop (some (.callback e .resetStuck)) countRun
      ⟨rfl,rfl,rfl,rfl,rfl⟩ (fun _=>rfl) rfl
  | resetStuck=>exact h.touchGo hok hop none resetStuck ⟨rfl,rfl,rfl,rfl,rfl⟩ (fun _=>rfl) rfl

/-! ## Under the lock -/

theorem Quiet.relocked (hop : op ∈ s.ops) (next : Op)
    (hothers : ∀ op' ∈ s.ops.erase op,op'.locking=0) (entries : ℕ → PoolEntry)
    (registry : List ℕ) (locked : Bool) (registrations : List Registration)
    (hsame : ∀ e,Untouched (s.entries e) (entries e))
    (hretired : ∀ e,e ∉ registry → (s.entries e).outstanding=0)
    (hcount : ∀ e,registry.count e+registrations.countP (fun r => decide (r.entry=some e)) +
      next.holding e=s.registry.count e +
      s.registrations.countP (fun r => decide (r.entry=some e))+op.holding e)
    (hnext : OpQuiet ({ s with entries,registry,locked,registrations } : State) next) :
    Quiet (({ s with entries,registry,locked,registrations } : State).go op (some next)) where
  exact_ := fun e=>(h.exact_ e).untouched (hsame e)
  retired:=fun e hnot=>(hsame e).outstanding.trans (hretired e hnot)
  refs:=by
    intro e
    have htotal:=total_go (s:={ s with entries,registry,locked,registrations }) hop
      (some next) (Op.holding e)
    have hold : ({ s with entries,registry,locked,registrations } : State).total (Op.holding e) =
      s.total (Op.holding e):=rfl
    have hrefs:=h.refs e
    have hnew:=hcount e
    show (entries e).refs=registry.count e +
      registrations.countP (fun r=>decide (r.entry=some e))+_
    rw [(hsame e).refs]
    rw [hold,map_some,getD_some] at htotal
    omega
  ops:=by
    intro op' hop'
    obtain rfl | hold:=mem_cons.mp hop'
    · exact hnext
    · exact OpQuiet.unlocked _ (hothers op' hold)

theorem Quiet.actRelease (hok : Ok s) {r : Registration} {pc : ReleasePc}
    (hop : Op.release r e pc ∈ s.ops) (hstep : s.actRelease r e pc=some s') : Quiet s' := by
  cases pc with
  | enter =>
    obtain ⟨hr,hentry⟩:=hok.ops _ hop
    simp only [State.actRelease] at hstep
    split_ifs at hstep with hlocked
    cases hstep
    have hfree : s.locked=false:=by simpa using hlocked
    refine h.relocked hop (.release r e (.check .objects)) (hok.others_unlocked hop (by rw [hfree]; rfl))
      _ s.registry true _
      (fun e'=>change_forall e' ⟨rfl,rfl,rfl,rfl,rfl⟩ fun _ _=>Untouched.refl _) h.retired (fun e'=>?_) trivial
    have hperm:=(perm_cons_erase hr).countP_eq (fun r=>decide (r.entry=some e'))
    rw [countP_cons,hentry] at hperm
    simp only [Op.holding,some.injEq,decide_eq_true_eq] at hperm ⊢
    omega
  | check pc =>
    obtain ⟨-,hcheck⟩:=hok.ops _ hop
    obtain ⟨-,hdone⟩:=hcheck.step
    simp only [State.actRelease] at hstep
    split at hstep
    · cases hstep
      exact h.go hok hop _ (fun _=>rfl) trivial
    · rename_i hpc'
      cases hstep
      exact h.go hok hop _ (fun _=>rfl) (hdone hpc').2
    · cases hstep
      refine h.relocked hop (.drops [e]) (hok.others_of_locking hop rfl) s.entries s.registry false
        s.registrations (fun _=>Untouched.refl _) h.retired (fun e'=>?_) trivial
      simp [Op.holding,count_singleton]
  | retire =>
    obtain ⟨hreg, -⟩:=hok.ops _ hop
    have hzero : (s.entries e).outstanding=0:=h.ops _ hop
    cases hstep
    refine h.relocked hop (.drops _) (hok.others_of_locking hop rfl) s.entries _ false
      s.registrations (fun _=>Untouched.refl _) (fun e' hnot=>?_) (fun e'=>?_) trivial
    · by_cases hin : e' ∈ s.registry
      · have hkey : (s.entries e').key=(s.entries e).key:=by
          by_contra hne
          exact hnot (mem_filter.mpr ⟨hin,by simpa using hne⟩)
        rw [inj_on_of_nodup_map hok.keys hin hreg hkey]
        exact hzero
      · exact h.retired e' hin
    · have hperm:=(filter_append_perm
        (fun held=>decide ((s.entries held).key=(s.entries e).key)) s.registry).count_eq e'
      rw [count_append] at hperm
      simp only [Op.holding,count_append,count_singleton,decide_not,ne_eq,beq_iff_eq] at hperm ⊢
      omega

theorem Quiet.idleEnter (hok : Ok s) {pc : VisitPc} {since : PoolEntry}
    (hop : Op.tick [] pc since ∈ s.ops) (hfree : s.locked=false) :
    Quiet (({ s with locked := true }).go (.tick [] pc since)
      (some (.idle s.registry [] [] .objects))) := by
  refine h.relocked hop (.idle s.registry [] [] .objects)
    (hok.others_unlocked hop (by rw [hfree]; rfl)) s.entries s.registry true s.registrations
    (fun _=>Untouched.refl _) h.retired (fun _=>rfl) ⟨by simp,by simp⟩

theorem Quiet.actIdle (hok : Ok s) {left kept out : List ℕ} {pc : CheckPc}
    (hop : Op.idle left kept out pc ∈ s.ops) : Quiet (s.actIdle left kept out pc) := by
  obtain ⟨hout,hcount⟩:=h.ops _ hop
  obtain ⟨-,hall, -,hhead⟩:=hok.ops _ hop
  cases left with
  | nil =>
    refine h.relocked hop (.drops out) (hok.others_of_locking hop rfl) s.entries kept false
      s.registrations (fun _=>Untouched.refl _) (fun e hnot=>?_) (fun e=>?_) trivial
    · by_cases hin : e ∈ s.registry
      · obtain hkept | hretired | hleft:=hall e hin
        · exact absurd hkept hnot
        · exact hout e hretired
        · cases hleft
      · exact h.retired e hin
    · have:=hcount e
      simp only [Op.holding,count_nil] at this ⊢
      omega
  | cons e rest =>
    obtain ⟨-,hdone⟩:=(hhead e rfl).step
    simp only [State.actIdle]
    split
    · exact h.go hok hop _ (fun _=>rfl) ⟨hout,hcount⟩
    · rename_i hpc'
      refine h.go hok hop _ (fun _=>rfl) ⟨fun e' he'=>?_,fun e'=>?_⟩
      · obtain hin | hlast:=mem_append.mp he'
        · exact hout e' hin
        · obtain rfl:=mem_singleton.mp hlast
          exact (hdone hpc').2
      · have:=hcount e'
        simp only [count_append,count_cons,count_nil] at this ⊢
        omega
    · refine h.go hok hop _ (fun _=>rfl) ⟨hout,fun e'=>?_⟩
      have:=hcount e'
      simp only [count_append,count_cons,count_nil] at this ⊢
      omega

theorem Quiet.act (hok : Ok s) {choice : Bool} (hop : op ∈ s.ops)
    (htimely : timely ⟨s,.act op choice,s'⟩=true) (hstep : s.act failFast choice op=some s') :
    Quiet s' := by
  unfold State.act at hstep
  split at hstep
  · cases hstep
    refine h.actOwe hok hop fun hpc=>?_
    subst hpc
    simpa [timely] using htimely
  · exact h.actRelease hok hop hstep
  · split_ifs at hstep with hlocked
    cases hstep
    exact h.idleEnter hok hop (by simpa using hlocked)
  · cases hstep
    refine h.actVisit hok hop fun hpc=>?_
    subst hpc
    simpa [timely] using htimely
  · cases hstep
    exact h.actIdle hok hop
  · cases hstep
    exact h.go hok hop none (fun _=>rfl) trivial
  · rename_i e rest
    cases hstep
    refine h.dropRef hok hop (.drops rest) ?_ (fun e' hne=>?_) rfl
    · exact count_cons_self
    · exact (count_cons_of_ne (Ne.symm hne)).symm
  · cases hstep
    exact h.actCallback hok hop

/-! ## Beginnings -/

theorem Quiet.entered (op : Op) (entries : ℕ → PoolEntry) (hexact : ∀ e,Exact (entries e))
    (hout : ∀ e,(entries e).outstanding=(s.entries e).outstanding)
    (hrefs : ∀ e,(entries e).refs=(s.entries e).refs+op.holding e) (hlocking : op.locking=0) :
    Quiet { s with entries,ops := op::s.ops } where
  exact_ := hexact
  retired:=fun e hnot=>(hout e).trans (h.retired e hnot)
  refs:=by
    intro e
    have htotal : ({ s with entries,ops:=op::s.ops } : State).total (Op.holding e) =
      op.holding e+s.total (Op.holding e):=total_cons { s with entries } op _
    have hbefore:=h.refs e
    have hafter:=hrefs e
    show (entries e).refs=s.registry.count e +
      s.registrations.countP (fun r=>decide (r.entry=some e))+_
    omega
  ops:=by
    intro op' hop'
    obtain rfl | hold:=mem_cons.mp hop'
    · exact OpQuiet.unlocked _ hlocking
    · have hquiet:=h.ops op' hold
      cases op' with
      | release r e pc =>
        cases pc with
        | retire=>exact (hout e).trans hquiet
        | enter | check pc=>trivial
      | idle left kept out pc=>exact ⟨fun e he=>(hout e).trans (hquiet.1 e he),hquiet.2⟩
      | owe r e pc | tick left pc since | drops list | callback e pc=>trivial

theorem Quiet.snapshot (hok : Ok s) : Quiet s.snapshot := by
  have hnodup : s.registry.Nodup:=List.Nodup.of_map _ hok.keys
  refine h.entered (.tick s.registry .cancelled (.new 0)) _ (fun e=>?_) (fun e=>?_) (fun e=>?_) rfl
  · show Exact (if e ∈ s.registry then _ else _)
    split_ifs
    · exact ⟨(h.exact_ e).outstanding,(h.exact_ e).closed⟩
    · exact h.exact_ e
  · show (if e ∈ s.registry then _ else _ : PoolEntry).outstanding=_
    split_ifs <;> rfl
  · show (if e ∈ s.registry then _ else _ : PoolEntry).refs=_+s.registry.count e
    split_ifs with hin
    · rw [count_eq_one_of_mem hnodup hin]
      rfl
    · rw [count_eq_zero_of_not_mem hin]
      rfl

theorem Quiet.setRegistrations (registrations : List Registration) (minted : ℕ)
    (hcount : ∀ e,registrations.countP (fun r => decide (r.entry=some e)) =
      s.registrations.countP fun r => decide (r.entry=some e)) :
    Quiet { s with registrations,minted } := { h with
  refs:=by
    intro e
    show (s.entries e).refs=s.registry.count e +
      registrations.countP (fun r=>decide (r.entry=some e))+s.total _
    rw [hcount]
    exact h.refs e }

theorem Quiet.registerShared (hok : Ok s) (hfree : s.locked=false) (e key : ℕ) :
    Quiet { s.change e (·.share 1) with
      registrations := ⟨s.minted,key,some e⟩::s.registrations
      minted := s.minted+1 } where
  exact_ := by
    intro e'
    show Exact ((s.change e (·.share 1)).entries e')
    exact change_forall e' ⟨(h.exact_ e).outstanding,(h.exact_ e).closed⟩ fun e' _=>h.exact_ e'
  retired:=by
    intro e' (hnot : e' ∉ s.registry)
    show ((s.change e (·.share 1)).entries e').outstanding=0
    revert hnot
    exact change_forall e' (h.retired e) fun e' _=>h.retired e'
  refs:=by
    intro e'
    have hrefs:=h.refs e'
    show ((s.change e (·.share 1)).entries e').refs=s.registry.count e'+List.countP _ (_::_) +
      s.total _
    rw [countP_cons]
    by_cases heq : e'=e
    · subst heq
      rw [change_self,if_pos (by simp)]
      show (s.entries e').refs+1=_
      omega
    · rw [change_of_ne s _ heq,if_neg (by simpa using Ne.symm heq)]
      exact hrefs
  ops:=fun op hop=>OpQuiet.unlocked _ (hok.unlocked hfree op hop)

theorem Quiet.registerNew (hok : Ok s) (hfree : s.locked=false) (key : ℕ) : Quiet { s with
      entries := Function.update s.entries s.allocated { PoolEntry.new key with objects := 1,refs := 2 }
      allocated := s.allocated+1
      registry := s.registry++[s.allocated]
      registrations := ⟨s.minted,key,some s.allocated⟩::s.registrations
      minted := s.minted+1 } where
  exact_ := by
    intro e
    show Exact (Function.update s.entries s.allocated _ e)
    by_cases heq : e=s.allocated
    · subst heq
      rw [Function.update_self]
      exact ⟨rfl,fun _ _ hclosed=>by cases hclosed⟩
    · rw [Function.update_of_ne heq]
      exact h.exact_ e
  retired:=by
    intro e hnot
    have hne : e≠s.allocated:=by
      rintro rfl
      exact hnot (mem_append_right _ mem_cons_self)
    show (Function.update s.entries s.allocated _ e).outstanding=0
    rw [Function.update_of_ne hne]
    exact h.retired e fun hin=>hnot (mem_append_left _ hin)
  refs:=by
    intro e
    have hrefs:=h.refs e
    show (Function.update s.entries s.allocated _ e).refs =
      (s.registry++[s.allocated]).count e+List.countP _ (_::_)+s.total _
    rw [countP_cons,count_append,count_singleton]
    by_cases heq : e=s.allocated
    · -- nobody holds an entry that was never made
      subst heq
      rw [hok.fresh _ (le_refl _)] at hrefs
      rw [Function.update_self,if_pos (by simp),if_pos (by simp)]
      change 0=_ at hrefs
      show 2=_
      omega
    · rw [Function.update_of_ne heq,if_neg (by simpa using Ne.symm heq),
        if_neg (by simpa using Ne.symm heq)]
      exact hrefs
  ops:=fun op hop=>OpQuiet.unlocked _ (hok.unlocked hfree op hop)

theorem Quiet.register (hok : Ok s) (hfree : s.locked=false) (key : ℕ) (armed : Bool) :
    Quiet (s.register key armed) := by
  unfold State.register
  split
  · exact h.registerShared hok hfree _ key
  · cases armed with
    | true=>exact h.registerNew hok hfree key
    | false=>exact h.setRegistrations _ _ fun e=>by simp

theorem Quiet.step (hok : Ok s) {event : Event}
    (htimely : timely ⟨s,event,s'⟩=true) (hstep : s.step failFast event=some s') : Quiet s' := by
  unfold State.step at hstep
  rw [if_neg (fun hstopped=>by rw [if_pos hstopped] at hstep; cases hstep)] at hstep
  cases event with
  | clock by_ =>
    cases hstep
    exact ⟨h.exact_,h.retired,h.refs,h.ops⟩
  | register key armed =>
    simp only at hstep
    split_ifs at hstep with hlocked
    cases hstep
    exact h.register hok (by simpa using hlocked) key armed
  | owe r =>
    simp only at hstep
    split at hstep
    · cases hstep
    · rename_i e hentry
      split_ifs at hstep
      cases hstep
      exact h.entered (.owe r e .readClock) s.entries h.exact_ (fun _=>rfl) (fun _=>rfl) rfl
  | drop r =>
    simp only at hstep
    split_ifs at hstep with hguard
    split at hstep
    · rename_i hentry
      cases hstep
      refine h.setRegistrations _ s.minted fun e=>?_
      have hr : r ∈ s.registrations:=by
        simp only [holds,Bool.and_eq_true,decide_eq_true_eq] at hguard
        exact hguard.1.1
      rw [(perm_cons_erase hr).countP_eq,countP_cons_of_neg (by simp [hentry])]
    · rename_i e hentry
      cases hstep
      exact h.entered (.release r e .enter) s.entries h.exact_ (fun _=>rfl) (fun _=>rfl) rfl
  | tick =>
    simp only at hstep
    split_ifs at hstep
    cases hstep
    exact h.snapshot hok
  | dispatch e =>
    simp only at hstep
    split_ifs at hstep
    cases hstep
    have hsame : ∀ e',Untouched (s.entries e') ((s.change e PoolEntry.begin).entries e') :=
      fun e'=>change_forall e' ⟨rfl,rfl,rfl,rfl,rfl⟩ fun _ _=>Untouched.refl _
    exact h.entered (.callback e .readClock) _ (fun e'=>(h.exact_ e').untouched (hsame e'))
      (fun e'=>(hsame e').outstanding) (fun e'=>(hsame e').refs) rfl
  | act op choice =>
    simp only at hstep
    split_ifs at hstep with hop
    exact h.act hok hop htimely hstep

end

theorem Run.quiet {ticks : List Tick} (run : Run failFast ticks s)
    (htimely : ∀ tick ∈ ticks,timely tick=true) : Quiet s := by
  induction run with
  | start hinit=>exact hinit ▸ Quiet.new
  | next run event hstep ih =>
    refine (ih fun tick hin=>htimely tick (mem_cons_of_mem _ hin)).step (Run.ok run) ?_ hstep
    exact htimely _ mem_cons_self

/-! ## The last reference -/

/-- Where every counted repair was timely, the last reference to an entry is dropped with no repair queued
and none outstanding. -/
theorem torn_down_idle {ticks : List Tick} (run : Run failFast ticks s)
    (htimely : ∀ tick ∈ ticks, timely tick = true) (e : ℕ) {queued outstanding : ℕ}
    (hclosed : (s.entries e).closedWith = some (queued, outstanding)) :
    queued = 0 ∧ outstanding = 0 :=
  ((run.quiet htimely).exact_ e).closed queued outstanding hclosed

/-- The repair starts and is counted; then the object is dropped and its entry retired. -/
def repairedRelease : List Move :=
  firstRepair ++ [.enter (.clock 5), .enter (.dispatch 0)] ++ goOn 5 ++
    [.enter (.drop firstObject)] ++ goOn 9

theorem torn_down_idle_repaired :
    ∃ ticks s, Run false ticks s ∧ (∀ tick ∈ ticks, timely tick = true) ∧
      ∃ queued outstanding, (s.entries 0).closedWith = some (queued, outstanding) ∧
        queued = 0 ∧ outstanding = 0 := by
  obtain ⟨ticks,s,run,hcheck⟩:=(Execution.start rfl : Run false [] .new).play (State.read false)
    named_allows repairedRelease
    (fun ticks s=>ticks.all timely && (s.entries 0).closedWith.isSome) (by decide +kernel)
  rw [Bool.and_eq_true,List.all_eq_true] at hcheck
  obtain ⟨⟨queued,outstanding⟩,hclosed⟩:=isSome_iff_exists.mp hcheck.2
  exact ⟨ticks,s,run,hcheck.1,queued,outstanding,hclosed,torn_down_idle run hcheck.1 0 hclosed⟩

/-- A tick finds the repair overdue and is about to submit another. The overdue one starts and is counted,
the object is dropped and the entry retired; then the tick submits and drops the last reference. -/
def lateSubmission : List Move :=
  firstRepair ++ [.enter (.clock 60000000), .enter .tick] ++ goOn 7 ++ [.enter (.dispatch 0)] ++ goOn 5 ++
    [.enter (.drop firstObject)] ++ goOn 9 ++ goOn 5

/-- An entry may be torn down by the tick itself with a repair queued. -/
theorem torn_down_queued :
    ∃ ticks s, Run false ticks s ∧ (s.entries 0).closedWith = some (1, 1) := by
  obtain ⟨ticks,s,run,hcheck⟩:=(Execution.start rfl : Run false [] .new).play (State.read false)
    named_allows lateSubmission
    (fun _ s=>decide ((s.entries 0).closedWith=some (1,1))) (by decide +kernel)
  exact ⟨ticks,s,run,of_decide_eq_true hcheck⟩

end WindowsThreadpoolSys.Healing
