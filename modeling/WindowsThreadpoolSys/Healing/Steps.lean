import WindowsThreadpoolSys.Healing.Invariant

/-! One lemma for each kind of step, and from them what holds of every run. -/
namespace WindowsThreadpoolSys.Healing
open PoolEntry List State Op

variable {s s' : State} {failFast : Bool}

theorem goes_some {op op' : Op} (hlocking : op'.locking=op.locking)
    (hborrows : op'.borrows=none ∨ op'.borrows=op.borrows) (hdrops : op'.drops? = none)
    (hmentions : ∀ e ∈ op'.mentions,e ∈ op.mentions) : Goes op (some op') where
  locking := hlocking
  borrows:=by
    intro _ h
    cases h
    exact hborrows
  drops:=by
    intro _ h
    cases h
    exact hdrops
  mentions:=by
    intro _ h
    cases h
    exact hmentions

variable {op : Op}

theorem goes_none (hlocking : op.locking=0) : Goes op none where
  locking := hlocking.symm
  borrows:=by simp
  drops:=by simp
  mentions:=by simp

theorem Ok.setStopped (h : Ok s) (stopped : Bool) : Ok { s with stopped } :=
    { h with ops:=fun op hop=>(h.ops op hop).kept (fun _=>Kept.refl _) rfl rfl }

/-! ## Cancellations -/

variable {e : ℕ} {r : Registration}

theorem Ok.actOwe (h : Ok s) {choice : Bool} {pc : OwePc} (hop : Op.owe r e pc ∈ s.ops) :
    Ok (s.actOwe choice r e pc) := by
  obtain ⟨hr,hentry,hnow⟩:=h.ops _ hop
  have hpos:=h.objects_pos hr hentry
  cases pc with
  | readClock =>
    exact h.go hop (goes_some rfl (.inr rfl) rfl fun _ he=>he) (fun _=>⟨rfl,rfl,rfl⟩)
      ⟨hr,hentry,fun now hmark=>by cases hmark; exact h.clock⟩
  | mark now =>
    exact h.changeStill hop (some (.owe r e .arrange)) (goes_some rfl (.inr rfl) rfl fun _ he=>he)
      mem_cons_self (stampCancelled now) (kept_stampCancelled now hpos.ne')
      (Balanced.stampCancelled (h.balanced e) (hnow now rfl)) (fun _=>⟨rfl,rfl,rfl⟩)
      ⟨hr,hentry,by simp⟩
  | arrange =>
    cases choice with
    | true=>exact h.go hop (goes_none rfl) (fun _=>⟨rfl,rfl,rfl⟩) trivial
    | false =>
      exact h.go hop (goes_some rfl (.inr rfl) rfl fun _ he=>he) (fun _=>⟨rfl,rfl,rfl⟩)
        ⟨hr,hentry,by simp⟩
  | submit pc =>
    have hgoes : Goes (.owe r e (.submit pc))
        ((pc.next s.clock).map fun pc=>.owe r e (.submit pc)):=by
      cases pc with
      | hand=>exact goes_none rfl
      | readClock | stamp now | count=>exact goes_some rfl (.inr rfl) rfl fun _ he=>he
    refine h.changeGo hop _ hgoes mem_cons_self pc.effect (kept_submit pc) ?_ ?_ ?_
    · intro handing reading unnoted h1 h2 h3
      obtain rfl : reading=s.total (Op.reading e):=by cases pc <;> exact h2
      obtain rfl : unnoted=s.total (Op.unnoted e):=by cases pc <;> exact h3
      refine Balanced.submit (h.balanced e) pc ?_
      cases pc <;> simpa [Op.handing,SubmitPc.next] using h1
    · intro e' hne
      have hne' : e≠e':=Ne.symm hne
      cases pc <;> simp [SameWeights,SubmitPc.next,Op.handing,Op.reading,Op.unnoted,hne']
    · cases pc with
      | hand=>trivial
      | readClock | stamp now | count=>exact ⟨hr,hentry,by simp⟩

/-! ## Callbacks -/

theorem Ok.actCallback (h : Ok s) {pc : CallbackPc} (hop : Op.callback e pc ∈ s.ops) :
    Ok (s.actCallback e pc) := by
  have hcallback:=h.ops _ hop
  cases pc with
  | readClock =>
    refine h.changeGo hop (some (.callback e (.stamp s.clock))) (goes_some rfl (.inl rfl) rfl fun _ he=>he)
      mem_cons_self (readStart s.clock) (kept_readStart s.clock) ?_ ?_ ?_
    · intro handing reading unnoted h1 h2 h3
      obtain rfl : handing=_:=h1
      have hreading : reading+1=s.total (Op.reading e):=by simpa [Op.reading] using h2
      have hunnoted : unnoted=s.total (Op.unnoted e)+1:=by simpa [Op.unnoted] using h3
      subst hunnoted
      have hb:=h.balanced e
      rw [State.Weighs,← hreading] at hb
      exact Balanced.readStart hb s.clock
    · intro e' hne
      have hne' : e≠e':=Ne.symm hne
      simp [SameWeights,Op.handing,Op.reading,Op.unnoted,hne']
    · intro now hnow
      cases hnow
      simp [State.go,readStart]
  | stamp now =>
    refine h.changeStill hop (some (.callback e .note)) (goes_some rfl (.inl rfl) rfl fun _ he=>he)
      mem_cons_self (stampStarted now) (kept_stampStarted now)
      (Balanced.stampStarted (h.balanced e) (hcallback now rfl)) ?_ ?_
    · intro e'
      simp [SameWeights,Op.handing,Op.reading,Op.unnoted]
    · intro now hnow
      cases hnow
  | note =>
    refine h.changeGo hop (some (.callback e .countRun)) (goes_some rfl (.inl rfl) rfl fun _ he=>he)
      mem_cons_self noteStarted kept_noteStarted ?_ ?_ ?_
    · intro handing reading unnoted h1 h2 h3
      obtain rfl : handing=_:=h1
      obtain rfl : reading=_:=h2
      have hunnoted : unnoted+1=s.total (Op.unnoted e):=by simpa [Op.unnoted] using h3
      have hb:=h.balanced e
      rw [State.Weighs,← hunnoted] at hb
      exact Balanced.noteStarted hb
    · intro e' hne
      have hne' : e≠e':=Ne.symm hne
      simp [SameWeights,Op.handing,Op.reading,Op.unnoted,hne']
    · intro now hnow
      cases hnow
  | countRun =>
    exact h.changeStill hop (some (.callback e .resetStuck))
      (goes_some rfl (.inl rfl) rfl fun _ he=>he) mem_cons_self countRun (.of_same rfl)
      (Balanced.congr (h.balanced e) rfl) (fun _=>⟨rfl,rfl,rfl⟩) fun now hnow=>by cases hnow
  | resetStuck =>
    exact h.changeStill hop none (goes_none rfl) mem_cons_self resetStuck (.of_same rfl)
      (Balanced.congr (h.balanced e) rfl) (fun _=>⟨rfl,rfl,rfl⟩) trivial

/-! ## Ticks -/

variable {since : PoolEntry}

theorem answered_of_started {entry : PoolEntry} {handing reading unnoted c : ℕ}
    (h : Balanced entry handing reading unnoted) (hlater : Later since entry)
    (hnoted : since.noted ≤ since.reads.length) (hmarks : ∀ m ∈ since.marks,m ≤ c)
    (hstarted : c < entry.lastStarted) (howed : since.Owed) : Answered since entry := by
  obtain ⟨m,hm,hreads⟩:=howed
  have hmc:=hmarks m hm
  have hmem : entry.lastStarted ∈ entry.reads:=h.started.resolve_left (by omega)
  have hnew : entry.lastStarted ∉ since.reads:=fun hold=>by
    have:=hreads _ hold
    omega
  have hlength : since.reads.length < entry.reads.length:=by
    obtain hlt | heq:=Nat.lt_or_eq_of_le hlater.reads.length_le
    · exact hlt
    · rw [hlater.reads.eq_of_length heq] at hnew
      exact absurd hmem hnew
  have h1:=h.submitted
  have h2:=h.begun
  unfold Answered
  omega

theorem Ok.actVisit (h : Ok s) {rest : List ℕ} {pc : VisitPc}
    (hop : Op.tick (e::rest) pc since ∈ s.ops) : Ok (s.actVisit failFast e rest pc since) := by
  have hvisit : VisitOk since (s.entries e) pc:=h.ops _ hop
  have hb:=h.balanced e
  -- a visit that only looks goes on with what the look found
  have hlook : ∀ pc' since',(∀ e',SameWeights (.tick (e::rest) pc since)
      (some (.tick (e::rest) pc' since')) e') → VisitOk since' (s.entries e) pc' →
      Ok (s.go (.tick (e::rest) pc since) (some (.tick (e::rest) pc' since'))) :=
    fun pc' since' hsame hok=>h.go hop (goes_some rfl (.inl rfl) rfl fun _ he=>he) hsame hok
  cases pc with
  | cancelled =>
    simp only [State.actVisit]
    split_ifs with hzero
    · refine hlook _ _ (fun _=>⟨rfl,rfl,rfl⟩) ⟨Later.refl _,fun howed=>?_⟩
      obtain ⟨m,hm, -⟩:=howed
      have:=hb.marks m hm
      omega
    · refine hlook _ _ (fun _=>⟨rfl,rfl,rfl⟩) ⟨Later.refl _,?_,fun m hm=>(hb.marks m hm).2⟩
      have:=hb.read
      omega
  | started c =>
    obtain ⟨hlater,hnoted,hmarks⟩:=hvisit
    simp only [State.actVisit]
    split_ifs with hle
    · exact hlook _ _ (fun _=>⟨rfl,rfl,rfl⟩) hlater
    · exact hlook _ _ (fun _=>⟨rfl,rfl,rfl⟩) ⟨hlater,
        answered_of_started hb hlater hnoted hmarks (not_le.mp hle)⟩
  | inFlight =>
    simp only [State.actVisit]
    split_ifs with hpos
    · refine hlook _ _ (fun _=>⟨rfl,rfl,rfl⟩) ⟨hvisit,.inr ?_⟩
      have:=hb.outstanding
      omega
    · exact hlook _ _ (fun _=>⟨rfl,rfl,rfl⟩) hvisit
  | overdueClock=>exact hlook _ _ (fun _=>⟨rfl,rfl,rfl⟩) hvisit
  | overdueInFlight now =>
    simp only [State.actVisit]
    split_ifs with hpos
    · exact hlook _ _ (fun _=>⟨rfl,rfl,rfl⟩) hvisit
    · exact hlook _ _ (fun _=>⟨rfl,rfl,rfl⟩) ⟨hvisit.1,fun _=>hvisit.2⟩
  | overdueSubmitted now =>
    simp only [State.actVisit]
    split_ifs with hdue
    · exact hlook _ _ (fun _=>⟨rfl,rfl,rfl⟩) hvisit.1
    · exact hlook _ _ (fun _=>⟨rfl,rfl,rfl⟩) ⟨hvisit.1,fun _=>hvisit.2⟩
  | noteOverdue =>
    have hkept : Kept (s.entries e) (s.entries e).noteOverdue:=.of_same rfl
    have hgone : Ok ((s.change e noteOverdue).go (.tick (e::rest) .noteOverdue since)
        (some (.tick (e::rest) (.submit .readClock) since))):=by
      refine h.changeStill hop (some (.tick (e::rest) (.submit .readClock) since))
        (goes_some rfl (.inl rfl) rfl fun _ he=>he) mem_cons_self noteOverdue hkept
        (Balanced.congr hb rfl) (fun _=>⟨rfl,rfl,rfl⟩) ?_
      show VisitOk since (((s.change e noteOverdue).go _ _).entries e) (.submit .readClock)
      simp only [State.go,change_self]
      exact Later.trans hvisit hkept.toLater
    exact hgone.setStopped _
  | submit pc =>
    obtain ⟨pc',hact,hpc'⟩ : ∃ pc',s.actVisit failFast e rest (.submit pc) since =
        (s.change e pc.effect).go (.tick (e::rest) (.submit pc) since)
          (some (.tick (e::rest) pc' since)) ∧ pc'=(pc.next s.clock).elim .letGo .submit:=by
      cases pc <;> exact ⟨_,rfl,rfl⟩
    have hkept : Kept (s.entries e) (pc.effect (s.entries e)):=kept_submit pc
    rw [hact]
    refine h.changeGo hop (some (.tick (e::rest) pc' since))
      (goes_some rfl (.inl rfl) rfl fun _ he=>he) mem_cons_self pc.effect hkept ?_ ?_ ?_
    · intro handing reading unnoted h1 h2 h3
      subst hpc'
      obtain rfl : reading=_:=h2
      obtain rfl : unnoted=_:=h3
      refine Balanced.submit hb pc ?_
      cases pc <;> simpa [Op.handing,SubmitPc.next] using h1
    · intro e' hne
      subst hpc'
      have hne' : e≠e':=Ne.symm hne
      cases pc <;> simp [SameWeights,SubmitPc.next,Op.handing,Op.reading,Op.unnoted,hne']
    · show VisitOk since (((s.change e pc.effect).go _ _).entries e) pc'
      simp only [State.go,change_self]
      subst hpc'
      cases pc with
      | readClock | stamp now=>exact Later.trans hvisit hkept.toLater
      | count =>
        refine ⟨Later.trans hvisit hkept.toLater,.inr ?_⟩
        show (s.entries e).noted<(s.entries e).submitted+1
        have:=hb.outstanding
        omega
      | hand=>exact ⟨hvisit.1.trans hkept.toLater,fun _=>hvisit.2.later hvisit.1 hkept.toLater⟩
  | letGo =>
    refine h.changeStill hop (some (.tick rest .cancelled (.new 0)))
      (goes_some rfl (.inl rfl) rfl fun _ he=>mem_cons_of_mem _ he) mem_cons_self dropRef
      (.of_same rfl) (Balanced.congr hb rfl) (fun e'=>⟨?_,rfl,rfl⟩) ?_
    · cases rest <;> rfl
    · cases rest <;> trivial

/-! ## Under the lock -/

theorem OpOk.unlocked (h : OpOk s op) (hlocking : op.locking=0)
    (hlater : ∀ e,Later (s.entries e) (s'.entries e))
    (hregistrations : ∀ r,op.borrows=some r ∨ op.drops? = some r → r ∈ s.registrations →
      r ∈ s'.registrations) : OpOk s' op := by
  cases op with
  | owe r e pc=>exact ⟨hregistrations r (.inl rfl) h.1,h.2⟩
  | release r e pc =>
    cases pc with
    | enter=>exact ⟨hregistrations r (.inr rfl) h.1,h.2⟩
    | check pc | retire=>cases hlocking
  | tick left pc since =>
    cases left with
    | nil=>trivial
    | cons e rest=>exact VisitOk.later h (hlater e)
  | idle left kept out pc=>cases hlocking
  | drops entries=>trivial
  | callback e pc=>exact fun now hpc=>(hlater e).reads.subset (h now hpc)

theorem Ok.others_unlocked (h : Ok s) (hop : op ∈ s.ops)
    (hlock : op.locking=if s.locked then 1 else 0) : ∀ op' ∈ s.ops.erase op,op'.locking=0 := by
  intro op' hop'
  have herase:=sum_map_erase locking hop
  have htotal:=h.lock
  unfold total at htotal
  have hle:=single_le_sum (by simp) _ (mem_map_of_mem (f:=locking) hop')
  omega

theorem Ok.relocked (h : Ok s) (hop : op ∈ s.ops) (next : Op)
    (hothers : ∀ op' ∈ s.ops.erase op,op'.locking=0) (entries : ℕ → PoolEntry)
    (registry : List ℕ) (locked : Bool) (registrations : List Registration)
    (hsame : ∀ e,SameWeights op (some next) e) (hlater : ∀ e,Later (s.entries e) (entries e))
    (hbalanced : ∀ e handing reading unnoted,Balanced (s.entries e) handing reading unnoted →
      Balanced (entries e) handing reading unnoted)
    (hobjects : ∀ e,(entries e).objects=registrations.countP fun r => r.entry=some e)
    (hregistry : registry.Sublist s.registry)
    (hregistered : ∀ r ∈ registrations,∀ e,r.entry=some e → e ∈ registry)
    (hhealed : ∀ e,e ∉ registry → (entries e).Healed) (hlock : next.locking=if locked then 1 else 0)
    (hkept : ∀ op' ∈ s.ops.erase op,∀ r,op'.borrows=some r ∨ op'.drops? = some r →
      r ∈ s.registrations → r ∈ registrations)
    (hnext : OpOk ({ s with entries,registry,locked,registrations } : State) next)
    (hborrows : next.borrows=none) (hdrops : next.drops? = none)
    (hmentions : ∀ e ∈ next.mentions,e < s.allocated)
    (hfresh : ∀ e,s.allocated ≤ e → entries e=s.entries e) :
    Ok (({ s with entries,registry,locked,registrations } : State).go op (some next)) := by
  have hmem : ∀ op',op' ∈ next::s.ops.erase op → op'=next ∨ op' ∈ s.ops.erase op :=
    fun op'=>mem_cons.mp
  have hin : ∀ op' ∈ s.ops.erase op,op' ∈ s.ops:=fun op'=>mem_of_mem_erase
  refine {
    clock:=h.clock
    balanced:=fun e=>hbalanced e _ _ _ (Balanced.go h hop (hsame e) s.entries rfl)
    objects:=hobjects
    keys:=?_
    registered:=hregistered
    healed:=hhealed
    lock:=?_
    ops:=fun op' hop'=>?_
    apart:=fun op₁ h₁ op₂ h₂ r hb hd=>?_
    once:=fun r=>?_
    allocated:=fun e he=>h.allocated e (hregistry.subset he)
    mentions:=fun op' hop' e he=>?_
    fresh:=fun e hle=>(hfresh e hle).trans (h.fresh e hle) }
  · have hkeys : (fun e=>(entries e).key)=fun e=>(s.entries e).key :=
      funext fun e=>(hlater e).key
    show (registry.map fun e=>(entries e).key).Nodup
    rw [hkeys]
    exact (hregistry.map _).nodup h.keys
  · have hzero : ((s.ops.erase op).map locking).sum=0:=by
      rw [sum_eq_zero_iff]
      intro weight hweight
      obtain ⟨op',hop',rfl⟩:=mem_map.mp hweight
      exact hothers op' hop'
    show ((next::s.ops.erase op).map locking).sum=if locked then 1 else 0
    rw [map_cons,sum_cons,hzero,hlock]
    rfl
  · obtain rfl | hold:=hmem op' hop'
    · exact hnext
    · exact (h.ops op' (hin op' hold)).unlocked (hothers op' hold) hlater (hkept op' hold)
  · obtain rfl | hold₂:=hmem op₂ h₂
    · exact absurd hd (by rw [hdrops]; simp)
    · obtain rfl | hold₁:=hmem op₁ h₁
      · rw [hborrows] at hb
        cases hb
      · exact h.apart op₁ (hin _ hold₁) op₂ (hin _ hold₂) r hb hd
  · have hsub:=(erase_sublist (a:=op) (l:=s.ops)).countP_le
      (p:=fun op'=>decide (op'.drops? = some r))
    show (next::s.ops.erase op).countP (fun op'=>op'.drops? = some r)≤1
    rw [countP_cons_of_neg (by simp [hdrops])]
    exact hsub.trans (h.once r)
  · obtain rfl | hold:=hmem op' hop'
    · exact hmentions e he
    · exact h.mentions op' (hin op' hold) e he

theorem later_loseObject (entry : PoolEntry) : Later entry entry.loseObject :=
  ⟨rfl,le_refl _,le_refl _,suffix_refl _,le_refl _⟩

theorem Ok.releaseEnter (h : Ok s) (hop : Op.release r e .enter ∈ s.ops) (hfree : s.locked=false) :
    Ok (({ s.change e loseObject with
      registrations := s.registrations.erase r
      locked := true }).go (.release r e .enter) (some (.release r e (.check .objects)))) := by
  obtain ⟨hr,hentry⟩:=h.ops _ hop
  have hothers:=h.others_unlocked hop (by rw [hfree]; rfl)
  have hreg:=h.registered r hr e hentry
  -- another operation uses another registration
  have hne : ∀ op' ∈ s.ops.erase (.release r e .enter),∀ r',
      op'.borrows=some r' ∨ op'.drops? = some r' → r'≠r:=by
    intro op' hop' r' huse heq
    subst heq
    obtain hb | hd:=huse
    · exact h.apart op' (mem_of_mem_erase hop') _ hop r' hb rfl
    · have hcount:=h.once r'
      have hperm:=(perm_cons_erase hop).countP_eq (fun op=>decide (op.drops? = some r'))
      have hpos : 0<(s.ops.erase (.release r' e .enter)).countP
          (fun op=>decide (op.drops? = some r')) :=
        countP_pos_iff.mpr ⟨op',hop',by simpa using hd⟩
      rw [hperm,countP_cons_of_pos (by simp [drops?])] at hcount
      omega
  have hcount : ∀ e',(s.registrations.erase r).countP (fun r=>decide (r.entry=some e')) +
      (if e'=e then 1 else 0)=s.registrations.countP fun r=>decide (r.entry=some e'):=by
    intro e'
    have hperm:=(perm_cons_erase hr).countP_eq (fun r=>decide (r.entry=some e'))
    rw [hperm,countP_cons]
    by_cases heq : e'=e
    · simp [heq,hentry]
    · simp [heq,hentry,Ne.symm heq]
  refine h.relocked hop (.release r e (.check .objects)) hothers _ s.registry true _
    (fun _=>⟨rfl,rfl,rfl⟩) (fun e'=>change_forall e' (later_loseObject _) fun _ _=>Later.refl _)
    (fun e' handing reading unnoted=>change_forall e' (Balanced.congr · rfl) fun _ _=>id) (fun e'=>?_)
    (List.Sublist.refl _) (fun r' hr'=>h.registered r' (mem_of_mem_erase hr')) (fun e' hnot=>?_)
    rfl (fun op' hop' r' huse hin=>(mem_erase_of_ne (hne op' hop' r' huse)).mpr hin)
    ⟨hreg,trivial⟩ rfl rfl (fun e' he'=>?_) (fun e' hle=>?_)
  · have hc:=hcount e'
    have ho:=h.objects e'
    by_cases heq : e'=e
    · subst heq
      rw [change_self]
      rw [if_pos rfl] at hc
      show (s.entries e').objects-1=_
      omega
    · rw [change_of_ne s _ heq]
      rw [if_neg heq] at hc
      omega
  · have hne' : e'≠e:=by
      rintro rfl
      exact hnot hreg
    rw [change_of_ne s _ hne']
    exact h.healed e' hnot
  · obtain rfl:=mem_singleton.mp he'
    exact h.allocated _ hreg
  · have hlt:=h.allocated e hreg
    exact change_of_ne s _ (by omega)

theorem CheckOk.step {entry : PoolEntry} {pc : CheckPc} (h : CheckOk entry pc) :
    (∀ pc',pc.step entry=.inl pc' → CheckOk entry pc') ∧
      (pc.step entry=.inr true → Retirable entry ∧ entry.outstanding=0) := by
  cases pc with
  | objects =>
    simp only [CheckPc.step]
    split_ifs with hzero
    · exact ⟨fun pc' hpc=>(by cases hpc; exact hzero),fun hpc=>by cases hpc⟩
    · exact ⟨fun pc' hpc=>(by cases hpc),fun hpc=>by cases hpc⟩
  | cancelled =>
    simp only [CheckPc.step]
    split_ifs with hzero
    · exact ⟨fun pc' hpc=>(by cases hpc; exact ⟨h,.inl hzero⟩),fun hpc=>by cases hpc⟩
    · exact ⟨fun pc' hpc=>(by cases hpc; exact ⟨h,rfl⟩),fun hpc=>by cases hpc⟩
  | started c =>
    simp only [CheckPc.step]
    split_ifs with hle
    · exact ⟨fun pc' hpc=>(by cases hpc),fun hpc=>by cases hpc⟩
    · refine ⟨fun pc' hpc=>?_,fun hpc=>by cases hpc⟩
      cases hpc
      refine ⟨h.1,.inr ?_⟩
      rw [h.2]
      exact not_le.mp hle
  | outstanding =>
    refine ⟨fun pc' hpc=>(by cases hpc),fun hpc=>⟨h,?_⟩⟩
    simpa [CheckPc.step] using hpc

theorem Ok.others_of_locking (h : Ok s) (hop : op ∈ s.ops) (hheld : op.locking=1) :
    ∀ op' ∈ s.ops.erase op,op'.locking=0 := by
  refine h.others_unlocked hop ?_
  have hle:=State.le_total hop locking
  have hlock:=h.lock
  cases hlocked : s.locked with
  | true=>exact hheld
  | false =>
    rw [hlocked,if_neg (by simp)] at hlock
    omega

theorem Ok.unlock (h : Ok s) (hop : op ∈ s.ops) (hheld : op.locking=1) {list : List ℕ}
    (hsame : ∀ e,SameWeights op (some (.drops list)) e) (hmentions : ∀ e ∈ list,e < s.allocated)
    (registry : List ℕ) (hregistry : registry.Sublist s.registry)
    (hregistered : ∀ r ∈ s.registrations,∀ e,r.entry=some e → e ∈ registry)
    (hhealed : ∀ e,e ∉ registry → (s.entries e).Healed) :
    Ok (({ s with registry,locked := false }).go op (some (.drops list))) :=
  h.relocked hop (.drops list) (h.others_of_locking hop hheld) s.entries registry false s.registrations
    hsame (fun _=>Later.refl _) (fun _ _ _ _ hb=>hb) h.objects hregistry hregistered hhealed rfl
    (fun _ _ _ _ hin=>hin) trivial rfl rfl hmentions (fun _ _=>rfl)

theorem Ok.actRelease (h : Ok s) {pc : ReleasePc} (hop : Op.release r e pc ∈ s.ops)
    (hstep : s.actRelease r e pc=some s') : Ok s' := by
  have hmentions : e < s.allocated:=h.mentions _ hop e mem_cons_self
  cases pc with
  | enter =>
    simp only [State.actRelease] at hstep
    split_ifs at hstep with hlocked
    cases hstep
    exact h.releaseEnter hop (by simpa using hlocked)
  | check pc =>
    obtain ⟨hreg,hcheck⟩:=h.ops _ hop
    obtain ⟨hgoes,hdone⟩:=hcheck.step
    simp only [State.actRelease] at hstep
    split at hstep
    · rename_i pc' hpc'
      cases hstep
      exact h.go hop (goes_some rfl (.inl rfl) rfl fun _ he=>he) (fun _=>⟨rfl,rfl,rfl⟩)
        ⟨hreg,hgoes pc' hpc'⟩
    · rename_i hpc'
      cases hstep
      exact h.go hop (goes_some rfl (.inl rfl) rfl fun _ he=>he) (fun _=>⟨rfl,rfl,rfl⟩)
        ⟨hreg,(hdone hpc').1⟩
    · cases hstep
      refine h.unlock hop rfl (fun _=>⟨rfl,rfl,rfl⟩) ?_ s.registry (List.Sublist.refl _)
        h.registered h.healed
      intro e' he'
      obtain rfl:=mem_singleton.mp he'
      exact hmentions
  | retire =>
    obtain ⟨hreg,hretirable⟩:=h.ops _ hop
    cases hstep
    -- one entry has that key
    have hsame : ∀ e' ∈ s.registry,(s.entries e').key=(s.entries e).key → e'=e :=
      fun e' he' hkey=>inj_on_of_nodup_map h.keys he' hreg hkey
    refine h.unlock hop rfl (fun _=>⟨rfl,rfl,rfl⟩) ?_ _ filter_sublist ?_ ?_
    · intro e' he'
      obtain hin | hlast:=mem_append.mp he'
      · exact h.allocated e' (mem_filter.mp hin).1
      · obtain rfl:=mem_singleton.mp hlast
        exact hmentions
    · intro r' hr' e' hentry
      refine mem_filter.mpr ⟨h.registered r' hr' e' hentry,?_⟩
      rw [decide_eq_true_eq]
      intro hkey
      have heq:=hsame e' (h.registered r' hr' e' hentry) hkey
      subst heq
      have:=h.objects_pos hr' hentry
      have:=hretirable.1
      omega
    · intro e' hnot
      by_cases hin : e' ∈ s.registry
      · have hkey : (s.entries e').key=(s.entries e).key:=by
          by_contra hne
          exact hnot (mem_filter.mpr ⟨hin,by simpa using hne⟩)
        rw [hsame e' hin hkey]
        exact hretirable.2
      · exact h.healed e' hin

theorem Ok.idleEnter (h : Ok s) {pc : VisitPc} (hop : Op.tick [] pc since ∈ s.ops)
    (hfree : s.locked=false) : Ok (({ s with locked := true }).go (.tick [] pc since)
      (some (.idle s.registry [] [] .objects))) := by
  have hothers:=h.others_unlocked hop (by rw [hfree]; rfl)
  refine h.relocked hop (.idle s.registry [] [] .objects) hothers s.entries s.registry true
    s.registrations (fun _=>⟨rfl,rfl,rfl⟩) (fun _=>Later.refl _) (fun _ _ _ _ hb=>hb) h.objects
    (List.Sublist.refl _) h.registered h.healed rfl (fun _ _ _ _ hin=>hin) ?_ rfl rfl ?_
    (fun _ _=>rfl)
  · exact ⟨List.Sublist.refl _,fun e he=>.inr (.inr he),by simp,fun _ _=>trivial⟩
  · intro e he
    have : e ∈ s.registry:=by simpa [Op.mentions] using he
    exact h.allocated e this

theorem Ok.actIdle (h : Ok s) {left kept out : List ℕ} {pc : CheckPc}
    (hop : Op.idle left kept out pc ∈ s.ops) : Ok (s.actIdle left kept out pc) := by
  obtain ⟨hsub,hall,hout,hhead⟩:=h.ops _ hop
  have hmentions:=h.mentions _ hop
  cases left with
  | nil =>
    refine h.unlock hop rfl (fun _=>⟨rfl,rfl,rfl⟩)
      (fun e he=>hmentions e (by simp [Op.mentions,he])) kept (by simpa using hsub) ?_ ?_
    · intro r hr e hentry
      obtain hkept | hretired | hleft:=hall e (h.registered r hr e hentry)
      · exact hkept
      · have:=h.objects_pos hr hentry
        have:=(hout e hretired).1
        omega
      · cases hleft
    · intro e hnot
      by_cases hin : e ∈ s.registry
      · obtain hkept | hretired | hleft:=hall e hin
        · exact absurd hkept hnot
        · exact (hout e hretired).2
        · cases hleft
      · exact h.healed e hin
  | cons e rest =>
    obtain ⟨hgoes,hdone⟩:=(hhead e rfl).step
    simp only [State.actIdle]
    split
    · rename_i pc' hpc'
      refine h.go hop (goes_some rfl (.inl rfl) rfl fun _ he=>he) (fun _=>⟨rfl,rfl,rfl⟩)
        ⟨hsub,hall,hout,fun e' he'=>?_⟩
      cases he'
      exact hgoes pc' hpc'
    · rename_i hpc'
      refine h.go hop (goes_some rfl (.inl rfl) rfl ?_) (fun _=>⟨rfl,rfl,rfl⟩) ?_
      · intro e' he'
        simp only [Op.mentions,mem_append,mem_cons,not_mem_nil,or_false] at he' ⊢
        tauto
      · refine ⟨(List.Sublist.append_left (sublist_cons_self _ _) _).trans hsub,?_,?_,
          fun _ _=>trivial⟩
        · intro e' he'
          have:=hall e' he'
          simp only [mem_append,mem_cons,not_mem_nil,or_false] at this ⊢
          tauto
        · intro e' he'
          obtain hin | hlast:=mem_append.mp he'
          · exact hout e' hin
          · obtain rfl:=mem_singleton.mp hlast
            exact (hdone hpc').1
    · refine h.go hop (goes_some rfl (.inl rfl) rfl ?_) (fun _=>⟨rfl,rfl,rfl⟩) ?_
      · intro e' he'
        simp only [Op.mentions,mem_append,mem_cons,not_mem_nil,or_false] at he' ⊢
        tauto
      · refine ⟨by simpa using hsub,fun e' he'=>?_,hout,fun _ _=>trivial⟩
        have:=hall e' he'
        simp only [mem_append,mem_cons,not_mem_nil,or_false] at this ⊢
        tauto

theorem Ok.actDrops (h : Ok s) {rest : List ℕ} (hop : Op.drops (e::rest) ∈ s.ops) :
    Ok ((s.change e dropRef).go (.drops (e::rest)) (some (.drops rest))) := by
  exact h.changeStill hop (some (.drops rest))
    (goes_some rfl (.inl rfl) rfl fun _ he=>mem_cons_of_mem _ he) mem_cons_self dropRef
    (.of_same rfl) (Balanced.congr (h.balanced e) rfl) (fun _=>⟨rfl,rfl,rfl⟩) trivial

theorem Ok.act (h : Ok s) {choice : Bool} (hop : op ∈ s.ops)
    (hstep : s.act failFast choice op=some s') : Ok s' := by
  unfold State.act at hstep
  split at hstep
  · cases hstep
    exact h.actOwe hop
  · exact h.actRelease hop hstep
  · split_ifs at hstep with hlocked
    cases hstep
    exact h.idleEnter hop (by simpa using hlocked)
  · cases hstep
    exact h.actVisit hop
  · cases hstep
    exact h.actIdle hop
  · cases hstep
    exact h.go hop (goes_none rfl) (fun _=>⟨rfl,rfl,rfl⟩) trivial
  · cases hstep
    exact h.actDrops hop
  · cases hstep
    exact h.actCallback hop

/-! ## Beginnings -/

theorem Ok.entered (h : Ok s) (op : Op) (entries : ℕ → PoolEntry)
    (hkept : ∀ e,Kept (s.entries e) (entries e))
    (hfresh : ∀ e,s.allocated ≤ e → entries e=s.entries e)
    (hbalanced : ∀ e,Balanced (entries e) (op.handing e+s.total (Op.handing e))
      (op.reading e+s.total (Op.reading e)) (op.unnoted e+s.total (Op.unnoted e)))
    (hlocking : op.locking=0) (hop : OpOk ({ s with entries } : State) op)
    (hborrows : ∀ r,op.borrows=some r → ∀ op' ∈ s.ops,op'.drops? ≠ some r)
    (hdrops : ∀ r,op.drops? = some r → ∀ op' ∈ s.ops,op'.borrows ≠ some r ∧ op'.drops? ≠ some r)
    (happart : op.borrows=none ∨ op.drops? = none) (hmentions : ∀ e ∈ op.mentions,e < s.allocated) :
    Ok { s with entries,ops := op::s.ops } := by
  refine { h with
    balanced:=fun e=>?_
    objects:=fun e=>(hkept e).objects.trans (h.objects e)
    keys:=?_
    healed:=fun e hnot=>Healed.kept (h.healed e hnot) (h.objects_zero hnot) (hkept e)
    lock:=?_
    ops:=fun op' hop'=>?_
    apart:=fun op₁ h₁ op₂ h₂ r hb hd=>?_
    once:=fun r=>?_
    mentions:=fun op' hop' e he=>?_
    fresh:=fun e hle=>(hfresh e hle).trans (h.fresh e hle) }
  · simpa [Weighs,total] using hbalanced e
  · have hkeys : (fun e=>(entries e).key)=fun e=>(s.entries e).key :=
      funext fun e=>(hkept e).key
    show (s.registry.map fun e=>(entries e).key).Nodup
    rw [hkeys]
    exact h.keys
  · show ((op::s.ops).map locking).sum=if s.locked then 1 else 0
    rw [map_cons,sum_cons,hlocking,Nat.zero_add]
    exact h.lock
  · obtain rfl | hold:=mem_cons.mp hop'
    · exact hop.kept (fun _=>Kept.refl _) rfl rfl
    · exact (h.ops op' hold).kept hkept rfl rfl
  · obtain rfl | hold₁:=mem_cons.mp h₁
    · obtain rfl | hold₂:=mem_cons.mp h₂
      · obtain hnone | hnone:=happart
        · rw [hnone] at hb
          cases hb
        · rw [hnone] at hd
          cases hd
      · exact hborrows r hb op₂ hold₂ hd
    · obtain rfl | hold₂:=mem_cons.mp h₂
      · exact (hdrops r hd op₁ hold₁).1 hb
      · exact h.apart op₁ hold₁ op₂ hold₂ r hb hd
  · show (op::s.ops).countP (fun op'=>op'.drops? = some r)≤1
    by_cases hd : op.drops? = some r
    · have hzero : s.ops.countP (fun op'=>decide (op'.drops? = some r))=0:=by
        rw [countP_eq_zero]
        intro op' hop'
        simpa using (hdrops r hd op' hop').2
      rw [countP_cons_of_pos (by simpa using hd),hzero]
    · rw [countP_cons_of_neg (by simpa using hd)]
      exact h.once r
  · obtain rfl | hold:=mem_cons.mp hop'
    · exact hmentions e he
    · exact h.mentions op' hold e he

theorem Ok.setClock (h : Ok s) (by_ : ℕ) : Ok { s with clock := s.clock+by_ } := { h with
  clock:=Nat.add_pos_left h.clock _
  ops:=fun op hop=>(h.ops op hop).kept (fun _=>Kept.refl _) rfl rfl }

theorem Ok.setRegistrations (h : Ok s) (registrations : List Registration) (minted : ℕ)
    (hcount : ∀ e,registrations.countP (fun r => decide (r.entry=some e)) =
      s.registrations.countP fun r => decide (r.entry=some e))
    (hnew : ∀ r ∈ registrations,∀ e,r.entry=some e → r ∈ s.registrations)
    (hold : ∀ r ∈ s.registrations,∀ e,r.entry=some e → r ∈ registrations) :
    Ok { s with registrations,minted } where
  clock := h.clock
  balanced:=h.balanced
  objects:=fun e=>(h.objects e).trans (hcount e).symm
  keys:=h.keys
  registered:=fun r hr e hentry=>h.registered r (hnew r hr e hentry) e hentry
  healed:=h.healed
  lock:=h.lock
  ops:=by
    intro op hop
    have hok:=h.ops op hop
    cases op with
    | owe r e pc=>exact ⟨hold r hok.1 e hok.2.1,hok.2⟩
    | release r e pc =>
      cases pc with
      | enter=>exact ⟨hold r hok.1 e hok.2,hok.2⟩
      | check pc | retire=>exact hok
    | tick left pc since=>exact hok.unlocked rfl (fun _=>Later.refl _) (by simp [borrows,drops?])
    | idle left kept out pc | callback e pc=>exact hok
    | drops entries=>trivial
  apart:=h.apart
  once:=h.once
  allocated:=h.allocated
  mentions:=h.mentions
  fresh:=h.fresh

theorem Ok.unlocked (h : Ok s) (hfree : s.locked=false) : ∀ op ∈ s.ops,op.locking=0 := by
  intro op hop
  have hle:=State.le_total hop locking
  have hlock:=h.lock
  rw [hfree] at hlock
  simp at hlock
  omega

theorem later_share (entry : PoolEntry) (objects : ℕ) : Later entry (entry.share objects) :=
  ⟨rfl,le_refl _,le_refl _,suffix_refl _,le_refl _⟩

theorem Ok.registerShared (h : Ok s) (hfree : s.locked=false) (he : e ∈ s.registry)
    (key : ℕ) : Ok { s.change e (·.share 1) with
      registrations := ⟨s.minted,key,some e⟩::s.registrations
      minted := s.minted+1 } := by
  have hlater : ∀ e',Later (s.entries e') ((s.change e (·.share 1)).entries e') :=
    fun e'=>change_forall e' (later_share _ _) fun _ _=>Later.refl _
  refine { h with
    balanced:=fun e'=>?_
    objects:=fun e'=>?_
    keys:=?_
    registered:=fun r hr e' hentry=>?_
    healed:=fun e' hnot=>?_
    ops:=fun op hop=>(h.ops op hop).unlocked (h.unlocked hfree op hop) hlater
      fun r _ hr=>mem_cons_of_mem _ hr
    fresh:=fun e' hle=>?_ }
  · show s.Weighs e' ((s.change e (·.share 1)).entries e')
    exact change_forall e' (Balanced.congr (h.balanced e) rfl) fun e' _=>h.balanced e'
  · have ho:=h.objects e'
    show ((s.change e (·.share 1)).entries e').objects=_
    rw [countP_cons]
    by_cases heq : e'=e
    · subst heq
      rw [change_self]
      simpa [share] using ho
    · rw [change_of_ne s _ heq]
      simpa [Ne.symm heq] using ho
  · have hkeys : (fun e'=>((s.change e (·.share 1)).entries e').key)=fun e'=>(s.entries e').key :=
      funext fun e'=>(hlater e').key
    show (s.registry.map fun e'=>((s.change e (·.share 1)).entries e').key).Nodup
    rw [hkeys]
    exact h.keys
  · obtain rfl | hold:=mem_cons.mp hr
    · cases hentry
      exact he
    · exact h.registered r hold e' hentry
  · have hne : e'≠e:=by
      rintro rfl
      exact hnot he
    show ((s.change e (·.share 1)).entries e').Healed
    rw [change_of_ne s _ hne]
    exact h.healed e' hnot
  · have hlt:=h.allocated e he
    show (s.change e (·.share 1)).entries e'=_
    have hle' : s.allocated ≤ e':=hle
    rw [change_of_ne s _ (by omega)]
    exact h.fresh e' hle

theorem Ok.registerNew (h : Ok s) (hfree : s.locked=false) {key : ℕ}
    (hkey : ∀ e ∈ s.registry,(s.entries e).key ≠ key) : Ok { s with
      entries := Function.update s.entries s.allocated { PoolEntry.new key with objects := 1,refs := 2 }
      allocated := s.allocated+1
      registry := s.registry++[s.allocated]
      registrations := ⟨s.minted,key,some s.allocated⟩::s.registrations
      minted := s.minted+1 } := by
  have hnot : s.allocated ∉ s.registry:=fun hin=>absurd (h.allocated _ hin) (lt_irrefl _)
  have hfresh:=h.fresh s.allocated (le_refl _)
  -- nobody works on an entry that was never made
  have hunused : ∀ op ∈ s.ops,s.allocated ∉ op.mentions:=fun op hop hin =>
    absurd (h.mentions op hop _ hin) (lt_irrefl _)
  have hsame : ∀ e≠s.allocated,Function.update s.entries s.allocated
      { PoolEntry.new key with objects:=1,refs:=2 } e=s.entries e :=
    fun e hne=>Function.update_of_ne hne _ _
  refine { h with
    balanced:=fun e=>?_
    objects:=fun e=>?_
    keys:=?_
    registered:=fun r hr e hentry=>?_
    healed:=fun e hnot'=>?_
    ops:=fun op hop=>?_
    allocated:=fun e he=>?_
    mentions:=fun op hop e he=>Nat.lt_succ_of_lt (h.mentions op hop e he)
    fresh:=fun e hle=>?_ }
  · show Balanced (Function.update s.entries s.allocated _ e) (s.total _) (s.total _) (s.total _)
    by_cases heq : e=s.allocated
    · subst heq
      have hb:=h.balanced s.allocated
      rw [hfresh] at hb
      rw [Function.update_self]
      exact ⟨hb.submitted,hb.begun,hb.read,hb.outstanding,hb.marks,hb.started⟩
    · rw [hsame e heq]
      exact h.balanced e
  · show (Function.update s.entries s.allocated _ e).objects=_
    rw [countP_cons]
    have ho:=h.objects e
    by_cases heq : e=s.allocated
    · subst heq
      rw [hfresh] at ho
      rw [Function.update_self]
      simp only [decide_true,if_true]
      rw [← ho]
      rfl
    · rw [hsame e heq]
      simpa [Ne.symm heq] using ho
  · show ((s.registry++[s.allocated]).map fun e=>(Function.update s.entries s.allocated _ e).key).Nodup
    rw [map_append,map_singleton,Function.update_self]
    have hmap : (s.registry.map fun e=>(Function.update s.entries s.allocated
        { PoolEntry.new key with objects:=1,refs:=2 } e).key) =
        s.registry.map fun e=>(s.entries e).key:=by
      apply map_congr_left
      intro e he
      rw [hsame e (by rintro rfl; exact hnot he)]
    rw [hmap,nodup_append]
    refine ⟨h.keys,nodup_singleton _,?_⟩
    intro a ha b hb
    obtain ⟨e,he,rfl⟩:=mem_map.mp ha
    obtain rfl:=mem_singleton.mp hb
    exact hkey e he
  · obtain rfl | hold:=mem_cons.mp hr
    · cases hentry
      exact mem_append_right _ mem_cons_self
    · exact mem_append_left _ (h.registered r hold e hentry)
  · have hne : e≠s.allocated:=by
      rintro rfl
      exact hnot' (mem_append_right _ mem_cons_self)
    show (Function.update s.entries s.allocated _ e).Healed
    rw [hsame e hne]
    exact h.healed e fun hin=>hnot' (mem_append_left _ hin)
  · have hok:=h.ops op hop
    have hlocking:=h.unlocked hfree op hop
    have hun:=hunused op hop
    cases op with
    | owe r e pc=>exact ⟨mem_cons_of_mem _ hok.1,hok.2⟩
    | release r e pc =>
      cases pc with
      | enter=>exact ⟨mem_cons_of_mem _ hok.1,hok.2⟩
      | check pc | retire=>cases hlocking
    | tick left pc since =>
      cases left with
      | nil=>trivial
      | cons e rest =>
        show VisitOk since (Function.update s.entries s.allocated _ e) pc
        rw [hsame e (by rintro rfl; exact hun mem_cons_self)]
        exact hok
    | idle left kept out pc=>cases hlocking
    | drops entries=>trivial
    | callback e pc =>
      intro now hpc
      show now ∈ (Function.update s.entries s.allocated _ e).reads
      rw [hsame e (by rintro rfl; exact hun mem_cons_self)]
      exact hok now hpc
  · obtain hin | hlast:=mem_append.mp he
    · exact Nat.lt_succ_of_lt (h.allocated e hin)
    · obtain rfl:=mem_singleton.mp hlast
      exact Nat.lt_succ_self _
  · have hle' : s.allocated+1 ≤ e:=hle
    show Function.update s.entries s.allocated _ e=_
    rw [hsame e (by omega)]
    exact h.fresh e (by omega)

theorem Ok.register (h : Ok s) (hfree : s.locked=false) (key : ℕ) (armed : Bool) :
    Ok (s.register key armed) := by
  unfold State.register
  split
  · rename_i e hfind
    exact h.registerShared hfree (List.mem_of_find?_eq_some hfind) key
  · rename_i hnone
    cases armed with
    | true =>
      refine h.registerNew hfree fun e he=>?_
      simpa using List.find?_eq_none.mp hnone e he
    | false =>
      refine h.setRegistrations _ _ (fun e=>by simp) (fun r hr e hentry=>?_)
        (fun r hr _ _=>mem_cons_of_mem _ hr)
      obtain rfl | hold:=mem_cons.mp hr
      · cases hentry
      · exact hold

theorem Ok.snapshot (h : Ok s) : Ok s.snapshot := by
  refine h.entered (.tick s.registry .cancelled (.new 0)) _ (fun e=>?_) (fun e hle=>?_)
    (fun e=>?_) rfl ?_ (by simp [borrows]) (by simp [drops?]) (.inl rfl) h.allocated
  · show Kept _ (if e ∈ s.registry then _ else _)
    split_ifs
    · exact .of_same rfl
    · exact Kept.refl _
  · show (if e ∈ s.registry then _ else _)=_
    rw [if_neg fun hin=>absurd (h.allocated e hin) (not_lt.mpr hle)]
  · have hzero : handing e (.tick s.registry .cancelled (.new 0))=0:=by
      cases s.registry <;> rfl
    rw [hzero]
    show Balanced (if e ∈ s.registry then _ else _) (0+_) (0+_) (0+_)
    simp only [Nat.zero_add]
    split_ifs
    · exact Balanced.congr (h.balanced e) rfl
    · exact h.balanced e
  · cases s.registry <;> trivial

theorem Ok.step (h : Ok s) {event : Event} (hstep : s.step failFast event=some s') : Ok s' := by
  unfold State.step at hstep
  rw [if_neg (fun hstopped=>by rw [if_pos hstopped] at hstep; cases hstep)] at hstep
  cases event with
  | clock by_ =>
    cases hstep
    exact h.setClock by_
  | register key armed =>
    simp only at hstep
    split_ifs at hstep with hlocked
    cases hstep
    exact h.register (by simpa using hlocked) key armed
  | owe r =>
    simp only at hstep
    split at hstep
    · cases hstep
    · rename_i e hentry
      split_ifs at hstep with hholds
      cases hstep
      simp only [holds,Bool.and_eq_true,decide_eq_true_eq,Bool.not_eq_true',
        any_eq_false,beq_iff_eq] at hholds
      obtain ⟨hr,hfree⟩:=hholds
      refine h.entered (.owe r e .readClock) s.entries (fun _=>Kept.refl _) (fun _ _=>rfl)
        (fun e'=>?_) rfl ⟨hr,hentry,by simp⟩ (fun r' hr' op' hop'=>?_) (by simp [drops?])
        (.inr rfl) (fun e' he'=>?_)
      · simpa [handing,reading,unnoted] using h.balanced e'
      · cases hr'
        exact hfree op' hop'
      · obtain rfl:=mem_singleton.mp he'
        exact h.allocated _ (h.registered r hr _ hentry)
  | drop r =>
    simp only at hstep
    split_ifs at hstep with hguard
    simp only [holds,Bool.and_eq_true,decide_eq_true_eq,Bool.not_eq_true',
      any_eq_false,beq_iff_eq] at hguard
    obtain ⟨⟨hr,hfree⟩,hborrowed⟩:=hguard
    split at hstep
    · rename_i hentry
      cases hstep
      refine h.setRegistrations _ s.minted (fun e=>?_) (fun r' hr' _ _=>mem_of_mem_erase hr')
        (fun r' hr' e hentry'=>(mem_erase_of_ne ?_).mpr hr')
      · rw [(perm_cons_erase hr).countP_eq,countP_cons_of_neg (by simp [hentry])]
      · rintro rfl
        rw [hentry] at hentry'
        cases hentry'
    · rename_i e hentry
      cases hstep
      refine h.entered (.release r e .enter) s.entries (fun _=>Kept.refl _) (fun _ _=>rfl)
        (fun e'=>?_) rfl ⟨hr,hentry⟩ (by simp [borrows]) (fun r' hr' op' hop'=>?_)
        (.inl rfl) (fun e' he'=>?_)
      · simpa [handing,reading,unnoted] using h.balanced e'
      · cases hr'
        exact ⟨hborrowed op' hop',hfree op' hop'⟩
      · obtain rfl:=mem_singleton.mp he'
        exact h.allocated _ (h.registered r hr _ hentry)
  | tick =>
    simp only at hstep
    split_ifs at hstep with hlocked
    cases hstep
    exact h.snapshot
  | dispatch e =>
    simp only at hstep
    split_ifs at hstep with hqueued
    cases hstep
    have hlt : e < s.allocated:=by
      by_contra hge
      rw [h.fresh e (not_lt.mp hge)] at hqueued
      exact absurd hqueued (by decide)
    refine h.entered (.callback e .readClock) _
      (fun e'=>change_forall e' kept_begin fun _ _=>Kept.refl _) (fun e' hle=>?_) (fun e'=>?_) rfl
      (fun now hpc=>by cases hpc) (by simp [borrows]) (by simp [drops?]) (.inl rfl)
      (fun e' he'=>by obtain rfl:=mem_singleton.mp he'; exact hlt)
    · exact change_of_ne s _ (by omega)
    · by_cases heq : e'=e
      · subst heq
        rw [change_self]
        have hb:=Balanced.begin (h.balanced e') hqueued
        simpa [handing,reading,unnoted,Nat.add_comm] using hb
      · rw [change_of_ne s _ heq]
        simpa [handing,reading,unnoted,Ne.symm heq] using h.balanced e'
  | act op choice =>
    simp only at hstep
    split_ifs at hstep with hop
    exact h.act hop hstep

theorem Run.ok {ticks : List Tick} (run : Run failFast ticks s) : Ok s := by
  induction run with
  | start hinit=>exact hinit ▸ Ok.new
  | next run event hstep ih=>exact ih.step hstep

end WindowsThreadpoolSys.Healing
