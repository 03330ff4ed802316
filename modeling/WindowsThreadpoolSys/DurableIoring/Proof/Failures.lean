import WindowsThreadpoolSys.DurableIoring.Proof.Trace

/-! A failure never changes but in its standing. An advance keeps every failure; a call keeps them and
may observe one more; only popping a resolution takes one away. The words of their tokens are kept but
by an observation, a resolution, and the calls that take and drop a token. -/
namespace WindowsThreadpoolSys.DurableIoring
open Library Durability List

variable {E T I : Type} [LinearOrder E] {d d' : Durability E T I} {c c' : Change E T I} {l : Key}

/-! ## The same failure -/

def Failure.Same (f f' : Failure I) : Prop := f' = { f with standing := f'.standing }

theorem Failure.Same.refl (f : Failure I) : f.Same f := rfl

theorem Failure.Same.trans {f f' f'' : Failure I} (h : f.Same f') (h' : f'.Same f'') :
    f.Same f'' := by
  unfold Failure.Same at h h' ⊢
  rw [h',h]

section Same

variable {f f' : Failure I} (h : f.Same f')
include h

theorem Failure.Same.id : f'.id=f.id := (congrArg Failure.id h :)

theorem Failure.Same.reach : f'.reach=f.reach := (congrArg Failure.reach h :)

theorem Failure.Same.only : f'.only=f.only := (congrArg Failure.only h :)

theorem Failure.Same.token : f'.token=f.token := (congrArg Failure.token h :)

theorem Failure.Same.listed : f'.listed=f.listed := (congrArg Failure.listed h :)

theorem Failure.Same.names (lists : DomainLists) (born : ℕ) (until_ : Option ℕ) (l : Key)
    (domains : DomainList) :
    f'.names lists born until_ l domains=f.names lists born until_ l domains := by
  unfold Failure.names
  rw [h.id,h.reach,h.only]

end Same

abbrev FailuresStand (d d' : Durability E T I) : Prop :=
  List.Forall₂ Failure.Same d.failures d'.failures

theorem FailuresStand.refl (d : Durability E T I) : FailuresStand d d :=
  List.forall₂_same.mpr fun f _=>.refl f

theorem FailuresStand.trans {d'' : Durability E T I} (h : FailuresStand d d')
    (h' : FailuresStand d' d'') : FailuresStand d d'' := by
  unfold FailuresStand at h h' ⊢
  generalize d.failures=xs,d'.failures=ys,d''.failures=zs at h h'
  induction h generalizing zs with
  | nil=>cases h'; exact .nil
  | cons hab _ ih =>
    cases h' with
    | cons hbc hrest=>exact .cons (hab.trans hbc) (ih _ hrest)

theorem FailuresStand.of_map {g : Failure I → Failure I} (hg : ∀ f,Failure.Same f (g f))
    (heq : d'.failures=d.failures.map g) : FailuresStand d d' := by
  unfold FailuresStand
  rw [heq,List.forall₂_map_right_iff]
  exact List.forall₂_same.mpr fun f _=>hg f

theorem FailuresStand.of_eq (heq : d'.failures=d.failures) : FailuresStand d d' := by
  unfold FailuresStand
  rw [heq]
  exact List.forall₂_same.mpr fun f _=>.refl f

theorem FailuresStand.back (h : FailuresStand d d') {f' : Failure I} (hf' : f' ∈ d'.failures) :
    ∃ f ∈ d.failures,f.Same f' := by
  obtain ⟨i,hi,rfl⟩:=getElem_of_mem hf'
  have hlen:=h.length_eq
  exact ⟨d.failures[i],getElem_mem _,h.get (hlen ▸ hi) hi⟩

theorem FailuresStand.forth (h : FailuresStand d d') {f : Failure I} (hf : f ∈ d.failures) :
    ∃ f' ∈ d'.failures,f.Same f' := by
  obtain ⟨i,hi,rfl⟩:=getElem_of_mem hf
  have hlen:=h.length_eq
  exact ⟨d'.failures[i],getElem_mem _,h.get hi (hlen ▸ hi)⟩

/-! ## Words and tokens -/

def Event.token : Event E I → Option FailureToken
  | .failed f => some f.token
  | _ => none

def carried (events : List (Event E I)) : List FailureToken := events.filterMap Event.token

structure WordsKept (d : Durability E T I) (c : Change E T I) : Prop where
  words : c.core.tokens = d.tokens
  instance_ : c.core.instance_ = d.instance_
  carried : carried c.due.events = []

omit [LinearOrder E] in
theorem carried_append (xs ys : List (Event E I)) :
    carried (xs++ys)=carried xs++carried ys := filterMap_append

omit [LinearOrder E] in
theorem carried_map_eq_nil {α : Type} {f : α → Event E I} (h : ∀ x,(f x).token=none)
    (xs : List α) : carried (xs.map f)=[] := by
  refine filterMap_eq_nil_iff.mpr fun e he=>?_
  obtain ⟨x, -,rfl⟩:=List.mem_map.mp he
  exact h x

theorem carried_stopHeld {stopped : HeldOp E T → Option (Gate E)} :
    carried (stopHeld c stopped).due.events=carried c.due.events := by
  unfold stopHeld
  simp only
  rw [carried_append,carried_map_eq_nil (fun _=>rfl),append_nil]

theorem carried_releaseHealed : carried (releaseHealed c).due.events = carried c.due.events := by
  unfold releaseHealed
  simp only
  rw [carried_append,carried_map_eq_nil (fun _=>rfl),append_nil]

theorem AdvanceStep.words (hstep : AdvanceStep c c') : FailuresStand c.core c'.core ∧
    c'.core.tokens=c.core.tokens ∧ c'.core.instance_=c.core.instance_ ∧
      carried c'.due.events=carried c.due.events := by
  cases hstep with
  | progress l step =>
    cases step with
    | start starts hok =>
      obtain ⟨n,sealDomains, -, -,rfl⟩:=startSeal_ok hok
      exact ⟨.of_eq rfl,rfl,rfl,rfl⟩
    | empties live =>
      obtain ⟨st,hst, -⟩:=isLive_iff.mp live
      rcases finishEmpties_cases hst with heq | ⟨e, -, -,heq⟩ <;>
        exact ⟨.of_eq (by rw [heq]; rfl),by rw [heq]; rfl,by rw [heq]; rfl,rfl⟩
    | seals live =>
      rcases c.core.finishSeals_cases l with heq | ⟨s, -, -, -,heq⟩ <;>
        exact ⟨.of_eq (by rw [heq]; rfl),by rw [heq]; rfl,by rw [heq]; rfl,rfl⟩
  | healed =>
    refine ⟨.of_map (g:=fun f=>if c.core.isHealed f then { f with standing:=.resolved } else f)
      (fun f=>?_) rfl,rfl,rfl,carried_releaseHealed⟩
    split_ifs <;> rfl
  | mark l step =>
    cases step with
    | pass passes free hok =>
      obtain ⟨spans,taken,window,kept,abandoned,rfl⟩:=passSeal_eq hok
      refine ⟨.of_eq rfl,rfl,rfl,?_⟩
      show carried (c.due.events++[Event.durable _ _])=_
      rw [carried_append]
      exact append_nil _
    | @answer place =>
      refine ⟨.of_eq ?_,?_,?_,?_⟩
      · cases place <;> rfl
      · cases place <;> rfl
      · cases place <;> rfl
      · rw [carried_append]
        exact append_nil _

theorem advance_words (hinv : Inv c.core) (hok : advance c=.ok c') : FailuresStand c.core c'.core ∧
    c'.core.tokens=c.core.tokens ∧ c'.core.instance_=c.core.instance_ ∧
      carried c'.due.events=carried c.due.events := by
  refine steps_invariant (P:=fun s=>FailuresStand c.core s.core ∧ s.core.tokens=c.core.tokens ∧
      s.core.instance_=c.core.instance_ ∧ carried s.due.events=carried c.due.events)
    (advance_steps hinv hok).1 ⟨.refl _,rfl,rfl,rfl⟩ fun _ _ hstep hs=>?_
  obtain ⟨hfailures,hwords,hinstance,hcarried⟩:=hstep.words
  exact ⟨hs.1.trans hfailures,hwords.trans hs.2.1,hinstance.trans hs.2.2.1,hcarried.trans hs.2.2.2⟩

theorem advance_failures (hinv : Inv c.core) (hok : advance c=.ok c') :
    FailuresStand c.core c'.core := (advance_words hinv hok).1

structure Observes (d : Durability E T I) (f : Failure I) (c : Change E T I) : Prop where
  failures : c.core.failures = d.failures ++ [f]
  id : f.id = ⟨d.instance_, d.nextFailure⟩
  listed : f.listed = d.observedWrites f.reach f.only
  «open» : f.standing = .open
  told : ∃ e, Event.failed e ∈ c.due.events ∧ e.id = f.id
  writes : c.core.writes = d.writes
  kept : c.core.kept = d.kept
  lists : c.core.lists = d.lists
  lineages : c.core.lineages = d.lineages
  free : f.token ∈ d.freeTokens
  slot : f.token < d.tokens.length
  words : c.core.tokens = d.tokens.set f.token { failure := f.id.seq, live := true }
  instance_ : c.core.instance_ = d.instance_
  carried : carried c.due.events = [⟨f.id, f.token⟩]

theorem observe_observes {mid : Durability E T I} {cause : FailureCause} {reach : Reach}
    {only : Option Key} {id : FailureId} (hok : observe (begin_ mid) cause reach only=.ok (id,c))
    (hsame : (mid.instance_,mid.nextFailure,mid.failures,mid.writes,mid.kept,mid.lists,mid.lineages,
      mid.freeTokens,mid.tokens)=(d.instance_,d.nextFailure,d.failures,d.writes,d.kept,d.lists,
      d.lineages,d.freeTokens,d.tokens)) : ∃ f,Observes d f c := by
  simp only [Prod.mk.injEq] at hsame
  obtain ⟨hinstance,hclock,hfailures,hwrites,hkept,hlists,hlineages,hfree,hwords⟩:=hsame
  obtain ⟨slot,freeTokens,window,told,hslot,hlt, -, -,hid,hcore,hdue⟩:=observe_ok hok
  have hslot : mid.freeTokens=slot::freeTokens:=hslot
  have hlisted : mid.observedWrites reach only=d.observedWrites reach only:=by
    unfold observedWrites isLive live
    rw [hwrites,hlists,hlineages]
  refine ⟨mid.observedFailure cause reach only slot,?_⟩
  exact {
    failures:=by rw [hcore]; exact congrArg (·++_) hfailures
    id:=by
      show (⟨mid.instance_,mid.nextFailure⟩ : FailureId)=_
      rw [hinstance,hclock]
    listed:=hlisted
    «open»:=rfl
    told:=⟨_,by rw [hdue]; exact mem_append_right _ (mem_singleton_self _),hid⟩
    writes:=by rw [hcore]; exact hwrites
    kept:=by rw [hcore]; exact hkept
    lists:=by rw [hcore]; exact hlists
    lineages:=by rw [hcore]; exact hlineages
    free:=by
      rw [← hfree,hslot]
      exact mem_cons_self
    slot:=hwords ▸ hlt
    words:=by
      rw [hcore,← hwords]
      rfl
    instance_:=by rw [hcore]; exact hinstance
    carried:=by
      rw [hdue,hid]
      rfl }

theorem Durability.retireIfDrained_frame (d : Durability E T I) (l : Key) :
    ∃ lineages,d.retireIfDrained l={ d with lineages := lineages } := by
  rcases d.retireIfDrained_cases l with heq | ⟨st, -, -, -, -,heq⟩ <;> rw [heq]
  · exact ⟨d.lineages,rfl⟩
  · exact ⟨_,rfl⟩

theorem Durability.retireIfDrained_words (d : Durability E T I) (l : Key) :
    (d.retireIfDrained l).failures=d.failures ∧ (d.retireIfDrained l).tokens=d.tokens ∧
      (d.retireIfDrained l).instance_=d.instance_ := by
  rw [(d.retireIfDrained_frame l).choose_spec]
  exact ⟨rfl,rfl,rfl⟩

theorem resolveOne_failures {item : FailureToken × Resolution}
    (hok : resolveOne c item=.ok c') : FailuresStand c.core c'.core := by
  have hstanding : ∀ (id : FailureId) (s : Standing) (f : Failure I),
      Failure.Same f (standing id s f):=by
    intro id s f
    unfold standing
    split_ifs <;> rfl
  obtain ⟨f, -, -,⟨-, -,hcore⟩ | ⟨-,mid,habandon, -,hcore⟩⟩:=resolveOne_ok hok
  · obtain ⟨tokens,heq⟩:=(c.core.stand f.id (.healing c.core.healNow)).dropToken_frame item.1
    refine .of_map (hstanding f.id (.healing c.core.healNow)) ?_
    rw [hcore,heq]
    rfl
  · obtain ⟨window,abandoned,rfl⟩:=abandonEpochs_frame habandon
    refine .of_map (hstanding f.id .resolved) ?_
    rw [hcore,(dropToken_frame _ item.1).choose_spec]
    rfl

theorem resolveAll_failures {items : List (FailureToken × Resolution)}
    (hfold : items.foldlM resolveOne (begin_ d)=.ok c) : FailuresStand d c.core :=
  foldlM_invariant (fun s=>FailuresStand d s.core)
    (fun _ _ _ _ hs hone=>hs.trans (resolveOne_failures hone)) (.refl d) hfold

theorem Prepared.words {call : Call E T} (hprep : Prepared d call c) :
    (c.core.failures=d.failures ∧ WordsKept d c) ∨ (∃ f,Observes d f c) ∨
      ∃ items c₁,call=.resolve items ∧ (∀ item ∈ items,item.1.id.instance_=d.instance_) ∧
        items.foldlM resolveOne (begin_ d)=.ok c₁ ∧ c=releaseHealed c₁ := by
  cases hprep with
  | succeeded | recordedSeal | strayFlush=>exact .inl ⟨rfl,rfl,rfl,rfl⟩
  | @gone op end_ w mid reads told hw hstage hone hend =>
    obtain ⟨spans,window,kept, -, -, -,rfl⟩:=letGoOne_ok hw hone
    left
    unfold begin_
    simp only
    split_ifs
    · exact ⟨rfl,rfl,rfl,rfl⟩
    · rw [(retireIfDrained_frame _ _).choose_spec]
      exact ⟨rfl,rfl,rfl,rfl⟩
  | emptySeal hst =>
    left
    unfold recordEmpty begin_
    simp only [Table.get_insert_self]
    refine ⟨?_,?_,?_,?_⟩
    · split <;> rfl
    · split <;> rfl
    · split <;> rfl
    · exact carried_map_eq_nil (fun _=>rfl) _
  | endedFlush hst hended hans hgo hretain =>
    obtain ⟨s,n,failed,entry, -, -, -, -, -, -, -, -,rfl⟩:=answer_ok hans
    obtain ⟨spans,window,kept,rfl⟩:=letGo_ok hgo
    obtain ⟨window, -,rfl⟩:=retainSealing_ok hretain
    left
    rw [(retireIfDrained_frame _ _).choose_spec]
    exact ⟨rfl,rfl,rfl,rfl⟩
  | flushOk hst hlive hans hcover =>
    obtain ⟨s,n,failed,entry, -, -, -, -, -, -, -, -,rfl⟩:=answer_ok hans
    obtain ⟨writes,spans,window,kept,reads,told,rfl⟩:=cover_frame hcover
    exact .inl ⟨rfl,rfl,rfl,rfl⟩
  | flushFailed hst hlive hans hobserve =>
    obtain ⟨s,n,failed,entry, -, -, -, -, -, -, -, -,rfl⟩:=answer_ok hans
    exact .inr (.inl (observe_observes hobserve rfl))
  | domainOk hst hlive hs hstage hpart hans hcover =>
    obtain ⟨writes,spans,window,kept,reads,told,rfl⟩:=cover_frame hcover
    exact .inl ⟨rfl,rfl,rfl,rfl⟩
  | domainFailed hst hlive hs hstage hpart hans hobserve | imported hobserve =>
    exact .inr (.inl (observe_observes hobserve rfl))
  | @resolved items c₁ hinstance hfold=>exact .inr (.inr ⟨items,c₁,rfl,hinstance,hfold,rfl⟩)
  | @ended l st d₂ d₄ d₅ hst hlive hne hforget hgo hretain =>
    obtain ⟨window, -,rfl⟩:=forgetAbandoned_ok hforget
    obtain ⟨spans,window,kept,rfl⟩:=letGoEnded_ok hgo
    obtain ⟨window, -,rfl⟩:=retainSealing_ok hretain
    exact .inl ⟨(retireIfDrained_words _ _).1,(retireIfDrained_words _ _).2.1,
      (retireIfDrained_words _ _).2.2,carried_stopHeld⟩

theorem Prepared.failures {call : Call E T} (hprep : Prepared d call c) :
    FailuresStand d c.core ∨ ∃ f,Observes d f c := by
  rcases hprep.words with ⟨hsame, -⟩ | hobserves | ⟨items,c₁, -, -,hfold,rfl⟩
  · exact .inl (.of_eq hsame)
  · exact .inr hobserves
  · exact .inl ((resolveAll_failures hfold).trans (AdvanceStep.healed c₁).words.1)

theorem Quiet.words {call : Call E T} (hquiet : Quiet d call d') : d'.instance_=d.instance_ ∧
    (d'.failures=d.failures ∨ ∃ id,call=.forget id ∧ d.forget id=.ok d' ∧
      d'.failures=d.failures.filter fun g => decide (g.id ≠ id)) ∧
    (d'.tokens=d.tokens ∨ (∃ id token,call=.takeToken id ∧ d.takeToken id=some (token,d')) ∨
      ∃ token,call=.dropToken token ∧ d'=d.dropToken token) := by
  cases hquiet.quieted with
  | places | mint | relist=>exact ⟨rfl,.inl rfl,.inl rfl⟩
  | tokens hfrom=>exact ⟨rfl,.inl rfl,.inr hfrom⟩
  | joins held heldByEpoch hfrom hin =>
    obtain ⟨inFlightByEpoch,spans,window, -, -, -, -,rfl⟩:=inFlight_ok hin
    exact ⟨rfl,.inl rfl,.inl rfl⟩
  | @forget f window d' hf hresolved hok heq =>
    rw [(releaseReach_frame _ _).choose_spec] at heq
    rw [heq] at hok ⊢
    exact ⟨rfl,.inr ⟨f.id,rfl,hok,rfl⟩,.inl rfl⟩
  | endPopped =>
    rw [(retireIfDrained_frame _ _).choose_spec]
    exact ⟨rfl,.inl rfl,.inl rfl⟩
  | retire hforget =>
    obtain ⟨window, -,rfl⟩:=forgetAbandoned_ok hforget
    exact ⟨rfl,.inl rfl,.inl rfl⟩

theorem Quiet.failures {call : Call E T} (hquiet : Quiet d call d') :
    d'.failures=d.failures ∨ ∃ id,call=.forget id ∧ d.forget id=.ok d' ∧
      d'.failures=d.failures.filter fun g => decide (g.id ≠ id) := hquiet.words.2.1

end WindowsThreadpoolSys.DurableIoring
