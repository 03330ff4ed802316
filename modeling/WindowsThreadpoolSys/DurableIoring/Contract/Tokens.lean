import WindowsThreadpoolSys.DurableIoring.Proof.Failures
import WindowsThreadpoolSys.DurableIoring.Durability.Play

/-! The tokens that exist are carried beside the core: the token of a failure just observed, in its
`Failed` entry until that is popped, and what `takeToken` hands out, until a resolution consumes it
or its holder drops it. A drop on any thread is a tick of its own. Outside a resolution a call
touches one slot's word once, so a drop during the call is one before or after it; a resolution's
own drops touch the slots of the tokens it consumed, which no other token that exists names.

A token that exists has its slot's word live, and every live word has its token; an unresolved
failure's slot holds its own number. So a token that exists names an open failure, and a failure has
one token at most. -/
namespace WindowsThreadpoolSys.DurableIoring
open Library Durability List Option

variable {E T I : Type} [LinearOrder E] {d d' : Durability E T I} {c c' : Change E T I}
  {ticks : List (Taken (Durability E T I × List FailureToken) (Made E T I))} {tokens : List FailureToken} {words : List TokenSlot}
  {instance_ : InstanceId}

/-! ## The tokens that exist -/

def Durability.owns (d : Durability E T I) (token : FailureToken) : Bool :=
  decide (token.id.instance_ = d.instance_)

/-- The tokens that exist after a call. A refused resolution gives its tokens back. -/
def tokensAfter (d : Durability E T I) (tokens : List FailureToken) (call : Call E T)
    (c : Change E T I) : List FailureToken :=
  match call with
  | .resolve items =>
    if items.all fun item => d.owns item.1 then tokens.diff (items.map Prod.fst) else tokens
  | .takeToken id => tokens ++ ((d.takeToken id).map Prod.fst).toList
  | .dropToken token => tokens.erase token
  | _ => tokens ++ carried c.due.events

/-- What a call may be made with: its own instance's tokens are among those that exist. -/
def Holding (d : Durability E T I) (tokens : List FailureToken) : Call E T → Prop
  | .resolve items => ((items.map Prod.fst).filter d.owns).Subperm tokens
  | .dropToken token => token ∈ tokens
  | call => d.Promised call

/-- A call with the tokens that exist beside the core, before and after it. -/
inductive MakesHolding : Durability E T I × List FailureToken → Made E T I →
    Durability E T I × List FailureToken → Prop where
  | make {d : Durability E T I} {tokens : List FailureToken} (call : Call E T)
      (change : Change E T I) (hholding : Holding d tokens call) (hcall : d.call call = .ok change) :
      MakesHolding (d, tokens) ⟨call, change⟩ (change.core, tokensAfter d tokens call change)

abbrev TokenRun : List (Taken (Durability E T I × List FailureToken) (Made E T I)) →
    Durability E T I × List FailureToken → Prop :=
  Execution MakesHolding fun s => Initial s.1 ∧ s.2 = []

def mayMake (d : Durability E T I) (tokens : List FailureToken) : Call E T → Bool
  | .resolve items => ((items.map Prod.fst).filter d.owns).Subperm tokens
  | .dropToken token => token ∈ tokens
  | call => d.promises call

theorem holding_of_mayMake {call : Call E T} (h : mayMake d tokens call=true) :
    Holding d tokens call := by
  cases call with
  | resolve items | dropToken token =>
    simp only [mayMake,decide_eq_true_eq] at h
    exact h
  | _ =>
    unfold mayMake at h
    unfold Holding
    exact promised_of_promises h

/-- `call`, if it may be made and finds no inconsistency. -/
def makeHolding (s : Durability E T I × List FailureToken) (call : Call E T) :
    Option (Made E T I × Durability E T I × List FailureToken) :=
  if mayMake s.1 s.2 call then
    (s.1.call call).toOption.map fun change =>
      (⟨call, change⟩, change.core, tokensAfter s.1 s.2 call change)
  else none

theorem makes_of_makeHolding (s : Durability E T I × List FailureToken) (call : Call E T)
    (made : Made E T I) (s' : Durability E T I × List FailureToken)
    (h : makeHolding s call=some (made,s')) : MakesHolding s made s' := by
  unfold makeHolding at h
  split_ifs at h with hmay
  obtain ⟨change,hchange,heq⟩:=map_eq_some_iff.mp h
  cases hcall : s.1.call call with
  | error _=>simp [hcall,Except.toOption] at hchange
  | ok change' =>
    rw [hcall] at hchange
    cases hchange
    cases heq
    exact .make call _ (holding_of_mayMake hmay) hcall

/-! ## Tokens and words -/

structure TokensExist (instance_ : InstanceId) (words : List TokenSlot)
    (tokens : List FailureToken) : Prop where
  nodup : tokens.Nodup
  live : ∀ t ∈ tokens, t.id.instance_ = instance_ ∧
    words[t.slot]? = some { failure := t.id.seq, live := true }
  exist : ∀ slot n, words[slot]? = some { failure := n, live := true } →
    (⟨⟨instance_, n⟩, slot⟩ : FailureToken) ∈ tokens

def dropWord (words : List TokenSlot) (token : FailureToken) : List TokenSlot :=
  if words[token.slot]? = some { failure := token.id.seq, live := true } then
    words.set token.slot { failure := token.id.seq, live := false }
  else words

theorem Durability.dropToken_eq (d : Durability E T I) (token : FailureToken) :
    d.dropToken token={ d with tokens := dropWord d.tokens token } := by
  unfold dropToken dropWord
  split_ifs <;> rfl

variable {t : FailureToken}

theorem TokensExist.slot_injective (h : TokensExist instance_ words tokens) {s : FailureToken}
    (hs : s ∈ tokens) (ht : t ∈ tokens) (hslot : s.slot=t.slot) : s=t := by
  obtain ⟨hsi,hsw⟩:=h.live s hs
  obtain ⟨hti,htw⟩:=h.live t ht
  rw [hslot,htw] at hsw
  obtain ⟨⟨si,sn⟩,ss⟩:=s
  obtain ⟨⟨ti,tn⟩,ts⟩:=t
  simp only [some.injEq,TokenSlot.mk.injEq] at hsw hslot hsi hti
  simp [hsw.1,hslot,hsi,hti]

theorem TokensExist.drop (h : TokensExist instance_ words tokens) (ht : t ∈ tokens) :
    TokensExist instance_ (dropWord words t) (tokens.erase t) := by
  obtain ⟨-,hword⟩:=h.live t ht
  have hlt : t.slot < words.length:=(List.getElem?_eq_some_iff.mp hword).1
  rw [dropWord,if_pos hword]
  refine ⟨h.nodup.erase t,fun s hs=>?_,fun slot n hlive=>?_⟩
  · obtain ⟨hne,hs⟩:=(h.nodup.mem_erase_iff).mp hs
    have hslot : t.slot≠s.slot:=fun heq=>hne (h.slot_injective hs ht heq.symm)
    rw [List.getElem?_set_ne hslot]
    exact h.live s hs
  · by_cases hslot : t.slot=slot
    · subst hslot
      rw [List.getElem?_set_self hlt] at hlive
      cases hlive
    · rw [List.getElem?_set_ne hslot] at hlive
      refine (h.nodup.mem_erase_iff).mpr ⟨?_,h.exist slot n hlive⟩
      rintro rfl
      exact hslot rfl

variable {slot n : ℕ}

theorem TokensExist.add (h : TokensExist instance_ words tokens) (hslot : slot < words.length)
    (hdead : ∀ m,words[slot]? ≠ some { failure := m,live := true }) :
    TokensExist instance_ (words.set slot { failure := n,live := true })
      (tokens++[⟨⟨instance_,n⟩,slot⟩]) := by
  have hother : ∀ t ∈ tokens,slot≠t.slot:=by
    rintro t ht rfl
    exact hdead _ (h.live t ht).2
  refine ⟨?_,fun t ht=>?_,fun s m hlive=>?_⟩
  · refine List.Nodup.append h.nodup (nodup_singleton _) fun t ht ht'=>?_
    rw [mem_singleton.mp ht'] at ht
    exact hother _ ht rfl
  · rcases mem_append.mp ht with ht | ht
    · rw [List.getElem?_set_ne (hother t ht)]
      exact h.live t ht
    · rw [mem_singleton.mp ht]
      exact ⟨rfl,List.getElem?_set_self hslot⟩
  · by_cases hs : slot=s
    · subst hs
      rw [List.getElem?_set_self hslot] at hlive
      cases hlive
      exact mem_append_right _ (mem_singleton_self _)
    · rw [List.getElem?_set_ne hs] at hlive
      exact mem_append_left _ (h.exist s m hlive)

theorem TokensExist.dropAll {ts : List FailureToken} (h : TokensExist instance_ words tokens)
    (hnodup : ts.Nodup) (hts : ∀ t ∈ ts,t ∈ tokens) :
    TokensExist instance_ (ts.foldl dropWord words) (tokens.diff ts) := by
  induction ts generalizing words tokens with
  | nil=>simpa using h
  | cons t ts ih =>
    rw [nodup_cons] at hnodup
    rw [diff_cons,foldl_cons]
    refine ih (h.drop (hts t mem_cons_self)) hnodup.2 fun s hs=>?_
    refine (h.nodup.mem_erase_iff).mpr ⟨?_,hts s (mem_cons_of_mem _ hs)⟩
    rintro rfl
    exact hnodup.1 hs

/-! ## The words an unresolved failure holds -/

def WordsHeld (d : Durability E T I) : Prop :=
  ∀ f ∈ d.failures, ∃ live, d.tokens[f.token]? = some { failure := f.id.seq, live := live }

variable {live : Bool}

theorem dropWord_held (token : FailureToken)
    (h : words[slot]? = some { failure := n,live := live }) :
    ∃ live',(dropWord words token)[slot]? = some { failure := n,live := live' } := by
  unfold dropWord
  split_ifs with hword
  · by_cases hslot : token.slot=slot
    · subst hslot
      rw [hword] at h
      cases h
      refine ⟨false,?_⟩
      rw [List.getElem?_set_self (List.getElem?_eq_some_iff.mp hword).1]
    · exact ⟨live,by rw [List.getElem?_set_ne hslot,h]⟩
  · exact ⟨live,h⟩

theorem dropWord_other {token : FailureToken}
    (h : words[slot]? = some { failure := n,live := live }) (hne : token.id.seq ≠ n) :
    (dropWord words token)[slot]? = words[slot]? := by
  unfold dropWord
  split_ifs with hword
  · have hslot : token.slot≠slot:=by
      rintro rfl
      rw [hword] at h
      cases h
      exact hne rfl
    rw [List.getElem?_set_ne hslot]
  · rfl

/-! ## Resolutions -/

theorem resolveOne_words {item : FailureToken × Resolution} (hok : resolveOne c item=.ok c') :
    c'.core.tokens=dropWord c.core.tokens item.1 ∧ c'.core.instance_=c.core.instance_ ∧
      carried c'.due.events=carried c.due.events ∧
      ∀ f ∈ c.core.failures,f.id ≠ item.1.id → f ∈ c'.core.failures := by
  have hstand : ∀ (s : Standing) (id : FailureId),id=item.1.id → ∀ f ∈ c.core.failures,
      f.id≠item.1.id → f ∈ c.core.failures.map (standing id s):=by
    rintro s id rfl f hf hne
    exact List.mem_map.mpr ⟨f,hf,if_neg hne⟩
  obtain ⟨g, -,hid,⟨-,hdue,hcore⟩ | ⟨-,mid,habandon,hdue,hcore⟩⟩:=resolveOne_ok hok
  · rw [dropToken_eq] at hcore
    refine ⟨by rw [hcore]; rfl,by rw [hcore]; rfl,by rw [hdue],fun f hf hne=>?_⟩
    rw [hcore]
    exact hstand _ g.id hid f hf hne
  · obtain ⟨window,abandoned,rfl⟩:=abandonEpochs_frame habandon
    rw [dropToken_eq] at hcore
    refine ⟨by rw [hcore]; rfl,by rw [hcore]; rfl,?_,fun f hf hne=>?_⟩
    · rw [hdue,abandonHeld,carried_stopHeld,carried_append]
      exact append_nil _
    · rw [hcore]
      exact hstand _ g.id hid f hf hne

variable {items : List (FailureToken × Resolution)}

theorem resolveAll_words (hinstance : c.core.instance_=instance_)
    (hok : items.foldlM resolveOne c=.ok c') :
    c'.core.tokens=(items.map Prod.fst).foldl dropWord c.core.tokens ∧
      c'.core.instance_=instance_ ∧ carried c'.due.events=carried c.due.events ∧
      ∀ f ∈ c.core.failures,(∀ item ∈ items,f.id ≠ item.1.id) → f ∈ c'.core.failures := by
  induction items generalizing c with
  | nil =>
    cases hok
    exact ⟨rfl,hinstance,rfl,fun f hf _=>hf⟩
  | cons item rest ih =>
    rw [foldlM_cons,bind_eq_ok] at hok
    obtain ⟨c₁,hone,hok⟩:=hok
    obtain ⟨hw₁,hi₁,hc₁,hf₁⟩:=resolveOne_words hone
    obtain ⟨hw,hi,hc,hf⟩:=ih (hi₁.trans hinstance) hok
    refine ⟨by rw [hw,hw₁]; rfl,hi,hc.trans hc₁,fun f hmem hne=>?_⟩
    exact hf f (hf₁ f hmem (hne item mem_cons_self))
      fun i hi=>hne i (mem_cons_of_mem _ hi)

/-! ## Calls -/

variable {id : FailureId}

theorem Durability.takeToken_ok {token : FailureToken} (h : d.takeToken id=some (token,d')) :
    ∃ f ∈ d.failures,f.id=id ∧ f.standing=.open ∧ token=⟨id,f.token⟩ ∧
      d.tokens[f.token]? = some { failure := id.seq,live := false } ∧
      d'={ d with tokens := d.tokens.set f.token { failure := id.seq,live := true } } := by
  unfold takeToken at h
  cases hfind : d.failures.find? fun f=>decide (f.id=id) with
  | none =>
    rw [hfind] at h
    cases h
  | some f =>
    simp only [hfind] at h
    split_ifs at h with hopen
    cases h
    have hid : f.id=id:=by simpa using List.find?_some hfind
    exact ⟨f,List.mem_of_find?_eq_some hfind,hid,hopen.1,rfl,hopen.2,rfl⟩

structure TokensOf (d : Durability E T I) (tokens : List FailureToken) : Prop where
  exist : TokensExist d.instance_ d.tokens tokens
  held : WordsHeld d

theorem WordsHeld.stand (h : WordsHeld d) (hwords : d'.tokens=d.tokens)
    (hfailures : FailuresStand d d') : WordsHeld d' := by
  intro f' hf'
  obtain ⟨f,hf,hsame⟩:=hfailures.back hf'
  rw [hwords,hsame.token,hsame.id]
  exact h f hf

theorem TokensOf.mints {f : Failure I} (h : TokensOf d tokens) (hinv : Inv d) (hmints : Observes d f c) :
    TokensOf c.core (tokens++carried c.due.events) := by
  have hother : ∀ g ∈ d.failures,f.token≠g.token:=by
    intro g hg heq
    exact (hinv.tokens.slot g hg).2 (heq ▸ hmints.free)
  have hid : f.id=⟨d.instance_,f.id.seq⟩:=by rw [hmints.id]
  refine ⟨?_,fun g hg=>?_⟩
  · rw [hmints.words,hmints.instance_,hmints.carried,hid]
    refine h.exist.add hmints.slot fun m hlive=>?_
    obtain ⟨g,hg, -,hslot, -⟩:=hinv.tokens.live_open _ m hlive
    exact hother g hg hslot.symm
  · rw [hmints.failures] at hg
    rw [hmints.words]
    rcases mem_append.mp hg with hg | hg
    · rw [List.getElem?_set_ne (hother g hg)]
      exact h.held g hg
    · rw [mem_singleton.mp hg]
      exact ⟨true,List.getElem?_set_self hmints.slot⟩

theorem TokensOf.given (h : TokensOf d tokens)
    (hown : ∀ item ∈ items,item.1.id.instance_=d.instance_)
    (hgiven : ((items.map Prod.fst).filter d.owns).Subperm tokens) :
    (items.map Prod.fst).Nodup ∧ ∀ t ∈ items.map Prod.fst,t ∈ tokens := by
  have hall : (items.map Prod.fst).filter d.owns=items.map Prod.fst:=by
    refine filter_eq_self.mpr fun t ht=>?_
    obtain ⟨item,hitem,rfl⟩:=List.mem_map.mp ht
    exact decide_eq_true (hown item hitem)
  rw [hall] at hgiven
  refine ⟨?_,fun t ht=>hgiven.subset ht⟩
  obtain ⟨ts,hperm,hsub⟩:=hgiven
  exact hperm.nodup_iff.mp (h.exist.nodup.sublist hsub)

theorem WordsHeld.dropAll {ts : List FailureToken}
    (h : words[slot]? = some { failure := n,live := live }) :
    ∃ live',(ts.foldl dropWord words)[slot]? = some { failure := n,live := live' } := by
  induction ts generalizing words live with
  | nil=>exact ⟨live,h⟩
  | cons t ts ih =>
    obtain ⟨live',h'⟩:=dropWord_held t h
    exact ih h'

theorem TokensOf.resolves {c₁ : Change E T I} (h : TokensOf d tokens)
    (hown : ∀ item ∈ items,item.1.id.instance_=d.instance_)
    (hgiven : ((items.map Prod.fst).filter d.owns).Subperm tokens)
    (hfold : items.foldlM resolveOne (begin_ d)=.ok c₁) :
    TokensOf (releaseHealed c₁).core (tokens.diff (items.map Prod.fst)) := by
  obtain ⟨hnodup,hexist⟩:=h.given hown hgiven
  obtain ⟨hwords,hinstance, -, -⟩:=resolveAll_words (c:=begin_ d) rfl hfold
  have hstand:=(resolveAll_failures hfold).trans (AdvanceStep.healed c₁).words.1
  refine ⟨?_,fun f' hf'=>?_⟩
  · show TokensExist c₁.core.instance_ c₁.core.tokens _
    rw [hwords,hinstance]
    exact h.exist.dropAll hnodup hexist
  · obtain ⟨f,hf,hsame⟩:=hstand.back hf'
    obtain ⟨live,hlive⟩:=h.held f hf
    rw [hsame.token,hsame.id]
    show ∃ live,c₁.core.tokens[f.token]? = _
    rw [hwords]
    exact WordsHeld.dropAll hlive

theorem TokensOf.id_injective (h : TokensOf d tokens) (hinv : Inv d) {s : FailureToken}
    (hs : s ∈ tokens) (ht : t ∈ tokens) (hid : s.id=t.id) : s=t := by
  obtain ⟨f,hf,hfn,hfs, -⟩:=hinv.tokens.live_open _ _ (h.exist.live s hs).2
  obtain ⟨g,hg,hgn,hgs, -⟩:=hinv.tokens.live_open _ _ (h.exist.live t ht).2
  have hfg : f=g:=hinv.suspects.unique hf hg (by rw [hfn,hgn,hid])
  exact h.exist.slot_injective hs ht (by rw [← hfs,← hgs,hfg])

theorem TokensOf.promised (h : TokensOf d tokens) (hinv : Inv d)
    (hown : ∀ item ∈ items,item.1.id.instance_=d.instance_)
    (hgiven : ((items.map Prod.fst).filter d.owns).Subperm tokens) :
    d.Promised (.resolve items) := by
  obtain ⟨hnodup,hexist⟩:=h.given hown hgiven
  refine ⟨?_,fun item hitem _=>(h.exist.live item.1 (hexist _ (List.mem_map_of_mem hitem))).2⟩
  have hids : ((items.map Prod.fst).map FailureToken.id).Nodup :=
    hnodup.map_on fun s hs t ht hid=>h.id_injective hinv (hexist s hs) (hexist t ht) hid
  rwa [List.map_map] at hids

theorem resolve_refused (hforeign : ¬∀ item ∈ items,item.1.id.instance_=d.instance_)
    (hok : d.call (.resolve items)=.ok c) : c=begin_ d := by
  unfold call resolve at hok
  simp only at hok
  cases hfind : items.find? fun item=>decide (item.1.id.instance_≠d.instance_) with
  | none =>
    refine absurd (fun item hitem=>?_) hforeign
    simpa using List.find?_eq_none.mp hfind item hitem
  | some item =>
    rw [hfind] at hok
    cases hok
    rfl

theorem TokensOf.advance {c₁ : Change E T I} (h : TokensOf c₁.core tokens) (hinv : Inv c₁.core)
    (hok : advance c₁=.ok c) : TokensOf c.core tokens := by
  obtain ⟨hfailures,hwords,hinstance, -⟩:=advance_words hinv hok
  refine ⟨?_,h.held.stand hwords hfailures⟩
  rw [hwords,hinstance]
  exact h.exist

theorem TokensOf.resolved (h : TokensOf d tokens) (hinv : Inv d)
    (hpromised : d.Promised (.resolve items))
    (hown : ∀ item ∈ items,item.1.id.instance_=d.instance_)
    (hgiven : ((items.map Prod.fst).filter d.owns).Subperm tokens)
    (hok : d.call (.resolve items)=.ok c) :
    TokensOf c.core (tokensAfter d tokens (.resolve items) c) := by
  have hall : (items.all fun item=>d.owns item.1)=true :=
    List.all_eq_true.mpr fun item hitem=>decide_eq_true (hown item hitem)
  unfold tokensAfter
  simp only [if_pos hall]
  have hnone : items.find? (fun item=>decide (item.1.id.instance_≠d.instance_))=none:=by
    refine List.find?_eq_none.mpr fun item hitem=>?_
    simp [hown item hitem]
  obtain ⟨answer,hanswer,rfl⟩:=map_eq_ok.mp hok
  simp only [resolve,hnone,bind_eq_ok] at hanswer
  obtain ⟨c₁,hfold,c₂,hadvance,hanswer⟩:=hanswer
  cases hanswer
  exact (h.resolves hown hgiven hfold).advance
    (Prepared.inv hinv hpromised (.resolved hown hfold)) hadvance

theorem TokensOf.takes (h : TokensOf d tokens) (hinv : Inv d) (hok : d.call (.takeToken id)=.ok c) :
    TokensOf c.core (tokensAfter d tokens (.takeToken id) c) := by
  cases hok
  unfold tokensAfter
  cases htake : d.takeToken id with
  | none =>
    simp only [htake,map_none,toList_none,append_nil,getD_none]
    exact h
  | some taken =>
    obtain ⟨token,d'⟩:=taken
    obtain ⟨f,hf,hid,hopen,rfl,hword,rfl⟩:=takeToken_ok htake
    simp only [htake,map_some,toList_some,getD_some]
    have hlt : f.token < d.tokens.length:=(hinv.tokens.slot f hf).1
    have hinst : id=⟨d.instance_,id.seq⟩:=by
      rw [← hid,← (hinv.suspects.clock f hf).2]
    refine ⟨?_,fun g hg=>?_⟩
    · have hadd:=h.exist.add (n:=id.seq) hlt fun m hlive=>by
        rw [hword] at hlive
        cases hlive
      rw [← hinst] at hadd
      exact hadd
    · show ∃ live,(d.tokens.set f.token _)[g.token]? = _
      by_cases hslot : f.token=g.token
      · have hseq : g.id.seq=id.seq:=by
          obtain ⟨live,hg'⟩:=h.held g hg
          rw [← hslot,hword,some.injEq,TokenSlot.mk.injEq] at hg'
          exact hg'.1.symm
        exact ⟨true,by rw [← hslot,List.getElem?_set_self hlt,hseq]⟩
      · rw [List.getElem?_set_ne hslot]
        exact h.held g hg

theorem TokensOf.drops {token : FailureToken} (h : TokensOf d tokens) (hmem : token ∈ tokens)
    (hok : d.call (.dropToken token)=.ok c) :
    TokensOf c.core (tokensAfter d tokens (.dropToken token) c) := by
  cases hok
  unfold tokensAfter begin_
  simp only
  rw [dropToken_eq]
  refine ⟨h.exist.drop hmem,fun f hf=>?_⟩
  obtain ⟨live,hlive⟩:=h.held f hf
  exact dropWord_held _ hlive

theorem TokensOf.other {call : Call E T} (h : TokensOf d tokens) (hinv : Inv d)
    (hpromised : d.Promised call) (hresolve : ∀ items,call ≠ .resolve items)
    (htake : ∀ id,call ≠ .takeToken id) (hdrop : ∀ token,call ≠ .dropToken token)
    (hok : d.call call=.ok c) : TokensOf c.core (tokens++carried c.due.events) := by
  rcases call_calls hinv hok with ⟨d',rfl,hquiet⟩ | ⟨c₁,hprep,hadvance⟩
  · show TokensOf d' (tokens++[])
    rw [append_nil]
    obtain ⟨hinstance,hfailures,hwords | ⟨id,token,heq, -⟩ | ⟨token,heq, -⟩⟩:=hquiet.words
    · refine ⟨by rw [hwords,hinstance]; exact h.exist,fun f hf=>?_⟩
      rw [hwords]
      refine h.held f ?_
      rcases hfailures with heq | ⟨id, -, -,heq⟩
      · exact heq ▸ hf
      · rw [heq] at hf
        exact (mem_filter.mp hf).1
    · exact absurd heq (htake id)
    · exact absurd heq (hdrop token)
  · have hinv₁:=hprep.inv hinv hpromised
    rw [(advance_words hinv₁ hadvance).2.2.2]
    refine advance ?_ hinv₁ hadvance
    rcases hprep.words with ⟨hsame,hkept⟩ | ⟨f,hmints⟩ | ⟨items,c₂,heq, -⟩
    · rw [hkept.carried,append_nil]
      exact ⟨by rw [hkept.words,hkept.instance_]; exact h.exist,h.held.stand hkept.words (.of_eq hsame)⟩
    · exact h.mints hinv hmints
    · exact absurd heq (hresolve items)

theorem TokensOf.call {call : Call E T} (h : TokensOf d tokens) (hinv : Inv d)
    (hholding : Holding d tokens call) (hpromised : d.Promised call)
    (hown : ∀ items,call=.resolve items → ∀ item ∈ items,item.1.id.instance_=d.instance_)
    (hok : d.call call=.ok c) : TokensOf c.core (tokensAfter d tokens call c) := by
  cases call with
  | resolve items=>exact h.resolved hinv hpromised (hown items rfl) hholding hok
  | takeToken id=>exact h.takes hinv hok
  | dropToken token=>exact h.drops hholding hok
  | _=>exact h.other hinv hpromised nofun nofun nofun hok

theorem TokenRun.keeps {s : Durability E T I × List FailureToken} (run : TokenRun ticks s) :
    (Inv s.1 ∧ Quiescent s.1) ∧ TokensOf s.1 s.2 := by
  induction run with
  | @start s hinit =>
    obtain ⟨d,_⟩:=s
    obtain ⟨⟨instance_,clock,capacity,served,observed,hlineages,hserved⟩,rfl⟩:=hinit
    refine ⟨⟨Inv.new instance_ clock capacity served observed hserved,
      Quiescent.new instance_ clock capacity served observed⟩,⟨⟨nodup_nil,fun t ht=>(by cases ht),
        fun slot n hlive=>?_⟩,fun f hf=>(by cases hf)⟩⟩
    rw [List.getElem?_replicate] at hlive
    split_ifs at hlive
    cases hlive
  | @next ticks _ _ run _ hstep ih =>
    obtain @⟨d,tokens,call,change,hholding,hcall⟩:=hstep
    obtain ⟨⟨hinv,hq⟩,htokens⟩:=ih
    by_cases hresolve : ∃ items,call=.resolve items
    · obtain ⟨items,rfl⟩:=hresolve
      by_cases hown : ∀ item ∈ items,item.1.id.instance_=d.instance_
      · have hpromised:=htokens.promised hinv hown hholding
        refine ⟨call_keeps hinv hq hpromised hcall,htokens.call hinv hholding hpromised ?_ hcall⟩
        rintro items' heq
        cases heq
        exact hown
      · have heq:=resolve_refused hown hcall
        subst heq
        refine ⟨⟨hinv,hq⟩,?_⟩
        have hnot : ¬(items.all fun item=>d.owns item.1)=true:=by
          rw [List.all_eq_true]
          exact fun hall=>hown fun item hitem=>of_decide_eq_true (hall item hitem)
        unfold tokensAfter
        simp only [if_neg hnot]
        exact htokens
    · have hpromised : d.Promised call:=by
        cases call with
        | resolve items=>exact absurd ⟨items,rfl⟩ hresolve
        | dropToken token=>trivial
        | _=>exact hholding
      refine ⟨call_keeps hinv hq hpromised hcall,htokens.call hinv hholding hpromised ?_ hcall⟩
      rintro items rfl
      exact absurd ⟨items,rfl⟩ hresolve

theorem TokensOf.finds {before after : List (FailureToken × Resolution)}
    {item : FailureToken × Resolution} (h : TokensOf d tokens) (hinv : Inv d)
    (hown : ∀ item ∈ items,item.1.id.instance_=d.instance_)
    (hgiven : ((items.map Prod.fst).filter d.owns).Subperm tokens)
    (hitems : items=before++item::after) (hfold : before.foldlM resolveOne (begin_ d)=.ok c) :
    ∃ f,c.core.failures.find? (fun f => decide (f.id=item.1.id))=some f ∧ f.standing=.open := by
  obtain ⟨hnodup,hexist⟩:=h.given hown hgiven
  have hids:=(h.promised hinv hown hgiven).1
  have hmem : item ∈ items:=by
    rw [hitems]
    exact mem_append_right _ mem_cons_self
  obtain ⟨f,hf,hseq, -,hopen⟩:=hinv.tokens.live_open _ _
    (h.exist.live item.1 (hexist _ (List.mem_map_of_mem hmem))).2
  have hid : f.id=item.1.id:=by
    have hinst:=(hinv.suspects.clock f hf).2.trans (hown item hmem).symm
    cases hfid : f.id
    cases htid : item.1.id
    simp_all
  have hbefore : ∀ i ∈ before,f.id≠i.1.id:=by
    intro i hi heq
    rw [hitems,map_append,map_cons,nodup_append] at hids
    exact hids.2.2 i.1.id (List.mem_map_of_mem hi) item.1.id mem_cons_self
      (heq.symm.trans hid)
  have hstays:=(resolveAll_words (c:=begin_ d) rfl hfold).2.2.2 f hf hbefore
  obtain ⟨g,hg⟩ : ∃ g,c.core.failures.find? (fun f=>decide (f.id=item.1.id))=some g:=by
    refine isSome_iff_exists.mp (List.find?_isSome.mpr ⟨f,hstays,decide_eq_true hid⟩)
  refine ⟨g,hg,?_⟩
  -- The failures keep their numbers through the fold, so the one found is `f`.
  have hstand:=resolveAll_failures hfold
  have hgid : g.id=f.id:=by
    have:=List.find?_some hg
    rw [hid]
    simpa using this
  have hnodup' : (c.core.failures.map fun f=>f.id.seq).Nodup:=by
    have hsame : (c.core.failures.map fun f=>f.id.seq)=d.failures.map fun f=>f.id.seq:=by
      clear hg hgid hstays hf hfold
      unfold FailuresStand at hstand
      generalize d.failures=xs,c.core.failures=ys at hstand
      induction hstand with
      | nil=>rfl
      | cons hab _ ih=>rw [map_cons,map_cons,ih,hab.id]
    rw [hsame,List.Nodup,pairwise_map]
    exact hinv.suspects.order.imp fun hlt=>hlt.ne
  rw [inj_on_of_nodup_map hnodup' (List.mem_of_find?_eq_some hg) hstays (by rw [hgid])]
  exact hopen

theorem TokensOf.takeToken_isSome (h : TokensOf d tokens) (hinv : Inv d) (id : FailureId) :
    (d.takeToken id).isSome=true ↔
      (∃ f ∈ d.failures,f.id=id ∧ f.standing=.open) ∧ ∀ t ∈ tokens,t.id ≠ id := by
  constructor
  · intro hsome
    obtain ⟨⟨token,d'⟩,htake⟩:=isSome_iff_exists.mp hsome
    obtain ⟨f,hf,hid,hopen, -,hword, -⟩:=takeToken_ok htake
    refine ⟨⟨f,hf,hid,hopen⟩,fun t ht htid=>?_⟩
    have hlive:=(h.exist.live t ht).2
    obtain ⟨g,hg,hgn,hgs, -⟩:=hinv.tokens.live_open _ _ hlive
    have hfg : g=f:=hinv.suspects.unique hg hf (by rw [hgn,htid,hid])
    rw [← hgs,hfg,hword,some.injEq,TokenSlot.mk.injEq] at hlive
    exact Bool.false_ne_true hlive.2
  · rintro ⟨⟨f,hf,rfl,hopen⟩,hnone⟩
    have hfind : d.failures.find? (fun g=>decide (g.id=f.id))=some f:=by
      obtain ⟨g,hg⟩:=isSome_iff_exists.mp
        (List.find?_isSome.mpr ⟨f,hf,decide_eq_true rfl⟩ :
          (d.failures.find? fun g=>decide (g.id=f.id)).isSome=true)
      have hgid : g.id=f.id:=by simpa using List.find?_some hg
      rw [hg,hinv.suspects.unique (List.mem_of_find?_eq_some hg) hf (by rw [hgid])]
    obtain ⟨live,hword⟩:=h.held f hf
    have hdead : live=false:=by
      cases live with
      | false=>rfl
      | true =>
        refine absurd ?_ (hnone _ (h.exist.exist _ _ hword))
        show (⟨d.instance_,f.id.seq⟩ : FailureId)=f.id
        rw [← (hinv.suspects.clock f hf).2]
    unfold takeToken
    simp only [hfind]
    rw [if_pos ⟨hopen,hdead ▸ hword⟩]
    rfl

/-- However operations and drops interleave, a failure has one token at most, each token that exists
names an open failure, and another failure's token does not change its slot. -/
theorem one_live_token (run : TokenRun ticks (d, tokens)) :
    (tokens.map FailureToken.id).Nodup ∧
      (∀ t ∈ tokens, ∃ f ∈ d.failures, f.id = t.id ∧ f.token = t.slot ∧ f.standing = .open) ∧
      (∀ items before after item c, (∀ item ∈ items, item.1.id.instance_ = d.instance_) →
        ((items.map Prod.fst).filter d.owns).Subperm tokens → items = before ++ item :: after →
        before.foldlM Durability.resolveOne (Durability.begin_ d) = .ok c →
        ∃ f, c.core.failures.find? (fun f => decide (f.id = item.1.id)) = some f ∧
          f.standing = .open) ∧
      (∀ id, (d.takeToken id).isSome = true ↔
        (∃ f ∈ d.failures, f.id = id ∧ f.standing = .open) ∧ ∀ t ∈ tokens, t.id ≠ id) ∧
      (d.failures.Pairwise fun f g => f.token ≠ g.token) ∧
      ∀ f ∈ d.failures, ∀ t, t.id.instance_ = d.instance_ → t.id ≠ f.id →
        (d.dropToken t).tokens[f.token]? = d.tokens[f.token]? := by
  obtain ⟨⟨hinv, -⟩,htokens⟩:=run.keeps
  refine ⟨?_,fun t ht=>?_,fun items before after item c hown hgiven hitems hfold =>
    htokens.finds hinv hown hgiven hitems hfold,htokens.takeToken_isSome hinv,
    hinv.tokens.distinct,fun f hf t hinstance hne=>?_⟩
  · exact htokens.exist.nodup.map_on fun s hs t ht hid=>htokens.id_injective hinv hs ht hid
  · obtain ⟨hinstance,hlive⟩:=htokens.exist.live t ht
    obtain ⟨f,hf,hseq,hslot,hopen⟩:=hinv.tokens.live_open _ _ hlive
    refine ⟨f,hf,?_,hslot,hopen⟩
    have hinst:=(hinv.suspects.clock f hf).2.trans hinstance.symm
    cases hfid : f.id
    cases htid : t.id
    simp_all
  · obtain ⟨live,hword⟩:=htokens.held f hf
    rw [dropToken_eq]
    refine dropWord_other hword fun hseq=>hne ?_
    have hinst:=hinstance.trans (hinv.suspects.clock f hf).2.symm
    cases hfid : f.id
    cases htid : t.id
    simp_all

/-- A token dropped and taken again: one exists, and the failure it names is open. -/
theorem one_live_token_taken_again :
    ∃ ticks, ∃ (d : Durability ℕ Unit ℕ) (tokens : List FailureToken),
      TokenRun ticks (d, tokens) ∧ tokens = [⟨⟨0, 0⟩, 0⟩] ∧
      (tokens.map FailureToken.id).Nodup ∧
      (∀ t ∈ tokens, ∃ f ∈ d.failures, f.id = t.id ∧ f.token = t.slot ∧ f.standing = .open) ∧
      ∀ id, (d.takeToken id).isSome = true ↔
        (∃ f ∈ d.failures, f.id = id ∧ f.standing = .open) ∧ ∀ t ∈ tokens, t.id ≠ id := by
  have start : TokenRun [] (smallCore [],[]) :=
    .start ⟨.new 0 (fun n=>n) ⟨8,3,2,4,4⟩ [] false (by decide) List.Pairwise.nil,rfl⟩
  obtain ⟨ticks,⟨d,tokens⟩,run,hcheck⟩:=start.play makeHolding makes_of_makeHolding
    (flushedThenFailed++[.dropToken ⟨⟨0,0⟩,0⟩,.takeToken ⟨0,0⟩])
    (fun _ s=>decide (s.2=[⟨⟨0,0⟩,0⟩])) (by decide +kernel)
  obtain ⟨hnodup,hopen, -,htakes, -⟩:=one_live_token run
  exact ⟨ticks,d,tokens,run,of_decide_eq_true hcheck,hnodup,hopen,htakes⟩

end WindowsThreadpoolSys.DurableIoring
