import WindowsThreadpoolSys.DurableIoring.Proof.Stop

/-! A resolution changes a failure's standing and takes its token. Forgetting a resolved failure lets go
of its suspects' places, and of the kept records nothing suspects any more. -/
namespace WindowsThreadpoolSys.DurableIoring
open Library Durability List Table

variable {E T I : Type} [LinearOrder E] {d d' : Durability E T I} {writes : Table OpId (Write E T)}
  {kept : Kept E}

/-! ## Standings -/

def Restands (upd : Failure I → Failure I) : Prop :=
  ∀ f, upd f = { f with standing := (upd f).standing }

namespace Restands

variable {upd : Failure I → Failure I} (hupd : Restands upd)

include hupd

theorem id_eq (f : Failure I) : (upd f).id=f.id := by rw [hupd f]

theorem listed_eq (f : Failure I) : (upd f).listed=f.listed := by rw [hupd f]

theorem token_eq (f : Failure I) : (upd f).token=f.token := by rw [hupd f]

omit [LinearOrder E] in
theorem write_namedBy (w : Write E T) (lists : DomainLists) (f : Failure I) :
    w.namedBy lists (upd f)=w.namedBy lists f := by
  rw [hupd f]
  rfl

omit [LinearOrder E] in
theorem gone_namedBy (g : Gone E) (lists : DomainLists) (f : Failure I) :
    g.namedBy lists (upd f)=g.namedBy lists f := by
  rw [hupd f]
  rfl

theorem exists_listed {failures : List (Failure I)} {op : OpId} :
    (∃ f ∈ failures.map upd,op ∈ f.listed) ↔ ∃ f ∈ failures,op ∈ f.listed := by
  constructor
  · rintro ⟨g,hg,hmem⟩
    obtain ⟨f,hf,rfl⟩:=mem_map.mp hg
    exact ⟨f,hf,hupd.listed_eq f ▸ hmem⟩
  · rintro ⟨f,hf,hmem⟩
    exact ⟨upd f,mem_map_of_mem hf,(hupd.listed_eq f).symm ▸ hmem⟩

omit [LinearOrder E] in
theorem suspects {failures : List (Failure I)} {lists : DomainLists}
    {lineages : Table Key (LineageState E)} {nextFailure : ℕ} {instance_ : InstanceId}
    (h : SuspectsOk failures writes kept lists lineages nextFailure instance_) :
    SuspectsOk (failures.map upd) writes kept lists lineages nextFailure instance_ where
  order := by
    rw [pairwise_map]
    simpa only [hupd.id_eq] using h.order
  clock g hg:=by
    obtain ⟨f,hf,rfl⟩:=mem_map.mp hg
    rw [hupd.id_eq]
    exact h.clock f hf
  listed_sorted g hg:=by
    obtain ⟨f,hf,rfl⟩:=mem_map.mp hg
    rw [hupd.listed_eq]
    exact h.listed_sorted f hf
  write_named g hg op w st hw hst hread:=by
    obtain ⟨f,hf,rfl⟩:=mem_map.mp hg
    rw [hupd.write_namedBy,hupd.listed_eq]
    exact h.write_named f hf op w st hw hst (hread.imp_right hupd.exists_listed.mp)
  kept_named g hg op k hk:=by
    obtain ⟨f,hf,rfl⟩:=mem_map.mp hg
    rw [hupd.gone_namedBy,hupd.listed_eq]
    exact h.kept_named f hf op k hk
  listed_record g hg op hmem:=by
    obtain ⟨f,hf,rfl⟩:=mem_map.mp hg
    rw [hupd.listed_eq] at hmem
    exact h.listed_record f hf op hmem
  kept_listed op g hg:=hupd.exists_listed.mpr (h.kept_listed op g hg)

theorem window {window : Window} {held : Table OpId (HeldOp E T)} {failures : List (Failure I)}
    {seals : Seals E} {abandoned : Table (EpochKey E) OpId} {operations : ℕ}
    (h : WindowOk window writes held kept failures seals abandoned operations) :
    WindowOk window writes held kept (failures.map upd) seals abandoned operations := { h with
  suspect_level:=fun op=>by
    rw [h.suspect_level,countP_map]
    refine countP_congr fun f _=>?_
    simp only [Function.comp_apply,hupd.listed_eq] }

theorem inv {tokens : List TokenSlot} (h : Inv d)
    (htokens : TokensOk (d.failures.map upd) tokens d.freeTokens) :
    Inv { d with failures := d.failures.map upd,tokens := tokens } := { h with
  suspects:=hupd.suspects h.suspects
  tokens:=htokens
  window:=hupd.window h.window }

end Restands

def standing (id : FailureId) (standing : Standing) (f : Failure I) : Failure I :=
  if f.id = id then { f with standing := standing } else f

theorem restands_standing (id : FailureId) (s : Standing) :
    Restands (standing id s : Failure I → Failure I) := by
  intro f
  unfold standing
  split_ifs <;> rfl

variable {lists : DomainLists}

omit [LinearOrder E] in
theorem SuspectsOk.unique {failures : List (Failure I)} {lineages : Table Key (LineageState E)}
    {nextFailure : ℕ} {instance_ : InstanceId}
    (h : SuspectsOk failures writes kept lists lineages nextFailure instance_) {f g : Failure I}
    (hf : f ∈ failures) (hg : g ∈ failures) (hseq : f.id.seq=g.id.seq) : f=g := by
  have hnodup : (failures.map fun f=>f.id.seq).Nodup:=by
    rw [List.Nodup,pairwise_map]
    exact h.order.imp fun hlt=>hlt.ne
  exact inj_on_of_nodup_map hnodup hf hg hseq

/-! ## Tokens -/

section Tokens

variable {failures : List (Failure I)} {tokens : List TokenSlot} {freeTokens : List ℕ}
variable (h : TokensOk failures tokens freeTokens)
include h

theorem TokensOk.unique {f g : Failure I}
    (hf : f ∈ failures) (hg : g ∈ failures) (hsame : f.token=g.token) : f=g := by
  have hnodup : (failures.map Failure.token).Nodup:=by
    rw [List.Nodup,pairwise_map]
    exact h.distinct
  exact inj_on_of_nodup_map hnodup hf hg hsame

theorem TokensOk.drop (slot n : ℕ) : TokensOk failures (tokens.set slot ⟨n,false⟩) freeTokens where
  slot f hf := by
    rw [length_set]
    exact h.slot f hf
  free:=by
    rw [length_set]
    exact h.free
  distinct:=h.distinct
  live_open s m hget:=by
    rw [List.getElem?_set] at hget
    split_ifs at hget
    · cases hget
    · exact h.live_open s m hget

theorem TokensOk.take {f : Failure I} (hf : f ∈ failures) (hopen : f.standing=.open) :
    TokensOk failures (tokens.set f.token ⟨f.id.seq,true⟩) freeTokens where
  slot g hg := by
    rw [length_set]
    exact h.slot g hg
  free:=by
    rw [length_set]
    exact h.free
  distinct:=h.distinct
  live_open s m hget:=by
    rw [List.getElem?_set] at hget
    split_ifs at hget with hsame
    · cases hget
      exact ⟨f,hf,rfl,hsame,hopen⟩
    · exact h.live_open s m hget

theorem TokensOk.restand {upd : Failure I → Failure I} (hupd : Restands upd)
    (hlive : ∀ f ∈ failures,f.standing=.open →
      tokens[f.token]? = some ⟨f.id.seq,true⟩ → (upd f).standing=.open) :
    TokensOk (failures.map upd) tokens freeTokens where
  slot g hg := by
    obtain ⟨f,hf,rfl⟩:=mem_map.mp hg
    rw [hupd.token_eq]
    exact h.slot f hf
  free:=h.free
  distinct:=by
    rw [pairwise_map]
    simpa only [hupd.token_eq] using h.distinct
  live_open s n hget:=by
    obtain ⟨f,hf,hid,htoken,hopen⟩:=h.live_open s n hget
    refine ⟨upd f,mem_map_of_mem hf,by rw [hupd.id_eq,hid],by rw [hupd.token_eq,htoken],
      hlive f hf hopen ?_⟩
    rw [htoken,hget,hid]

end Tokens

theorem Inv.dropToken (h : Inv d) (token : FailureToken) : Inv (d.dropToken token) := by
  unfold Durability.dropToken
  split_ifs
  · exact { h with tokens:=h.tokens.drop _ _ }
  · exact h

variable {token : FailureToken} {id : FailureId}

theorem Inv.takeToken (h : Inv d) (htake : d.takeToken id=some (token,d')) : Inv d' := by
  unfold Durability.takeToken at htake
  split at htake
  · cases htake
  · next f hfind =>
    split_ifs at htake with hopen
    cases htake
    have hid : f.id=id:=by simpa using List.find?_some hfind
    subst hid
    exact { h with tokens:=h.tokens.take (List.mem_of_find?_eq_some hfind) hopen.1 }

def Durability.stand (d : Durability E T I) (id : FailureId) (s : Standing) : Durability E T I :=
  { d with failures := d.failures.map (standing id s) }

theorem Durability.dropToken_of_live (hlive : d.tokens[token.slot]? = some ⟨token.id.seq,true⟩) :
    d.dropToken token={ d with tokens := d.tokens.set token.slot ⟨token.id.seq,false⟩ } := by
  unfold dropToken
  rw [if_pos hlive]

theorem Durability.stand_dropToken_tokens {s : Standing}
    (hlive : d.tokens[token.slot]? = some ⟨token.id.seq,true⟩) :
    ((d.stand id s).dropToken token).tokens=d.tokens.set token.slot ⟨token.id.seq,false⟩ := by
  rw [dropToken_of_live (d:=d.stand id s) hlive]
  rfl

theorem Inv.stand {f : Failure I} {s : Standing} (h : Inv d) (hid : f.id=token.id)
    (hlive : d.tokens[token.slot]? = some ⟨token.id.seq,true⟩) :
    Inv ((d.stand f.id s).dropToken token) := by
  rw [dropToken_of_live (d:=d.stand f.id s) hlive]
  refine (restands_standing f.id s).inv h
    ((h.tokens.drop token.slot token.id.seq).restand (restands_standing f.id s) ?_)
  intro g hg hopen hget
  unfold standing
  split_ifs with hsame
  · -- The failure's own slot is the one just dropped.
    obtain ⟨f',hf',hseq,htoken, -⟩:=h.tokens.live_open _ _ hlive
    obtain rfl:=h.suspects.unique hf' hg (by rw [hseq,hsame,hid])
    rw [htoken,List.getElem?_set_self',hlive] at hget
    simp at hget
  · exact hopen

/-! ## One resolution -/

section ResolveOne

variable {c c' : Change E T I} {item : FailureToken × Resolution}

theorem Durability.resolveOne_ok (hok : resolveOne c item=.ok c') :
    ∃ f,f ∈ c.core.failures ∧ f.id=item.1.id ∧ (item.2=.heal ∧ c'.due=c.due ∧
          c'.core=(c.core.stand f.id (.healing c.core.healNow)).dropToken item.1 ∨
        item.2=.abandon ∧ ∃ mid,c.core.abandonEpochs f=.ok mid ∧ c'.due=(abandonHeld
            ⟨mid,{ c.due with events := c.due.events++[.abandoned f.id] }⟩ f).due ∧
          c'.core=((abandonHeld
            ⟨mid,{ c.due with events := c.due.events++[.abandoned f.id] }⟩ f).core.stand f.id
              .resolved).dropToken item.1) := by
  unfold resolveOne at hok
  split at hok
  · cases hok
  · next f hfind =>
    have hid : f.id=item.1.id:=by simpa using List.find?_some hfind
    refine ⟨f,List.mem_of_find?_eq_some hfind,hid,?_⟩
    simp only at hok
    split at hok
    · next habandon =>
      simp only [bind_eq_ok] at hok
      obtain ⟨mid,hmid,hok⟩:=hok
      cases hok
      exact .inr ⟨habandon,mid,hmid,rfl,rfl⟩
    · next hheal =>
      cases hok
      exact .inl ⟨hheal,rfl,rfl⟩

theorem Inv.resolveOne (h : Inv c.core)
    (hlive : c.core.tokens[item.1.slot]? = some ⟨item.1.id.seq,true⟩)
    (hok : resolveOne c item=.ok c') :
    Inv c'.core ∧ c'.core.tokens=c.core.tokens.set item.1.slot ⟨item.1.id.seq,false⟩ := by
  obtain ⟨f,hf,hid,hrest⟩:=resolveOne_ok hok
  rcases hrest with ⟨-, -,hcore⟩ | ⟨-,mid,hmid, -,hcore⟩
  · rw [hcore]
    exact ⟨h.stand hid hlive,stand_dropToken_tokens hlive⟩
  · have hinv:=h.abandonEpochs hmid
    obtain ⟨window,abandoned,rfl⟩:=abandonEpochs_frame hmid
    rw [hcore]
    exact ⟨(abandonHeld hinv f).stand hid hlive,stand_dropToken_tokens hlive⟩

theorem Inv.resolveAll {items : List (FailureToken × Resolution)} (h : Inv c.core)
    (hnodup : (items.map fun item => item.1.id).Nodup)
    (hinstance : ∀ item ∈ items,item.1.id.instance_=c.core.instance_)
    (hlive : ∀ item ∈ items,c.core.tokens[item.1.slot]? = some ⟨item.1.id.seq,true⟩)
    (hok : items.foldlM Durability.resolveOne c=.ok c') : Inv c'.core := by
  refine (foldlM_progress
    (fun (rest : List (FailureToken × Resolution)) (s : Change E T I)=>Inv s.core ∧
      (rest.map fun item=>item.1.id).Nodup ∧
      (∀ item ∈ rest,item.1.id.instance_=c.core.instance_) ∧
      ∀ item ∈ rest,s.core.tokens[item.1.slot]? = some ⟨item.1.id.seq,true⟩)
    (fun item rest s s' hs hone=>?_) ⟨h,hnodup,hinstance,hlive⟩ hok).1
  obtain ⟨hinv,hdistinct,hinst,htokens⟩:=hs
  obtain ⟨hnot,hdistinct⟩:=nodup_cons.mp hdistinct
  have hitem:=htokens item mem_cons_self
  obtain ⟨hinv',htokens'⟩:=hinv.resolveOne hitem hone
  refine ⟨hinv',hdistinct,fun other hother=>hinst other (mem_cons_of_mem _ hother),
    fun other hother=>?_⟩
  have hother':=htokens other (mem_cons_of_mem _ hother)
  rw [htokens',List.getElem?_set_ne,hother']
  intro hslot
  rw [hslot,hother'] at hitem
  refine hnot (mem_map.mpr ⟨other,hother,?_⟩)
  have hsame:=(hinst other (mem_cons_of_mem _ hother)).trans
    (hinst item mem_cons_self).symm
  cases hid : other.1.id
  cases hid' : item.1.id
  simp_all

end ResolveOne

/-! ## Healed failures -/

theorem Inv.releaseHealed {c : Change E T I} (h : Inv c.core) : Inv (releaseHealed c).core := by
  have hupd : Restands fun f : Failure I =>
      if c.core.isHealed f then { f with standing:=.resolved } else f:=by
    intro f
    dsimp only
    split_ifs <;> rfl
  refine hupd.inv h (h.tokens.restand hupd fun f _ hopen _=>?_)
  have hnot : c.core.isHealed f=false:=by
    simp [isHealed,Failure.healingAt,hopen]
  simp [hnot,hopen]

/-! ## Domain lists -/

theorem DomainLists.release_get (lists : DomainLists) (list list' : DomainList) :
    (lists.release list).get list'=lists.get list' := by
  unfold release
  split_ifs <;> rfl

theorem Failure.names_congr {f : Failure I} {lists' : DomainLists} {born : ℕ} {until_ : Option ℕ}
    {l : Key} {domains : DomainList}
    (hfile : ∀ list,f.reach=.file list → lists'.get list=lists.get list)
    (hnamed : ∀ list,f.reach=.named list → lists'.get list=lists.get list)
    (hdomains : lists'.get domains=lists.get domains) :
    f.names lists' born until_ l domains=f.names lists born until_ l domains := by
  unfold names
  congr 1
  cases hreach : f.reach with
  | all=>rfl
  | domain x=>simp only [Reach.reaches,hdomains]
  | file list=>simp only [Reach.reaches,hdomains,hfile list hreach]
  | named list=>simp only [Reach.reaches,hdomains,hnamed list hreach]

theorem Inv.relist (h : Inv d) (hlists : ∀ list,d.Named list → lists.get list=d.lists.get list) :
    Inv { d with lists := lists } := by
  have hlive : ∀ op w st,d.writes.get op=some w → d.lineages.get w.lineage=some st →
      st.ended=false → lists.get w.domains=d.lists.get w.domains :=
    fun op w st hw hst hended=>hlists _ (.live op w hw (isLive_iff.mpr ⟨st,hst,hended⟩) rfl)
  have hnames : ∀ f ∈ d.failures,∀ born until_ l domains,
      lists.get domains=d.lists.get domains →
      f.names lists born until_ l domains=f.names d.lists born until_ l domains :=
    fun f hf born until_ l domains hdomains=>Failure.names_congr
      (fun list hreach=>hlists list (.file f hf hreach))
      (fun list hreach=>hlists list (.reach f hf hreach)) hdomains
  exact { h with
    parts:={ h.parts with
      named_asked:=fun op w q st hw hstage hst hended hprovider domain hdomain=>by
        have hdomain' : domain ∈ lists.get w.domains:=hdomain
        rw [hlive op w st hw hst hended] at hdomain'
        exact h.parts.named_asked op w q st hw hstage hst hended hprovider domain hdomain'
      asked_write:=fun k part st hpart hans hst hended=>by
        obtain ⟨op,w,hw,hl,hstage,hdomain⟩:=h.parts.asked_write k part st hpart hans hst hended
        refine ⟨op,w,hw,hl,hstage,?_⟩
        rw [← hlive op w st hw (hl ▸ hst) hended] at hdomain
        exact hdomain }
    files:={ h.files with
      write_routed:=fun op w st hw hst hended=>by
        rw [h.files.write_routed op w st hw hst hended]
        exact congrArg (routing · d.served) (hlive op w st hw hst hended).symm
      held_routed:=fun op g a hg ha=>by
        rw [h.files.held_routed op g a hg ha]
        exact congrArg (routing · d.served) (hlists _ (.held op g a hg ha rfl)).symm }
    suspects:={ h.suspects with
      write_named:=fun f hf op w st hw hst hread=>by
        have hdomains : lists.get w.domains=d.lists.get w.domains:=by
          rcases hread with hended | hread
          · exact hlive op w st hw hst hended
          · refine hlists _ (.suspected op w hw ?_ rfl)
            rw [Window.suspected_iff]
            exact (h.window.suspect_pos op).mpr hread
        have hold:=h.suspects.write_named f hf op w st hw hst hread
        unfold Write.namedBy at hold ⊢
        rwa [hnames f hf _ _ _ _ hdomains]
      kept_named:=fun f hf op g hg=>by
        have hold:=h.suspects.kept_named f hf op g hg
        unfold Gone.namedBy at hold ⊢
        rwa [hnames f hf _ _ _ _ (hlists _ (.kept op g hg rfl))] }
    cover:=fun op w q st hw hstage hst hended hcovered=>by
      refine h.cover op w q st hw hstage hst hended ⟨hcovered.1,?_⟩
      rw [← hlive op w st hw hst hended]
      exact hcovered.2 }

/-! ## Forgetting -/

section Forget

variable {f : Failure I}

theorem Inv.suspects_nodup (h : Inv d) (f : Failure I) : ((d.suspects f).map Suspect.op).Nodup := by
  rw [suspects_ops,nodup_append]
  refine ⟨(h.keys.ops_sorted _).imp fun hlt=>hlt.ne,?_,fun op hw op' hg hsame=>?_⟩
  · refine List.Nodup.sublist ((filter_sublist).map Gone.op) ?_
    have hops : d.kept.vals.map Gone.op=d.kept.keys:=by
      unfold Table.vals Table.keys
      rw [map_map]
      exact map_congr_left fun e he=>h.keys.kept_key e.1 e.2 (mem_entries.mp he)
    rw [hops]
    exact d.kept.keys_nodup
  · obtain ⟨w,hmem,rfl⟩:=mem_map.mp hw
    obtain ⟨g,hmem',rfl⟩:=mem_map.mp hg
    obtain ⟨op₁,hget₁⟩:=mem_vals.mp (mem_filter.mp hmem).1
    obtain ⟨op₂,hget₂⟩:=mem_vals.mp (mem_filter.mp hmem').1
    rw [h.keys.write_key op₁ w hget₁,h.keys.kept_key op₂ g hget₂] at hsame
    rw [hsame,h.keys.kept_not_write op₂ g hget₂] at hget₁
    cases hget₁

theorem Inv.mem_suspects_ops (h : Inv d) (hf : f ∈ d.failures) {op : OpId}
    (hread : ∃ g ∈ d.failures,op ∈ g.listed) :
    op ∈ (d.suspects f).map Suspect.op ↔ op ∈ f.listed := by
  rw [mem_map]
  constructor
  · rintro ⟨s,hs,rfl⟩
    rcases mem_suspects.mp hs with ⟨op,w,hw,hnamed,rfl⟩ | ⟨op,g,hg,hnamed,rfl⟩
    · have hop : w.suspect.op=op:=h.keys.write_key op w hw
      rw [hop] at hread ⊢
      obtain ⟨st,hst, -⟩:=h.lives.write_lineage op w hw
      exact (h.suspects.write_named f hf op w st hw hst (.inr hread)).mp hnamed
    · have hop : g.suspect.op=op:=h.keys.kept_key op g hg
      rw [hop]
      exact (h.suspects.kept_named f hf op g hg).mp hnamed
  · intro hmem
    rcases h.suspects.listed_record f hf op hmem with ⟨w,hw⟩ | ⟨g,hg⟩
    · obtain ⟨st,hst, -⟩:=h.lives.write_lineage op w hw
      have hnamed:=(h.suspects.write_named f hf op w st hw hst (.inr hread)).mpr hmem
      exact ⟨w.suspect,mem_suspects.mpr (.inl ⟨op,w,hw,hnamed,rfl⟩),h.keys.write_key op w hw⟩
    · have hnamed:=(h.suspects.kept_named f hf op g hg).mpr hmem
      exact ⟨g.suspect,mem_suspects.mpr (.inr ⟨op,g,hg,hnamed,rfl⟩),h.keys.kept_key op g hg⟩

/-- The core without a failure, its reach not yet released. -/
abbrev Durability.forgot (d : Durability E T I) (f : Failure I) (window : Window) : Durability E T I :=
  { d with
    failures := d.failures.filter fun g => decide (g.id ≠ f.id)
    freeTokens := f.token :: d.freeTokens
    window := window
    kept := d.kept.filter fun _ g => !(g.namedBy d.lists f) || window.suspected g.op }

theorem Durability.forget_ok (hok : d.forget id=.ok d') :
    ∃ f window,f ∈ d.failures ∧ f.id=id ∧ f.standing=.resolved ∧
      (d.suspects f).foldlM (fun (win : Window) w => win.release w.op .suspect) d.window =
        .ok window ∧ d'=releaseReach (d.forgot f window) f.reach := by
  unfold forget at hok
  split at hok
  · cases hok
  · next f hfind =>
    have hfound:=List.find?_some hfind
    simp only [Bool.and_eq_true,decide_eq_true_eq] at hfound
    simp only [releaseSuspects,bind_eq_ok] at hok
    obtain ⟨_,⟨window,hwindow,hmid⟩,hok⟩:=hok
    cases hmid
    cases hok
    rw [← hfound.1]
    exact ⟨f,window,List.mem_of_find?_eq_some hfind,rfl,hfound.2,hwindow,rfl⟩

theorem Inv.countP_listed (h : Inv d) (hf : f ∈ d.failures) (op : OpId) :
    d.failures.countP (fun g => decide (op ∈ g.listed)) =
      (d.failures.filter fun g => decide (g.id ≠ f.id)).countP (fun g => decide (op ∈ g.listed)) +
        if op ∈ f.listed then 1 else 0 := by
  have hperm : d.failures.Perm (f::d.failures.filter fun g=>decide (g.id≠f.id)):=by
    have hnodup : d.failures.Nodup:=h.suspects.order.imp fun hlt=>by
      rintro rfl
      exact lt_irrefl _ hlt
    classical
    refine (perm_cons_erase hf).trans (List.Perm.cons f ?_)
    rw [hnodup.erase_eq_filter]
    refine List.Perm.of_eq (filter_congr fun g hg=>?_)
    rw [Bool.eq_iff_iff]
    simp only [bne_iff_ne,ne_eq,decide_eq_true_eq]
    exact not_congr ⟨fun heq=>by rw [heq],fun hid=>h.suspects.unique hg hf (by rw [hid])⟩
  rw [hperm.countP_eq,countP_cons]
  simp

theorem Inv.count_released (h : Inv d) (hf : f ∈ d.failures) {window : Window}
    (hrelease : (d.suspects f).foldlM (fun (win : Window) w => win.release w.op .suspect)
      d.window=.ok window) (op : OpId) :
    ((d.suspects f).map Suspect.op).count op=if op ∈ f.listed then 1 else 0 := by
  by_cases hread : ∃ g ∈ d.failures,op ∈ g.listed
  · rw [List.Nodup.count (h.suspects_nodup f)]
    simp only [h.mem_suspects_ops hf hread]
  · -- No failure lists the operation, so no hold of its place could have been let go.
    have hlevel:=Window.foldRelease_level hrelease op .suspect
    have hzero : d.window.level op .suspect=0:=by
      by_contra hpos
      exact hread ((h.window.suspect_pos op).mp (Nat.pos_of_ne_zero hpos))
    rw [if_neg fun hmem=>hread ⟨f,hf,hmem⟩]
    rw [hzero,if_pos rfl] at hlevel
    omega

theorem Inv.forget_level (h : Inv d) (hf : f ∈ d.failures) {window : Window}
    (hrelease : (d.suspects f).foldlM (fun (win : Window) w => win.release w.op .suspect)
      d.window=.ok window) (op : OpId) : window.level op .suspect =
      (d.failures.filter fun g => decide (g.id ≠ f.id)).countP fun g => decide (op ∈ g.listed) := by
  have hlevel:=Window.foldRelease_level hrelease op .suspect
  rw [h.window.suspect_level,h.countP_listed hf op,if_pos rfl,h.count_released hf hrelease] at hlevel
  omega

theorem Inv.forget (h : Inv d) (hok : d.forget id=.ok d') : Inv d' := by
  obtain ⟨f,window,hf,rfl,hresolved,hrelease,rfl⟩:=forget_ok hok
  have hlevel:=Window.foldRelease_level hrelease
  have hother : ∀ op k,k≠.suspect → window.level op k=d.window.level op k:=by
    intro op k hk
    rw [hlevel op k,if_neg hk,Nat.add_zero]
  have hsuspected : ∀ op,window.suspected op=true ↔
      ∃ g ∈ d.failures.filter (fun g=>decide (g.id≠f.id)),op ∈ g.listed:=by
    intro op
    rw [Window.suspected_iff,h.forget_level hf hrelease,countP_pos_iff]
    simp
  have hkept : ∀ op g,(d.kept.filter fun _ g=>!(g.namedBy d.lists f) ||
      window.suspected g.op).get op=some g → d.kept.get op=some g :=
    fun op g hg=>get_of_filter hg
  have hmem : ∀ g,g ∈ d.failures.filter (fun g=>decide (g.id≠f.id)) → g ∈ d.failures :=
    fun g hg=>(mem_filter.mp hg).1
  have hmain : Inv (d.forgot f window) :=
    { h with
      keys:={ h.keys with
        kept_key:=fun op g hg=>h.keys.kept_key op g (hkept op g hg)
        kept_not_write:=fun op g hg=>h.keys.kept_not_write op g (hkept op g hg)
        kept_not_held:=fun op g hg=>h.keys.kept_not_held op g (hkept op g hg) }
      clocks:={ h.clocks with kept_clock:=fun op g hg=>h.clocks.kept_clock op g (hkept op g hg) }
      suspects :=
        { order:=h.suspects.order.filter _
          clock:=fun g hg=>h.suspects.clock g (hmem g hg)
          listed_sorted:=fun g hg=>h.suspects.listed_sorted g (hmem g hg)
          write_named:=fun g hg op w st hw hst hread =>
            h.suspects.write_named g (hmem g hg) op w st hw hst (hread.imp_right
              fun ⟨g',hg',hmem'⟩=>⟨g',hmem g' hg',hmem'⟩)
          kept_named:=fun g hg op k hk=>h.suspects.kept_named g (hmem g hg) op k (hkept op k hk)
          listed_record:=fun g hg op hlisted=>by
            refine (h.suspects.listed_record g (hmem g hg) op hlisted).imp_right ?_
            rintro ⟨k,hk⟩
            refine ⟨k,?_⟩
            have hstays:=(hsuspected op).mpr ⟨g,hg,hlisted⟩
            rw [get_filter,hk,Option.filter_some,h.keys.kept_key op k hk,hstays]
            simp
          kept_listed:=fun op k hk=>by
            rw [get_filter,Option.filter_eq_some_iff] at hk
            obtain ⟨hk,hstays⟩:=hk
            rw [h.keys.kept_key op k hk] at hstays
            by_cases hs : window.suspected op=true
            · exact (hsuspected op).mp hs
            · obtain ⟨g,hg,hlisted⟩:=h.suspects.kept_listed op k hk
              refine ⟨g,mem_filter.mpr ⟨hg,?_⟩,hlisted⟩
              rw [decide_eq_true_eq]
              intro hid
              obtain rfl:=h.suspects.unique hg hf (by rw [hid])
              rw [(h.suspects.kept_named g hg op k hk).mpr hlisted] at hstays
              simp [hs] at hstays }
      tokens :=
        { slot:=fun g hg=>by
            obtain ⟨hg,hid⟩:=mem_filter.mp hg
            refine ⟨(h.tokens.slot g hg).1,?_⟩
            rw [mem_cons,not_or]
            refine ⟨fun hsame=>?_,(h.tokens.slot g hg).2⟩
            simp [h.tokens.unique hg hf hsame] at hid
          free:=by
            refine ⟨nodup_cons.mpr ⟨(h.tokens.slot f hf).2,h.tokens.free.1⟩,fun s hs=>?_⟩
            rcases mem_cons.mp hs with rfl | hs
            · exact (h.tokens.slot f hf).1
            · exact h.tokens.free.2 s hs
          distinct:=h.tokens.distinct.filter _
          live_open:=fun s n hget=>by
            obtain ⟨g,hg,hid,htoken,hopen⟩:=h.tokens.live_open s n hget
            refine ⟨g,mem_filter.mpr ⟨hg,?_⟩,hid,htoken,hopen⟩
            rw [decide_eq_true_eq]
            intro hsame
            obtain rfl:=h.suspects.unique hg hf (by rw [hsame])
            rw [hresolved] at hopen
            cases hopen }
      window:={ h.window with
        proper:=Window.foldRelease_proper h.window.proper hrelease
        size_le:=(Window.foldRelease_size_le hrelease).trans h.window.size_le
        held_level:=fun op g hg=>by rw [hother _ _ (by simp),h.window.held_level op g hg]
        uncovered_level:=fun op=>by rw [hother _ _ (by simp),h.window.uncovered_level]
        suspect_level:=h.forget_level hf hrelease
        pin_level:=fun op=>by rw [hother _ _ (by simp),h.window.pin_level]
        abandoned_level:=fun op=>by rw [hother _ _ (by simp),h.window.abandoned_level]
        abandoned_pin:=fun k op hk=>by
          obtain ⟨hheld,hwrite,hgone⟩:=h.window.abandoned_pin k op hk
          exact ⟨hheld,hwrite,fun g hg=>hgone g (hkept op g hg)⟩ } }
  unfold releaseReach
  split
  · exact hmain.relist fun list _=>DomainLists.release_get _ _ _
  · exact hmain
  · exact hmain
  · exact hmain

end Forget

end WindowsThreadpoolSys.DurableIoring
