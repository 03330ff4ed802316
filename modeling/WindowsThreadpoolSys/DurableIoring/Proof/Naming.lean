import WindowsThreadpoolSys.DurableIoring.Proof.Answer

/-! A seal whose writes have all completed names them as it starts: each moves from its lineage's
unsealed span to the seal's, its file's flush is made due with the first of the file's writes the
default answers for, and the domains the provider serves are asked about. -/
namespace WindowsThreadpoolSys.DurableIoring
open Library Durability List Table Spans

variable {E T I : Type} [LinearOrder E] {d : Durability E T I} {l : Key} {q : ℕ}

/-! ## Naming a write -/

section Naming

variable {s : Seal E} {n n' : Durability.Naming E T} {w : Write E T} {op : OpId}
  {writes : Table OpId (Write E T)}

def SpanFile.due (e : SpanFile) (default : Bool) : SpanFile :=
  { e with flushed := e.flushed || default }

theorem Durability.nameWrite_ok (h : d.nameWrite l s n w=.ok n') : ∃ left spans,
      n.spans.leave ⟨l,w.file,.unsealed⟩ .namedInNoSpan=.ok left ∧
      left.enter d.capacity.operations ⟨l,w.file,.sealed s.seq⟩ w.domains=.ok spans ∧
      (n'.touched=if w.routing.provider then
        touch n.touched d.served (d.lists.get w.domains) else n.touched) ∧
      (n'.spans=spans.modify ⟨l,w.file,.sealed s.seq⟩ fun e => e.due w.routing.default) ∧
      (w.routing.default=true ∧ (∀ e,spans.get ⟨l,w.file,.sealed s.seq⟩=some e → e.flushed=false) ∧
          n'.unanswered=n.unanswered+1 ∧ n'.flushes=n.flushes++[⟨l,s.through,w.file,w.target⟩] ∨
        (w.routing.default=true → ∃ e,spans.get ⟨l,w.file,.sealed s.seq⟩=some e ∧ e.flushed=true) ∧
          n'.unanswered=n.unanswered ∧ n'.flushes=n.flushes) := by
  unfold nameWrite at h
  rw [bind_eq_ok] at h
  obtain ⟨left,hleft,h⟩:=h
  simp only [bind_eq_ok] at h
  obtain ⟨spans,hspans,h⟩:=h
  refine ⟨left,spans,hleft,hspans,?_⟩
  by_cases hdue : (w.routing.default &&
      !(spans.get ⟨l,w.file,.sealed s.seq⟩).any SpanFile.flushed)=true
  · rw [if_pos hdue] at h
    cases h
    simp only [Bool.and_eq_true,Bool.not_eq_eq_eq_not,Bool.not_true,Option.any_eq_false] at hdue
    refine ⟨rfl,?_,.inl ⟨hdue.1,fun e he=>by simpa using hdue.2 e he,rfl,rfl⟩⟩
    simp only [SpanFile.due,hdue.1,Bool.or_true]
  · rw [if_neg hdue] at h
    cases h
    simp only [Bool.and_eq_true,Bool.not_eq_eq_eq_not,Bool.not_true,not_and,Bool.not_eq_false,
      Option.any_eq_true] at hdue
    refine ⟨rfl,Table.ext_get fun k=>?_,.inr ⟨hdue,rfl,rfl⟩⟩
    -- the flush asked for already stays as it was
    change spans.get k=_
    rw [get_modify]
    split_ifs with hk
    · rw [hk]
      cases hget : spans.get ⟨l,w.file,.sealed s.seq⟩ with
      | none=>rfl
      | some e =>
        cases hdefault : w.routing.default with
        | false=>simp [SpanFile.due]
        | true =>
          obtain ⟨e',he',hflushed⟩:=hdue hdefault
          rw [hget] at he'
          cases he'
          simp [SpanFile.due,← hflushed]
    · rfl

theorem DomainLists.mem_insertSorted {id x : DomainId} {ids : List DomainId} :
    x ∈ DomainLists.insertSorted id ids ↔ x=id ∨ x ∈ ids := by
  induction ids with
  | nil=>simp [insertSorted]
  | cons y rest ih =>
    unfold insertSorted
    split_ifs with hlt heq
    · simp
    · subst heq
      simp
    · rw [mem_cons,ih,mem_cons]
      tauto

theorem Durability.mem_touch {touched served domains : List DomainId} {x : DomainId} :
    x ∈ touch touched served domains ↔ x ∈ touched ∨ x ∈ domains ∧ x ∈ served := by
  unfold touch
  have hfold : ∀ (ids acc : List DomainId),
      x ∈ ids.foldl (fun acc id=>DomainLists.insertSorted id acc) acc ↔ x ∈ acc ∨ x ∈ ids:=by
    intro ids
    induction ids with
    | nil=>simp
    | cons id rest ih =>
      intro acc
      rw [foldl_cons,ih,DomainLists.mem_insertSorted,mem_cons]
      tauto
  rw [hfold,mem_filter,contains_iff_mem]

/-- What naming writes to seal `q` of `l` has made of the span entries, `writes` being the writes as
named so far. -/
structure NamingOk (d : Durability E T I) (l : Key) (q : ℕ) (writes : Table OpId (Write E T))
    (n : Durability.Naming E T) : Prop where
  spans : SpansOk writes n.spans
  entry_domains : ∀ op w e, writes.get op = some w → n.spans.get w.spanKey = some e →
    e.domains = w.domains
  unanswered : n.unanswered = n.spans.count fun k e => isOut l q k e
  fresh : ∀ file e, n.spans.get ⟨l, file, .sealed q⟩ = some e → e.answered = false
  flush : ∀ op w, writes.get op = some w → w.lineage = l → w.stage = .named q →
    w.routing.default = true → ∃ e, n.spans.get ⟨l, w.file, .sealed q⟩ = some e ∧ e.flushed = true
  default : ∀ op w e, writes.get op = some w → w.lineage = l → w.stage = .named q →
    n.spans.get ⟨l, w.file, .sealed q⟩ = some e → e.flushed = true → w.routing.default = true
  touched : ∀ domain, domain ∈ n.touched ↔ ∃ op w, writes.get op = some w ∧ w.lineage = l ∧
    w.stage = .named q ∧ w.routing.provider = true ∧ domain ∈ d.lists.get w.domains ∧
    domain ∈ d.served
  other : ∀ k, ¬(k.lineage = l ∧ (k.span = .unsealed ∨ k.span = .sealed q)) →
    n.spans.get k = d.spans.get k

variable {spans : Spans}

omit [LinearOrder E] in
theorem SpansOk.due {file : IoTargetKey} (h : SpansOk writes spans) (default : Bool) :
    SpansOk writes (spans.modify ⟨l,file,.sealed q⟩ fun e => e.due default) := by
  have hback : ∀ k e',(spans.modify ⟨l,file,.sealed q⟩ fun e=>e.due default).get k=some e' →
      ∃ e,spans.get k=some e ∧ (e'=e ∨ k=⟨l,file,.sealed q⟩ ∧ e'=e.due default):=by
    intro k e' he'
    rw [get_modify] at he'
    split_ifs at he' with hk
    · obtain ⟨e,he,rfl⟩:=Option.map_eq_some_iff.mp he'
      exact ⟨e,he,.inr ⟨hk,rfl⟩⟩
    · exact ⟨e',he',.inl rfl⟩
  refine {
    proper:=fun k e' he'=>?_
    count:=fun k=>?_
    unsealed_entry:=fun l' file' e' he'=>?_
    answered_flushed:=fun k e' he' hans=>?_
    ok_answered:=fun k e' he' hok=>?_ }
  · obtain ⟨e,he,rfl | ⟨-,rfl⟩⟩:=hback k e' he'
    · exact h.proper k e' he
    · exact h.proper k e he
  · rw [← h.count k]
    unfold writesAt
    rw [get_modify]
    split_ifs with hk
    · cases hget : spans.get k <;> rfl
    · rfl
  · obtain ⟨e,he,rfl | ⟨hk, -⟩⟩:=hback _ e' he'
    · exact h.unsealed_entry l' file' e' he
    · cases hk
  · obtain ⟨e,he,rfl | ⟨-,rfl⟩⟩:=hback k e' he'
    · exact h.answered_flushed k e' he hans
    · have hflushed : e.flushed=true:=h.answered_flushed k e he hans
      simp [SpanFile.due,hflushed]
  · obtain ⟨e,he,rfl | ⟨-,rfl⟩⟩:=hback k e' he'
    · exact h.ok_answered k e' he hok
    · exact h.ok_answered k e he hok

variable {domains : DomainList} {left : Spans} {limit : ℕ}

omit [LinearOrder E] in
theorem nameWrite_back {key key' : SpanKey} {lost : Inconsistency} {default : Bool} {k : SpanKey}
    {e' : SpanFile} (hleft : n.spans.leave key lost=.ok left)
    (henter : left.enter limit key' domains=.ok spans)
    (he' : (spans.modify key' fun e => e.due default).get k=some e') :
    (k=key' ∧ left.get key'=none ∧ e'=({ SpanFile.new domains with writes := 1 }).due default) ∨
      ∃ e,n.spans.get k=some e ∧ e'.domains=e.domains ∧ e'.answered=e.answered ∧
        (k ≠ key' ∧ e'.flushed=e.flushed ∨ k=key' ∧ e'.flushed=(e.flushed || default)) := by
  rw [get_modify] at he'
  split_ifs at he' with hk
  · obtain ⟨e₁,he₁,rfl⟩:=Option.map_eq_some_iff.mp he'
    rcases enter_get henter he₁ with ⟨-,hnone,rfl⟩ | ⟨e₂,he₂,heq₂⟩
    · exact .inl ⟨hk,hnone,rfl⟩
    · obtain ⟨e,he,heq⟩:=leave_get hleft he₂
      refine .inr ⟨e,he,?_,?_,.inr ⟨hk,?_⟩⟩ <;> rw [heq₂,heq] <;> rfl
  · rcases enter_get henter he' with ⟨hkey, -, -⟩ | ⟨e₂,he₂,heq₂⟩
    · exact absurd hkey hk
    · obtain ⟨e,he,heq⟩:=leave_get hleft he₂
      refine .inr ⟨e,he,?_,?_,.inl ⟨hk,?_⟩⟩ <;> rw [heq₂,heq]

omit [LinearOrder E] in
theorem nameWrite_forth {key key' : SpanKey} {lost : Inconsistency} {default : Bool} {k : SpanKey}
    {e : SpanFile} (hleft : n.spans.leave key lost=.ok left)
    (henter : left.enter limit key' domains=.ok spans) (hk : k ≠ key) (he : n.spans.get k=some e) :
    ∃ e',(spans.modify key' fun e => e.due default).get k=some e' ∧
      (e.flushed=true → e'.flushed=true) := by
  rw [← leave_get_of_ne hleft hk] at he
  obtain ⟨m,hm⟩:=enter_of_get henter he
  rw [get_modify,hm]
  split_ifs
  · exact ⟨_,rfl,fun hflushed=>by simp [SpanFile.due,hflushed]⟩
  · exact ⟨_,rfl,id⟩

omit [LinearOrder E] in
theorem nameWrite_count {file : IoTargetKey}
    (hfresh : ∀ e,n.spans.get ⟨l,file,.sealed q⟩=some e → e.answered=false)
    (hleft : n.spans.leave ⟨l,file,.unsealed⟩ .namedInNoSpan=.ok left)
    (henter : left.enter limit ⟨l,file,.sealed q⟩ domains=.ok spans) (default : Bool) :
    ((spans.modify ⟨l,file,.sealed q⟩ fun e => e.due default).count fun k e => isOut l q k e) =
      (n.spans.count fun k e => isOut l q k e) +
        if default=true ∧ ∀ e,spans.get ⟨l,file,.sealed q⟩=some e → e.flushed=false then 1
        else 0 := by
  obtain ⟨e₀,he₀, -⟩:=leave_ok hleft
  have hin : isOut l q ⟨l,file,.unsealed⟩ e₀=false:=by simp [isOut]
  rw [← leave_count_out he₀ hin hleft,← enter_count_out henter]
  obtain ⟨e,he⟩ : ∃ e,spans.get ⟨l,file,.sealed q⟩=some e:=by
    obtain ⟨-,rfl⟩:=enter_ok henter
    exact ⟨_,get_insert_self _ _ _⟩
  have hans : e.answered=false:=by
    rcases enter_get henter he with ⟨-, -,rfl⟩ | ⟨e₁,he₁,heq⟩
    · rfl
    · rw [leave_get_of_ne hleft (by simp)] at he₁
      rw [heq]
      exact hfresh e₁ he₁
  have hmodify : (spans.modify ⟨l,file,.sealed q⟩ fun e=>e.due default) =
      spans.insert ⟨l,file,.sealed q⟩ (e.due default):=by
    refine Table.ext_get fun k=>?_
    rw [get_modify,get_insert]
    split_ifs with hk
    · rw [hk,he]
      rfl
    · rfl
  have hreplace:=Table.count_replace (e.due default) (fun k e=>isOut l q k e) he
  have hout : isOut l q ⟨l,file,.sealed q⟩ e=e.flushed:=by simp [isOut,hans]
  have hdue : isOut l q ⟨l,file,.sealed q⟩ (e.due default)=(e.flushed || default):=by
    simp [isOut,SpanFile.due,hans]
  simp only [hout,hdue] at hreplace
  rw [hmodify]
  simp only [he,Option.some.injEq,forall_eq']
  cases hflushed : e.flushed <;> cases default <;> simp_all

theorem NamingOk.name (h : NamingOk d l q writes n) (hw : writes.get op=some w)
    (hl : w.lineage=l) (hstage : w.stage=.completed)
    (hfile : ∀ op' w',writes.get op'=some w' → w'.lineage=l → w'.file=w.file →
      w'.domains=w.domains ∧ w'.routing=w.routing)
    (hq : s.seq=q) (hname : d.nameWrite l s n w=.ok n') :
    NamingOk d l q (writes.insert op { w with stage := .named q }) n' := by
  obtain ⟨left,spans,hleft,henter,htouched,hspans,hdue⟩:=nameWrite_ok hname
  subst hq
  have hkey : w.spanKey=⟨l,w.file,.unsealed⟩:=by simp [Write.spanKey,hl,hstage,Span.ofStage]
  have hkey' : ({ w with stage:=.named s.seq } : Write E T).spanKey =
      ⟨l,w.file,.sealed s.seq⟩:=by simp [Write.spanKey,hl,Span.ofStage]
  have hleft' : n.spans.leave w.spanKey .namedInNoSpan=.ok left:=hkey ▸ hleft
  -- a write in the seal's span of the file, if there is one yet
  have hthere : ∀ e,n.spans.get ⟨l,w.file,.sealed s.seq⟩=some e → ∃ op' w',
      writes.get op'=some w' ∧ w'.spanKey=⟨l,w.file,.sealed s.seq⟩:=by
    intro e he
    have hpos:=(writesAt_pos h.spans.proper _).mpr (by rw [he]; rfl)
    rw [h.spans.count,count_pos] at hpos
    obtain ⟨op',w',hw',hspan⟩:=hpos
    exact ⟨op',w',hw',by simpa using hspan⟩
  have hmember : ∀ w' : Write E T,w'.spanKey=⟨l,w.file,.sealed s.seq⟩ →
      w'.lineage=l ∧ w'.file=w.file ∧ w'.stage=.named s.seq:=by
    intro w' hspan
    obtain ⟨h₁,h₂,h₃⟩:=SpanKey.mk.inj hspan
    refine ⟨h₁,h₂,?_⟩
    cases hstage' : w'.stage <;> simp_all [Span.ofStage]
  have hnone : left.get ⟨l,w.file,.sealed s.seq⟩=none → ∀ op' w',writes.get op'=some w' →
      w'.spanKey≠⟨l,w.file,.sealed s.seq⟩:=by
    intro hleftnone op' w' hw' hspan
    obtain ⟨e,he⟩:=h.spans.get_of_write hw'
    rw [hspan,← leave_get_of_ne hleft (by simp),hleftnone] at he
    cases he
  have hspansOk:=(h.spans.letGo hw hleft').enter (w:={ w with stage:=.named s.seq })
    (get_erase_self _ op) (hkey' ▸ henter)
  rw [insert_over] at hspansOk
  refine {
    spans:=hspans ▸ hspansOk.due _
    entry_domains:=fun op' w' e' hw' he'=>?_
    unanswered:=?_
    fresh:=fun file e' he'=>?_
    flush:=fun op' w' hw' hl' hstage' hdefault=>?_
    default:=fun op' w' e' hw' hl' hstage' he' hflushed=>?_
    touched:=fun domain=>?_
    other:=fun k hk=>?_ }
  · rw [hspans] at he'
    rcases nameWrite_back hleft henter he' with ⟨hk,hleftnone,rfl⟩ | ⟨e,he,hdomains, -, -⟩
    · rcases of_insert hw' with ⟨-,rfl⟩ | hw'
      · rfl
      · exact absurd hk (hnone hleftnone op' w' hw')
    · rw [hdomains]
      rcases of_insert hw' with ⟨-,rfl⟩ | hw'
      · rw [hkey'] at he
        obtain ⟨op₁,w₁,hw₁,hspan₁⟩:=hthere e he
        obtain ⟨hl₁,hf₁, -⟩:=hmember w₁ hspan₁
        rw [h.entry_domains op₁ w₁ e hw₁ (hspan₁ ▸ he)]
        exact (hfile op₁ w₁ hw₁ hl₁ hf₁).1
      · exact h.entry_domains op' w' e hw' he
  · have hcount:=nameWrite_count (h.fresh w.file) hleft henter w.routing.default
    rw [hspans,hcount,← h.unanswered]
    rcases hdue with ⟨hdefault,hunflushed,hn, -⟩ | ⟨hflushed,hn, -⟩
    · rw [if_pos ⟨hdefault,hunflushed⟩,hn]
    · rw [if_neg,hn,Nat.add_zero]
      rintro ⟨hdefault,hunflushed⟩
      obtain ⟨e,he,htrue⟩:=hflushed hdefault
      rw [hunflushed e he] at htrue
      cases htrue
  · rw [hspans] at he'
    rcases nameWrite_back hleft henter he' with ⟨-, -,rfl⟩ | ⟨e,he, -,hans, -⟩
    · rfl
    · rw [hans]
      exact h.fresh file e he
  · rw [hspans]
    rcases of_insert hw' with ⟨-,rfl⟩ | hw'
    · obtain ⟨-,rfl⟩:=enter_ok henter
      rw [get_modify,if_pos rfl,get_insert_self]
      exact ⟨_,rfl,by simpa [SpanFile.due] using Or.inr hdefault⟩
    · obtain ⟨e,he,hflushed⟩:=h.flush op' w' hw' hl' hstage' hdefault
      obtain ⟨e',he',hkeeps⟩:=nameWrite_forth hleft henter (by simp) he
      exact ⟨e',he',hkeeps hflushed⟩
  · rw [hspans] at he'
    rcases nameWrite_back hleft henter he' with ⟨hk,hleftnone,rfl⟩ | ⟨e,he, -, -,hwas⟩
    · rcases of_insert hw' with ⟨-,rfl⟩ | hw'
      · simpa [SpanFile.due,SpanFile.new] using hflushed
      · refine absurd hk fun hk=>hnone hleftnone op' w' hw' ?_
        simp [Write.spanKey,hl',hstage',Span.ofStage,(SpanKey.mk.inj hk).2.1]
    · rcases of_insert hw' with ⟨-,rfl⟩ | hw'
      · rcases hwas with ⟨hk, -⟩ | ⟨-,heq⟩
        · exact absurd rfl hk
        · rw [heq,Bool.or_eq_true] at hflushed
          rcases hflushed with hflushed | hflushed
          · obtain ⟨op₁,w₁,hw₁,hspan₁⟩:=hthere e he
            obtain ⟨hl₁,hf₁,hstage₁⟩:=hmember w₁ hspan₁
            have hdefault:=h.default op₁ w₁ e hw₁ hl₁ hstage₁ (hf₁ ▸ he) hflushed
            rwa [(hfile op₁ w₁ hw₁ hl₁ hf₁).2] at hdefault
          · exact hflushed
      · rcases hwas with ⟨-,heq⟩ | ⟨hk,heq⟩
        · exact h.default op' w' e hw' hl' hstage' he (heq ▸ hflushed)
        · rw [heq,Bool.or_eq_true] at hflushed
          rcases hflushed with hflushed | hflushed
          · exact h.default op' w' e hw' hl' hstage' he hflushed
          · rw [(hfile op' w' hw' hl' (SpanKey.mk.inj hk).2.1).2]
            exact hflushed
  · have hold:=h.touched domain
    constructor
    · intro hdomain
      rw [htouched] at hdomain
      have hin : domain ∈ n.touched ∨ w.routing.provider=true ∧ domain ∈ d.lists.get w.domains ∧
          domain ∈ d.served:=by
        split_ifs at hdomain with hprovider
        · exact (mem_touch.mp hdomain).imp_right fun hnew=>⟨hprovider,hnew⟩
        · exact .inl hdomain
      rcases hin with hin | hnew
      · obtain ⟨op',w',hw',hl',hstage',hrest⟩:=hold.mp hin
        refine ⟨op',w',?_,hl',hstage',hrest⟩
        rw [get_insert_of_ne _ _,hw']
        rintro rfl
        rw [hw] at hw'
        cases hw'
        rw [hstage] at hstage'
        cases hstage'
      · exact ⟨op,_,get_insert_self _ _ _,hl,rfl,hnew⟩
    · rintro ⟨op',w',hw',hl',hstage',hprovider,hin⟩
      rw [htouched]
      rcases of_insert hw' with ⟨-,rfl⟩ | hw'
      · rw [if_pos hprovider,mem_touch]
        exact .inr hin
      · have hmem:=hold.mpr ⟨op',w',hw',hl',hstage',hprovider,hin⟩
        split_ifs
        · exact mem_touch.mpr (.inl hmem)
        · exact hmem
  · have hk₁ : k≠⟨l,w.file,.sealed s.seq⟩:=by
      rintro rfl
      exact hk ⟨rfl,.inr rfl⟩
    have hk₂ : k≠⟨l,w.file,.unsealed⟩:=by
      rintro rfl
      exact hk ⟨rfl,.inl rfl⟩
    rw [hspans,get_modify,if_neg hk₁,enter_get_of_ne henter hk₁,leave_get_of_ne hleft hk₂]
    exact h.other k hk

end Naming

/-! ## Naming every write of a seal -/

section Names

variable {s : Seal E} {n : Durability.Naming E T} {st : LineageState E}

def Write.named (l : Key) (s : Seal E) (w : Write E T) : Write E T :=
  if isNamedBy l s w then { w with stage := .named s.seq } else w

theorem isNamedBy_iff {w : Write E T} : isNamedBy l s w=true ↔
    w.lineage=l ∧ w.stage=.completed ∧ w.epoch ≤ s.through := by
  simp [isNamedBy,and_assoc]

theorem Relabels.named (l : Key) (s : Seal E) (writes : Table OpId (Write E T)) :
    Relabels writes (writes.map fun _ w => w.named l s) := by
  refine map _ fun w=>?_
  unfold Write.named
  split_ifs <;> rfl

theorem TablesOk.waiting_span (h : TablesOk d) (hs : d.seals.get ⟨l,q⟩=some s)
    (hwaits : s.stage=.waiting) (file : IoTargetKey) : d.spans.get ⟨l,file,.sealed q⟩=none := by
  by_contra hsome
  have hpos:=(writesAt_pos h.spans.proper ⟨l,file,.sealed q⟩).mpr
    (Option.isSome_iff_ne_none.mpr hsome)
  rw [h.spans.count,count_pos] at hpos
  obtain ⟨op,w,hw,hspan⟩:=hpos
  obtain ⟨hl, -,hspan⟩:=SpanKey.mk.inj (by simpa using hspan : w.spanKey=_)
  have hstage : w.stage=.named q:=by
    cases hstage : w.stage <;> simp_all [Span.ofStage]
  obtain ⟨s',hs',hstarted⟩:=h.parts.named_seal op w q hw hstage
  rw [hl,hs] at hs'
  cases hs'
  exact hstarted hwaits

theorem TablesOk.waiting_named (h : TablesOk d) (hs : d.seals.get ⟨l,q⟩=some s)
    (hwaits : s.stage=.waiting) {op : OpId} {w : Write E T} (hw : d.writes.get op=some w)
    (hl : w.lineage=l) : w.stage ≠ .named q := by
  intro hstage
  obtain ⟨s',hs',hstarted⟩:=h.parts.named_seal op w q hw hstage
  rw [hl,hs] at hs'
  cases hs'
  exact hstarted hwaits

theorem TablesOk.naming (h : TablesOk d) (hst : d.lineages.get l=some st)
    (hlive : st.ended=false) (hs : d.seals.get ⟨l,s.seq⟩=some s) (hwaits : s.stage=.waiting)
    (hfold : (d.writes.vals.filter (isNamedBy l s)).foldlM (d.nameWrite l s)
      { spans := d.spans,touched := [],flushes := [],unanswered := 0 }=.ok n) :
    NamingOk d l s.seq (d.writes.map fun _ w => w.named l s) n := by
  have hstart : NamingOk d l s.seq d.writes
      ({ spans:=d.spans,touched:=[],flushes:=[],unanswered:=0 } :
        Durability.Naming E T) :=
    { spans:=h.spans
      entry_domains:=h.files.entry_domains
      unanswered:=by
        symm
        rw [Table.count_eq_zero]
        rintro ⟨l',file,span⟩ e he
        by_contra hout
        simp only [isOut,Bool.and_eq_true,decide_eq_true_eq,Bool.not_eq_false] at hout
        obtain ⟨⟨⟨rfl,rfl⟩, -⟩, -⟩:=hout
        rw [h.waiting_span hs hwaits file] at he
        cases he
      fresh:=fun file e he=>by
        rw [h.waiting_span hs hwaits file] at he
        cases he
      flush:=fun op w hw hl hstage=>absurd hstage (h.waiting_named hs hwaits hw hl)
      default:=fun op w e hw hl hstage=>absurd hstage (h.waiting_named hs hwaits hw hl)
      touched:=fun domain=>by
        refine ⟨fun hmem=>(by cases hmem),?_⟩
        rintro ⟨op,w,hw,hl,hstage, -⟩
        exact absurd hstage (h.waiting_named hs hwaits hw hl)
      other:=fun _ _=>rfl }
  -- the writes still to be named are as they were
  have hend:=foldlM_progress
    (fun (rest : List (Write E T)) n =>
      (rest.map Write.op).Nodup ∧
        (∀ w ∈ rest,d.writes.get w.op=some w ∧ isNamedBy l s w=true) ∧
        NamingOk d l s.seq
          (d.writes.map fun _ w=>if w.op ∈ rest.map Write.op then w else w.named l s) n)
    (fun w rest n n' hP hname=>?_) ?_ hfold
  · simpa using hend.2.2
  · obtain ⟨hnodup,hrest,hn⟩:=hP
    rw [map_cons,nodup_cons] at hnodup
    obtain ⟨hw,hnamed⟩:=hrest w mem_cons_self
    obtain ⟨hl,hstage, -⟩:=isNamedBy_iff.mp hnamed
    refine ⟨hnodup.2,fun w' hw'=>hrest w' (mem_cons_of_mem _ hw'),?_⟩
    have hget : (d.writes.map fun _ w' =>
        if w'.op ∈ (w::rest).map Write.op then w' else w'.named l s).get w.op=some w:=by
      rw [get_map,hw]
      simp
    have hnext:=hn.name hget hl hstage (fun op' w' hw' hl' hfile'=>?_) rfl hname
    · convert hnext using 1
      refine Table.ext_get fun op'=>?_
      rw [get_map,get_insert,get_map]
      split_ifs with hop
      · rw [hop,hw]
        simp only [Option.map_some,if_neg hnodup.1,Write.named,hnamed,if_true]
      · cases hw' : d.writes.get op' with
        | none=>rfl
        | some w' =>
          have hne : w'.op≠w.op:=by rw [h.keys.write_key op' w' hw']; exact hop
          simp [hne]
    · rw [get_map] at hw'
      obtain ⟨w₀,hw₀,rfl⟩:=Option.map_eq_some_iff.mp hw'
      have hsame : ∀ w₁ : Write E T,(if w₁.op ∈ (w::rest).map Write.op then w₁
          else w₁.named l s)={ w₁ with stage:=(if w₁.op ∈ (w::rest).map Write.op then w₁
          else w₁.named l s).stage }:=by
        intro w₁
        unfold Write.named
        split_ifs <;> rfl
      rw [hsame w₀] at hl' hfile' ⊢
      have hdomains : w₀.domains=w.domains :=
        h.files.same_write op' w₀ w.op w hw₀ hw (hl'.trans hl.symm) hfile'
      refine ⟨hdomains,?_⟩
      change w₀.routing=w.routing
      rw [h.files.write_routed op' w₀ st hw₀ (hl'.symm ▸ hst) hlive,
        h.files.write_routed w.op w st hw (hl.symm ▸ hst) hlive,hdomains]
  · refine ⟨?_,fun w hw=>?_,?_⟩
    · exact (h.keys.ops_sorted _).imp fun hlt=>hlt.ne
    · obtain ⟨hmem,hnamed⟩:=mem_filter.mp hw
      obtain ⟨op,hop⟩:=mem_vals.mp hmem
      rw [h.keys.write_key op w hop]
      exact ⟨hop,hnamed⟩
    · convert hstart using 1
      refine Table.ext_get fun op=>?_
      rw [get_map]
      cases hw : d.writes.get op with
      | none=>rfl
      | some w =>
        simp only [Option.map_some,Option.some.injEq]
        split_ifs with hmem
        · rfl
        · unfold Write.named
          rw [if_neg]
          intro hnamed
          exact hmem (mem_map_of_mem (mem_filter.mpr ⟨mem_vals.mpr ⟨op,hw⟩,hnamed⟩))

theorem askDomains_get {table table' : SealDomains} {limit : ℕ} {touched : List DomainId}
    (h : askDomains table limit l q touched=.ok table') (k : DomainKey) :
    table'.get k=if k.lineage=l ∧ k.seq=q ∧ k.domain ∈ touched then
      some { answered := false,ok := false } else table.get k := by
  unfold askDomains at h
  induction touched generalizing table with
  | nil =>
    cases h
    simp
  | cons domain rest ih =>
    rw [foldlM_cons,bind_eq_ok] at h
    obtain ⟨next,hnext,h⟩:=h
    split at hnext
    · cases hnext
    · next hins =>
      cases hnext
      obtain ⟨-,rfl⟩:=insertWithin_eq_some.mp hins
      rw [ih h,get_insert]
      obtain ⟨kl,kq,kd⟩:=k
      simp only [DomainKey.mk.injEq,mem_cons]
      by_cases hl : kl=l <;> by_cases hq : kq=q <;> by_cases hd : kd=domain <;>
        by_cases hr : kd ∈ rest <;> simp [hl,hq,hd,hr]

theorem Durability.startSeal_ok {c c' : Change E T I} (h : startSeal c l s=.ok c') :
    ∃ n sealDomains, (c.core.writes.vals.filter (isNamedBy l s)).foldlM (c.core.nameWrite l s)
        { spans := c.core.spans,touched := [],flushes := [],unanswered := 0 }=.ok n ∧
      askDomains c.core.sealDomains (c.core.capacity.providerParts c.core.served.length) l s.seq
        n.touched=.ok sealDomains ∧
      c' =
        { core :=
            { c.core with
              spans := n.spans
              writes := c.core.writes.map fun _ w => w.named l s
              sealDomains := sealDomains
              seals := c.core.seals.insert ⟨l,s.seq⟩
                { s with stage := .flushing n.unanswered false } }
          due :=
            { c.due with
              flushes := c.due.flushes++n.flushes
              calls := if n.touched.isEmpty then c.due.calls
                else c.due.calls++[{ lineage := l,seq := s.seq }] } } := by
  unfold startSeal at h
  simp only [bind_eq_ok] at h
  obtain ⟨n,hn,sealDomains,hasked,h⟩:=h
  cases h
  exact ⟨n,sealDomains,hn,hasked,rfl⟩

end Names

end WindowsThreadpoolSys.DurableIoring
