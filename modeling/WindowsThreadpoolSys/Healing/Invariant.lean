import WindowsThreadpoolSys.Healing.Registry

/-! The entries' counters are balanced by the operations in progress: a repair counted and not yet handed
over, a callback that has begun and not yet read the clock, or has read it and not yet been counted. The
list and the object counts are kept by the lock: whoever holds it has seen, of an entry it will retire,
that no object is left and that it is healed, and without an object nobody can cancel on it again. -/
namespace WindowsThreadpoolSys.Healing
open List Option State

/-! ## Weights of operations -/

namespace Op

/-- The repair counted for `e` and not yet handed to the pool. -/
def handing (e : ℕ) : Op → ℕ
  | owe _ e' (.submit .hand) => if e' = e then 1 else 0
  | tick (e' :: _) (.submit .hand) _ => if e' = e then 1 else 0
  | _ => 0

/-- The callback of `e` that has not read the clock. -/
def reading (e : ℕ) : Op → ℕ
  | callback e' .readClock => if e' = e then 1 else 0
  | _ => 0

/-- The callback of `e` that has read the clock and is not counted as started. -/
def unnoted (e : ℕ) : Op → ℕ
  | callback e' (.stamp _) => if e' = e then 1 else 0
  | callback e' .note => if e' = e then 1 else 0
  | _ => 0

def locking : Op → ℕ
  | release _ _ (.check _) => 1
  | release _ _ .retire => 1
  | idle _ _ _ _ => 1
  | _ => 0

def mentions : Op → List ℕ
  | owe _ e _ => [e]
  | release _ e _ => [e]
  | tick left _ _ => left
  | idle left kept out _ => left ++ kept ++ out
  | drops entries => entries
  | callback e _ => [e]

end Op

namespace State

def total (s : State) (weight : Op → ℕ) : ℕ := (s.ops.map weight).sum

theorem total_go {s : State} {op : Op} (h : op ∈ s.ops) (next : Option Op) (weight : Op → ℕ) :
    (s.go op next).total weight+weight op=s.total weight+(next.map weight).getD 0 := by
  have herase:=sum_map_erase weight h
  unfold total go
  cases next with
  | none =>
    simp only [toList_none,nil_append,map_none,getD_none]
    omega
  | some op' =>
    simp only [toList_some,singleton_append,map_cons,sum_cons,map_some,getD_some]
    omega

theorem total_go_same {s : State} {op : Op} (h : op ∈ s.ops) {next : Option Op} {weight : Op → ℕ}
    (hsame : (next.map weight).getD 0=weight op) : (s.go op next).total weight=s.total weight := by
  have:=total_go h next weight
  omega

theorem total_cons (s : State) (op : Op) (weight : Op → ℕ) :
    ({ s with ops := op::s.ops } : State).total weight=weight op+s.total weight := by
  simp [total]

theorem le_total {s : State} {op : Op} (h : op ∈ s.ops) (weight : Op → ℕ) :
    weight op ≤ s.total weight := single_le_sum (by simp) _ (List.mem_map_of_mem h)

theorem mem_go {s : State} {op op' : Op} {next : Option Op} (h : op' ∈ (s.go op next).ops) :
    next=some op' ∨ op' ∈ s.ops := by
  obtain hnext | hold:=mem_append.mp h
  · exact .inl (mem_toList.mp hnext)
  · exact .inr (mem_of_mem_erase hold)

@[simp] theorem change_self (s : State) (e : ℕ) (f : PoolEntry → PoolEntry) :
    (s.change e f).entries e=f (s.entries e) := by simp [change]

theorem change_of_ne (s : State) {e e' : ℕ} (f : PoolEntry → PoolEntry) (h : e' ≠ e) :
    (s.change e f).entries e'=s.entries e' := by simp [change,h]

@[elab_as_elim]
theorem change_forall {s : State} {e : ℕ} {f : PoolEntry → PoolEntry} {P : ℕ → PoolEntry → Prop}
    (e' : ℕ) (hself : P e (f (s.entries e))) (hother : ∀ e'≠e,P e' (s.entries e')) :
    P e' ((s.change e f).entries e') :=
  (Function.forall_update_iff s.entries P).mpr ⟨hself,hother⟩ e'

end State

/-! ## Entries over time -/

namespace PoolEntry

/-- No cancellation is owed a repair. -/
def Healed (entry : PoolEntry) : Prop :=
  entry.lastCancelled = 0 ∨ entry.lastCancelled < entry.lastStarted

theorem healed_iff {entry : PoolEntry} : entry.Healed ↔ entry.unhealed=false := by
  unfold Healed unhealed
  simp only [ne_eq,decide_eq_false_iff_not,not_and,not_le]
  exact Decidable.or_iff_not_imp_left

/-- A cancellation was marked on the entry and no callback of its repair has read a clock value above
the cancellation's. -/
def Owed (entry : PoolEntry) : Prop := ∃ m ∈ entry.marks, ∀ t ∈ entry.reads, t ≤ m

structure Later (a b : PoolEntry) : Prop where
  key : b.key = a.key
  noted : a.noted ≤ b.noted
  submitted : a.submitted ≤ b.submitted
  reads : a.reads <:+ b.reads
  started : a.lastStarted ≤ b.lastStarted

theorem Later.refl (a : PoolEntry) : Later a a :=
  ⟨rfl,le_refl _,le_refl _,suffix_refl _,le_refl _⟩

theorem Later.trans {a b c : PoolEntry} (hab : Later a b) (hbc : Later b c) : Later a c :=
  ⟨hbc.key.trans hab.key,hab.noted.trans hbc.noted,hab.submitted.trans hbc.submitted,
    hab.reads.trans hbc.reads,hab.started.trans hbc.started⟩

/-- What any step leaves of an entry: it is later, and without an object no cancellation is marked. -/
structure Kept (a b : PoolEntry) : Prop extends Later a b where
  objects : b.objects = a.objects
  marked : a.objects = 0 → b.lastCancelled = a.lastCancelled

theorem Kept.of_same {a b : PoolEntry}
    (hsame : (b.key,b.noted,b.submitted,b.reads,b.lastStarted,b.objects,b.lastCancelled) =
      (a.key,a.noted,a.submitted,a.reads,a.lastStarted,a.objects,a.lastCancelled)) : Kept a b := by
  simp only [Prod.mk.injEq] at hsame
  obtain ⟨hkey,hnoted,hsubmitted,hreads,hstarted,hobjects,hcancelled⟩:=hsame
  exact ⟨⟨hkey,hnoted.ge,hsubmitted.ge,hreads ▸ suffix_refl _,hstarted.ge⟩,hobjects,
    fun _=>hcancelled⟩

theorem Kept.refl (a : PoolEntry) : Kept a a := .of_same rfl

structure Balanced (entry : PoolEntry) (handing reading unnoted : ℕ) : Prop where
  submitted : entry.submitted = entry.queued + entry.begun + handing
  begun : entry.begun = entry.reads.length + reading
  read : entry.reads.length = entry.noted + unnoted
  outstanding : entry.outstanding + entry.noted ≤ entry.submitted
  marks : ∀ m ∈ entry.marks, 0 < m ∧ m ≤ entry.lastCancelled
  started : entry.lastStarted = 0 ∨ entry.lastStarted ∈ entry.reads

/-- A repair is submitted and not counted as started, or one was counted since. -/
def Answered (since entry : PoolEntry) : Prop :=
  since.noted < entry.noted ∨ entry.noted < entry.submitted

theorem Answered.later {since a b : PoolEntry} (h : Answered since a) (hsince : Later since a)
    (hlater : Later a b) : Answered since b := by
  have h1:=hsince.noted
  have h2:=hlater.noted
  have h3:=hlater.submitted
  unfold Answered at h ⊢
  omega

theorem Balanced.unhealed_of_owed {entry : PoolEntry} {handing reading unnoted : ℕ}
    (h : Balanced entry handing reading unnoted) (howed : entry.Owed) : entry.unhealed=true := by
  obtain ⟨m,hm,hreads⟩:=howed
  obtain ⟨hpos,hle⟩:=h.marks m hm
  have hstarted : entry.lastStarted ≤ m:=by
    obtain hzero | hmem:=h.started
    · omega
    · exact hreads _ hmem
  unfold unhealed
  simp only [ne_eq,decide_eq_true_eq]
  omega

end PoolEntry

open PoolEntry

/-! ## Operations -/

/-- What the loads of `is_retirable` so far have found, and still hold. -/
def CheckOk (entry : PoolEntry) : CheckPc → Prop
  | .objects => True
  | .cancelled => entry.objects = 0
  | .started c => entry.objects = 0 ∧ entry.lastCancelled = c
  | .outstanding => entry.objects = 0 ∧ entry.Healed

def Retirable (entry : PoolEntry) : Prop := entry.objects = 0 ∧ entry.Healed

/-- What a visit knows of its entry, `since` being the entry when it began. -/
def VisitOk (since entry : PoolEntry) : VisitPc → Prop
  | .cancelled => True
  | .started c => Later since entry ∧ since.noted ≤ since.reads.length ∧
      ∀ m ∈ since.marks, m ≤ c
  | .inFlight => Later since entry
  | .overdueClock => Later since entry ∧ Answered since entry
  | .overdueInFlight _ => Later since entry ∧ Answered since entry
  | .overdueSubmitted _ => Later since entry ∧ Answered since entry
  | .noteOverdue => Later since entry
  | .submit .hand => Later since entry ∧ Answered since entry
  | .submit _ => Later since entry
  | .letGo => Later since entry ∧ (since.Owed → Answered since entry)

variable {a b : PoolEntry}

theorem Healed.kept (h : a.Healed) (hobjects : a.objects=0) (hkept : Kept a b) : b.Healed := by
  have h1:=hkept.marked hobjects
  have h2:=hkept.started
  unfold Healed at h ⊢
  omega

theorem CheckOk.kept {pc : CheckPc} (h : CheckOk a pc) (hkept : Kept a b) : CheckOk b pc := by
  have hobjects:=hkept.objects
  cases pc with
  | objects=>trivial
  | cancelled=>exact hobjects.trans h
  | started c=>exact ⟨hobjects.trans h.1,(hkept.marked h.1).trans h.2⟩
  | outstanding=>exact ⟨hobjects.trans h.1,Healed.kept h.2 h.1 hkept⟩

theorem Retirable.kept (h : Retirable a) (hkept : Kept a b) : Retirable b :=
  ⟨hkept.objects.trans h.1,Healed.kept h.2 h.1 hkept⟩

theorem VisitOk.later {since : PoolEntry} {pc : VisitPc} (h : VisitOk since a pc)
    (hlater : Later a b) : VisitOk since b pc := by
  cases pc with
  | cancelled=>trivial
  | started c=>exact ⟨h.1.trans hlater,h.2⟩
  | inFlight | noteOverdue=>exact Later.trans h hlater
  | overdueClock | overdueInFlight now | overdueSubmitted now=>exact ⟨h.1.trans hlater,h.2.later h.1 hlater⟩
  | submit pc =>
    cases pc with
    | hand=>exact ⟨h.1.trans hlater,h.2.later h.1 hlater⟩
    | readClock | stamp now | count=>exact Later.trans h hlater
  | letGo=>exact ⟨h.1.trans hlater,fun howed=>(h.2 howed).later h.1 hlater⟩

def OpOk (s : State) : Op → Prop
  | .owe r e pc => r ∈ s.registrations ∧ r.entry = some e ∧ ∀ now, pc = .mark now → 0 < now
  | .release r e .enter => r ∈ s.registrations ∧ r.entry = some e
  | .release _ e (.check pc) => e ∈ s.registry ∧ CheckOk (s.entries e) pc
  | .release _ e .retire => e ∈ s.registry ∧ Retirable (s.entries e)
  | .tick [] _ _ => True
  | .tick (e :: _) pc since => VisitOk since (s.entries e) pc
  | .idle left kept out pc => (kept ++ left).Sublist s.registry ∧
      (∀ e ∈ s.registry, e ∈ kept ∨ e ∈ out ∨ e ∈ left) ∧ (∀ e ∈ out, Retirable (s.entries e)) ∧
      ∀ e, left.head? = some e → CheckOk (s.entries e) pc
  | .drops _ => True
  | .callback e pc => ∀ now, pc = .stamp now → now ∈ (s.entries e).reads

abbrev State.Weighs (s : State) (e : ℕ) (entry : PoolEntry) : Prop :=
  Balanced entry (s.total (Op.handing e)) (s.total (Op.reading e)) (s.total (Op.unnoted e))

structure Ok (s : State) : Prop where
  clock : 0 < s.clock
  balanced : ∀ e, s.Weighs e (s.entries e)
  objects : ∀ e, (s.entries e).objects = s.registrations.countP fun r => r.entry = some e
  keys : (s.registry.map fun e => (s.entries e).key).Nodup
  registered : ∀ r ∈ s.registrations, ∀ e, r.entry = some e → e ∈ s.registry
  healed : ∀ e, e ∉ s.registry → (s.entries e).Healed
  lock : s.total Op.locking = if s.locked then 1 else 0
  ops : ∀ op ∈ s.ops, OpOk s op
  apart : ∀ op ∈ s.ops, ∀ op' ∈ s.ops, ∀ r, op.borrows = some r → op'.drops? ≠ some r
  once : ∀ r, s.ops.countP (fun op => op.drops? = some r) ≤ 1
  allocated : ∀ e ∈ s.registry, e < s.allocated
  mentions : ∀ op ∈ s.ops, ∀ e ∈ op.mentions, e < s.allocated
  fresh : ∀ e, s.allocated ≤ e → s.entries e = .new 0

theorem Ok.new : Ok .new where
  clock := by decide
  balanced:=fun e=>⟨rfl,rfl,rfl,le_refl _,by simp [State.new,PoolEntry.new],.inl rfl⟩
  objects:=fun e=>rfl
  keys:=nodup_nil
  registered:=by simp [State.new]
  healed:=fun e _=>.inl rfl
  lock:=rfl
  ops:=by simp [State.new]
  apart:=by simp [State.new]
  once:=by simp [State.new]
  allocated:=by simp [State.new]
  mentions:=by simp [State.new]
  fresh:=fun e _=>rfl

variable {s : State} {e : ℕ}

theorem Ok.objects_pos (h : Ok s) {r : Registration} (hr : r ∈ s.registrations)
    (he : r.entry=some e) : 0<(s.entries e).objects := by
  rw [h.objects,countP_pos_iff]
  exact ⟨r,hr,by simpa using he⟩

variable {op : Op}

theorem OpOk.kept {s s' : State} (h : OpOk s op) (hkept : ∀ e,Kept (s.entries e) (s'.entries e))
    (hregistry : s'.registry=s.registry) (hregistrations : s'.registrations=s.registrations) :
    OpOk s' op := by
  cases op with
  | owe r e pc=>exact ⟨hregistrations ▸ h.1,h.2⟩
  | release r e pc =>
    cases pc with
    | enter=>exact ⟨hregistrations ▸ h.1,h.2⟩
    | check pc | retire=>exact ⟨hregistry ▸ h.1,h.2.kept (hkept e)⟩
  | tick left pc since =>
    cases left with
    | nil=>trivial
    | cons e rest=>exact VisitOk.later h (hkept e).toLater
  | idle left kept out pc =>
    obtain ⟨hsub,hall,hout,hhead⟩:=h
    refine ⟨hregistry ▸ hsub,?_,fun e he=>(hout e he).kept (hkept e),
      fun e he=>(hhead e he).kept (hkept e)⟩
    rw [hregistry]
    exact hall
  | drops entries=>trivial
  | callback e pc=>exact fun now hpc=>(hkept e).reads.subset (h now hpc)

/-- How an operation may go on without touching the list, the registrations or the lock. -/
structure Goes (op : Op) (next : Option Op) : Prop where
  locking : (next.map Op.locking).getD 0 = op.locking
  borrows : ∀ op', next = some op' → op'.borrows = none ∨ op'.borrows = op.borrows
  drops : ∀ op', next = some op' → op'.drops? = none
  mentions : ∀ op', next = some op' → ∀ e ∈ op'.mentions, e ∈ op.mentions

theorem Ok.objects_zero (h : Ok s) (hnot : e ∉ s.registry) : (s.entries e).objects=0 := by
  by_contra hne
  rw [h.objects] at hne
  obtain ⟨r,hr,hentry⟩:=countP_pos_iff.mp (Nat.pos_of_ne_zero hne)
  exact hnot (h.registered r hr e (by simpa using hentry))

variable {next : Option Op}

theorem Ok.moved (h : Ok s) (hop : op ∈ s.ops) (hgoes : Goes op next) (entries : ℕ → PoolEntry)
    (hkept : ∀ e,Kept (s.entries e) (entries e))
    (hfresh : ∀ e,s.allocated ≤ e → entries e=s.entries e) (hbalanced : ∀ e,(({ s with entries } : State).go op next).Weighs e (entries e))
    (hnext : next.elim True (OpOk (({ s with entries } : State).go op next))) :
    Ok (({ s with entries } : State).go op next) := by
  have hkeys : (fun e=>(entries e).key)=fun e=>(s.entries e).key:=funext fun e=>(hkept e).key
  refine { h with
    balanced:=hbalanced
    objects:=fun e=>(hkept e).objects.trans (h.objects e)
    keys:=?_
    healed:=fun e hnot=>Healed.kept (h.healed e hnot) (h.objects_zero hnot) (hkept e)
    lock:=?_
    ops:=fun op' hop'=>?_
    apart:=fun op₁ h₁ op₂ h₂ r hb hd=>?_
    once:=fun r=>?_
    mentions:=fun op' hop' e' he'=>?_
    fresh:=fun e hle=>(hfresh e hle).trans (h.fresh e hle) }
  · show (s.registry.map fun e=>(entries e).key).Nodup
    rw [hkeys]
    exact h.keys
  · exact (total_go_same (s:={ s with entries }) hop hgoes.locking).trans h.lock
  · obtain rfl | hold:=mem_go hop'
    · exact hnext
    · exact (h.ops op' hold).kept hkept rfl rfl
  · obtain hnew₂ | hold₂:=mem_go h₂
    · exact absurd hd (by rw [hgoes.drops op₂ hnew₂]; simp)
    · obtain hnew₁ | hold₁:=mem_go h₁
      · obtain hnone | hsame:=hgoes.borrows op₁ hnew₁
        · rw [hnone] at hb
          cases hb
        · exact h.apart op hop op₂ hold₂ r (hsame ▸ hb) hd
      · exact h.apart op₁ hold₁ op₂ hold₂ r hb hd
  · have hzero : next.toList.countP (fun op'=>op'.drops? = some r)=0:=by
      rw [countP_eq_zero]
      intro op' hop'
      rw [hgoes.drops op' (mem_toList.mp hop')]
      simp
    have hsub:=(erase_sublist (a:=op) (l:=s.ops)).countP_le
      (p:=fun op'=>decide (op'.drops? = some r))
    show (next.toList++s.ops.erase op).countP (fun op'=>op'.drops? = some r)≤1
    rw [countP_append,hzero,Nat.zero_add]
    exact hsub.trans (h.once r)
  · obtain hnew | hold:=mem_go hop'
    · exact h.mentions op hop e' (hgoes.mentions op' hnew e' he')
    · exact h.mentions op' hold e' he'

def SameWeights (op : Op) (next : Option Op) (e : ℕ) : Prop :=
  (next.map (Op.handing e)).getD 0 = op.handing e ∧
    (next.map (Op.reading e)).getD 0 = op.reading e ∧ (next.map (Op.unnoted e)).getD 0 = op.unnoted e

theorem Balanced.go (h : Ok s) (hop : op ∈ s.ops) (hsame : SameWeights op next e)
    (entries : ℕ → PoolEntry) (hentry : entries e=s.entries e) :
    (({ s with entries } : State).go op next).Weighs e (entries e) := by
  obtain ⟨h1,h2,h3⟩:=hsame
  unfold State.Weighs
  rw [hentry,total_go_same (s:={ s with entries }) hop h1,
    total_go_same (s:={ s with entries }) hop h2,total_go_same (s:={ s with entries }) hop h3]
  exact h.balanced e

theorem Ok.go (h : Ok s) (hop : op ∈ s.ops) (hgoes : Goes op next)
    (hsame : ∀ e,SameWeights op next e) (hnext : next.elim True (OpOk s)) : Ok (s.go op next) := by
  refine h.moved hop hgoes s.entries (fun e=>Kept.refl _) (fun _ _=>rfl)
    (fun e=>Balanced.go h hop (hsame e) s.entries rfl) ?_
  cases next with
  | none=>trivial
  | some op'=>exact OpOk.kept hnext (fun e=>Kept.refl _) rfl rfl

theorem Ok.changeGo (h : Ok s) (hop : op ∈ s.ops) (next : Option Op) (hgoes : Goes op next)
    (he : e ∈ op.mentions) (f : PoolEntry → PoolEntry)
    (hkept : Kept (s.entries e) (f (s.entries e))) (hbalanced : ∀ handing reading unnoted,
      handing+op.handing e=s.total (Op.handing e)+(next.map (Op.handing e)).getD 0 →
      reading+op.reading e=s.total (Op.reading e)+(next.map (Op.reading e)).getD 0 →
      unnoted+op.unnoted e=s.total (Op.unnoted e)+(next.map (Op.unnoted e)).getD 0 →
      Balanced (f (s.entries e)) handing reading unnoted)
    (hother : ∀ e',e' ≠ e → SameWeights op next e')
    (hnext : next.elim True (OpOk ((s.change e f).go op next))) :
    Ok ((s.change e f).go op next) := by
  have htotal:=total_go (s:=s.change e f) hop next
  refine h.moved hop hgoes (s.change e f).entries
    (fun e'=>change_forall e' hkept fun _ _=>Kept.refl _)
    (fun e' hle=>change_of_ne s _ (by have:=h.mentions op hop e he; omega)) (fun e'=>?_) hnext
  by_cases heq : e'=e
  · subst heq
    rw [change_self]
    exact hbalanced _ _ _ (htotal _) (htotal _) (htotal _)
  · exact Balanced.go h hop (hother e' heq) _ (change_of_ne s _ heq)

theorem Ok.changeStill (h : Ok s) (hop : op ∈ s.ops) (next : Option Op) (hgoes : Goes op next)
    (he : e ∈ op.mentions) (f : PoolEntry → PoolEntry) (hkept : Kept (s.entries e) (f (s.entries e)))
    (hbalanced : s.Weighs e (f (s.entries e))) (hsame : ∀ e',SameWeights op next e')
    (hnext : next.elim True (OpOk ((s.change e f).go op next))) :
    Ok ((s.change e f).go op next) := by
  obtain ⟨hhanding,hreading,hunnoted⟩:=hsame e
  refine h.changeGo hop next hgoes he f hkept (fun handing reading unnoted h1 h2 h3=>?_)
    (fun e' _=>hsame e') hnext
  rw [hhanding] at h1
  rw [hreading] at h2
  rw [hunnoted] at h3
  rwa [Nat.add_right_cancel h1,Nat.add_right_cancel h2,Nat.add_right_cancel h3]

/-! ## What each step keeps of an entry -/

section Effects

variable {entry : PoolEntry} {handing reading unnoted : ℕ}

theorem kept_stampCancelled (now : ℕ) (h : entry.objects ≠ 0) :
    Kept entry (entry.stampCancelled now) :=
  ⟨⟨rfl,le_refl _,le_refl _,suffix_refl _,le_refl _⟩,rfl,fun hzero=>absurd hzero h⟩

theorem kept_submit (pc : SubmitPc) : Kept entry (pc.effect entry) := by
  cases pc with
  | readClock=>exact Kept.refl _
  | stamp now | hand=>exact .of_same rfl
  | count=>exact ⟨⟨rfl,le_refl _,Nat.le_succ _,suffix_refl _,le_refl _⟩,rfl,fun _=>rfl⟩

theorem kept_readStart (now : ℕ) : Kept entry (entry.readStart now) :=
  ⟨⟨rfl,le_refl _,le_refl _,suffix_cons _ _,le_refl _⟩,rfl,fun _=>rfl⟩

theorem kept_stampStarted (now : ℕ) : Kept entry (entry.stampStarted now) :=
  ⟨⟨rfl,le_refl _,le_refl _,suffix_refl _,le_max_left _ _⟩,rfl,fun _=>rfl⟩

theorem kept_noteStarted : Kept entry entry.noteStarted :=
  ⟨⟨rfl,Nat.le_succ _,le_refl _,suffix_refl _,le_refl _⟩,rfl,fun _=>rfl⟩

theorem kept_begin : Kept entry entry.begin :=
  .of_same rfl

theorem Balanced.congr (h : Balanced a handing reading unnoted)
    (hsame : (b.submitted,b.queued,b.begun,b.reads,b.noted,b.outstanding,b.marks,b.lastCancelled,
      b.lastStarted)=(a.submitted,a.queued,a.begun,a.reads,a.noted,a.outstanding,a.marks,
        a.lastCancelled,a.lastStarted)) : Balanced b handing reading unnoted := by
  simp only [Prod.mk.injEq] at hsame
  obtain ⟨hsubmitted,hqueued,hbegun,hreads,hnoted,houtstanding,hmarks,hcancelled,hstarted⟩:=hsame
  obtain ⟨h1,h2,h3,h4,h5,h6⟩:=h
  exact ⟨by rw [hsubmitted,hqueued,hbegun]; exact h1,by rw [hbegun,hreads]; exact h2,
    by rw [hreads,hnoted]; exact h3,by rw [houtstanding,hnoted,hsubmitted]; exact h4,
    by rw [hmarks,hcancelled]; exact h5,by rw [hstarted,hreads]; exact h6⟩

theorem Balanced.stampCancelled (h : Balanced entry handing reading unnoted) {now : ℕ}
    (hpos : 0 < now) : Balanced (entry.stampCancelled now) handing reading unnoted := by
  refine ⟨h.submitted,h.begun,h.read,h.outstanding,fun m hm=>?_,h.started⟩
  obtain rfl | hold:=mem_cons.mp hm
  · exact ⟨hpos,le_max_right _ _⟩
  · obtain ⟨h1,h2⟩:=h.marks m hold
    exact ⟨h1,h2.trans (le_max_left _ _)⟩

theorem Balanced.submit (h : Balanced entry handing reading unnoted) (pc : SubmitPc)
    {handing' : ℕ} (hhanding : handing'+(if pc=.hand then 1 else 0) =
      handing+(if pc=.count then 1 else 0)) :
    Balanced (pc.effect entry) handing' reading unnoted := by
  cases pc with
  | readClock =>
    obtain rfl : handing'=handing:=by simpa using hhanding
    exact h
  | stamp now =>
    obtain rfl : handing'=handing:=by simpa using hhanding
    exact ⟨h.submitted,h.begun,h.read,h.outstanding,h.marks,h.started⟩
  | count =>
    obtain rfl : handing'=handing+1:=by simpa using hhanding
    have hs:=h.submitted
    have ho:=h.outstanding
    refine ⟨?_,h.begun,h.read,?_,h.marks,h.started⟩
    · show entry.submitted+1=entry.queued+entry.begun+(handing+1)
      omega
    · show (entry.outstanding+1) % 2 ^ 32+entry.noted ≤ entry.submitted+1
      omega
  | hand =>
    obtain rfl : handing'+1=handing:=by simpa using hhanding
    have hs:=h.submitted
    refine ⟨?_,h.begun,h.read,h.outstanding,h.marks,h.started⟩
    show entry.submitted=entry.queued+1+entry.begun+handing'
    omega

theorem Balanced.readStart (h : Balanced entry handing (reading+1) unnoted) (now : ℕ) :
    Balanced (entry.readStart now) handing reading (unnoted+1) := by
  have hb:=h.begun
  have hr:=h.read
  refine ⟨h.submitted,?_,?_,h.outstanding,h.marks,?_⟩
  · show entry.begun=(now::entry.reads).length+reading
    rw [length_cons]
    omega
  · show (now::entry.reads).length=entry.noted+(unnoted+1)
    rw [length_cons]
    omega
  · exact h.started.imp id (mem_cons_of_mem _)

theorem Balanced.stampStarted (h : Balanced entry handing reading unnoted) {now : ℕ}
    (hmem : now ∈ entry.reads) : Balanced (entry.stampStarted now) handing reading unnoted := by
  refine ⟨h.submitted,h.begun,h.read,h.outstanding,h.marks,?_⟩
  show max entry.lastStarted now=0 ∨ max entry.lastStarted now ∈ entry.reads
  obtain hle | hle:=le_total entry.lastStarted now
  · rw [max_eq_right hle]
    exact .inr hmem
  · rw [max_eq_left hle]
    exact h.started

theorem Balanced.noteStarted (h : Balanced entry handing reading (unnoted+1)) :
    Balanced entry.noteStarted handing reading unnoted := by
  have hr:=h.read
  have ho:=h.outstanding
  have hb:=h.begun
  have hs:=h.submitted
  refine ⟨hs,hb,?_,?_,h.marks,h.started⟩
  · show entry.reads.length=entry.noted+1+unnoted
    omega
  · show entry.outstanding-1+(entry.noted+1) ≤ entry.submitted
    omega

theorem Balanced.begin (h : Balanced entry handing reading unnoted) (hqueued : 0 < entry.queued) :
    Balanced entry.begin handing (reading+1) unnoted := by
  have hb:=h.begun
  have hs:=h.submitted
  refine ⟨?_,?_,h.read,h.outstanding,h.marks,h.started⟩
  · show entry.submitted=entry.queued-1+(entry.begun+1)+handing
    omega
  · show entry.begun+1=entry.reads.length+(reading+1)
    omega

end Effects

end WindowsThreadpoolSys.Healing
