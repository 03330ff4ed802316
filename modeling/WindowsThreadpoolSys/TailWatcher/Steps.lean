import WindowsThreadpoolSys.TailWatcher.Lengths

/-! A step of the engine's run does one of seven things: it moves on, delivers the entry that waits or a
poll-done, finishes a read, takes an entry, pushes a read, or ends a plan. What a step owes the client is
said from the calls it made alone: an entry taken that is delivered as it stands, a read that completed, a
refusal. -/
namespace WindowsThreadpoolSys.TailWatcher
open Library List Option

variable {T : Type}

def Note.isPollDone (n : Note T) : Bool :=
  match n.entry with
  | .pollDone => true
  | _ => false

/-! ## What a step owes -/

/-- What is owed for an entry of the watcher that no read is planned for. -/
def owed (K : Config) (taken : ℕ × SqEntry (Tracked T)) : Option (Note T) :=
  match plan (split taken.2) K.bufferLen with
  | .deliver out => some ⟨out, taken.1, taken.2.registration⟩
  | _ => none

/-- What is owed for a failure: a terminal entry for the first terminal code of the registration. -/
def failureNote (w : Watcher (Tracked T)) (r : Refusal T) : Option (Note T) :=
  r.code.bind fun code =>
    if isTerminal (some code) && (w.markTerminal r.registration code).2 then
      some ⟨.terminal ⟨r.value, code, r.offset⟩, r.poll, some r.registration⟩
    else none

def readNote (w : Watcher (Tracked T)) (p : Pending T) : Except (Option ℕ) ℕ → Option (Note T)
  | .ok read =>
    if read = 0 then none
    else some ⟨.data ⟨p.value, p.offset, p.offset + read⟩, p.poll, some p.registration⟩
  | .error code =>
    if code = some ReadEngine.handleEof then none
    else failureNote w ⟨code, p.registration, p.value, p.offset, p.poll⟩

def Ended.refusal : Ended T → Option (Refusal T)
  | .refused r => some r
  | _ => none

namespace ReadEngine

variable {K : Config} {e e' : ReadEngine T} {event : Event T}

def settles (e : ReadEngine T) : Event T → Option (Pending T × Except (Option ℕ) ℕ)
  | .pop (.completion index result) => (e.held[index]?).map fun p => (p, result)
  | _ => none

/-- The refusal the step reports: of a batch with nothing to submit, or of the batch it has submitted. -/
def refusal (e : ReadEngine T) : Event T → Option (Refusal T)
  | .push (.refused code) =>
    match e.phase with
    | .pushing 0 _ => e.current.bind fun c => c.reads.front.map fun read =>
      ⟨code, c.registration, c.reads.value, read.offset, c.poll⟩
    | _ => none
  | .submit true =>
    match e.phase with
    | .submitting _ ended => ended.refusal
    | _ => none
  | _ => none

def Quiet (e : ReadEngine T) (event : Event T) : Prop := e.settles event = none ∧ e.refusal event = none

/-- The plan the step ends: none is left after it, or that of an entry it took. -/
def drops (e e' : ReadEngine T) : List (Current T) :=
  if e'.current.isNone ∨ e'.taken.length ≠ e.taken.length then e.current.toList else []

end ReadEngine

namespace Tick

def takes (t : Tick T) : List (ℕ × SqEntry (Tracked T)) := t.after.taken.drop t.before.taken.length

def made (K : Config) (t : Tick T) : List (Note T) :=
  t.takes.filterMap (owed K) ++
    ((t.before.settles t.event).bind fun s => readNote t.before.watcher s.1 s.2).toList ++
    ((t.before.refusal t.event).bind (failureNote t.before.watcher)).toList

end Tick

/-! ## What a step can do -/

namespace ReadEngine

variable {K : Config} {e e' : ReadEngine T} {event : Event T}

/-- Why a batch ended. -/
def Right (e : ReadEngine T) : Ended T → Prop
  | .planned => ∀ c, e.current = some c → c.reads.front = none
  | .abandoned => e.stop = true
  | .refused r => r.poll = e.polls
  | _ => True

def PhaseOk (e : ReadEngine T) : Prop :=
  match e.phase with
  | .idle | .submitQueued | .deliver => True
  | .pollDones => e.undelivered = none
  | .settle | .advance | .lastSettle _ => e.undelivered = none ∧ e.groups.ready = false
  | .pushing _ outstanding =>
    e.undelivered = none ∧ e.groups.ready = false ∧ outstanding = e.held.length
  | .submitting _ ended => e.undelivered = none ∧ e.groups.ready = false ∧ e.Right ended

/-- The watcher's roster after a failure was, or was not, the first terminal one of its registration. -/
def Marks (w w' : Watcher (Tracked T)) : Prop := w' = w ∨ ∃ id code, w' = (w.markTerminal id code).1

inductive Does (K : Config) (e : ReadEngine T) : Event T → ReadEngine T → Prop
  | move {event : Event T} {phase : Phase T} {unsubmitted : Bool}
      (hphase : ({ e with phase := phase, unsubmitted := unsubmitted } : ReadEngine T).PhaseOk)
      (hrefused : ∀ pushed r, phase = .submitting pushed (.refused r) → ∃ code, event = .push (.refused code))
      (hquiet : e.Quiet event) : Does K e event { e with phase := phase, unsubmitted := unsubmitted }
  | deliver {n : Note T} (hn : e.undelivered = some n) : Does K e (.clientPush true)
      { e with undelivered := none, delivered := e.delivered ++ [n], phase := .pollDones }
  | pollDone (hnone : e.undelivered = none) (hready : e.groups.ready = true) (hat : e.phase = .pollDones) :
      Does K e (.clientPush true)
        { e with
          groups := e.groups.popReady
          delivered := e.delivered ++ [⟨.pollDone, e.groups.first, none⟩] }
  | finish {index : ℕ} {result : Except (Option ℕ) ℕ} {p : Pending T} {watcher : Watcher (Tracked T)}
      (hnone : e.undelivered = none) (hget : e.held[index]? = some p) (hmarks : Marks e.watcher watcher) :
      Does K e (.pop (.completion index result))
        { e with
          held := e.held.eraseIdx index
          groups := e.groups.settled p.group
          watcher := watcher
          undelivered := readNote e.watcher p result
          phase := .deliver }
  | take {entry : SqEntry (Tracked T)} {rest : List (SqEntry (Tracked T))} (hnone : e.undelivered = none)
      (hsq : e.watcher.sq = entry :: rest) (hplan : e.current ≠ none → e.stop = true) : Does K e .go
        { ({ e with current := none, watcher := { e.watcher with sq := rest } } : ReadEngine T).takeEntry K
            entry with
          phase := .deliver }
  | push {c : Current T} {read : PlannedRead} {pushed : ℕ} (hnone : e.undelivered = none)
      (hready : e.groups.ready = false) (hc : e.current = some c) (hread : c.reads.front = some read)
      (hroom : e.held.length < K.cqSize) :
      Does K e (.push .pushed) (e.pushRead c read pushed e.held.length .pushed)
  | drop {event : Event T} {phase : Phase T} {unsubmitted : Bool} {watcher : Watcher (Tracked T)}
      {note : Option (Note T)} (hnone : e.undelivered = none)
      (hcause : ∀ c, e.current = some c →
        c.reads.front = none ∨ e.stop = true ∨ (e.refusal event).isSome = true)
      (hpoll : ∀ r, e.refusal event = some r → r.poll = e.polls) (hsettles : e.settles event = none)
      (hnote : note = (e.refusal event).bind (failureNote e.watcher)) (hmarks : Marks e.watcher watcher)
      (hphase : phase = .deliver ∨ phase = .lastSettle .idle ∧ note = none ∧ e.groups.ready = false) :
      Does K e event
        { e with
          current := none
          unsubmitted := unsubmitted
          watcher := watcher
          undelivered := note
          phase := phase }

theorem reportFailure_eq (hnone : e.undelivered=none) (r : Refusal T) : ∃ watcher,Marks e.watcher watcher ∧
    e.reportFailure r={ e with watcher := watcher,undelivered := failureNote e.watcher r } := by
  have hsame : ({ e with watcher:=e.watcher,undelivered:=none } : ReadEngine T)=e:=by rw [← hnone]
  unfold reportFailure failureNote
  cases r.code with
  | none=>exact ⟨e.watcher,.inl rfl,hsame.symm⟩
  | some code =>
    rw [bind_some]
    dsimp only
    split_ifs with hterminal hmarked hboth hboth hboth
    · exact ⟨_,.inr ⟨_,_,rfl⟩,rfl⟩
    · simp [hterminal,hmarked] at hboth
    · simp [hmarked] at hboth
    · exact ⟨e.watcher,.inl rfl,hsame.symm⟩
    · simp [hterminal] at hboth
    · exact ⟨e.watcher,.inl rfl,hsame.symm⟩

theorem finishRead_eq (hnone : e.undelivered=none) (p : Pending T) (result : Except (Option ℕ) ℕ) :
    ∃ watcher,Marks e.watcher watcher ∧ e.finishRead p result =
      { e with
        groups := e.groups.settled p.group
        watcher := watcher
        undelivered := readNote e.watcher p result } := by
  unfold finishRead readNote
  cases result with
  | ok read =>
    refine ⟨e.watcher,.inl rfl,?_⟩
    dsimp only
    split_ifs
    · rw [← hnone]
    · rfl
  | error code =>
    dsimp only
    split_ifs
    · exact ⟨e.watcher,.inl rfl,by rw [← hnone]⟩
    · exact reportFailure_eq (e:={ e with groups:=e.groups.settled p.group }) hnone _

theorem does_pop (hnone : e.undelivered=none) {empty : Phase T} {outcome : PopOutcome}
    (hempty : ({ e with phase := empty } : ReadEngine T).PhaseOk)
    (hnot : ∀ pushed ended,empty ≠ .submitting pushed ended)
    (h : e.settleCompletion .deliver empty outcome=some e') : e.Does K (.pop outcome) e' := by
  cases outcome with
  | failed =>
    cases h
    exact .move trivial (fun _ _ hcontra=>by cases hcontra) ⟨rfl,rfl⟩
  | none =>
    cases h
    exact .move hempty (fun _ _ hcontra=>absurd hcontra (hnot _ _)) ⟨rfl,rfl⟩
  | completion index result =>
    simp only [settleCompletion] at h
    split at h
    · cases h
    · rename_i p hget
      split_ifs at h
      obtain ⟨watcher,hmarks,heq⟩:=finishRead_eq (e:={ e with held:=e.held.eraseIdx index }) hnone p result
      rw [heq] at h
      cases h
      exact .finish hnone hget hmarks

/-- A batch is over. `unsubmitted` is what it left to submit. -/
theorem does_batchDone (hnone : e.undelivered=none) (hready : e.groups.ready=false) {pushed : ℕ}
    {ended : Ended T} {unsubmitted : Bool} (hright : e.Right ended) (hsettles : e.settles event=none)
    (hrefusal : e.refusal event=ended.refusal) :
    e.Does K event (({ e with unsubmitted := unsubmitted } : ReadEngine T).batchDone pushed ended) := by
  have hstay {phase : Phase T} (hphase : ({ e with phase:=phase,unsubmitted:=unsubmitted } :
      ReadEngine T).PhaseOk) (hnot : ∀ pushed ended,phase≠.submitting pushed ended)
      (hquiet : ended.refusal=none) :
      e.Does K event { e with phase:=phase,unsubmitted:=unsubmitted } :=
    .move hphase (fun _ _ hcontra=>absurd hcontra (hnot _ _)) ⟨hsettles,hrefusal.trans hquiet⟩
  cases ended with
  | planned =>
    exact .drop hnone (fun c hc=>.inl (hright c hc)) (by simp [hrefusal,Ended.refusal]) hsettles
      (by rw [hrefusal,hnone]; rfl) (.inl rfl) (.inl rfl)
  | abandoned =>
    exact .drop hnone (fun c hc=>.inr (.inl hright)) (by simp [hrefusal,Ended.refusal]) hsettles
      (by rw [hrefusal,hnone]; rfl) (.inl rfl) (.inl rfl)
  | stopped stop=>exact hstay ⟨hnone,hready⟩ (fun _ _ hcontra=>by cases hcontra) rfl
  | ringSqFull =>
    unfold batchDone
    split_ifs
    · exact hstay ⟨hnone,hready,rfl⟩ (fun _ _ hcontra=>by cases hcontra) rfl
    · exact hstay ⟨hnone,hready⟩ (fun _ _ hcontra=>by cases hcontra) rfl
  | refused r =>
    obtain ⟨watcher,hmarks,heq⟩:=reportFailure_eq (e:={ e with
      unsubmitted:=unsubmitted,current:=none,phase:=.deliver }) hnone r
    rw [batchDone,heq]
    refine .drop hnone (fun _ _=>.inr (.inr ?_)) (fun r' hr'=>?_) hsettles ?_ hmarks (.inl rfl)
    · rw [hrefusal]
      rfl
    · rw [hrefusal] at hr'
      cases hr'
      exact hright
    · rw [hrefusal]
      rfl

theorem does_endBatch (hnone : e.undelivered=none) (hready : e.groups.ready=false) {pushed : ℕ}
    {ended : Ended T} (hright : e.Right ended) (hsettles : e.settles event=none)
    (hrefusal : e.refusal event=if pushed=0 then ended.refusal else none)
    (hpush : ∀ r,ended=.refused r → ∃ code,event=.push (.refused code)) :
    e.Does K event (e.endBatch pushed ended) := by
  unfold endBatch
  split_ifs with hzero
  · rw [if_pos hzero] at hrefusal
    exact does_batchDone hnone hready hright hsettles hrefusal
  · rw [if_neg hzero] at hrefusal
    refine .move ⟨hnone,hready,hright⟩ (fun _ r hr=>?_) ⟨hsettles,hrefusal⟩
    cases hr
    exact hpush r rfl

theorem does_takeWork (hnone : e.undelivered=none) (hready : e.groups.ready=false)
    (hplan : e.current ≠ none → e.stop=true) :
    e.Does K .go (({ e with current := none } : ReadEngine T).takeWork K) := by
  have hquiet : e.Quiet .go:=⟨rfl,rfl⟩
  unfold takeWork
  dsimp only
  split
  · exact .drop hnone (fun c hc=>.inr (.inl (hplan (by simp [hc])))) (fun _ hcontra=>by cases hcontra)
      hquiet.1 hnone (.inl rfl) (.inr ⟨rfl,hnone,hready⟩)
  · rename_i hsq
    exact .take hnone hsq hplan

theorem does_advance (hnone : e.undelivered=none) (hready : e.groups.ready=false) :
    e.Does K .go (e.advance K) := by
  unfold advance abandon
  split_ifs with hstop
  · exact does_takeWork hnone hready fun _=>hstop
  · cases hplan : e.current with
    | none =>
      have hsame : ({ e with current:=none } : ReadEngine T)=e:=by rw [← hplan]
      have hdoes:=does_takeWork (K:=K) hnone hready fun hsome=>absurd hplan hsome
      rwa [hsame] at hdoes
    | some c =>
      have hphase : ({ e with phase:=.pushing 0 e.held.length } : ReadEngine T).PhaseOk :=
        ⟨hnone,hready,rfl⟩
      have htake : e.takeWork K={ e with phase:=.pushing 0 e.held.length }:=by rw [takeWork,hplan]
      rw [htake]
      exact .move hphase (fun _ _ hcontra=>by cases hcontra) ⟨rfl,rfl⟩

theorem does_runStep (hphase : e.PhaseOk) (hcurrent : ∀ c,e.current=some c → c.poll=e.polls)
    (h : e.runStep K e.phase event=some e') : e.Does K event e' := by
  have hmove {phase : Phase T} {unsubmitted : Bool}
      (hphase : ({ e with phase:=phase,unsubmitted:=unsubmitted } : ReadEngine T).PhaseOk)
      (hnot : ∀ pushed ended,phase≠.submitting pushed ended) (hquiet : e.Quiet event) :
      e.Does K event { e with phase:=phase,unsubmitted:=unsubmitted } :=
    .move hphase (fun _ _ hcontra=>absurd hcontra (hnot _ _)) hquiet
  unfold PhaseOk at hphase
  cases hat : e.phase with
  | idle =>
    rw [hat] at h
    cases event with
    | run =>
      cases h
      exact hmove trivial (fun _ _ hcontra=>by cases hcontra) ⟨rfl,rfl⟩
    | _=>cases h
  | submitQueued =>
    rw [hat] at h
    have hsubmit (ok : Bool) : e.Quiet (.submit ok):=⟨rfl,by cases ok <;> simp [refusal,hat]⟩
    cases event with
    | go =>
      simp only [runStep] at h
      split_ifs at h
      cases h
      exact hmove trivial (fun _ _ hcontra=>by cases hcontra) ⟨rfl,rfl⟩
    | submit ok =>
      simp only [runStep] at h
      split_ifs at h <;> cases h <;>
        exact hmove trivial (fun _ _ hcontra=>by cases hcontra) (hsubmit _)
    | _=>cases h
  | deliver =>
    rw [hat] at h
    cases event with
    | go =>
      simp only [runStep] at h
      split_ifs at h with hnone
      cases h
      exact hmove (isNone_iff_eq_none.mp hnone) (fun _ _ hcontra=>by cases hcontra) ⟨rfl,rfl⟩
    | clientPush accepted =>
      simp only [runStep] at h
      split at h
      · cases h
      · rename_i note hnote
        cases accepted with
        | true =>
          cases h
          exact .deliver hnote
        | false =>
          cases h
          exact hmove trivial (fun _ _ hcontra=>by cases hcontra) ⟨rfl,rfl⟩
    | _=>cases h
  | pollDones =>
    rw [hat] at h hphase
    cases event with
    | go =>
      simp only [runStep] at h
      split_ifs at h with hready
      cases h
      exact hmove ⟨hphase,Bool.eq_false_iff.mpr hready⟩ (fun _ _ hcontra=>by cases hcontra) ⟨rfl,rfl⟩
    | clientPush accepted =>
      simp only [runStep] at h
      split_ifs at h with hready haccepted
      · cases h
        subst haccepted
        exact .pollDone hphase hready hat
      · cases h
        exact hmove trivial (fun _ _ hcontra=>by cases hcontra) ⟨rfl,rfl⟩
    | _=>cases h
  | settle | lastSettle stop =>
    rw [hat] at h hphase
    cases event with
    | pop outcome =>
      refine does_pop hphase.1 ?_ (fun _ _ hcontra=>by cases hcontra) h
      first
        | exact hphase
        | trivial
    | _=>cases h
  | advance =>
    rw [hat] at h hphase
    cases event with
    | go =>
      cases h
      exact does_advance hphase.1 hphase.2
    | _=>cases h
  | pushing pushed outstanding =>
    rw [hat] at h hphase
    obtain ⟨hnone,hready,rfl⟩:=hphase
    cases event with
    | go =>
      obtain ⟨c,hc,hmap⟩:=bind_eq_some_iff.mp h
      obtain ⟨ended,hends,rfl⟩:=map_eq_some_iff.mp hmap
      obtain ⟨hright,hrefusal⟩ : e.Right ended ∧ ended.refusal=none:=by
        unfold ends at hends
        split at hends
        · rename_i hfront
          cases hends
          exact ⟨fun c' hc'=>by rwa [← Option.some.inj (hc.symm.trans hc')],rfl⟩
        · split_ifs at hends with hstop <;> cases hends
          · exact ⟨hstop,rfl⟩
          · exact ⟨trivial,rfl⟩
      refine does_endBatch hnone hready hright rfl ?_ fun r hr=>?_
      · rw [hrefusal,ite_self]
        rfl
      · rw [hr] at hrefusal
        cases hrefusal
    | push outcome =>
      obtain ⟨c,hc,hrest⟩:=bind_eq_some_iff.mp h
      split_ifs at hrest with hends
      obtain ⟨read,hread,rfl⟩:=map_eq_some_iff.mp hrest
      cases outcome with
      | poolEmpty | sqFull =>
        refine does_endBatch hnone hready trivial rfl ?_ fun r hr=>by cases hr
        exact (ite_self _).symm
      | refused code =>
        refine does_endBatch hnone hready (hcurrent c hc) rfl ?_ fun r _=>⟨code,rfl⟩
        cases pushed <;> simp [refusal,hat,hc,hread,Ended.refusal]
      | pushed =>
        refine .push hnone hready hc hread ?_
        by_contra hfull
        refine hends ?_
        unfold ends
        rw [hread]
        dsimp only
        split_ifs <;> first
          | rfl
          | omega
    | _=>cases h
  | submitting pushed ended =>
    rw [hat] at h hphase
    cases event with
    | submit ok =>
      cases ok with
      | true =>
        cases h
        exact does_batchDone hphase.1 hphase.2.1 hphase.2.2 rfl (by simp [refusal,hat])
      | false =>
        cases h
        exact hmove trivial (fun _ _ hcontra=>by cases hcontra) ⟨rfl,rfl⟩
    | _=>cases h

end ReadEngine

end WindowsThreadpoolSys.TailWatcher
