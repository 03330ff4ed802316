import WindowsThreadpoolSys.FileWatcher.Queue

/-! Runs of the queue in any order of its calls, and what they tell the client. Each call tells the losses it
finds room for and its own entry, if it is accepted. What was taken and then what is queued is exactly what
the calls told, in order. A loss is latched until a call tells it, and no best-effort notification is
accepted before that. -/
namespace WindowsThreadpoolSys.FileWatcher
open Library List Table Option

variable {P : Type}

inductive Call (P : Type) where
  | send (n : Notification P)
  | reserve
  | reservationSend (n : Notification P)
  | reservationDrop
  | reserveStanding (slot : SlotId)
  | standingSend (slot : SlotId) (n : Notification P)
  | standingDrop (slot : SlotId)
  | cloneSender
  | dropSender
  | take

structure System (P : Type) where
  state : State P
  received : List (Notification P)
  reservations : ℕ

namespace System

def new (bound : ℕ) : System P := { state := .new bound, received := [], reservations := 0 }

/-- What the caller must hold to make the call: only its owner uses a reservation or a slot. -/
def Owns (s : System P) : Call P → Prop
  | .reservationSend _ => 0 < s.reservations
  | .reservationDrop => 0 < s.reservations
  | .reserveStanding slot => s.state.standing.get slot = none
  | .standingSend slot _ => ∃ st, s.state.standing.get slot = some st ∧ st.slotAlive = true
  | .standingDrop slot => ∃ st, s.state.standing.get slot = some st ∧ st.slotAlive = true
  | .dropSender => 0 < s.state.senders
  | _ => True

def step (s : System P) : Call P → Except Panic (System P)
  | .send n => .ok { s with state := (s.state.send n).2 }
  | .reserve =>
    match s.state.reserve with
    | none => .ok s
    | some state => .ok { s with state := state, reservations := s.reservations + 1 }
  | .reservationSend n =>
    .ok { s with state := s.state.reservationSend n, reservations := s.reservations - 1 }
  | .reservationDrop =>
    .ok { s with state := s.state.reservationDrop, reservations := s.reservations - 1 }
  | .reserveStanding slot =>
    match s.state.reserveStanding slot with
    | none => .ok s
    | some state => .ok { s with state := state }
  | .standingSend slot n => .ok { s with state := s.state.standingSend slot n }
  | .standingDrop slot => .ok { s with state := s.state.standingDrop slot }
  | .cloneSender => .ok { s with state := s.state.cloneSender }
  | .dropSender => .ok { s with state := s.state.dropSender }
  | .take => do
    let (item, state) ← s.state.take
    .ok { s with state := state, received := s.received ++ item.toList }

end System

def System.Makes (s : System P) (call : Call P) (s' : System P) : Prop := s.Owns call ∧ s.step call = .ok s'

abbrev Tick (P : Type) := Taken (System P) (Call P)

abbrev Run : List (Tick P) → System P → Prop :=
  Execution System.Makes fun s => ∃ bound, 0 < bound ∧ s = .new bound

/-! ## Capacity -/

def slotsIn (queue : List (Entry P)) : List SlotId :=
  queue.filterMap fun
    | .plain _ => none
    | .standing slot => some slot

def StandingState.idle (st : StandingState P) : Bool := st.slotAlive && !st.inFlight

structure SystemOk (s : System P) : Prop where
  room : s.state.queue.length + s.state.reserved ≤ s.state.capacity
  claimed : s.state.reserved = s.reservations + s.state.standing.count fun _ st => st.idle
  holds : (slotsIn s.state.queue).Nodup
  inFlight : ∀ slot, slot ∈ slotsIn s.state.queue ↔
    ∃ st, s.state.standing.get slot = some st ∧ st.inFlight = true
  queued : ∀ slot st, s.state.standing.get slot = some st → st.inFlight = st.queued.isSome
  latched : s.state.latched.Nodup

theorem slotsIn_append (xs ys : List (Entry P)) : slotsIn (xs++ys)=slotsIn xs++slotsIn ys :=
  filterMap_append

theorem slotsIn_lost (ws : List WatchId) :
    slotsIn (ws.map fun w => (Entry.plain (.lost w) : Entry P))=[] := by
  induction ws with
  | nil=>rfl
  | cons w ws ih=>exact ih

variable {s s' : System P} {ticks : List (Tick P)}

theorem SystemOk.new (bound : ℕ) : SystemOk (System.new bound : System P) where
  room := Nat.zero_le _
  claimed:=rfl
  holds:=nodup_nil
  inFlight slot:=⟨fun h=>(by cases h),fun ⟨_,h,_⟩=>(by cases h)⟩
  queued slot st h:=(by cases h)
  latched:=nodup_nil

theorem SystemOk.flush (h : SystemOk s) : SystemOk { s with state := s.state.flushLatched } := by
  rw [State.flushLatched_eq]
  refine ⟨?_,h.claimed,?_,fun slot=>?_,h.queued,h.latched.sublist (drop_sublist _ _)⟩
  · have hroom:=h.room
    simp only [length_append,length_map,length_take,State.free]
    omega
  · simp only [slotsIn_append,slotsIn_lost,append_nil]
    exact h.holds
  · simp only [slotsIn_append,slotsIn_lost,append_nil]
    exact h.inFlight slot

theorem SystemOk.push_plain (h : SystemOk s) (n : Notification P) (hfree : 0 < s.state.free) :
    SystemOk { s with state := { s.state with queue := s.state.queue++[.plain n] } } := by
  refine ⟨?_,h.claimed,?_,fun slot=>?_,h.queued,h.latched⟩
  · simp only [State.free] at hfree
    simp only [length_append,length_singleton]
    omega
  · simpa [slotsIn] using h.holds
  · simpa [slotsIn] using h.inFlight slot

theorem SystemOk.latch (h : SystemOk s) (w : WatchId) :
    SystemOk { s with state := s.state.latch w } := by
  unfold State.latch
  split_ifs with hw
  · exact h
  · refine ⟨h.room,h.claimed,h.holds,h.inFlight,h.queued,?_⟩
    exact h.latched.append (nodup_singleton w) (by simpa using hw)

variable {state : State P}

theorem SystemOk.reserve (h : SystemOk s) (hok : s.state.reserve=some state) :
    SystemOk { s with state := state,reservations := s.reservations+1 } := by
  unfold State.reserve at hok
  split_ifs at hok with hfree
  cases hok
  have hclaimed:=h.claimed
  simp only [State.free] at hfree
  exact ⟨by simp only; omega,by simp only; omega,h.holds,h.inFlight,h.queued,h.latched⟩

theorem SystemOk.reservationSend (h : SystemOk s) (n : Notification P) (hpos : 0 < s.reservations) :
    SystemOk { s with
      state := s.state.reservationSend n,reservations := s.reservations-1 } := by
  have hflush:=h.flush
  have hroom:=hflush.room
  have hclaimed:=hflush.claimed
  simp only at hroom hclaimed
  refine ⟨?_,?_,?_,fun slot=>?_,hflush.queued,hflush.latched⟩
  · simp only [State.reservationSend,length_append,length_singleton]
    omega
  · simp only [State.reservationSend]
    omega
  · simpa [State.reservationSend,slotsIn] using hflush.holds
  · simpa [State.reservationSend,slotsIn] using hflush.inFlight slot

variable {slot : SlotId}

theorem SystemOk.reserveStanding (h : SystemOk s) (hnew : s.state.standing.get slot=none)
    (hok : s.state.reserveStanding slot=some state) : SystemOk { s with state := state } := by
  unfold State.reserveStanding at hok
  split_ifs at hok with hfree
  cases hok
  have hclaimed:=h.claimed
  simp only [State.free] at hfree
  refine ⟨by simp only; omega,?_,h.holds,fun slot'=>?_,fun slot' st hst=>?_,h.latched⟩
  · simp only [Table.count_insert _ _ hnew]
    simp only [StandingState.idle,Bool.not_false,Bool.and_self,if_true] at hclaimed ⊢
    omega
  · rw [h.inFlight slot']
    simp only [get_insert]
    split_ifs with hslot
    · rw [hslot,hnew]
      simp
    · rfl
  · rcases of_insert hst with ⟨-,rfl⟩ | hst
    · rfl
    · exact h.queued slot' st hst

theorem SystemOk.standingSend (h : SystemOk s) {st : StandingState P} (n : Notification P)
    (hst : s.state.standing.get slot=some st) (halive : st.slotAlive=true) :
    SystemOk { s with state := s.state.standingSend slot n } := by
  unfold State.standingSend
  simp only [hst]
  split_ifs with hflight
  · have hcount:=Table.count_replace { st with queued:=some n } (fun _ st=>st.idle) hst
    refine ⟨h.room,?_,h.holds,fun slot'=>?_,fun slot' st' hst'=>?_,h.latched⟩
    · exact h.claimed.trans (congrArg (s.reservations+·) (Nat.add_right_cancel hcount).symm)
    · rw [h.inFlight slot']
      simp only [get_insert]
      split_ifs with hslot
      · rw [hslot,hst]
        simp [hflight]
      · rfl
    · rcases of_insert hst' with ⟨-,rfl⟩ | hst'
      · exact hflight
      · exact h.queued slot' st' hst'
  · rw [Bool.not_eq_true] at hflight
    have hnot : slot ∉ slotsIn s.state.queue:=by
      rw [h.inFlight slot]
      rintro ⟨st',hst',hflight'⟩
      rw [hst] at hst'
      cases hst'
      rw [hflight] at hflight'
      cases hflight'
    have hcount:=Table.count_replace { st with inFlight:=true,queued:=some n }
      (fun _ st=>st.idle) hst
    have hidle : st.idle=true:=by simp [StandingState.idle,halive,hflight]
    have hbusy : StandingState.idle { st with inFlight:=true,queued:=some n }=false:=by
      simp [StandingState.idle]
    simp only [hidle,hbusy,if_true,Bool.false_eq_true,if_false] at hcount
    have hroom:=h.room
    have hclaimed:=h.claimed
    rw [State.flushLatched_eq]
    refine ⟨?_,?_,?_,fun slot'=>?_,fun slot' st' hst'=>?_,
      h.latched.sublist (drop_sublist _ _)⟩
    · simp only [length_append,length_map,length_take,length_singleton,State.free]
      omega
    · simp only
      omega
    · simp only [slotsIn_append,slotsIn_lost,append_nil]
      exact h.holds.append (nodup_singleton slot) (by simpa [slotsIn] using hnot)
    · simp only [slotsIn_append,slotsIn_lost,append_nil,mem_append,h.inFlight slot',get_insert]
      split_ifs with hslot
      · subst hslot
        simp [slotsIn]
      · simp [slotsIn,hslot]
    · rcases of_insert hst' with ⟨-,rfl⟩ | hst'
      · rfl
      · exact h.queued slot' st' hst'

theorem SystemOk.standingDrop (h : SystemOk s) {st : StandingState P}
    (hst : s.state.standing.get slot=some st) (halive : st.slotAlive=true) :
    SystemOk { s with state := s.state.standingDrop slot } := by
  have hcount:=Table.count_replace { st with slotAlive:=false } (fun _ st=>st.idle) hst
  have hroom:=h.room
  have hclaimed:=h.claimed
  have hflights : ∀ slot',slot' ∈ slotsIn s.state.queue ↔
      ∃ st',(s.state.standing.insert slot { st with slotAlive:=false }).get slot'=some st' ∧
        st'.inFlight=true:=by
    intro slot'
    rw [h.inFlight slot',get_insert]
    split_ifs with hslot
    · rw [hslot,hst]
      simp
    · rfl
  have hqueueds : ∀ slot' st',
      (s.state.standing.insert slot { st with slotAlive:=false }).get slot'=some st' →
      st'.inFlight=st'.queued.isSome:=by
    intro slot' st' hst'
    rcases of_insert hst' with ⟨-,rfl⟩ | hst'
    · exact h.queued slot st hst
    · exact h.queued slot' st' hst'
  unfold State.standingDrop
  simp only [hst]
  split_ifs with hflight
  · refine ⟨hroom,?_,h.holds,hflights,hqueueds,h.latched⟩
    simp only [StandingState.idle,hflight] at hcount hclaimed ⊢
    simp only [Bool.not_true,Bool.and_false,Bool.false_eq_true,if_false] at hcount
    omega
  · refine ⟨?_,?_,h.holds,hflights,hqueueds,h.latched⟩
    · simp only
      omega
    · simp only [StandingState.idle,hflight,halive] at hcount hclaimed ⊢
      simp only [Bool.not_false,Bool.and_self,if_true,Bool.false_and,Bool.false_eq_true,
        if_false] at hcount
      omega

theorem SystemOk.take (h : SystemOk s) : ∃ item state,s.state.take=.ok (item,state) ∧
    SystemOk { s with state := state,received := s.received++item.toList } := by
  have hroom:=h.room
  have hclaimed:=h.claimed
  rcases hqueue : s.state.queue with _ | ⟨e,rest⟩
  · rcases hlatched : s.state.latched with _ | ⟨w,rest⟩
    · exact ⟨none,s.state,by simp only [State.take,hqueue,hlatched],
        ⟨hroom,hclaimed,h.holds,h.inFlight,h.queued,h.latched⟩⟩
    · have hnodup:=h.latched
      rw [hlatched] at hnodup
      exact ⟨some (.lost w),{ s.state with latched:=rest },
        by simp only [State.take,hqueue,hlatched],
        ⟨hroom,hclaimed,h.holds,h.inFlight,h.queued,hnodup.of_cons⟩⟩
  · rw [hqueue,length_cons] at hroom
    have hholds:=h.holds
    have hflight:=h.inFlight
    rw [hqueue] at hholds hflight
    cases e with
    | plain n =>
      exact ⟨some n,{ s.state with queue:=rest },by simp only [State.take,hqueue],
        ⟨by simp only; omega,hclaimed,hholds,hflight,h.queued,h.latched⟩⟩
    | standing slot =>
      have hcons : slotsIn (.standing slot::rest : List (Entry P))=slot::slotsIn rest:=rfl
      rw [hcons] at hholds
      obtain ⟨st,hst,hin⟩:=(hflight slot).mp (by rw [hcons]; exact mem_cons_self)
      have hsome:=(h.queued slot st hst).symm.trans hin
      obtain ⟨n,hn⟩:=isSome_iff_exists.mp hsome
      have hcount:=Table.count_replace { st with inFlight:=false,queued:=none }
        (fun _ st=>st.idle) hst
      simp only [StandingState.idle,hin,Bool.not_true,Bool.and_false,Bool.false_eq_true,
        if_false,Bool.not_false,Bool.and_true] at hcount
      refine ⟨some n,
        { s.state with
          queue:=rest
          standing:=s.state.standing.insert slot { st with inFlight:=false,queued:=none }
          reserved:=if st.slotAlive then s.state.reserved+1 else s.state.reserved },
        by simp only [State.take,hqueue,hst,hn],⟨?_,?_,hholds.of_cons,fun slot'=>?_,
        fun slot' st' hst'=>?_,h.latched⟩⟩
      · simp only
        split_ifs <;> omega
      · simp only [StandingState.idle] at hclaimed ⊢
        split_ifs with halive
        · rw [if_pos halive] at hcount
          omega
        · rw [if_neg halive] at hcount
          omega
      · simp only [get_insert]
        split_ifs with hslot
        · subst hslot
          simp [(nodup_cons.mp hholds).1]
        · rw [← hflight slot',hcons]
          simp [hslot]
      · rcases of_insert hst' with ⟨-,rfl⟩ | hst'
        · rfl
        · exact h.queued slot' st' hst'

variable {call : Call P}

theorem SystemOk.step (h : SystemOk s) (howns : s.Owns call) :
    ∃ s',s.step call=.ok s' ∧ SystemOk s' := by
  cases call with
  | send n =>
    refine ⟨_,rfl,?_⟩
    unfold State.send
    simp only
    split_ifs with hfree
    · exact h.flush.push_plain n hfree
    · exact h.flush.latch n.watch
  | reserve =>
    simp only [System.step]
    cases hok : s.state.reserve with
    | none=>exact ⟨s,rfl,h⟩
    | some state=>exact ⟨_,rfl,h.reserve hok⟩
  | reservationSend n=>exact ⟨_,rfl,h.reservationSend n howns⟩
  | reservationDrop =>
    have hpos : 0 < s.reservations:=howns
    have hroom:=h.room
    have hclaimed:=h.claimed
    refine ⟨_,rfl,?_,?_,h.holds,h.inFlight,h.queued,h.latched⟩ <;>
      simp only [State.reservationDrop] <;> omega
  | reserveStanding slot =>
    simp only [System.step]
    cases hok : s.state.reserveStanding slot with
    | none=>exact ⟨s,rfl,h⟩
    | some state=>exact ⟨_,rfl,h.reserveStanding howns hok⟩
  | standingSend slot n =>
    obtain ⟨st,hst,halive⟩:=howns
    exact ⟨_,rfl,h.standingSend n hst halive⟩
  | standingDrop slot =>
    obtain ⟨st,hst,halive⟩:=howns
    exact ⟨_,rfl,h.standingDrop hst halive⟩
  | cloneSender | dropSender=>exact ⟨_,rfl,h.room,h.claimed,h.holds,h.inFlight,h.queued,h.latched⟩
  | take =>
    obtain ⟨item,state,htake,hok⟩:=h.take
    exact ⟨_,by rw [System.step,htake]; rfl,hok⟩

theorem Run.ok (run : Run ticks s) : SystemOk s := by
  induction run with
  | start hinit =>
    obtain ⟨bound, -,rfl⟩:=hinit
    exact .new bound
  | next run call hmakes ih =>
    obtain ⟨s',hstep,hok⟩:=ih.step hmakes.1
    rw [hmakes.2] at hstep
    cases hstep
    exact hok

/-! ## What a call tells -/

namespace Tick

/-- A best-effort notification is accepted. -/
def accepts (t : Tick P) : Bool :=
  match t.event with
  | .send n => decide ((t.before.state.send n).1 = .queued)
  | _ => false

/-- The watch whose best-effort notification is dropped. -/
def loses (t : Tick P) : Option WatchId :=
  match t.event with
  | .send n => if t.accepts then none else some n.watch
  | _ => none

/-- The losses told: those the free slots take when an entry is enqueued, and the first of them when the
client finds the queue empty. -/
def reports (t : Tick P) : List WatchId :=
  match t.event with
  | .send _ | .reservationSend _ => t.before.state.latched.take t.before.state.free
  | .standingSend slot _ =>
    if (t.before.state.standing.get slot).any (·.inFlight) then []
    else t.before.state.latched.take t.before.state.free
  | .take => if t.before.state.queue = [] then t.before.state.latched.take 1 else []
  | _ => []

def own (t : Tick P) : List (Entry P) :=
  match t.event with
  | .send n => if t.accepts then [.plain n] else []
  | .reservationSend n => [.plain n]
  | .standingSend slot _ =>
    if (t.before.state.standing.get slot).any (·.inFlight) then [] else [.standing slot]
  | _ => []

def tells (t : Tick P) : List (Entry P) := t.reports.map (fun w => .plain (.lost w)) ++ t.own

end Tick

/-- Everything a run told, in the order of its calls. -/
def history (ticks : List (Tick P)) : List (Entry P) := ticks.reverse.flatMap Tick.tells

/-- The entry is received as `n`: a standing entry as something sent with its slot. -/
def ReadAs (ticks : List (Tick P)) (e : Entry P) (n : Notification P) : Prop :=
  e = .plain n ∨ ∃ slot, e = .standing slot ∧ ∃ t ∈ ticks, t.event = .standingSend slot n

def Holds (s : System P) (slot : SlotId) (n : Notification P) : Prop :=
  ∃ st, s.state.standing.get slot = some st ∧ st.queued = some n

def Reads (s : System P) (e : Entry P) (n : Notification P) : Prop :=
  e = .plain n ∨ ∃ slot, e = .standing slot ∧ Holds s slot n

structure Tells (t : Tick P) : Prop where
  line : ∃ taken read, t.before.state.queue ++ t.tells = taken ++ t.after.state.queue ∧
    t.after.received = t.before.received ++ read ∧ Forall₂ (Reads t.before) taken read
  latched : ∃ kept, t.before.state.latched = t.reports ++ kept ∧
    t.after.state.latched = kept ++ t.loses.toList.filter (· ∉ kept) ∧ (t.accepts = true → kept = [])

variable {t : Tick P}

theorem Tells.of_same (hquiet : t.tells=[]) (hlost : t.loses=none) (haccepts : t.accepts=false)
    (hqueue : t.after.state.queue=t.before.state.queue) (hreceived : t.after.received=t.before.received)
    (hlatched : t.after.state.latched=t.before.state.latched) : Tells t := by
  obtain ⟨hreports, -⟩:=append_eq_nil_iff.mp hquiet
  refine ⟨⟨[],[],?_,?_,.nil⟩,⟨t.before.state.latched,?_,?_,fun h=>?_⟩⟩
  · simp [hquiet,hqueue]
  · simp [hreceived]
  · simp [map_eq_nil_iff.mp hreports]
  · simp [hlost,hlatched]
  · rw [haccepts] at h
    cases h

/-- The call enqueues `own` behind the losses that fit the free slots. -/
theorem Tells.of_push (hreports : t.reports=t.before.state.latched.take t.before.state.free)
    (hqueue : t.after.state.queue=t.before.state.flushLatched.queue++t.own)
    (hreceived : t.after.received=t.before.received)
    (hlatched : t.after.state.latched=t.before.state.flushLatched.latched++
      t.loses.toList.filter (· ∉ t.before.state.flushLatched.latched))
    (haccepts : t.accepts=true → t.before.state.flushLatched.latched=[]) : Tells t := by
  rw [State.flushLatched_eq] at hqueue hlatched haccepts
  refine ⟨⟨[],[],?_,?_,.nil⟩,⟨t.before.state.latched.drop t.before.state.free,?_,hlatched,haccepts⟩⟩
  · rw [Tick.tells,hreports,nil_append,hqueue,append_assoc]
  · simp [hreceived]
  · rw [hreports]
    exact (take_append_drop ..).symm

theorem Tells.send (s : System P) (n : Notification P) :
    Tells ⟨s,.send n,{ s with state := (s.state.send n).2 }⟩ := by
  by_cases hfree : 0 < s.state.flushLatched.free
  · have hsend : s.state.send n=(.queued,
        { s.state.flushLatched with queue:=s.state.flushLatched.queue++[.plain n] }):=by
      simp [State.send,hfree]
    refine .of_push rfl ?_ rfl ?_ fun _=>State.flushLatched_nil hfree
    · simp [Tick.own,Tick.accepts,hsend]
    · simp [Tick.loses,Tick.accepts,hsend]
  · have hsend : s.state.send n=(.latched,s.state.flushLatched.latch n.watch):=by
      simp [State.send,hfree]
    refine .of_push rfl ?_ rfl ?_ fun h=>?_
    · by_cases hin : n.watch ∈ s.state.flushLatched.latched <;>
        simp [Tick.own,Tick.accepts,hsend,State.latch,hin]
    · by_cases hin : n.watch ∈ s.state.flushLatched.latched <;>
        simp [Tick.loses,Tick.accepts,hsend,State.latch,hin]
    · simp [Tick.accepts,hsend] at h

theorem Tells.take {item : Option (Notification P)} (h : s.state.take=.ok (item,state)) :
    Tells ⟨s,.take,{ s with state := state,received := s.received++item.toList }⟩ := by
  unfold State.take at h
  split at h
  · next n rest hqueue =>
    cases h
    refine ⟨⟨[.plain n],[n],?_,rfl,.cons (.inl rfl) .nil⟩,⟨s.state.latched,?_,?_,fun h=>by cases h⟩⟩ <;>
      simp [Tick.tells,Tick.reports,Tick.own,Tick.loses,hqueue]
  · next slot rest hqueue =>
    split at h
    · cases h
    · split at h
      · cases h
      · next hst _ n hn =>
        cases h
        refine ⟨⟨[.standing slot],[n],?_,rfl,.cons (.inr ⟨slot,rfl,_,hst,hn⟩) .nil⟩,
          ⟨s.state.latched,?_,?_,fun h=>by cases h⟩⟩ <;>
          simp [Tick.tells,Tick.reports,Tick.own,Tick.loses,hqueue]
  · next hqueue =>
    split at h
    · next hlatched =>
      cases h
      refine .of_same ?_ rfl rfl rfl (by simp) rfl
      simp [Tick.tells,Tick.reports,Tick.own,hlatched]
    · next w rest hlatched =>
      cases h
      refine ⟨⟨[.plain (.lost w)],[.lost w],?_,rfl,.cons (.inl rfl) .nil⟩,
        ⟨rest,?_,?_,fun h=>by cases h⟩⟩ <;>
        simp [Tick.tells,Tick.reports,Tick.own,Tick.loses,hqueue,hlatched]

theorem System.Makes.tells (h : s.Makes call s') : Tells ⟨s,call,s'⟩ := by
  obtain ⟨howns,hstep⟩:=h
  cases call with
  | send n =>
    cases hstep
    exact Tells.send s n
  | reserve =>
    simp only [System.step,State.reserve] at hstep
    split_ifs at hstep <;> cases hstep <;> exact .of_same rfl rfl rfl rfl rfl rfl
  | reservationSend n =>
    cases hstep
    exact .of_push rfl rfl rfl (append_nil _).symm fun h=>by cases h
  | reservationDrop | cloneSender | dropSender =>
    cases hstep
    exact .of_same rfl rfl rfl rfl rfl rfl
  | reserveStanding slot =>
    simp only [System.step,State.reserveStanding] at hstep
    split_ifs at hstep <;> cases hstep <;> exact .of_same rfl rfl rfl rfl rfl rfl
  | standingSend slot n =>
    obtain ⟨st,hst, -⟩:=howns
    cases hstep
    by_cases hflight : st.inFlight=true
    · refine .of_same ?_ rfl rfl ?_ rfl ?_ <;>
        simp [Tick.tells,Tick.reports,Tick.own,State.standingSend,hst,hflight]
    · refine .of_push ?_ ?_ rfl ?_ (fun h=>by cases h) <;>
        simp [Tick.reports,Tick.own,Tick.loses,State.standingSend,hst,hflight,State.flushLatched_eq,State.free]
  | standingDrop slot =>
    obtain ⟨st,hst, -⟩:=howns
    cases hstep
    refine .of_same rfl rfl rfl ?_ rfl ?_ <;> simp only [State.standingDrop,hst] <;> split_ifs <;> rfl
  | take =>
    simp only [System.step,bind_eq_ok] at hstep
    obtain ⟨⟨item,state⟩,htake,hstep⟩:=hstep
    cases hstep
    exact Tells.take htake

theorem System.Makes.holds (h : s.Makes call s') {n : Notification P} (hholds : Holds s' slot n) :
    call=.standingSend slot n ∨ Holds s slot n := by
  obtain ⟨howns,hstep⟩:=h
  obtain ⟨st,hst,hn⟩:=hholds
  have hflush : ∀ state : State P,state.flushLatched.standing=state.standing:=fun state=>by
    rw [State.flushLatched_eq]
  cases call with
  | send m =>
    cases hstep
    simp only [State.send,State.latch] at hst
    split_ifs at hst <;> exact .inr ⟨st,hflush s.state ▸ hst,hn⟩
  | reservationSend m =>
    cases hstep
    exact .inr ⟨st,hflush s.state ▸ hst,hn⟩
  | reserve =>
    simp only [System.step,State.reserve] at hstep
    split_ifs at hstep <;> cases hstep <;> exact .inr ⟨st,hst,hn⟩
  | reservationDrop | cloneSender | dropSender =>
    cases hstep
    exact .inr ⟨st,hst,hn⟩
  | reserveStanding slot' =>
    simp only [System.step,State.reserveStanding] at hstep
    split_ifs at hstep <;> cases hstep
    · exact .inr ⟨st,hst,hn⟩
    · rcases of_insert hst with ⟨-,rfl⟩ | hst
      · cases hn
      · exact .inr ⟨st,hst,hn⟩
  | standingSend slot' m =>
    obtain ⟨st',hst', -⟩:=howns
    cases hstep
    simp only [State.standingSend,hst'] at hst
    split_ifs at hst
    · rcases of_insert hst with ⟨rfl,rfl⟩ | hst
      · cases hn
        exact .inl rfl
      · exact .inr ⟨st,hst,hn⟩
    · rw [hflush] at hst
      rcases of_insert hst with ⟨rfl,rfl⟩ | hst
      · cases hn
        exact .inl rfl
      · exact .inr ⟨st,hst,hn⟩
  | standingDrop slot' =>
    obtain ⟨st',hst', -⟩:=howns
    cases hstep
    simp only [State.standingDrop,hst'] at hst
    split_ifs at hst <;> rcases of_insert hst with ⟨rfl,rfl⟩ | hst <;>
      first | exact .inr ⟨st',hst',hn⟩ | exact .inr ⟨st,hst,hn⟩
  | take =>
    simp only [System.step,bind_eq_ok] at hstep
    obtain ⟨⟨item,state⟩,htake,hstep⟩:=hstep
    cases hstep
    unfold State.take at htake
    repeat' split at htake
    all_goals cases htake
    all_goals first
      | exact .inr ⟨st,hst,hn⟩
      | rcases of_insert hst with ⟨-,rfl⟩ | hst
        · cases hn
        · exact .inr ⟨st,hst,hn⟩

/-! ## Runs -/

theorem Run.holds (run : Run ticks s) {n : Notification P} (hholds : Holds s slot n) :
    ∃ t ∈ ticks,t.event=.standingSend slot n := by
  induction run with
  | start hinit =>
    obtain ⟨bound, -,rfl⟩:=hinit
    obtain ⟨st,hst, -⟩:=hholds
    cases hst
  | next run call hmakes ih =>
    obtain rfl | hold:=hmakes.holds hholds
    · exact ⟨_,mem_cons_self,rfl⟩
    · obtain ⟨t,ht,hsent⟩:=ih hold
      exact ⟨t,mem_cons_of_mem _ ht,hsent⟩

theorem Run.told (run : Run ticks s) :
    ∃ taken,history ticks=taken++s.state.queue ∧ Forall₂ (ReadAs ticks) taken s.received := by
  induction run with
  | start hinit =>
    obtain ⟨bound, -,rfl⟩:=hinit
    exact ⟨[],rfl,.nil⟩
  | @next ticks s s' run call hmakes ih =>
    obtain ⟨taken,hhistory,hread⟩:=ih
    obtain ⟨more,read,hline,hreceived,hmore⟩:=hmakes.tells.line
    refine ⟨taken++more,?_,hreceived ▸ rel_append (hread.imp fun e n=>?_) (hmore.imp fun e n=>?_)⟩
    · rw [history,reverse_cons,flatMap_append,flatMap_singleton,← history,hhistory,append_assoc,hline,
        append_assoc]
    · rintro (hplain | ⟨slot,hslot,t,ht,hsent⟩)
      · exact .inl hplain
      · exact .inr ⟨slot,hslot,t,mem_cons_of_mem _ ht,hsent⟩
    · rintro (hplain | ⟨slot,hslot,hholds⟩)
      · exact .inl hplain
      · obtain ⟨t,ht,hsent⟩:=Run.holds run hholds
        exact .inr ⟨slot,hslot,t,mem_cons_of_mem _ ht,hsent⟩

/-- A loss of `w` after which the calls `later` were made: it is still latched, or one of them has told it,
and no best-effort notification was accepted before. -/
def LossTold (s : System P) (later : List (Tick P)) (w : WatchId) : Prop :=
  (w ∈ s.state.latched ∧ ∀ t ∈ later, t.accepts = false) ∨
    ∃ after t before, later = after ++ t :: before ∧ w ∈ t.reports ∧ ∀ t' ∈ before, t'.accepts = false

theorem LossTold.next {later : List (Tick P)} {w : WatchId}
    (h : LossTold t.before later w) (htells : Tells t) : LossTold t.after (t::later) w := by
  obtain ⟨hw,hnone⟩ | ⟨after,t',before,rfl,hreports,hnone⟩:=h
  · obtain ⟨kept,hbefore,hafter,hkept⟩:=htells.latched
    rw [hbefore] at hw
    obtain hw | hw:=mem_append.mp hw
    · exact .inr ⟨[],t,later,rfl,hw,hnone⟩
    · refine .inl ⟨hafter ▸ mem_append_left _ hw,forall_mem_cons.mpr ⟨?_,hnone⟩⟩
      refine Bool.eq_false_iff.mpr fun haccepts=>?_
      rw [hkept haccepts] at hw
      cases hw
  · exact .inr ⟨t::after,t',before,rfl,hreports,hnone⟩

theorem Run.lossTold (run : Run ticks s) {later earlier : List (Tick P)} {w : WatchId}
    (hticks : ticks=later++t::earlier) (hlost : t.loses=some w) : LossTold s later w := by
  induction run generalizing later with
  | start=>exact absurd hticks.symm (append_ne_nil_of_right_ne_nil _ (cons_ne_nil _ _))
  | @next ticks s s' run call hmakes ih =>
    cases later with
    | nil =>
      obtain ⟨rfl,rfl⟩:=List.cons.inj hticks
      obtain ⟨kept, -,hafter, -⟩:=hmakes.tells.latched
      refine .inl ⟨?_,fun t ht=>by cases ht⟩
      show w ∈ s'.state.latched
      rw [show s'.state.latched=_ from hafter,hlost]
      by_cases hin : w ∈ kept <;> simp [hin]
    | cons t' later =>
      obtain ⟨rfl,hrest⟩:=List.cons.inj hticks
      exact (ih hrest).next hmakes.tells

/-! ## Receiving -/

theorem take_none (h : s.state.take=.ok (none,state)) : s.state.queue=[] ∧ s.state.latched=[] := by
  unfold State.take at h
  split at h
  · cases h
  · split at h
    · cases h
    · split at h <;> cases h
  · next hqueue =>
    split at h
    · next hlatched=>exact ⟨hqueue,hlatched⟩
    · cases h

theorem recv_ended (h : s.state.recv=.ok .ended) : s.state.queue=[] ∧ s.state.latched=[] := by
  simp only [State.recv,bind_eq_ok] at h
  obtain ⟨⟨item,state⟩,htake,h⟩:=h
  cases item with
  | some n=>cases h
  | none=>exact take_none htake

theorem take_some {n : Notification P} (h : s.state.take=.ok (some n,state)) :
    state.queue.length+state.latched.length+1=s.state.queue.length+s.state.latched.length := by
  unfold State.take at h
  split at h
  · next hqueue =>
    cases h
    simp only [hqueue,length_cons]
    omega
  · next hqueue =>
    split at h
    · cases h
    · split at h
      · cases h
      · cases h
        simp only [hqueue,length_cons]
        omega
  · next hqueue =>
    split at h
    · cases h
    · next hlatched =>
      cases h
      simp only [hlatched,length_cons]
      omega

theorem Run.drain (run : Run ticks s) : ∃ takes s',Run (takes++ticks) s' ∧
    (∀ t ∈ takes,t.event=.take) ∧ s'.state.queue=[] ∧ s'.state.latched=[] := by
  induction hm : s.state.queue.length+s.state.latched.length using Nat.strong_induction_on
    generalizing ticks s with
  | _ m ih =>
    obtain ⟨item,state,htake, -⟩:=run.ok.take
    cases item with
    | none=>exact ⟨[],s,run,fun t ht=>(by cases ht),take_none htake⟩
    | some n =>
      have hfewer:=take_some htake
      have hstep : s.step .take =
          .ok { s with state:=state,received:=s.received++[n] }:=by
        rw [System.step,htake]
        rfl
      obtain ⟨takes,s',hrun,hall,hempty⟩:=ih (state.queue.length+state.latched.length)
        (by omega) (run.next .take ⟨trivial,hstep⟩) rfl
      refine ⟨takes++[⟨s,.take,_⟩],s',by simpa using hrun,fun t ht=>?_,hempty⟩
      rcases mem_append.mp ht with ht | ht
      · exact hall t ht
      · rw [mem_singleton.mp ht]

/-- What was received and what is queued is what the calls told, each of it once and in order: the
best-effort notifications accepted, the reserved and standing sends, and the losses. A loss is latched once
and told once, behind what was told when it was latched and before any best-effort notification accepted
after it; the stream does not end while one is latched. -/
theorem no_silent_loss (run : Run ticks s) :
    (∃ taken, history ticks = taken ++ s.state.queue ∧ Forall₂ (ReadAs ticks) taken s.received) ∧
    (∀ t ∈ ticks, ∃ kept, t.before.state.latched = t.reports ++ kept ∧
      t.after.state.latched = kept ++ t.loses.toList.filter (· ∉ kept)) ∧
    (∀ later t earlier, ticks = later ++ t :: earlier → ∀ w, t.loses = some w → LossTold s later w) ∧
    s.state.latched.Nodup ∧
    (s.state.recv = .ok .ended →
      s.state.latched = [] ∧ Forall₂ (ReadAs ticks) (history ticks) s.received) ∧
    ∃ takes s', Run (takes ++ ticks) s' ∧ (∀ t ∈ takes, t.event = .take) ∧ s'.state.latched = [] ∧
      Forall₂ (ReadAs (takes ++ ticks)) (history (takes ++ ticks)) s'.received := by
  have hall : ∀ {ticks} {s : System P},Run ticks s → s.state.queue=[] →
      Forall₂ (ReadAs ticks) (history ticks) s.received:=fun run hqueue=>by
    obtain ⟨taken,hhistory,hread⟩:=run.told
    rw [hhistory,hqueue,append_nil]
    exact hread
  refine ⟨run.told,fun t ht=>?_,fun later t earlier hticks w=>run.lossTold hticks,run.ok.latched,
    fun hended=>?_,?_⟩
  · obtain ⟨-, -, -,hmakes⟩:=run.of_mem ht
    obtain ⟨kept,hbefore,hafter, -⟩:=hmakes.tells.latched
    exact ⟨kept,hbefore,hafter⟩
  · obtain ⟨hqueue,hlatched⟩:=recv_ended hended
    exact ⟨hlatched,hall run hqueue⟩
  · obtain ⟨takes,s',hrun,htakes,hqueue,hlatched⟩:=run.drain
    exact ⟨takes,s',hrun,htakes,hlatched,hall hrun hqueue⟩

/-- One slot: the second notification is lost, and the third, sent once there is room again, is lost
behind the report of that loss. -/
theorem no_silent_loss_one_slot :
    ∃ (ticks : List (Tick Unit)) (s : System Unit), Run ticks s ∧
      (s.received = [.other 1 ()] ∧ s.state.queue = [.plain (.lost 2)] ∧ s.state.latched = [3]) ∧
      (∃ taken, history ticks = taken ++ s.state.queue ∧ Forall₂ (ReadAs ticks) taken s.received) ∧
      ∃ takes s', Run (takes ++ ticks) s' ∧ (∀ t ∈ takes, t.event = .take) ∧ s'.state.latched = [] ∧
        Forall₂ (ReadAs (takes ++ ticks)) (history (takes ++ ticks)) s'.received := by
  have start : Run [] (System.new 1 : System Unit):=.start ⟨1,Nat.one_pos,rfl⟩
  have run:=(((start.next (.send (.other 1 ())) ⟨trivial,rfl⟩).next (.send (.other 2 ())) ⟨trivial,rfl⟩).next
    .take ⟨trivial,rfl⟩).next (.send (.other 3 ())) ⟨trivial,rfl⟩
  obtain ⟨htold, -, -, -, -,hdrained⟩:=no_silent_loss run
  exact ⟨_,_,run,⟨rfl,rfl,rfl⟩,htold,hdrained⟩

end WindowsThreadpoolSys.FileWatcher
