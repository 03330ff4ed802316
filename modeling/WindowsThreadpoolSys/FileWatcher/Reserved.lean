import WindowsThreadpoolSys.FileWatcher.Losses

/-! A reservation and a standing slot may always be sent on. One unit of capacity is counted as reserved,
is an entry of the queue, or is free; which of the three follows from the reservations outstanding, the
slots alive and the entries they have queued, in any order of the queue's calls. -/
namespace WindowsThreadpoolSys.FileWatcher
open Library Table

variable {P : Type} {s : System P} {ticks : List (Tick P)}

/-- The standing slots alive with no entry still to be drained. -/
def slotsWaiting (s : State P) : ℕ :=
  s.standing.count fun slot st => st.slotAlive && decide (slot ∉ slotsIn s.queue)

/-- A queue that has taken `e` as its last entry, after the losses it had room for, out of a slot that
was reserved for it. -/
structure Filled (s s' : State P) (e : Entry P) : Prop where
  claimed : 0 < s.reserved
  queue : s'.queue = s.flushLatched.queue ++ [e]
  reserved : s'.reserved + 1 = s.reserved
  room : s'.queue.length + s'.reserved ≤ s'.capacity
  capacity : s'.capacity = s.capacity

/-- What is reserved, and what the owners of it may do with it. -/
structure ReservedRoom (s : System P) : Prop where
  room : s.state.queue.length + s.state.reserved ≤ s.state.capacity
  claimed : s.state.reserved = s.reservations + slotsWaiting s.state
  once : ∀ slot, (slotsIn s.state.queue).count slot ≤ 1
  reservationSend : ∀ n, 0 < s.reservations →
    Filled s.state (s.state.reservationSend n) (.plain n)
  reservationDrop : 0 < s.reservations → 0 < s.state.reserved
  /-- A slot with nothing queued takes its place at the end. -/
  standingSend : ∀ slot st n, s.state.standing.get slot = some st → st.slotAlive = true →
    slot ∉ slotsIn s.state.queue →
    Filled s.state (s.state.standingSend slot n) (.standing slot) ∧
      (s.state.standingSend slot n).standing.get slot =
        some { st with inFlight := true, queued := some n }
  /-- A slot sent on again before it is drained has the new value in the entry it had. -/
  standingResend : ∀ slot st n, s.state.standing.get slot = some st → st.slotAlive = true →
    slot ∈ slotsIn s.state.queue →
    s.state.standingSend slot n =
      { s.state with standing := s.state.standing.insert slot { st with queued := some n } }
  standingDrop : ∀ slot st, s.state.standing.get slot = some st → st.slotAlive = true →
    slot ∉ slotsIn s.state.queue → 0 < s.state.reserved

/-! ## The slots that wait -/

variable {st : StandingState P} {slot : SlotId}

theorem SystemOk.inFlight_iff (h : SystemOk s) (hst : s.state.standing.get slot=some st) :
    slot ∈ slotsIn s.state.queue ↔ st.inFlight=true := by
  rw [h.inFlight slot,hst]
  constructor
  · rintro ⟨st',hst',hflight⟩
    cases hst'
    exact hflight
  · intro hflight
    exact ⟨st,rfl,hflight⟩

theorem SystemOk.idle_eq (h : SystemOk s) (hst : s.state.standing.get slot=some st) :
    st.idle=(st.slotAlive && decide (slot ∉ slotsIn s.state.queue)) := by
  have hiff:=h.inFlight_iff hst
  unfold StandingState.idle
  cases hflight : st.inFlight <;> simp [hiff,hflight]

theorem SystemOk.slotsWaiting (h : SystemOk s) :
    slotsWaiting s.state=s.state.standing.count fun _ st => st.idle :=
  count_congr fun _ _ hst=>(h.idle_eq hst).symm

theorem SystemOk.claimed_of_waiting (h : SystemOk s)
    (hst : s.state.standing.get slot=some st) (halive : st.slotAlive=true)
    (hnot : slot ∉ slotsIn s.state.queue) : 0 < s.state.reserved := by
  have hidle : st.idle=true:=by simp [h.idle_eq hst,halive,hnot]
  have hcount : 0 < s.state.standing.count fun _ st=>st.idle:=count_pos.mpr ⟨slot,st,hst,hidle⟩
  have hclaimed:=h.claimed
  omega

/-! ## Filling a reserved slot -/

theorem SystemOk.filled {s' : System P} {e : Entry P} (hok : SystemOk s')
    (hclaimed : 0 < s.state.reserved) (hqueue : s'.state.queue=s.state.flushLatched.queue++[e])
    (hreserved : s'.state.reserved=s.state.reserved-1)
    (hcapacity : s'.state.capacity=s.state.capacity) : Filled s.state s'.state e :=
  ⟨hclaimed,hqueue,by omega,hok.room,hcapacity⟩

theorem SystemOk.reservationSend_filled (h : SystemOk s) (n : Notification P)
    (hpos : 0 < s.reservations) : Filled s.state (s.state.reservationSend n) (.plain n) := by
  have hclaimed:=h.claimed
  refine (h.reservationSend n hpos).filled (by omega) rfl ?_ ?_
  · simp only [State.reservationSend,State.flushLatched_eq]
  · simp only [State.reservationSend,State.flushLatched_eq]

theorem SystemOk.standingSend_filled (h : SystemOk s)
    (n : Notification P) (hst : s.state.standing.get slot=some st) (halive : st.slotAlive=true)
    (hnot : slot ∉ slotsIn s.state.queue) :
    Filled s.state (s.state.standingSend slot n) (.standing slot) ∧
      (s.state.standingSend slot n).standing.get slot =
        some { st with inFlight := true,queued := some n } := by
  have hflight : ¬st.inFlight=true:=fun hin=>hnot ((h.inFlight_iff hst).mpr hin)
  have hsend : s.state.standingSend slot n =
      { s.state with
        standing:=s.state.standing.insert slot { st with inFlight:=true,queued:=some n }
        reserved:=s.state.reserved-1
        queue:=s.state.flushLatched.queue++[.standing slot]
        latched:=s.state.flushLatched.latched }:=by
    simp only [State.standingSend,hst,if_neg hflight,State.flushLatched_eq,State.free]
  refine ⟨(h.standingSend n hst halive).filled (h.claimed_of_waiting hst halive hnot) ?_ ?_ ?_,?_⟩
  · rw [hsend]
  · rw [hsend]
  · rw [hsend]
  · rw [hsend,get_insert,if_pos rfl]

theorem SystemOk.standingSend_again (h : SystemOk s) (n : Notification P)
    (hst : s.state.standing.get slot=some st) (hin : slot ∈ slotsIn s.state.queue) :
    s.state.standingSend slot n =
      { s.state with standing := s.state.standing.insert slot { st with queued := some n } } := by
  simp only [State.standingSend,hst,if_pos ((h.inFlight_iff hst).mp hin)]

/-- The length and what is reserved fit the capacity, so whoever has a reservation or a slot finds
room. -/
theorem reserved_room (run : Run ticks s) : ReservedRoom s := by
  have h:=run.ok
  exact {
    room:=h.room
    claimed:=by rw [h.slotsWaiting]; exact h.claimed
    once:=fun slot=>List.nodup_iff_count_le_one.mp h.holds slot
    reservationSend:=fun n hpos=>h.reservationSend_filled n hpos
    reservationDrop:=fun hpos=>Nat.lt_of_lt_of_le hpos (h.claimed ▸ Nat.le_add_right _ _)
    standingSend:=fun _ _ n hst halive hnot=>h.standingSend_filled n hst halive hnot
    standingResend:=fun _ _ n hst _ hin=>h.standingSend_again n hst hin
    standingDrop:=fun _ _ hst halive hnot=>h.claimed_of_waiting hst halive hnot }

/-- Two slots of capacity, one reserved and one standing: the standing slot is sent on twice, drained,
sent on again and dropped with its entry still queued. -/
theorem reserved_room_two_slots :
    ∃ (ticks : List (Tick Unit)) (s : System Unit), Run ticks s ∧
      (s.state.queue = [.standing 0] ∧ s.state.reserved = 1 ∧ s.reservations = 1 ∧
        s.received = [.other 2 ()]) ∧ ReservedRoom s := by
  have start : Run [] (System.new 2 : System Unit):=.start ⟨2,Nat.two_pos,rfl⟩
  have run:=((((((start.next .reserve ⟨trivial,rfl⟩).next (.reserveStanding 0) ⟨rfl,rfl⟩).next
    (.standingSend 0 (.other 1 ())) ⟨⟨_,rfl,rfl⟩,rfl⟩).next (.standingSend 0 (.other 2 ()))
    ⟨⟨_,rfl,rfl⟩,rfl⟩).next .take ⟨trivial,rfl⟩).next (.standingSend 0 (.other 3 ()))
    ⟨⟨_,rfl,rfl⟩,rfl⟩).next (.standingDrop 0) ⟨⟨_,rfl,rfl⟩,rfl⟩
  exact ⟨_,_,run,⟨rfl,rfl,rfl,rfl⟩,reserved_room run⟩

end WindowsThreadpoolSys.FileWatcher
