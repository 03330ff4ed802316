import WindowsThreadpoolSys.Healing.Steps

/-! From the moment a cancellation is marked until a repair callback has read a later clock value the entry is
in the registry and reads unhealed, and each tick that visits it leaves a repair that is not counted as
started, or sees one counted. A repair may have begun without being counted yet: a tick that finds only
such a repair submits none, although it cannot answer the cancellation. -/
namespace WindowsThreadpoolSys.Healing
open Library PoolEntry

variable {s : State} {failFast : Bool}

instance (entry : PoolEntry) : Decidable entry.Owed := by
  unfold PoolEntry.Owed
  infer_instance

/-- The registry is consistent with the registrations, an owed entry is in it and reads unhealed,
and a visit of an owed entry leaves a repair that is still to start, or one started meanwhile. -/
theorem owed_until_repaired {ticks : List Tick} (run : Run failFast ticks s) :
    (s.registry.map fun e => (s.entries e).key).Nodup ∧
    (∀ e, (s.entries e).objects = s.registrations.countP fun r => r.entry = some e) ∧
    (∀ e, (s.entries e).Owed → e ∈ s.registry ∧ (s.entries e).unhealed = true) ∧
    ∀ e rest since, Op.tick (e :: rest) .letGo since ∈ s.ops → since.Owed →
      (s.entries e).noted < (s.entries e).submitted ∨ since.noted < (s.entries e).noted := by
  have h:=run.ok
  refine ⟨h.keys,h.objects,fun e howed=>?_,fun e rest since hop howed=>?_⟩
  · have hunhealed:=(h.balanced e).unhealed_of_owed howed
    refine ⟨?_,hunhealed⟩
    by_contra hnot
    rw [healed_iff.mp (h.healed e hnot)] at hunhealed
    cases hunhealed
  · have hvisit : VisitOk since (s.entries e) .letGo:=h.ops _ hop
    exact (hvisit.2 howed).symm

/-- The object of pool 7, the first one made. -/
def firstObject : Registration := ⟨0, 7, some 0⟩

def goOn (steps : ℕ) : List Move := List.replicate steps (.next 0 true)

/-- An object is made and a cancellation marked, and a tick submits a repair. -/
def firstRepair : List Move :=
  [.enter (.register 7 true), .enter (.owe firstObject)] ++ goOn 3 ++ [.enter .tick] ++ goOn 12

/-- The repair's callback has stamped its start and is not counted; then a second cancellation is marked
and a tick visits the entry. -/
def lateCancellation : List Move :=
  firstRepair ++ [.enter (.dispatch 0)] ++ goOn 2 ++ [.enter (.clock 5), .enter (.owe firstObject)] ++
    goOn 3 ++ [.enter .tick] ++ goOn 6

def visitDone (s : State) (p : PoolEntry → Bool) : Bool :=
  s.ops.any fun
    | .tick (0 :: _) .letGo since => p since
    | _ => false

theorem visit_of_visitDone {p : PoolEntry → Bool} (h : visitDone s p=true) :
    ∃ rest since,Op.tick (0::rest) .letGo since ∈ s.ops ∧ p since=true := by
  obtain ⟨op,hop,hp⟩:=List.any_eq_true.mp h
  split at hp
  · exact ⟨_,_,hop,hp⟩
  · cases hp

theorem owed_until_repaired_late :
    ∃ ticks s, Run false ticks s ∧ (s.entries 0).Owed ∧ 0 ∈ s.registry ∧
      (s.entries 0).unhealed = true ∧ (s.entries 0).noted < (s.entries 0).submitted := by
  obtain ⟨ticks,s,run,hcheck⟩:=(Execution.start rfl : Run false [] .new).play (State.read false)
    named_allows lateCancellation
    (fun _ s=>decide (s.entries 0).Owed && visitDone s fun since=>decide since.Owed &&
      decide (since.noted=(s.entries 0).noted)) (by decide +kernel)
  rw [Bool.and_eq_true,decide_eq_true_eq] at hcheck
  obtain ⟨howed,hdone⟩:=hcheck
  obtain ⟨rest,since,hop,hp⟩:=visit_of_visitDone hdone
  rw [Bool.and_eq_true,decide_eq_true_eq,decide_eq_true_eq] at hp
  obtain ⟨-, -,hkept,hvisits⟩:=owed_until_repaired run
  obtain ⟨hregistry,hunhealed⟩:=hkept 0 howed
  refine ⟨ticks,s,run,howed,hregistry,hunhealed,?_⟩
  obtain hlt | hnoted:=hvisits 0 rest since hop hp.1
  · exact hlt
  · exact absurd hp.2 hnoted.ne

/-- A tick may visit an owed entry and leave it with no repair that is still to start, none having started
since the tick began: the one that was submitted had started before the cancellation and was only not
counted yet. -/
theorem visit_leaves_nothing :
    ∃ ticks s rest since, Run false ticks s ∧ Op.tick (0 :: rest) .letGo since ∈ s.ops ∧ since.Owed ∧
      (s.entries 0).Owed ∧ (s.entries 0).queued = 0 ∧ (s.entries 0).begun = (s.entries 0).submitted ∧
      (ticks.find? fun tick => tick.event = .tick).map (fun tick => (tick.before.entries 0).begun) =
        some (s.entries 0).begun := by
  obtain ⟨ticks,s,run,hcheck⟩:=(Execution.start rfl : Run false [] .new).play (State.read false)
    named_allows lateCancellation
    (fun ticks s=>decide ((s.entries 0).Owed ∧ (s.entries 0).queued=0 ∧
      (s.entries 0).begun=(s.entries 0).submitted ∧
      (ticks.find? fun tick=>tick.event=.tick).map (fun tick=>(tick.before.entries 0).begun) =
        some (s.entries 0).begun) && visitDone s fun since=>decide since.Owed) (by decide +kernel)
  rw [Bool.and_eq_true,decide_eq_true_eq] at hcheck
  obtain ⟨⟨howed,hqueued,hbegun,hbefore⟩,hdone⟩:=hcheck
  obtain ⟨rest,since,hop,hp⟩:=visit_of_visitDone hdone
  exact ⟨ticks,s,rest,since,run,hop,of_decide_eq_true hp,howed,hqueued,hbegun,hbefore⟩

end WindowsThreadpoolSys.Healing
