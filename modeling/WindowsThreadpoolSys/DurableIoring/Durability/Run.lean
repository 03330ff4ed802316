import WindowsThreadpoolSys.DurableIoring.Durability.Operations
import WindowsThreadpoolSys.Library.Execution

/-! A run is any sequence of the core's operations its caller may make. `Promised` is what the caller
promises and the core does not check: an accepted write is fresh, above its lineage's seal point, in
no abandoned epoch and routed as its file is; a held operation's gate is waiting and closes no
cycle; the tokens of a resolution are live; and a domain list something still names reads as it did.

What the core checks itself (a write completing twice, an answer no seal asked for) needs no promise:
it finds an inconsistency and there is no next state. -/
namespace WindowsThreadpoolSys.DurableIoring
open Library

/-- One operation of the core. `relist` is the I/O core's: it gives targets and imports their domain
lists and takes them back. -/
inductive Call (E T : Type) where
  | admit_ (op : OpId)
  | popped (op : OpId)
  | pushed (a : Accepted E T)
  | hold (op : OpId) (write : Option (Accepted E T)) (gate : Gate E)
  | issued (op : OpId)
  | completed (op : OpId) (end_ : WriteEnd)
  | sealThrough (lineage : Key) (through : E)
  | flushed (lineage : Key) (through : E) (file : IoTargetKey) (result : Option IoFault)
  | provided (lineage : Key) (seq : ℕ) (domain : DomainId) (outcome : Option FailureCause)
  | import_ (cause : FailureCause) (reach : Reach) (only : Option Key)
  | resolve (items : List (FailureToken × Resolution))
  | takeToken (id : FailureId)
  | dropToken (token : FailureToken)
  | forget (id : FailureId)
  | mint
  | end_ (lineage : Key)
  | endPopped (lineage : Key)
  | retire (lineage : Key)
  | relist (lists : DomainLists)

namespace Durability

variable {E T I : Type} [LinearOrder E]

def call (d : Durability E T I) : Call E T → Except Inconsistency (Change E T I)
  | .admit_ op => (d.admit_ op).map begin_
  | .popped op => (d.popped op).map begin_
  | .pushed a => (d.pushed a).map begin_
  | .hold op write gate => (d.hold op write gate).map begin_
  | .issued op => (d.issued op).map begin_
  | .completed op end_ => d.completed op end_
  | .sealThrough lineage through =>
    (d.sealThrough lineage through).map fun
      | .submitted c => c
      | .alreadySealed _ => begin_ d
      | .cycle => begin_ d
  | .flushed lineage through file result => d.flushed lineage through file result
  | .provided lineage seq domain outcome => d.provided lineage seq domain outcome
  | .import_ cause reach only => (d.import_ cause reach only).map Prod.snd
  | .resolve items => (d.resolve items).map fun r => r.toOption.getD (begin_ d)
  | .takeToken id => .ok (begin_ (((d.takeToken id).map Prod.snd).getD d))
  | .dropToken token => .ok (begin_ (d.dropToken token))
  | .forget id => (d.forget id).map begin_
  | .mint => d.mint.map fun r => begin_ r.2
  | .end_ lineage => d.end_ lineage
  | .endPopped lineage => (d.endPopped lineage).map begin_
  | .retire lineage => (d.retire lineage).map fun r => begin_ (r.toOption.getD d)
  | .relist lists => .ok (begin_ { d with lists := lists })

/-! ## What the caller promises -/

/-- Operation `op` is new: admitted and no more, pushed after every write so far, and not held. -/
structure Fresh (d : Durability E T I) (op : OpId) : Prop where
  admitted : d.window.holds op = { Holds.default with operation := true }
  pushed : d.nextPush ≤ op
  held : d.held.get op = none

/-- Write `a` may join its epoch, and is routed as its file is: every write of its lineage to the
file names the file's one domain list. -/
structure Joins (d : Durability E T I) (a : Accepted E T) : Prop where
  fresh : d.Fresh a.op
  unsealed : d.refuses a.lineage a.epoch = none
  open_ : d.isAbandoned a.lineage a.epoch = false
  routed : a.routing = routing (d.lists.get a.domains) d.served
  written : ∀ op w, d.writes.get op = some w → w.lineage = a.lineage → w.file = a.file →
    w.domains = a.domains
  held : ∀ op h w, d.held.get op = some h → h.write = some w → w.lineage = a.lineage →
    w.file = a.file → w.domains = a.domains

/-- Something reads `list`: an uncovered write of a live lineage or one a failure suspects, a held
write, a kept record, or a failure's reach. -/
inductive Named (d : Durability E T I) (list : DomainList) : Prop where
  | live (op : OpId) (w : Write E T) (hw : d.writes.get op = some w)
      (hlive : d.isLive w.lineage = true) (hlist : w.domains = list)
  | suspected (op : OpId) (w : Write E T) (hw : d.writes.get op = some w)
      (hsuspected : d.window.suspected op = true) (hlist : w.domains = list)
  | held (op : OpId) (h : HeldOp E T) (w : Accepted E T) (hh : d.held.get op = some h)
      (hw : h.write = some w) (hlist : w.domains = list)
  | kept (op : OpId) (g : Gone E) (hg : d.kept.get op = some g) (hlist : g.domains = list)
  | file (f : Failure I) (hf : f ∈ d.failures) (hreach : f.reach = .file list)
  | reach (f : Failure I) (hf : f ∈ d.failures) (hreach : f.reach = .named list)

def Promised (d : Durability E T I) : Call E T → Prop
  | .popped op => d.held.get op = none
  | .pushed a => d.Joins a
  | .hold op none gate => d.Fresh op ∧ d.gateState gate = .waiting
  | .hold op (some a) gate => a.op = op ∧ d.Joins a ∧ d.gateState gate = .waiting ∧
      d.writeCycle ⟨a.lineage, a.epoch⟩ gate = false
  | .resolve items =>
      (items.map fun item => item.1.id).Nodup ∧
        ∀ item ∈ items, item.1.id.instance_ = d.instance_ →
          d.tokens[item.1.slot]? = some { failure := item.1.id.seq, live := true }
  | .relist lists => ∀ list, d.Named list → lists.get list = d.lists.get list
  | .admit_ _ => True
  | .issued _ => True
  | .completed _ _ => True
  | .sealThrough _ _ => True
  | .flushed _ _ _ _ => True
  | .provided _ _ _ _ => True
  | .import_ _ _ _ => True
  | .takeToken _ => True
  | .dropToken _ => True
  | .forget _ => True
  | .mint => True
  | .end_ _ => True
  | .endPopped _ => True
  | .retire _ => True

end Durability

/-! ## Runs -/

section

variable {E T I : Type} [LinearOrder E]

/-- A call that was made, with the change it answered. -/
structure Made (E T I : Type) [LinearOrder E] where
  call : Call E T
  change : Change E T I

abbrev Tick (E T I : Type) [LinearOrder E] := Taken (Durability E T I) (Made E T I)

namespace Tick

def call (t : Tick E T I) : Call E T := t.event.call

def change (t : Tick E T I) : Change E T I := t.event.change

def events (t : Tick E T I) : List (Event E I) := t.event.change.due.events

end Tick

/-- The core as it is constructed. The provider's domains are sorted, and the lineages declared leave
room for the default one. -/
inductive Initial : Durability E T I → Prop where
  | new (instance_ : InstanceId) (clock : ℕ → I) (capacity : Capacity) (served : List DomainId)
      (observed : Bool) (hlineages : 0 < capacity.lineages) (hserved : served.Pairwise (· < ·)) :
      Initial (Durability.new instance_ clock capacity served observed)

/-- A call the caller may make, in which the core finds no inconsistency. -/
inductive Makes (d : Durability E T I) : Made E T I → Durability E T I → Prop where
  | make (call : Call E T) (change : Change E T I) (hpromised : d.Promised call)
      (hcall : d.call call = .ok change) : Makes d ⟨call, change⟩ change.core

abbrev Run : List (Tick E T I) → Durability E T I → Prop := Execution Makes Initial

end

end WindowsThreadpoolSys.DurableIoring
