import Mathlib.Data.Prod.Lex
import WindowsThreadpoolSys.Library.TableSelect

/-! The identifiers, causes and capacities the durability core and the I/O core share, and the domain
lists targets and imports name. Epoch ids are a linear order the consumer chooses; an instant is
whatever the consumer's clock reads. -/
namespace WindowsThreadpoolSys.DurableIoring
open Library

/-! ## Identifiers -/

abbrev OpId := ℕ

abbrev Key := ℕ

abbrev IoTargetKey := ℕ

abbrev DomainId := ℕ

abbrev FlushDomain := List (Fin 256)

abbrev InstanceId := ℕ

def defaultLineage : Key := 0

structure Lineage where
  instance_ : InstanceId
  seq : Key
  deriving DecidableEq, Repr

structure FailureId where
  instance_ : InstanceId
  seq : ℕ
  deriving DecidableEq, Repr

structure FailureToken where
  id : FailureId
  slot : ℕ
  deriving DecidableEq, Repr

/-! ## Faults, causes and resolutions -/

inductive RefusalKind where
  | submitNeeded
  | drainNeeded
  | submitAndDrainNeeded
  | busy
  | unknownTarget
  | unsupported
  | invalid
  | accessDenied
  | unusable
  | unknown
  deriving DecidableEq, Repr

/-- A fault as its layer reported it. The report itself compares by identity. -/
structure IoFault where
  source : String
  code : Option ℤ
  refusal : Option RefusalKind
  error : ℕ
  deriving DecidableEq, Repr

inductive ImportScope where
  | all
  | lineage (lineage : Lineage)
  | domains (domains : List FlushDomain)
  deriving DecidableEq, Repr

inductive FailureCause where
  | commit (target : IoTargetKey) (fault : IoFault)
  | imported (scope : ImportScope)
  | provider (domain : FlushDomain) (error : ℕ)
  | providerAbandoned (domain : FlushDomain)
  deriving DecidableEq, Repr

inductive Resolution where
  | abandon
  | heal
  deriving DecidableEq, Repr

inductive MarkingKind where
  | nullified (fault : IoFault)
  | covered (flushed provider : Bool)
  deriving DecidableEq, Repr

inductive WriteEnd where
  | succeeded
  | failed (fault : IoFault)
  deriving DecidableEq, Repr

/-! ## Capacity -/

structure Capacity where
  operations : ℕ
  lineages : ℕ
  imports : ℕ
  targets : ℕ
  domains : ℕ
  deriving DecidableEq, Repr

namespace Capacity

def flushParts (c : Capacity) (served : ℕ) : ℕ := c.operations * (served + 1)

def providerParts (c : Capacity) (served : ℕ) : ℕ := c.operations * served

def failures (c : Capacity) (served : ℕ) : ℕ := c.flushParts served + c.imports

end Capacity

/-! ## Domain lists -/

structure DomainList where
  row : ℕ
  len : ℕ
  deriving DecidableEq, Repr

namespace DomainList

def empty : DomainList := ⟨0, 0⟩

def isEmpty (list : DomainList) : Bool := list.len = 0

end DomainList

/-- The rows the domain lists are held in, `width` cells each, and which of them are free. -/
structure DomainLists where
  rows : List (List DomainId)
  width : ℕ
  free : List ℕ
  deriving Repr

namespace DomainLists

def new (rows width : ℕ) : DomainLists :=
  { rows := List.replicate rows (List.replicate width 0), width := width, free := List.range rows }

def get (lists : DomainLists) (list : DomainList) : List DomainId :=
  if list.isEmpty then []
  else
    match lists.rows[list.row]? with
    | none => []
    | some cells => if list.len ≤ cells.length then cells.take list.len else []

def insertSorted (id : DomainId) : List DomainId → List DomainId
  | [] => [id]
  | x :: rest => if id < x then id :: x :: rest else if id = x then x :: rest
      else x :: insertSorted id rest

def release (lists : DomainLists) (list : DomainList) : DomainLists :=
  if list.isEmpty then lists else { lists with free := list.row :: lists.free }

end DomainLists

structure Routing where
  default : Bool
  provider : Bool
  deriving DecidableEq, Repr

def routing (file served : List DomainId) : Routing :=
  if file.isEmpty then { default := true, provider := false }
  else
    { default := file.any fun domain => !served.contains domain
      provider := file.any fun domain => served.contains domain }

/-- Which files' writes a failure reaches. Each but `all` also reaches every file declared with no
domain, which is unknown and shares fate with every file. -/
inductive Reach where
  | all
  | file (list : DomainList)
  | domain (domain : DomainId)
  | named (list : DomainList)
  deriving DecidableEq, Repr

namespace Reach

def ofFile (domains : DomainList) : Reach := if domains.isEmpty then .all else .file domains

def reaches (reach : Reach) (lists : DomainLists) (file : List DomainId) : Bool :=
  match reach with
  | .all => true
  | .domain d => file.isEmpty || file.contains d
  | .file list => file.isEmpty || file.any fun d => (lists.get list).contains d
  | .named list => file.isEmpty || file.any fun d => (lists.get list).contains d

end Reach

end WindowsThreadpoolSys.DurableIoring
