import WindowsThreadpoolSys.Topology.ProcessorSet
import WindowsThreadpoolSys.Library.Fallible

/-! Windows answers each enumeration with a buffer of records that carry their own sizes. `RecordWalk`
steps over them and stops at the first record that cannot be one, naming what was wrong; the bodies are
then read field by field, each read bounded by its record. The layouts are those of the Windows
structures for a target with `w`-bit words, so a word is `w / 8` bytes long. -/
namespace WindowsThreadpoolSys.Topology
open Library

inductive Source
  | relationshipWalk
  | cpuSets
  | description
deriving DecidableEq

inductive AnomalyKind
  | undersized (declared minimum : ℕ)
  | overrunsBuffer (declared remaining : ℕ)
  | trailingBytes (remaining : ℕ)
  | truncatedArray (declared decoded : ℕ)
deriving DecidableEq

structure EnumerationAnomaly where
  source : Source
  offset : ℕ
  kind : AnomalyKind
deriving DecidableEq

abbrev Bytes := List UInt8

/-! ## Arithmetic of a `w`-bit `usize` -/

def checkedAdd (w a b : ℕ) : Option ℕ := if a + b < 2 ^ w then some (a + b) else none

def checkedMul (w a b : ℕ) : Option ℕ := if a * b < 2 ^ w then some (a * b) else none

def saturatingAdd (w a b : ℕ) : ℕ := min (a + b) (2 ^ w - 1)

def plainAdd (w a b : ℕ) : Except Panic ℕ :=
  if a + b < 2 ^ w then .ok (a + b) else .error .arithmetic

def plainSub (a b : ℕ) : Except Panic ℕ := if b ≤ a then .ok (a - b) else .error .arithmetic

def little : Bytes → ℕ
  | [] => 0
  | byte :: rest => byte.toNat + 256 * little rest

def slice (bytes : Bytes) (offset width : ℕ) : Bytes := (bytes.drop offset).take width

/-! ## Records -/

structure RawRecord where
  bytes : Bytes
  offset : ℕ

namespace RawRecord

def size (record : RawRecord) : ℕ := record.bytes.length

def read (w : ℕ) (record : RawRecord) (offset width : ℕ) : Option ℕ := do
  let stop ← checkedAdd w offset width
  if record.size < stop then none else some (little (slice record.bytes offset width))

def readEntries {α : Type} (w : ℕ) (entry : ℕ → Option α) (stride offset : ℕ) :
    ℕ → ℕ → List α × Bool
  | 0, _ => ([], true)
  | count + 1, index =>
    match (checkedMul w index stride).bind (checkedAdd w · offset) with
    | none => ([], false)
    | some at_ =>
      match entry at_ with
      | none => ([], false)
      | some value =>
        let (rest, complete) := readEntries w entry stride offset count (index + 1)
        (value :: rest, complete)

/-- `Record::read_array`: the entries that fit, and whether all of them did. -/
def readArray {α : Type} (w : ℕ) (record : RawRecord) (entry : Bytes → α) (stride offset count : ℕ) :
    List α × Bool :=
  readEntries w
    (fun at_ => do
      let stop ← checkedAdd w at_ stride
      if record.size < stop then none else some (entry (slice record.bytes at_ stride)))
    stride offset count 0

end RawRecord

structure RecordWalk where
  base : Bytes
  offset : ℕ
  sizeOffset : ℕ
  minimum : ℕ
  source : Source
  anomaly : Option EnumerationAnomaly

namespace RecordWalk

def new (base : Bytes) (sizeOffset minimum : ℕ) (source : Source) : RecordWalk :=
  { base, offset := 0, sizeOffset, minimum, source, anomaly := none }

def length (walk : RecordWalk) : ℕ := walk.base.length

def stop (walk : RecordWalk) (kind : AnomalyKind) : RecordWalk :=
  { walk with anomaly := some ⟨walk.source, walk.offset, kind⟩ }

def overrun (walk : RecordWalk) (declared : ℕ) : Except Panic (Option RawRecord × RecordWalk) := do
  let remaining ← plainSub walk.length walk.offset
  return (none, walk.stop (.overrunsBuffer declared remaining))

def next (w : ℕ) (walk : RecordWalk) : Except Panic (Option RawRecord × RecordWalk) :=
  if walk.anomaly.isSome then .ok (none, walk)
  else
    let header := saturatingAdd w walk.sizeOffset 4
    match checkedAdd w walk.offset header with
    | none => walk.overrun header
    | some headerEnd =>
      if walk.length < headerEnd then
        if walk.offset < walk.length then do
          let remaining ← plainSub walk.length walk.offset
          return (none, walk.stop (.trailingBytes remaining))
        else .ok (none, walk)
      else do
        let at_ ← plainAdd w walk.offset walk.sizeOffset
        let size := little (slice walk.base at_ 4)
        if size < walk.minimum then return (none, walk.stop (.undersized size walk.minimum))
        else
          match checkedAdd w walk.offset size with
          | none => walk.overrun size
          | some recordEnd =>
            if walk.length < recordEnd then walk.overrun size
            else
              return (some ⟨slice walk.base walk.offset size, walk.offset⟩,
                { walk with offset := recordEnd })

def collect (w : ℕ) : ℕ → RecordWalk → Except Panic (List RawRecord × RecordWalk)
  | 0, walk => .ok ([], walk)
  | fuel + 1, walk => do
    let (record, walk) ← walk.next w
    match record with
    | none => return ([], walk)
    | some record =>
      let (rest, walk) ← collect w fuel walk
      return (record :: rest, walk)

/-- A whole loop: one step more than the buffer has bytes is enough, see `collect_ends`. -/
def all (w : ℕ) (walk : RecordWalk) : Except Panic (List RawRecord × RecordWalk) :=
  walk.collect w (walk.length + 1)

/-! ### A walk never panics and always ends -/

structure Inside (w : ℕ) (walk : RecordWalk) : Prop where
  offset_le : walk.offset ≤ walk.length
  header_lt : walk.sizeOffset + 4 < 2 ^ w

/-- What one step of a walk may do: it stays inside the same buffer, a record moves it on by the
minimum size at least, and once it yields nothing it goes on yielding nothing. -/
structure Advanced (w : ℕ) (walk : RecordWalk) (record : Option RawRecord) (walk' : RecordWalk) :
    Prop where
  inside : Inside w walk'
  length_eq : walk'.length = walk.length
  minimum_eq : walk'.minimum = walk.minimum
  moved : record.isSome → walk.offset + walk.minimum ≤ walk'.offset
  ended : record = none → walk'.next w = .ok (none, walk')

variable {walk : RecordWalk}

theorem advanced_stop {w : ℕ} (h : Inside w walk) (kind : AnomalyKind) :
    Advanced w walk none (walk.stop kind) where
  inside := ⟨h.offset_le,h.header_lt⟩
  length_eq:=rfl
  minimum_eq:=rfl
  moved:=by simp
  ended:=by simp [next,stop]

theorem overrun_ok {w : ℕ} (h : Inside w walk) (declared : ℕ) :
    ∃ record walk',walk.overrun declared=.ok (record,walk') ∧ Advanced w walk record walk' := by
  have hsub : plainSub walk.length walk.offset=.ok (walk.length-walk.offset):=by
    simp [plainSub,h.offset_le]
  refine ⟨none,walk.stop (.overrunsBuffer declared (walk.length-walk.offset)),?_,advanced_stop h _⟩
  unfold overrun
  rw [hsub]
  rfl

theorem next_ok {w : ℕ} (h : Inside w walk) :
    ∃ record walk',walk.next w=.ok (record,walk') ∧ Advanced w walk record walk' := by
  by_cases hanomaly : walk.anomaly.isSome
  · have hnext : walk.next w=.ok (none,walk):=by simp [next,hanomaly]
    exact ⟨none,walk,hnext,h,rfl,rfl,by simp,fun _=>hnext⟩
  have hsub : plainSub walk.length walk.offset=.ok (walk.length-walk.offset):=by
    simp [plainSub,h.offset_le]
  have hheader : saturatingAdd w walk.sizeOffset 4=walk.sizeOffset+4:=by
    have:=h.header_lt
    unfold saturatingAdd
    omega
  unfold next
  simp only [hanomaly,Bool.false_eq_true,if_false,hheader]
  by_cases hfits : walk.offset+(walk.sizeOffset+4)<2 ^ w
  · have hadd : plainAdd w walk.offset walk.sizeOffset=.ok (walk.offset+walk.sizeOffset):=by
      unfold plainAdd
      rw [if_pos (by omega)]
    simp only [checkedAdd,hfits,if_true]
    by_cases hshort : walk.length < walk.offset+(walk.sizeOffset+4)
    · simp only [hshort,if_true]
      by_cases hleft : walk.offset < walk.length
      · simp only [hleft,if_true,hsub]
        exact ⟨none,_,rfl,advanced_stop h _⟩
      · simp only [hleft,if_false]
        refine ⟨none,walk,rfl,h,rfl,rfl,by simp,fun _=>?_⟩
        simp [next,hanomaly,hheader,checkedAdd,hfits,hshort,hleft]
    · simp only [hshort,if_false,hadd]
      simp only [bind,Except.bind,pure,Except.pure]
      generalize little (slice walk.base (walk.offset+walk.sizeOffset) 4)=size
      by_cases hsmall : size < walk.minimum
      · simp only [hsmall,if_true]
        exact ⟨none,_,rfl,advanced_stop h _⟩
      · simp only [hsmall,if_false]
        by_cases hsize : walk.offset+size<2 ^ w
        · simp only [hsize,if_true]
          by_cases hpast : walk.length < walk.offset+size
          · simp only [hpast,if_true]
            exact overrun_ok h size
          · simp only [hpast,if_false]
            refine ⟨_,_,rfl,⟨not_lt.mp hpast,h.header_lt⟩,rfl,rfl,fun _=>?_,by simp⟩
            exact Nat.add_le_add_left (not_lt.mp hsmall) _
        · simp only [hsize,if_false]
          exact overrun_ok h size
  · simp only [checkedAdd,hfits,if_false]
    exact overrun_ok h _

theorem collect_ends {w : ℕ} (h : Inside w walk) (hmin : 0 < walk.minimum)
    {fuel : ℕ} (hfuel : walk.length < walk.offset+fuel) :
    ∃ records walk',walk.collect w fuel=.ok (records,walk') ∧
      walk'.next w=.ok (none,walk') := by
  induction fuel generalizing walk with
  | zero =>
    have:=h.offset_le
    omega
  | succ fuel ih =>
    obtain ⟨record,walk',hnext,hadv⟩:=next_ok h
    simp only [collect,hnext,bind,Except.bind,pure,Except.pure]
    cases record with
    | none=>exact ⟨[],walk',rfl,hadv.ended rfl⟩
    | some record =>
      have hmoved:=hadv.moved rfl
      have hlength:=hadv.length_eq
      have hmin' : 0 < walk'.minimum:=by
        rw [hadv.minimum_eq]
        exact hmin
      obtain ⟨rest,last,hrest,hended⟩:=ih hadv.inside hmin' (by omega)
      simp only [hrest]
      exact ⟨record::rest,last,rfl,hended⟩

theorem all_ok {w : ℕ} (base : Bytes) (sizeOffset minimum : ℕ) (source : Source)
    (hheader : sizeOffset+4<2 ^ w) (hmin : 0 < minimum) :
    ∃ records walk',(new base sizeOffset minimum source).all w=.ok (records,walk') := by
  have hinside : Inside w (new base sizeOffset minimum source):=⟨Nat.zero_le _,hheader⟩
  have hfuel : base.length<0+(base.length+1):=by omega
  obtain ⟨records,walk',hall,_⟩:=collect_ends hinside hmin hfuel
  exact ⟨records,walk',hall⟩

variable {walk' : RecordWalk} {w : ℕ}

theorem next_some {record : RawRecord} (h : walk.next w=.ok (some record,walk')) :
    ∃ size,walk.minimum ≤ size ∧ walk.offset+size ≤ walk.length ∧
      record=⟨slice walk.base walk.offset size,walk.offset⟩ ∧
      walk'={ walk with offset := walk.offset+size } := by
  simp only [next,overrun,plainAdd,plainSub,checkedAdd,bind,Except.bind,pure,Except.pure] at h
  repeat' split at h
  all_goals cases h
  next at_ hat hsize _ stop hstop hle =>
    split_ifs at hstop
    cases hstop
    exact ⟨_,not_lt.mp hsize,not_lt.mp hle,rfl,rfl⟩

/-- A whole record is at `offset`: a header, and in the buffer the bytes it gives, the minimum at least. -/
def HasRecord (walk : RecordWalk) (offset : ℕ) : Prop :=
  offset + walk.sizeOffset + 4 ≤ walk.length ∧
    walk.minimum ≤ little (slice walk.base (offset + walk.sizeOffset) 4) ∧
    offset + little (slice walk.base (offset + walk.sizeOffset) 4) ≤ walk.length

theorem next_none (hanomaly : walk.anomaly=none) (hin : walk.offset ≤ walk.length)
    (hfit : walk.length+walk.sizeOffset+4<2 ^ w) (h : walk.next w=.ok (none,walk')) :
    walk'.offset=walk.offset ∧ (walk'.anomaly=none ↔ walk.offset=walk.length) ∧
      ¬ walk.HasRecord walk.offset := by
  have hheader : saturatingAdd w walk.sizeOffset 4=walk.sizeOffset+4:=by
    unfold saturatingAdd
    omega
  have hstart : walk.offset+(walk.sizeOffset+4)<2 ^ w:=by omega
  have hat : walk.offset+walk.sizeOffset<2 ^ w:=by omega
  by_cases hend : walk.offset+little (slice walk.base (walk.offset+walk.sizeOffset) 4)<2 ^ w
  all_goals
    simp only [next,hheader,hanomaly,hstart,hat,hend,hin,overrun,stop,plainAdd,plainSub,checkedAdd,
      bind,Except.bind,pure,Except.pure,if_true,Option.isSome_none,Bool.false_eq_true,if_false] at h
    split_ifs at h <;> cases h <;>
      simp only [HasRecord,hanomaly,true_and,reduceCtorEq,false_iff,true_iff] <;> omega

theorem collect_tiles {fuel : ℕ} {records : List RawRecord}
    (h : walk.collect w fuel=.ok (records,walk')) (hmin : 0 < walk.minimum)
    (hanomaly : walk.anomaly=none) (hin : walk.offset ≤ walk.length)
    (hfit : walk.length+walk.sizeOffset+4<2 ^ w) (hfuel : walk.length < walk.offset+fuel) :
    walk.base.take walk'.offset=walk.base.take walk.offset++records.flatMap (·.bytes) ∧
      (∀ r ∈ records,walk.minimum ≤ r.size ∧ r.bytes=slice walk.base r.offset r.size) ∧
      (walk'.anomaly=none ↔ walk'.offset=walk.length) ∧ ¬ walk.HasRecord walk'.offset := by
  induction fuel generalizing walk records with
  | zero=>omega
  | succ fuel ih =>
    obtain ⟨⟨record,next⟩,hnext,h⟩:=bind_eq_ok.mp h
    cases record with
    | none =>
      cases h
      obtain ⟨hoffset,hend⟩:=next_none hanomaly hin hfit hnext
      exact ⟨by simp [hoffset],by simp,hoffset.symm ▸ hend⟩
    | some record =>
      obtain ⟨⟨rest,last⟩,hrest,h⟩:=bind_eq_ok.mp h
      cases h
      obtain ⟨size,hsize,hle,rfl,rfl⟩:=next_some hnext
      obtain ⟨htake,hall,hend⟩:=ih hrest hmin hanomaly hle hfit
        (by simp only [length] at hfuel ⊢; omega)
      have hlen : (slice walk.base walk.offset size).length=size:=by
        simp [slice,length] at hle ⊢
        omega
      refine ⟨?_,?_,hend⟩
      · rw [htake,List.flatMap_cons,List.take_add,List.append_assoc]
        rfl
      · rintro r (_ | ⟨_,hr⟩)
        · exact ⟨hsize.trans_eq hlen.symm,by simp [RawRecord.size,hlen]⟩
        · exact hall r hr

/-- A walk of any buffer ends. Its records, none below the minimum, tile an initial segment of it, and
there is an anomaly exactly if that is not the whole buffer. What comes next is no record. -/
theorem walk_tiles (base : Bytes) (sizeOffset minimum : ℕ) (source : Source) (hmin : 0 < minimum)
    (hfit : base.length + sizeOffset + 4 < 2 ^ w) :
    ∃ records last, (new base sizeOffset minimum source).all w = .ok (records, last) ∧
      records.flatMap (·.bytes) = base.take last.offset ∧
      (∀ r ∈ records, minimum ≤ r.size ∧ r.bytes = slice base r.offset r.size) ∧
      (last.anomaly = none ↔ last.offset = base.length) ∧
      ¬ (new base sizeOffset minimum source).HasRecord last.offset := by
  have hheader : sizeOffset+4<2 ^ w:=by omega
  obtain ⟨records,last,hall⟩:=all_ok base sizeOffset minimum source hheader hmin
  obtain ⟨htake,hrecords,hend⟩:=collect_tiles hall hmin rfl (Nat.zero_le _) hfit (by simp [new,length])
  exact ⟨records,last,hall,by simpa [new] using htake.symm,hrecords,hend⟩

theorem walk_tiles_trailing : ∃ records last,
    (new [4, 0, 0, 0, 9] 0 4 .cpuSets).all 32 = .ok (records, last) ∧
      records.flatMap (·.bytes) = [4, 0, 0, 0, 9].take last.offset ∧
      ¬ (new [4, 0, 0, 0, 9] 0 4 .cpuSets).HasRecord last.offset := by
  obtain ⟨records,last,hall,htiles, -, -,hnone⟩:=
    walk_tiles (w:=32) [4,0,0,0,9] 0 4 .cpuSets (by decide) (by decide)
  exact ⟨records,last,hall,htiles,hnone⟩

end RecordWalk

/-! ## The relationship walk -/

structure GroupAffinity (w : ℕ) where
  group : ℕ
  mask : BitVec w

structure ProcessorBody (w : ℕ) where
  flags : ℕ
  efficiencyClass : ℕ
  groupMasks : List (GroupAffinity w)

structure CacheBody (w : ℕ) where
  level : ℕ
  associativity : ℕ
  lineSize : ℕ
  cacheSize : ℕ
  cacheType : ℤ
  groupMasks : List (GroupAffinity w)

structure NumaNodeBody (w : ℕ) where
  nodeNumber : ℕ
  groupMasks : List (GroupAffinity w)

structure GroupInfo (w : ℕ) where
  maximumProcessorCount : ℕ
  activeProcessorCount : ℕ
  activeProcessorMask : BitVec w

inductive WalkRecord (w : ℕ)
  | processorCore (body : ProcessorBody w)
  | processorPackage (body : ProcessorBody w)
  | processorDie (body : ProcessorBody w)
  | processorModule (body : ProcessorBody w)
  | cache (body : CacheBody w)
  | numaNode (body : NumaNodeBody w)
  | group (groupInfo : List (GroupInfo w))
  | unknown (relationship : ℤ)

def signed32 (n : ℕ) : ℤ := if n < 2 ^ 31 then n else (n : ℤ) - 2 ^ 32

section Layout

variable (w : ℕ)

/-- `GROUP_AFFINITY`: a mask of one word, the group in two bytes, six reserved bytes. -/
def groupAffinityEntry (entry : Bytes) : GroupAffinity w where
  group := little (slice entry (w / 8) 2)
  mask := BitVec.ofNat w (little (slice entry 0 (w / 8)))

/-- `PROCESSOR_GROUP_INFO`: two counts of one byte, 38 reserved bytes, a mask of one word. -/
def groupInfoEntry (entry : Bytes) : GroupInfo w where
  maximumProcessorCount := little (slice entry 0 1)
  activeProcessorCount := little (slice entry 1 1)
  activeProcessorMask := BitVec.ofNat w (little (slice entry 40 (w / 8)))

def readGroupAffinities (record : RawRecord) (offset count : ℕ) : List (GroupAffinity w) × Bool :=
  record.readArray w (groupAffinityEntry w) (w / 8 + 8) offset count

/-- `read_legacy_group_affinities`: a count of zero is the single mask of the older layout. -/
def readLegacyGroupAffinities (record : RawRecord) (offset count : ℕ) :
    List (GroupAffinity w) × Bool :=
  readGroupAffinities w record offset (max count 1)

def bodyTooShort (record : RawRecord) (minimum : ℕ) : EnumerationAnomaly :=
  ⟨.relationshipWalk, record.offset, .undersized record.size minimum⟩

def truncation (record : RawRecord) (complete : Bool) (declared decoded : ℕ) :
    Option EnumerationAnomaly :=
  if complete then none
  else some ⟨.relationshipWalk, record.offset, .truncatedArray declared decoded⟩

def readProcessorBody (record : RawRecord) : Option (ProcessorBody w) × Option EnumerationAnomaly :=
  let fields := do
    let flags ← record.read w 8 1
    let efficiencyClass ← record.read w 9 1
    let groupCount ← record.read w 30 2
    return (flags, efficiencyClass, groupCount)
  match fields with
  | none => (none, some (bodyTooShort record 32))
  | some (flags, efficiencyClass, groupCount) =>
    let (groupMasks, complete) := readGroupAffinities w record 32 groupCount
    (some { flags, efficiencyClass, groupMasks },
      truncation record complete groupCount groupMasks.length)

def readCacheBody (record : RawRecord) : Option (CacheBody w) × Option EnumerationAnomaly :=
  let fields := do
    let level ← record.read w 8 1
    let associativity ← record.read w 9 1
    let lineSize ← record.read w 10 2
    let cacheSize ← record.read w 12 4
    let cacheType ← record.read w 16 4
    let groupCount ← record.read w 38 2
    return (level, associativity, lineSize, cacheSize, cacheType, groupCount)
  match fields with
  | none => (none, some (bodyTooShort record 40))
  | some (level, associativity, lineSize, cacheSize, cacheType, groupCount) =>
    let (groupMasks, complete) := readLegacyGroupAffinities w record 40 groupCount
    (some { level, associativity, lineSize, cacheSize, cacheType := signed32 cacheType, groupMasks },
      truncation record complete (max groupCount 1) groupMasks.length)

def readNumaBody (record : RawRecord) : Option (NumaNodeBody w) × Option EnumerationAnomaly :=
  let fields := do
    let nodeNumber ← record.read w 8 4
    let groupCount ← record.read w 30 2
    return (nodeNumber, groupCount)
  match fields with
  | none => (none, some (bodyTooShort record 32))
  | some (nodeNumber, groupCount) =>
    let (groupMasks, complete) := readLegacyGroupAffinities w record 32 groupCount
    (some { nodeNumber, groupMasks }, truncation record complete (max groupCount 1) groupMasks.length)

def readGroupBody (record : RawRecord) : Option (List (GroupInfo w)) × Option EnumerationAnomaly :=
  match record.read w 10 2 with
  | none => (none, some (bodyTooShort record 32))
  | some activeGroupCount =>
    let (groupInfo, complete) :=
      record.readArray w (groupInfoEntry w) (40 + w / 8) 32 activeGroupCount
    (some groupInfo, truncation record complete activeGroupCount groupInfo.length)

def decodeBody (relationship : ℤ) (record : RawRecord) :
    Option (WalkRecord w) × Option EnumerationAnomaly :=
  match relationship with
  | 0 => (readProcessorBody w record).map (·.map .processorCore) id
  | 3 => (readProcessorBody w record).map (·.map .processorPackage) id
  | 5 => (readProcessorBody w record).map (·.map .processorDie) id
  | 7 => (readProcessorBody w record).map (·.map .processorModule) id
  | 2 => (readCacheBody w record).map (·.map .cache) id
  | 1 => (readNumaBody w record).map (·.map .numaNode) id
  | 6 => (readNumaBody w record).map (·.map .numaNode) id
  | 4 => (readGroupBody w record).map (·.map .group) id
  | other => (some (.unknown other), none)

def decodeRecord (raw : RawRecord) : Option (WalkRecord w) × Option EnumerationAnomaly :=
  match raw.read w 0 4 with
  | none => (none, none)
  | some relationship => decodeBody w (signed32 relationship) raw

/-- `decode` of the relationship walk: the size field stands at offset 4, and a record is at least its
header of eight bytes. -/
def decodeWalk (buffer : Bytes) : Except Panic (List (WalkRecord w) × List EnumerationAnomaly) := do
  let (raws, walk) ← (RecordWalk.new buffer 4 8 .relationshipWalk).all w
  let decoded := raws.map (decodeRecord w)
  return (decoded.filterMap (·.1), decoded.filterMap (·.2) ++ walk.anomaly.toList)

end Layout

/-! ## CPU sets -/

structure CpuSet where
  id : ℕ
  group : ℕ
  logicalProcessorIndex : ℕ
  coreIndex : ℕ
  lastLevelCacheIndex : ℕ
  numaNodeIndex : ℕ
  efficiencyClass : ℕ
  parked : Bool
  allocated : Bool
  allocatedToTargetProcess : Bool
  realTime : Bool
  schedulingClass : ℕ
  allocationTag : ℕ
deriving DecidableEq

def decodeCpuSet (w : ℕ) (record : RawRecord) : Option CpuSet := do
  let kind ← record.read w 4 4
  guard (kind = 0)
  let allFlags ← record.read w 19 1
  let id ← record.read w 8 4
  let group ← record.read w 12 2
  let logicalProcessorIndex ← record.read w 14 1
  let coreIndex ← record.read w 15 1
  let lastLevelCacheIndex ← record.read w 16 1
  let numaNodeIndex ← record.read w 17 1
  let efficiencyClass ← record.read w 18 1
  let schedulingClass ← record.read w 20 1
  let allocationTag ← record.read w 24 8
  return {
    id, group, logicalProcessorIndex, coreIndex, lastLevelCacheIndex, numaNodeIndex, efficiencyClass
    parked := allFlags.testBit 0
    allocated := allFlags.testBit 1
    allocatedToTargetProcess := allFlags.testBit 2
    realTime := allFlags.testBit 3
    schedulingClass, allocationTag }

/-- `decode` of the CPU sets: the size field comes first, and a record is a whole
`SYSTEM_CPU_SET_INFORMATION` of 32 bytes. -/
def decodeCpuSets (w : ℕ) (buffer : Bytes) :
    Except Panic (List CpuSet × Option EnumerationAnomaly) := do
  let (records, walk) ← (RecordWalk.new buffer 0 32 .cpuSets).all w
  return (records.filterMap (decodeCpuSet w), walk.anomaly)

theorem decode_ok {w : ℕ} (hw : 3 < w) (walk cpuSets : Bytes) :
    (∃ result,decodeWalk w walk=.ok result) ∧ ∃ result,decodeCpuSets w cpuSets=.ok result := by
  have hpow : 2 ^ 4≤2 ^ w:=Nat.pow_le_pow_right (by norm_num) hw
  obtain ⟨raws,last,hwalk⟩:=RecordWalk.all_ok (w:=w) walk 4 8 .relationshipWalk
    (by omega) (by norm_num)
  obtain ⟨records,last',hsets⟩:=RecordWalk.all_ok (w:=w) cpuSets 0 32 .cpuSets
    (by omega) (by norm_num)
  constructor
  · unfold decodeWalk
    rw [hwalk]
    exact ⟨_,rfl⟩
  · unfold decodeCpuSets
    rw [hsets]
    exact ⟨_,rfl⟩

end WindowsThreadpoolSys.Topology
