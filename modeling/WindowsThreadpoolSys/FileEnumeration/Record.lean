import WindowsThreadpoolSys.FileEnumeration.Pattern
import WindowsThreadpoolSys.Topology.Records

/-! Source: `windows-file-enumeration-sys`, `record.rs`.

A batch is a buffer of `FILE_ID_EXTD_DIR_INFO` records, each with the offset of the next. `parseRecord`
checks a record before it reads its fields; a read outside the buffer, where the code panics, is `none`
here. Offsets are natural numbers: a sum that leaves `usize` is past the end of every buffer. -/
namespace WindowsThreadpoolSys.FileEnumeration
open WindowsThreadpoolSys.Topology (Bytes little slice)
open List Option

inductive MalformedRecord
  | alignment
  | truncatedFixedFields
  | oddNameLength
  | nameOutOfBounds
  | nextEntryOffset
  | negativeSize
deriving DecidableEq

structure ParsedRecord where
  name : Units
  attributes : UInt32
  logicalSize : UInt64
  allocationSize : UInt64
  extendedAttributeSize : UInt32
  creationTime : Int64
  lastAccessTime : Int64
  lastWriteTime : Int64
  changeTime : Int64
  reparseTag : UInt32
  fileId : Bytes

def bytesAt (bytes : Bytes) (start width : ℕ) : Option Bytes :=
  if start + width ≤ bytes.length then some (slice bytes start width) else none

def readU32 (bytes : Bytes) (start : ℕ) : Option UInt32 :=
  (bytesAt bytes start 4).map fun field => .ofNat (little field)

def readI64 (bytes : Bytes) (start : ℕ) : Option Int64 :=
  (bytesAt bytes start 8).map fun field => (UInt64.ofNat (little field)).toInt64

def decodeName : Bytes → Units
  | low :: high :: rest => .ofNat (little [low, high]) :: decodeName rest
  | _ => []

def readFields (bytes : Bytes) (start nameLength : ℕ) (logicalSize allocationSize : Int64) :
    Option ParsedRecord := do
  let creationTime ← readI64 bytes (start + 8)
  let lastAccessTime ← readI64 bytes (start + 16)
  let lastWriteTime ← readI64 bytes (start + 24)
  let changeTime ← readI64 bytes (start + 32)
  let attributes ← readU32 bytes (start + 56)
  let extendedAttributeSize ← readU32 bytes (start + 64)
  let reparseTag ← readU32 bytes (start + 68)
  let fileId ← bytesAt bytes (start + 72) 16
  let name ← bytesAt bytes (start + 88) nameLength
  some
    { name := decodeName name
      attributes, extendedAttributeSize, reparseTag, fileId
      logicalSize := logicalSize.toUInt64
      allocationSize := allocationSize.toUInt64
      creationTime, lastAccessTime, lastWriteTime, changeTime }

def parseRecord (bytes : Bytes) (start : ℕ) :
    Option (Except MalformedRecord (ParsedRecord × Option ℕ)) :=
  if start % 8 ≠ 0 then some (.error .alignment)
  else if bytes.length < start then none
  else if bytes.length - start < 88 then some (.error .truncatedFixedFields)
  else do
    let nextEntryOffset ← readU32 bytes start
    let nameLength ← readU32 bytes (start + 60)
    let nameEnd := start + 88 + nameLength.toNat
    let candidate := start + nextEntryOffset.toNat
    if nameLength.toNat % 2 ≠ 0 then some (.error .oddNameLength)
    else if bytes.length < nameEnd then some (.error .nameOutOfBounds)
    -- The link's alignment is checked only when it is followed.
    else if nextEntryOffset ≠ 0 ∧ ¬(nameEnd ≤ candidate ∧ candidate ≤ bytes.length) then
      some (.error .nextEntryOffset)
    else
      let endOfFile ← readI64 bytes (start + 40)
      let allocationSize ← readI64 bytes (start + 48)
      if endOfFile < 0 ∨ allocationSize < 0 then some (.error .negativeSize)
      else
        let record ← readFields bytes start nameLength.toNat endOfFile allocationSize
        some (.ok (record, if nextEntryOffset = 0 then none else some candidate))

/-! ## Safety -/

section

variable {bytes : Bytes} {start width : ℕ}

theorem bytesAt_of_le (h : start+width ≤ bytes.length) :
    bytesAt bytes start width=some (slice bytes start width) := if_pos h

theorem readU32_of_le (h : start+4 ≤ bytes.length) :
    readU32 bytes start=some (.ofNat (little (slice bytes start 4))) := by
  rw [readU32,bytesAt_of_le h,map_some]

theorem readI64_of_le (h : start+8 ≤ bytes.length) :
    readI64 bytes start=some (UInt64.ofNat (little (slice bytes start 8))).toInt64 := by
  rw [readI64,bytesAt_of_le h,map_some]

theorem length_decodeName (name : Bytes) : (decodeName name).length=name.length / 2 := by
  induction name using decodeName.induct with
  | case1 low high rest ih =>
    simp only [decodeName,length_cons,ih]
    omega
  | case2 name h =>
    cases name with
    | nil=>rfl
    | cons low rest =>
      cases rest with
      | nil=>simp [decodeName]
      | cons high rest=>exact absurd rfl (h low high rest)

theorem readFields_of_le {nameLength : ℕ} (logicalSize allocationSize : Int64)
    (h : start+88+nameLength ≤ bytes.length) :
    ∃ record,readFields bytes start nameLength logicalSize allocationSize=some record ∧
      record.name.length=nameLength / 2 := by
  simp only [readFields,readI64_of_le (show start+8+8 ≤ bytes.length by omega),
    readI64_of_le (show start+16+8 ≤ bytes.length by omega),
    readI64_of_le (show start+24+8 ≤ bytes.length by omega),
    readI64_of_le (show start+32+8 ≤ bytes.length by omega),
    readU32_of_le (show start+56+4 ≤ bytes.length by omega),
    readU32_of_le (show start+64+4 ≤ bytes.length by omega),
    readU32_of_le (show start+68+4 ≤ bytes.length by omega),
    bytesAt_of_le (show start+72+16 ≤ bytes.length by omega),bytesAt_of_le h,
    bind_eq_bind,bind_some]
  refine ⟨_,rfl,?_⟩
  rw [length_decodeName,slice,length_take,length_drop,Nat.min_eq_left (by omega)]

/-- Where a record starts at or before the end of the buffer, parsing it does not panic, and a record
accepted ends in the buffer, and before the start of the next. -/
theorem parseRecord_spec (hstart : start ≤ bytes.length) :
    ∃ result,parseRecord bytes start=some result ∧ ∀ record next,result=.ok (record,next) →
      start % 8=0 ∧ start+88+2*record.name.length ≤ bytes.length ∧
        ∀ n ∈ next,start+88+2*record.name.length ≤ n ∧ n ≤ bytes.length := by
  rw [parseRecord,if_neg (not_lt.mpr hstart)]
  split
  · exact ⟨_,rfl,by simp⟩
  split
  · exact ⟨_,rfl,by simp⟩
  · simp only [readU32_of_le (show start+4 ≤ bytes.length by omega),
      readU32_of_le (show start+60+4 ≤ bytes.length by omega),bind_eq_bind,
      bind_some]
    generalize UInt32.ofNat (little (slice bytes start 4))=offset
    generalize UInt32.ofNat (little (slice bytes (start+60) 4))=nameLength
    generalize hlink : (if offset=0 then none else some (start+offset.toNat))=link
    split_ifs with hodd hend hnext
    · exact ⟨_,rfl,by simp⟩
    · exact ⟨_,rfl,by simp⟩
    · exact ⟨_,rfl,by simp⟩
    · simp only [readI64_of_le (show start+40+8 ≤ bytes.length by omega),
        readI64_of_le (show start+48+8 ≤ bytes.length by omega),bind_some]
      split_ifs with hnegative
      · exact ⟨_,rfl,by simp⟩
      · obtain ⟨record,hread,hlength⟩:=readFields_of_le _ _ (not_lt.mp hend)
        rw [hread]
        refine ⟨_,rfl,?_⟩
        rintro record next ⟨⟩
        refine ⟨by omega,by omega,fun n hn=>?_⟩
        obtain rfl : link=some n:=hn
        split_ifs at hlink with hzero
        cases hlink
        rw [not_and,not_not] at hnext
        have:=hnext hzero
        omega

theorem parseRecord_ok {record : ParsedRecord} {next : Option ℕ}
    (h : parseRecord bytes start=some (.ok (record,next))) :
    start % 8=0 ∧ start+88+2*record.name.length ≤ bytes.length ∧
      ∀ n ∈ next,start+88+2*record.name.length ≤ n ∧ n ≤ bytes.length := by
  have hstart : start ≤ bytes.length:=by
    by_contra hpast
    unfold parseRecord at h
    by_cases halign : start % 8 ≠ 0
    · rw [if_pos halign] at h
      cases h
    · rw [if_neg halign,if_pos (not_le.mp hpast)] at h
      cases h
  obtain ⟨result,hresult,hspec⟩:=parseRecord_spec hstart
  rw [h,some.injEq] at hresult
  exact hspec record next hresult.symm

end

inductive WalkEnd
  | last
  | malformed (detail : MalformedRecord)
  | panicked
deriving DecidableEq

/-- The records met from `start` on, each with where it starts, and what ends them. -/
def walk (bytes : Bytes) (start : ℕ) : List (ℕ × ParsedRecord) × WalkEnd :=
  match _h : parseRecord bytes start with
  | none => ([], .panicked)
  | some (.error detail) => ([], .malformed detail)
  | some (.ok (record, none)) => ([(start, record)], .last)
  | some (.ok (record, some next)) =>
    ((start, record) :: (walk bytes next).1, (walk bytes next).2)
termination_by bytes.length + 1 - start
decreasing_by
  all_goals
    obtain ⟨-, -, hnext⟩ := parseRecord_ok _h
    have := hnext next rfl
    omega

/-- A walk does not panic, and the records it meets lie in the buffer, each after the one before. -/
theorem walk_safe (bytes : Bytes) (start : ℕ) (hstart : start ≤ bytes.length) :
    (walk bytes start).2 ≠ .panicked ∧
      (∀ p ∈ (walk bytes start).1,start ≤ p.1 ∧ p.1 % 8=0 ∧
        p.1+88+2*p.2.name.length ≤ bytes.length) ∧
      (walk bytes start).1.Pairwise fun p q => p.1+88+2*p.2.name.length ≤ q.1 := by
  fun_induction walk bytes start with
  | case1 start h =>
    obtain ⟨result,hresult, -⟩:=parseRecord_spec hstart
    rw [h] at hresult
    cases hresult
  | case2 start detail h=>simp
  | case3 start record h =>
    obtain ⟨halign,hend, -⟩:=parseRecord_ok h
    simp [halign,hend]
  | case4 start record next h ih =>
    obtain ⟨halign,hend,hnext⟩:=parseRecord_ok h
    obtain ⟨hafter,hle⟩:=hnext next rfl
    obtain ⟨hpanic,hall,hpairs⟩:=ih hle
    refine ⟨hpanic,fun p hp=>?_,pairwise_cons.mpr ⟨fun p hp=>?_,hpairs⟩⟩
    · rcases mem_cons.mp hp with rfl | hp
      · exact ⟨le_rfl,halign,hend⟩
      · obtain ⟨hfrom,hrest⟩:=hall p hp
        exact ⟨by omega,hrest⟩
    · exact hafter.trans (hall p hp).1

/-! ## What a batch holds -/

def le : ℕ → ℕ → Bytes
  | 0, _ => []
  | width + 1, n => .ofNat n :: le width (n / 256)

theorem length_le (width n : ℕ) : (le width n).length=width := by
  induction width generalizing n with
  | zero=>rfl
  | succ width ih=>rw [le,length_cons,ih]

theorem little_le {width n : ℕ} (h : n<256 ^ width) : little (le width n)=n := by
  induction width generalizing n with
  | zero =>
    rw [pow_zero] at h
    rw [le,little]
    omega
  | succ width ih =>
    rw [pow_succ] at h
    rw [le,little,ih (by omega),UInt8.toNat_ofNat']
    omega

/-- A record as it lies in a batch: `fileIndex` is not read, and `padding` fills up to the next. -/
structure Laid where
  record : ParsedRecord
  fileIndex : UInt32
  padding : Bytes

def Laid.extent (x : Laid) : ℕ := 88 + 2 * x.record.name.length + x.padding.length

def encodeName (name : Units) : Bytes := name.flatMap fun unit => le 2 unit.toNat

def Laid.fields (x : Laid) (link : ℕ) : List Bytes :=
  [le 4 link, le 4 x.fileIndex.toNat, le 8 x.record.creationTime.toUInt64.toNat,
    le 8 x.record.lastAccessTime.toUInt64.toNat, le 8 x.record.lastWriteTime.toUInt64.toNat,
    le 8 x.record.changeTime.toUInt64.toNat, le 8 x.record.logicalSize.toNat,
    le 8 x.record.allocationSize.toNat, le 4 x.record.attributes.toNat,
    le 4 (2 * x.record.name.length), le 4 x.record.extendedAttributeSize.toNat,
    le 4 x.record.reparseTag.toNat, x.record.fileId, encodeName x.record.name, x.padding]

def Laid.encode (x : Laid) (link : ℕ) : Bytes := (x.fields link).flatten

/-- A batch: each record links to the next and the last to none. -/
def layout : List Laid → Bytes
  | [] => []
  | [x] => x.encode 0
  | x :: y :: rest => x.encode x.extent ++ layout (y :: rest)

/-- The lengths a record of the structure has, and sizes that are not negative. -/
structure Laid.Fits (x : Laid) : Prop where
  fileId : x.record.fileId.length = 16
  name : 2 * x.record.name.length < 2 ^ 32
  sizes : x.record.logicalSize.toNat < 2 ^ 63 ∧ x.record.allocationSize.toNat < 2 ^ 63

theorem length_encodeName (name : Units) : (encodeName name).length=2*name.length := by
  induction name with
  | nil=>rfl
  | cons unit rest ih =>
    rw [encodeName,flatMap_cons,length_append,length_le,← encodeName,ih,length_cons]
    omega

theorem decodeName_encodeName (name : Units) : decodeName (encodeName name)=name := by
  induction name with
  | nil=>rfl
  | cons unit rest ih =>
    have hunit : little [UInt8.ofNat unit.toNat,UInt8.ofNat (unit.toNat / 256)]=unit.toNat :=
      little_le (show unit.toNat<256 ^ 2 from unit.toNat_lt)
    rw [encodeName,flatMap_cons,← encodeName]
    simp only [le,cons_append,nil_append,decodeName,hunit,ih,UInt16.ofNat_toNat]

/-- Each field with where it is, the first at `start`. -/
def placed : ℕ → List Bytes → List (ℕ × Bytes)
  | _, [] => []
  | start, field :: rest => (start, field) :: placed (start + field.length) rest

theorem slice_placed (fields : List Bytes) (front back : Bytes) :
    ∀ p ∈ placed front.length fields,
      slice (front++(fields.flatten++back)) p.1 p.2.length=p.2 := by
  induction fields generalizing front with
  | nil=>simp [placed]
  | cons field rest ih =>
    intro p hp
    rcases mem_cons.mp hp with rfl | hp
    · rw [flatten_cons,append_assoc,slice,drop_left,take_left]
    · rw [← length_append] at hp
      have:=ih (front++field) p hp
      rwa [append_assoc,← append_assoc field,← flatten_cons] at this

section

variable {bytes : Bytes} {start : ℕ}

theorem le_of_slice {width : ℕ} (h : (slice bytes start width).length=width) (hpos : 0 < width) :
    start+width ≤ bytes.length := by
  rw [slice,length_take,length_drop] at h
  omega

theorem readU32_field {n : ℕ} (hfield : slice bytes start 4=le 4 n) (hn : n<2 ^ 32) :
    readU32 bytes start=some (.ofNat n) := by
  rw [readU32_of_le (le_of_slice (by rw [hfield,length_le]) (by decide)),hfield,little_le hn]

theorem readI64_field {n : UInt64} (hfield : slice bytes start 8=le 8 n.toNat) :
    readI64 bytes start=some n.toInt64 := by
  rw [readI64_of_le (le_of_slice (by rw [hfield,length_le]) (by decide)),hfield,
    little_le (show n.toNat<256 ^ 8 from n.toNat_lt),UInt64.ofNat_toNat]

theorem walk_of_last {record : ParsedRecord}
    (h : parseRecord bytes start=some (.ok (record,none))) :
    walk bytes start=([(start,record)],.last) := by
  rw [walk]
  split <;> simp_all

theorem walk_of_next {record : ParsedRecord} {next : ℕ}
    (h : parseRecord bytes start=some (.ok (record,some next))) :
    walk bytes start=((start,record)::(walk bytes next).1,(walk bytes next).2) := by
  rw [walk]
  split <;> simp_all

end

theorem not_toInt64_neg {n : UInt64} (h : n.toNat<2 ^ 63) : ¬n.toInt64<0 := by
  rw [Int64.lt_iff_toInt_lt,not_lt]
  have hn : n.toInt64.toInt=n.toNat:=by
    apply BitVec.toInt_eq_toNat_of_lt
    change 2*n.toNat<2 ^ 64
    omega
  rw [hn]
  exact Int.natCast_nonneg _

theorem Laid.length_encode {x : Laid} (h : x.Fits) (link : ℕ) : (x.encode link).length=x.extent := by
  simp only [encode,fields,flatten_cons,flatten_nil,length_append,length_le,h.fileId,
    length_encodeName,length_nil,extent]
  omega

theorem parseRecord_encode {x : Laid} (h : x.Fits) (front back : Bytes) {link : ℕ}
    (halign : front.length % 8=0) (hlink : link=0 ∨ link=x.extent) (hmax : link<2 ^ 32) :
    parseRecord (front++(x.encode link++back)) front.length =
      some (.ok (x.record,if link=0 then none else some (front.length+link))) := by
  have hlength : (front++(x.encode link++back)).length =
      front.length+(88+2*x.record.name.length+x.padding.length)+back.length:=by
    rw [length_append,length_append,Laid.length_encode h,Laid.extent]
    omega
  have hfields:=slice_placed (x.fields link) front back
  rw [← Laid.encode] at hfields
  -- From here on only the slices matter, not what the bytes are made of.
  generalize front++(x.encode link++back)=bytes at *
  generalize front.length=start at *
  simp only [Laid.fields,placed,forall_mem_cons,length_le,h.fileId,length_encodeName,
    Nat.add_assoc,Nat.reduceAdd] at hfields
  obtain ⟨h0, -,h8,h16,h24,h32,h40,h48,h56,h60,h64,h68,h72,h88, -⟩:=hfields
  have hread : readFields bytes start (2*x.record.name.length) x.record.logicalSize.toInt64
      x.record.allocationSize.toInt64=some x.record:=by
    simp only [readFields,readI64_field h8,readI64_field h16,readI64_field h24,readI64_field h32,
      readU32_field h56 (UInt32.toNat_lt _),readU32_field h64 (UInt32.toNat_lt _),
      readU32_field h68 (UInt32.toNat_lt _),
      bytesAt_of_le (show start+72+16 ≤ bytes.length by omega),h72,h88,
      bytesAt_of_le (show start+88+2*x.record.name.length ≤ bytes.length by omega),
      decodeName_encodeName,Int64.toInt64_toUInt64,UInt64.toUInt64_toInt64,UInt32.ofNat_toNat,
      bind_eq_bind,bind_some]
  have hzero : UInt32.ofNat link=0 ↔ link=0:=by
    rw [← UInt32.toNat_inj,UInt32.toNat_ofNat_of_lt' hmax,UInt32.toNat_zero]
  rw [Laid.extent] at hlink
  simp only [parseRecord,readU32_field h0 hmax,readU32_field h60 h.name,readI64_field h40,
    readI64_field h48,hread,hzero,ne_eq,bind_eq_bind,bind_some,UInt32.toNat_ofNat_of_lt' hmax,UInt32.toNat_ofNat_of_lt' h.name]
  rw [if_neg (by omega),if_neg (by omega),if_neg (by omega),if_neg (by omega),if_neg (by omega),
    if_neg (by omega),if_neg (not_or.mpr ⟨not_toInt64_neg h.sizes.1,not_toInt64_neg h.sizes.2⟩)]

/-- A batch of records as they are laid out: each that has another after it fills up to an aligned
place that its link can name. -/
structure Batch where
  records : List Laid
  ne : records ≠ []
  fits : ∀ x ∈ records, x.Fits
  linked : ∀ x ∈ records.dropLast, x.extent % 8 = 0 ∧ x.extent < 2 ^ 32

/-- The files `ab` and `c`, the first padded up to the second. -/
instance : Inhabited Batch :=
  ⟨[⟨⟨[0x61, 0x62], 1, 2, 3, 4, 5, 8, 32, 0, 0, replicate 16 6⟩, 0, replicate 4 0⟩,
      ⟨⟨[0x63], 1, 2, 3, 4, 9, 16, 16, 0, 0, replicate 16 7⟩, 0, []⟩], by simp,
    forall_mem_cons.mpr ⟨⟨rfl, by decide, by decide⟩,
      forall_mem_singleton.mpr ⟨rfl, by decide, by decide⟩⟩, by decide⟩

theorem walk_layout (records : List Laid) (front : Bytes) (halign : front.length % 8=0)
    (hne : records ≠ []) (hfits : ∀ x ∈ records,x.Fits)
    (hlinked : ∀ x ∈ records.dropLast,x.extent % 8=0 ∧ x.extent<2 ^ 32) :
    (walk (front++layout records) front.length).1.map Prod.snd=records.map Laid.record ∧
      (walk (front++layout records) front.length).2=.last := by
  induction records using layout.induct generalizing front with
  | case1=>exact absurd rfl hne
  | case2 x =>
    have hparse:=parseRecord_encode (hfits x (by simp)) front [] halign (.inl rfl) (by decide)
    rw [append_nil,if_pos rfl] at hparse
    rw [layout,walk_of_last hparse]
    exact ⟨rfl,rfl⟩
  | case3 x y rest ih =>
    obtain ⟨hextent,hmax⟩:=hlinked x (by simp)
    have hx:=hfits x (by simp)
    have hparse:=parseRecord_encode hx front (layout (y::rest)) halign (.inr rfl) hmax
    rw [if_neg (by rw [Laid.extent]; omega)] at hparse
    have hfront : (front++x.encode x.extent).length=front.length+x.extent:=by
      rw [length_append,Laid.length_encode hx]
    -- The record just read joins what is before the rest.
    obtain ⟨hrecords,hend⟩:=ih (front++x.encode x.extent) (by omega) (by simp)
      (fun z hz=>hfits z (mem_cons_of_mem _ hz))
      (fun z hz=>hlinked z (by simp [hz]))
    rw [hfront,append_assoc] at hrecords hend
    rw [layout,walk_of_next hparse]
    exact ⟨by rw [map_cons,map_cons,hrecords],hend⟩

/-- A walk of any buffer ends without a read outside it, at records that lie in it one after another;
a walk of a batch meets the records of the batch. -/
theorem walk_safe_lossless (bytes : Bytes) (batch : Batch) :
    ((walk bytes 0).2 ≠ .panicked ∧
      (∀ p ∈ (walk bytes 0).1,p.1 % 8=0 ∧ p.1+88+2*p.2.name.length ≤ bytes.length) ∧
      (walk bytes 0).1.Pairwise fun p q => p.1+88+2*p.2.name.length ≤ q.1) ∧
    (walk (layout batch.records) 0).1.map Prod.snd=batch.records.map Laid.record ∧
      (walk (layout batch.records) 0).2=.last := by
  obtain ⟨hpanic,hall,hpairs⟩:=walk_safe bytes 0 (Nat.zero_le _)
  exact ⟨⟨hpanic,fun p hp=>(hall p hp).2,hpairs⟩,
    walk_layout batch.records [] rfl batch.ne batch.fits batch.linked⟩

end WindowsThreadpoolSys.FileEnumeration
