import WindowsThreadpoolSys.DurableIoring.Durability.Tables
import WindowsThreadpoolSys.Library.Fallible

/-! The per-epoch counts, the span entries and the seals of a lineage, each through one reading: how
many operations stand at an epoch, how many writes an entry has, which seals a lineage has in order.
A counting table is proper when it keeps no entry that counts nothing. -/
namespace WindowsThreadpoolSys.DurableIoring
open Library List Table Option

theorem EpochKey.lt_iff {E : Type} [LinearOrder E] {a b : EpochKey E} :
    a < b ↔ a.lineage < b.lineage ∨ a.lineage=b.lineage ∧ a.epoch < b.epoch :=
  Prod.Lex.toLex_lt_toLex

theorem SealKey.lt_iff {a b : SealKey} :
    a < b ↔ a.lineage < b.lineage ∨ a.lineage=b.lineage ∧ a.seq < b.seq :=
  Prod.Lex.toLex_lt_toLex

namespace Counts

variable {E : Type} [LinearOrder E]

def Proper (counts : Counts E) : Prop := ∀ k n, counts.get k = some n → 0 < n

theorem proper_empty : Proper (Table.empty : Counts E) := fun _ _ h=>by cases h

theorem countAt_insert (counts : Counts E) (l : Key) (e : E) (n : ℕ) (l' : Key) (e' : E) :
    countAt (counts.insert ⟨l,e⟩ n) l' e' = if l'=l ∧ e'=e then n else counts.countAt l' e' := by
  unfold countAt
  rw [get_insert]
  simp only [EpochKey.mk.injEq]
  split_ifs <;> rfl

theorem countAt_erase (counts : Counts E) (l : Key) (e : E) (l' : Key) (e' : E) :
    countAt (counts.erase ⟨l,e⟩) l' e'=if l'=l ∧ e'=e then 0 else counts.countAt l' e' := by
  unfold countAt
  rw [get_erase]
  simp only [EpochKey.mk.injEq]
  split_ifs <;> rfl

variable {counts : Counts E}

theorem countAt_pos (hproper : Proper counts) (l : Key) (e : E) :
    0 < counts.countAt l e ↔ (counts.get ⟨l,e⟩).isSome := by
  unfold countAt
  cases hget : counts.get ⟨l,e⟩ with
  | none=>simp
  | some n=>simpa using hproper _ n hget

variable {l : Key} {e : E}

theorem countUp_countAt {counts counts' : Counts E} {limit : ℕ}
    (h : counts.countUp limit l e=some counts') (l' : Key) (e' : E) :
    countAt counts' l' e'=counts.countAt l' e'+if l'=l ∧ e'=e then 1 else 0 := by
  obtain ⟨-,rfl⟩:=insertWithin_eq_some.mp h
  rw [countAt_insert]
  split_ifs with hsame
  · rw [hsame.1,hsame.2]
  · rfl

theorem countUp_proper {counts counts' : Counts E} {limit : ℕ} (hproper : Proper counts)
    (h : counts.countUp limit l e=some counts') : Proper counts' := by
  obtain ⟨-,rfl⟩:=insertWithin_eq_some.mp h
  intro k n hget
  rcases of_insert hget with ⟨-,rfl⟩ | hget
  · omega
  · exact hproper k n hget

theorem countDown_countAt (counts : Counts E) (l : Key) (e : E) (l' : Key) (e' : E) :
    countAt (counts.countDown l e) l' e' = counts.countAt l' e'-if l'=l ∧ e'=e then 1 else 0 := by
  unfold countDown
  cases hget : counts.get ⟨l,e⟩ with
  | none =>
    split_ifs with hsame
    · simp [countAt,hsame.1,hsame.2,hget]
    · rfl
  | some n =>
    have hat : counts.countAt l e=n:=by simp [countAt,hget]
    simp only
    split_ifs with hlast hsame hsame
    · rw [countAt_erase,if_pos hsame,hsame.1,hsame.2,hat,hlast]
    · rw [countAt_erase,if_neg hsame,Nat.sub_zero]
    · rw [countAt_insert,if_pos hsame,hsame.1,hsame.2,hat]
    · rw [countAt_insert,if_neg hsame,Nat.sub_zero]

theorem countDown_proper (hproper : Proper counts) (l : Key) (e : E) :
    Proper (counts.countDown l e) := by
  unfold countDown
  cases hget : counts.get ⟨l,e⟩ with
  | none=>exact hproper
  | some n =>
    simp only
    split_ifs with hlast
    · intro k m hm
      rw [get_erase] at hm
      split_ifs at hm
      exact hproper k m hm
    · intro k m hm
      rcases of_insert hm with ⟨-,rfl⟩ | hm
      · omega
      · exact hproper k m hm

theorem lowest_eq_some (hproper : Proper counts) (h : counts.lowest l=some e) :
    0 < counts.countAt l e ∧ ∀ e',0 < counts.countAt l e' → e ≤ e' := by
  unfold lowest at h
  obtain ⟨⟨k,n⟩,hhead,rfl⟩:=map_eq_some_iff.mp h
  have hmem:=mem_filter.mp (List.mem_of_head? hhead)
  have hl : k.lineage=l:=by simpa using hmem.2
  subst hl
  have hget : counts.get k=some n:=mem_entries.mp hmem.1
  refine ⟨(countAt_pos hproper _ _).mpr (by simp [hget]),fun e' he'=>?_⟩
  obtain ⟨m,hm⟩:=isSome_iff_exists.mp ((countAt_pos hproper _ _).mp he')
  have hin : ((⟨k.lineage,e'⟩ : EpochKey E),m) ∈
      counts.entries.filter fun x=>x.1.lineage=k.lineage :=
    mem_filter.mpr ⟨mem_entries.mpr hm,by simp⟩
  have hsorted:=counts.sorted.filter fun x=>decide (x.1.lineage=k.lineage)
  obtain ⟨rest,hrest⟩ : ∃ rest,counts.entries.filter (fun x=>x.1.lineage=k.lineage) =
      (k,n)::rest:=by
    cases hlist : counts.entries.filter fun x=>x.1.lineage=k.lineage with
    | nil=>simp [hlist] at hhead
    | cons a rest =>
      rw [hlist] at hhead
      cases hhead
      exact ⟨rest,rfl⟩
  rw [hrest] at hin hsorted
  rcases mem_cons.mp hin with heq | hin
  · exact (congrArg (fun x=>x.1.epoch) heq).ge
  · have hlt:=EpochKey.lt_iff.mp ((pairwise_cons.mp hsorted).1 _ hin)
    simp only [lt_irrefl,true_and,false_or] at hlt
    exact hlt.le

theorem lowest_eq_none (h : counts.lowest l=none) (e : E) : counts.countAt l e=0 := by
  unfold lowest at h
  rw [map_eq_none_iff,List.head?_eq_none_iff,filter_eq_nil_iff] at h
  unfold countAt
  cases hget : counts.get ⟨l,e⟩ with
  | none=>rfl
  | some n=>exact absurd (by simp) (h _ (mem_entries.mpr hget))

end Counts

namespace Spans

def writesAt (spans : Spans) (key : SpanKey) : ℕ := (spans.get key).elim 0 SpanFile.writes

def Proper (spans : Spans) : Prop := ∀ key entry, spans.get key = some entry → 0 < entry.writes

theorem proper_empty : Proper (Table.empty : Spans) := fun _ _ h=>by cases h

theorem writesAt_pos {spans : Spans} (hproper : Proper spans) (key : SpanKey) :
    0 < spans.writesAt key ↔ (spans.get key).isSome := by
  unfold writesAt
  cases hget : spans.get key with
  | none=>simp
  | some entry=>simpa using hproper _ entry hget

variable {spans spans' : Spans} {domains : DomainList} {limit : ℕ}

theorem enter_ok {key : SpanKey} (h : spans.enter limit key domains=.ok spans') :
    ((spans.get key).isSome ∨ spans.size < limit) ∧ spans'=spans.insert key
      { (spans.get key).getD (SpanFile.new domains) with
        writes := ((spans.get key).getD (SpanFile.new domains)).writes+1 } := by
  unfold enter at h
  simp only at h
  split at h
  · cases h
  · next hinsert =>
    obtain ⟨hroom,rfl⟩:=insertWithin_eq_some.mp hinsert
    exact ⟨hroom,(Except.ok.inj h).symm⟩

variable {lost : Inconsistency}

theorem leave_ok {key : SpanKey} (h : spans.leave key lost=.ok spans') :
    ∃ entry,spans.get key=some entry ∧ spans'=if entry.writes-1=0 then spans.erase key
      else spans.insert key { entry with writes := entry.writes-1 } := by
  unfold leave at h
  cases hget : spans.get key with
  | none =>
    rw [hget] at h
    cases h
  | some entry =>
    simp only [hget,Except.ok.injEq] at h
    exact ⟨entry,rfl,h.symm⟩

theorem enter_writesAt {key : SpanKey}
    (h : spans.enter limit key domains=.ok spans') (key' : SpanKey) :
    writesAt spans' key'=spans.writesAt key'+if key'=key then 1 else 0 := by
  obtain ⟨-,rfl⟩:=enter_ok h
  unfold writesAt
  rw [get_insert]
  split_ifs with hkey
  · subst hkey
    cases spans.get key' <;> rfl
  · rfl

theorem leave_writesAt {key : SpanKey}
    (hproper : Proper spans) (h : spans.leave key lost=.ok spans') (key' : SpanKey) :
    spans.writesAt key'=writesAt spans' key'+if key'=key then 1 else 0 := by
  obtain ⟨entry,hget,rfl⟩:=leave_ok h
  have hpos:=hproper key entry hget
  unfold writesAt
  split_ifs with hlast hkey hkey
  · subst hkey
    rw [hget,get_erase_self]
    simp only [Option.elim]
    omega
  · rw [get_erase,if_neg hkey,Nat.add_zero]
  · subst hkey
    rw [hget,get_insert_self]
    simp only [Option.elim]
    omega
  · rw [get_insert_of_ne _ _ hkey,Nat.add_zero]

theorem enter_proper {key : SpanKey}
    (hproper : Proper spans) (h : spans.enter limit key domains=.ok spans') : Proper spans' := by
  obtain ⟨-,rfl⟩:=enter_ok h
  intro key' entry hget
  rcases of_insert hget with ⟨-,rfl⟩ | hget
  · exact Nat.succ_pos _
  · exact hproper key' entry hget

theorem leave_proper {key : SpanKey}
    (hproper : Proper spans) (h : spans.leave key lost=.ok spans') : Proper spans' := by
  obtain ⟨entry,hget,rfl⟩:=leave_ok h
  intro key' entry' hget'
  split_ifs at hget' with hlast
  · rw [get_erase] at hget'
    split_ifs at hget'
    exact hproper key' entry' hget'
  · rcases of_insert hget' with ⟨-,rfl⟩ | hget'
    · exact Nat.pos_of_ne_zero hlast
    · exact hproper key' entry' hget'

variable {key key' : SpanKey}

theorem leave_get {entry' : SpanFile} (h : spans.leave key lost=.ok spans')
    (hget' : spans'.get key'=some entry') : ∃ entry,spans.get key'=some entry ∧
      entry'={ entry with writes := entry'.writes } := by
  obtain ⟨entry,hget,rfl⟩:=leave_ok h
  split_ifs at hget' with hlast
  · rw [get_erase] at hget'
    split_ifs at hget'
    exact ⟨entry',hget',rfl⟩
  · rcases of_insert hget' with ⟨hkey,rfl⟩ | hget'
    · exact ⟨entry,hkey ▸ hget,rfl⟩
    · exact ⟨entry',hget',rfl⟩

theorem leave_get_of_ne (h : spans.leave key lost=.ok spans') (hne : key' ≠ key) :
    spans'.get key'=spans.get key' := by
  obtain ⟨entry, -,rfl⟩:=leave_ok h
  split_ifs
  · rw [get_erase,if_neg hne]
  · exact get_insert_of_ne _ _ hne

theorem enter_get {entry' : SpanFile} (h : spans.enter limit key domains=.ok spans')
    (hget' : spans'.get key'=some entry') :
    (key'=key ∧ spans.get key=none ∧ entry'={ SpanFile.new domains with writes := 1 }) ∨
      ∃ entry,spans.get key'=some entry ∧ entry'={ entry with writes := entry'.writes } := by
  obtain ⟨-,rfl⟩:=enter_ok h
  rw [get_insert] at hget'
  split_ifs at hget' with hkey
  · subst hkey
    cases hget : spans.get key' with
    | none =>
      rw [hget] at hget'
      exact .inl ⟨rfl,rfl,(Option.some.inj hget').symm⟩
    | some entry =>
      rw [hget] at hget'
      cases hget'
      exact .inr ⟨entry,rfl,rfl⟩
  · exact .inr ⟨entry',hget',rfl⟩

theorem enter_of_get {entry : SpanFile} (h : spans.enter limit key domains=.ok spans')
    (hget : spans.get key'=some entry) :
    ∃ n,spans'.get key'=some { entry with writes := n } := by
  obtain ⟨-,rfl⟩:=enter_ok h
  rw [get_insert]
  split_ifs with hkey
  · subst hkey
    rw [hget]
    exact ⟨entry.writes+1,rfl⟩
  · exact ⟨entry.writes,hget⟩

theorem enter_get_of_ne (h : spans.enter limit key domains=.ok spans') (hne : key' ≠ key) :
    spans'.get key'=spans.get key' := by
  obtain ⟨-,rfl⟩:=enter_ok h
  exact get_insert_of_ne _ _ hne

end Spans

end WindowsThreadpoolSys.DurableIoring
