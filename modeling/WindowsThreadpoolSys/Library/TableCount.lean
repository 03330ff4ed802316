import WindowsThreadpoolSys.Library.Table

/-! `insert_perm` and `perm_of_get` say how one entry joins or leaves the entries of a table. Every
count is read off them, and a size is the cardinality of the finite set of keys (`size_eq_card`), so
that tables are compared by injections between their keys. -/
namespace Library
open List

namespace Table

variable {κ α β : Type*} [LinearOrder κ]

/-! ## One entry joins, one leaves -/

theorem place_perm (k : κ) (v : α) {l : List (κ × α)} (h : ∀ e ∈ l,e.1 ≠ k) :
    (place k v l).Perm ((k,v)::l) := by
  induction l with
  | nil=>exact List.Perm.refl _
  | cons a rest ih =>
    unfold place
    split_ifs with h1 h2
    · exact List.Perm.refl _
    · exact absurd h2.symm (h a mem_cons_self)
    · exact ((ih fun e he=>h e (mem_cons_of_mem _ he)).cons a).trans (List.Perm.swap _ _ _)

variable {t : Table κ α} {k : κ}

theorem insert_perm (v : α) (h : t.get k=none) :
    (t.insert k v).entries.Perm ((k,v)::t.entries) := by
  refine place_perm k v fun e he heq=>?_
  rw [← Prod.mk.eta (p:=e),mem_entries,heq,h] at he
  cases he

variable {v : α}

theorem insert_erase (h : t.get k=some v) : (t.erase k).insert k v=t := by
  refine ext_get fun k'=>?_
  rw [get_insert,get_erase]
  split_ifs with hk
  · rw [hk,h]
  · rfl

theorem insert_over (t : Table κ α) (k : κ) (v : α) : (t.erase k).insert k v=t.insert k v := by
  refine ext_get fun k'=>?_
  rw [get_insert,get_erase,get_insert]
  split_ifs <;> rfl

theorem erase_of_none (h : t.get k=none) : t.erase k=t := by
  refine ext_get fun k'=>?_
  rw [get_erase]
  split_ifs with hk
  · rw [hk,h]
  · rfl

theorem get_erase_self (t : Table κ α) (k : κ) : (t.erase k).get k=none := by
  rw [get_erase,if_pos rfl]

theorem perm_of_get (h : t.get k=some v) : t.entries.Perm ((k,v)::(t.erase k).entries) := by
  have:=insert_perm v (t.get_erase_self k)
  rwa [insert_erase h] at this

/-! ## Counts -/

theorem count_insert (v : α) (p : κ → α → Bool) (h : t.get k=none) :
    (t.insert k v).count p=t.count p+if p k v then 1 else 0 := by
  unfold count
  rw [(insert_perm v h).countP_eq,countP_cons]

theorem count_erase (p : κ → α → Bool) (h : t.get k=some v) :
    t.count p=(t.erase k).count p+if p k v then 1 else 0 := by
  unfold count
  rw [(perm_of_get h).countP_eq,countP_cons]

theorem count_replace {w : α} (v : α) (p : κ → α → Bool) (h : t.get k=some w) :
    (t.insert k v).count p+(if p k w then 1 else 0)=t.count p+if p k v then 1 else 0 := by
  rw [← insert_over,count_insert v p (t.get_erase_self k),count_erase p h]
  omega

theorem count_map (t : Table κ α) (f : κ → α → β) (p : κ → β → Bool) :
    (t.map f).count p=t.count fun k v => p k (f k v) := by
  unfold count map
  rw [countP_map]
  rfl

theorem count_congr {p q : κ → α → Bool}
    (h : ∀ k v,t.get k=some v → p k v=q k v) : t.count p=t.count q := by
  refine countP_congr fun e he=>?_
  rw [h e.1 e.2 (mem_entries.mp he)]

variable {p : κ → α → Bool}

theorem count_eq_of_agree {t u : Table κ α}
    (h : ∀ k v,p k v=true → (t.get k=some v ↔ u.get k=some v)) : t.count p=u.count p := by
  have hsame : t.filter p=u.filter p:=by
    refine ext_get fun k=>?_
    rw [get_filter,get_filter]
    refine Option.ext fun v=>?_
    simp only [Option.filter_eq_some_iff]
    exact ⟨fun hv=>⟨(h k v hv.2).mp hv.1,hv.2⟩,fun hv=>⟨(h k v hv.2).mpr hv.1,hv.2⟩⟩
  have hsize : ∀ t : Table κ α,t.count p=(t.filter p).size:=fun t=>by
    rw [count,size,filter,countP_eq_length_filter]
  rw [hsize,hsize,hsame]

theorem count_eq_zero : t.count p=0 ↔ ∀ k v,t.get k=some v → p k v=false := by
  unfold count
  rw [countP_eq_zero]
  refine ⟨fun h k v hv=>?_,fun h e he=>?_⟩
  · simpa using h (k,v) (mem_entries.mpr hv)
  · simp [h e.1 e.2 (mem_entries.mp he)]

theorem count_pos : 0 < t.count p ↔ ∃ k v,t.get k=some v ∧ p k v=true := by
  rw [Nat.pos_iff_ne_zero,ne_eq,count_eq_zero]
  push Not
  simp only [ne_eq,Bool.not_eq_false]

theorem eq_of_count_le_one {k k' : κ} {v' : α} (hone : t.count p≤1) (hk : t.get k=some v)
    (hv : p k v=true) (hk' : t.get k'=some v') (hv' : p k' v'=true) : k=k' := by
  by_contra hne
  have hcount:=count_erase p hk
  rw [if_pos hv] at hcount
  have hother : (t.erase k).get k'=some v':=by
    rw [get_erase,if_neg (Ne.symm hne)]
    exact hk'
  have hpos : 0<(t.erase k).count p:=count_pos.mpr ⟨k',v',hother,hv'⟩
  omega

/-! ## Sizes -/

theorem get_of_size_zero (h : t.size=0) (k : κ) : t.get k=none := by
  have hnil : t.entries=[]:=length_eq_zero_iff.mp h
  unfold get
  rw [hnil]
  rfl

theorem size_insert (v : α) (h : t.get k=none) : (t.insert k v).size=t.size+1 := by
  rw [size,(insert_perm v h).length_eq,length_cons,size]

theorem size_replace {w : α} (v : α) (h : t.get k=some w) : (t.insert k v).size=t.size := by
  rw [← insert_over,size_insert v (t.get_erase_self k),size,size,(perm_of_get h).length_eq,
    length_cons]

theorem size_filter_le (t : Table κ α) (p : κ → α → Bool) : (t.filter p).size ≤ t.size :=
  length_filter_le _ _

theorem insertWithin_eq_some {t t' : Table κ α} {limit : ℕ} : t.insertWithin limit k v=some t' ↔
      ((t.get k).isSome ∨ t.size < limit) ∧ t'=t.insert k v := by
  unfold insertWithin
  split_ifs with h
  · have hroom : (t.get k).isSome ∨ t.size < limit:=by simpa using h
    rw [Option.some.injEq,eq_comm]
    exact ⟨fun heq=>⟨hroom,heq⟩,And.right⟩
  · have hfull : ¬((t.get k).isSome ∨ t.size < limit):=by simpa using h
    exact ⟨fun heq=>(by cases heq),fun hnew=>absurd hnew.1 hfull⟩

end Table

end Library
