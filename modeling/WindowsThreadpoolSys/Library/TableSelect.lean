import WindowsThreadpoolSys.Library.TableCount

/-! `select p` lists the values of the keys `p` accepts, in key order. Each lemma says what one change to
the table does to the list: a key outside the part changes nothing, a key past every other of the
part is appended, and a change of values is a map. -/
namespace Library
open List

namespace Table

variable {κ α β : Type*} [LinearOrder κ]

/-- The values of the keys `p` accepts, in key order. -/
def select (t : Table κ α) (p : κ → Bool) : List α :=
  (t.entries.filter fun e => p e.1).map Prod.snd

variable {t : Table κ α} {p : κ → Bool}

theorem mem_select {v : α} : v ∈ t.select p ↔ ∃ k,p k=true ∧ t.get k=some v := by
  simp only [select,mem_map,mem_filter,Prod.exists,mem_entries]
  constructor
  · rintro ⟨k,v',⟨hget,hp⟩,rfl⟩
    exact ⟨k,hp,hget⟩
  · rintro ⟨k,hp,hget⟩
    exact ⟨k,v,⟨hget,hp⟩,rfl⟩

theorem select_map (t : Table κ α) (p : κ → Bool) (f : κ → α → β) :
    (t.map f).select p=(t.entries.filter fun e => p e.1).map fun e => f e.1 e.2 := by
  simp only [select,map,filter_map,map_map]
  rfl

theorem select_map_of_eq {f : κ → α → α}
    (h : ∀ k v,p k=true → t.get k=some v → f k v=v) : (t.map f).select p=t.select p := by
  rw [select_map,select]
  refine map_congr_left fun e he=>?_
  obtain ⟨hmem,hp⟩:=mem_filter.mp he
  exact h e.1 e.2 hp (mem_entries.mp hmem)

theorem select_filter (t : Table κ α) (p : κ → Bool) (q : κ → α → Bool) : (t.filter q).select p =
      ((t.entries.filter fun e => p e.1).filter fun e => q e.1 e.2).map Prod.snd := by
  simp only [select,filter,filter_filter,Bool.and_comm]

theorem select_filter_of_eq {q : κ → α → Bool} (h : ∀ k v,p k=true → t.get k=some v → q k v=true) :
    (t.filter q).select p=t.select p := by
  rw [select_filter,select,filter_eq_self.mpr]
  intro e he
  obtain ⟨hmem,hp⟩:=mem_filter.mp he
  exact h e.1 e.2 hp (mem_entries.mp hmem)

theorem select_erase_of_not {k : κ} (hk : p k=false) : (t.erase k).select p=t.select p := by
  refine select_filter_of_eq fun k' v hp _=>?_
  simp only [ne_eq,decide_not,Bool.not_eq_eq_eq_not,Bool.not_true,decide_eq_false_iff_not]
  rintro rfl
  rw [hk] at hp
  cases hp

theorem insert_eq_map {k : κ} {w : α} (v : α) (h : t.get k=some w) :
    t.insert k v=t.map fun k' v' => if k'=k then v else v' := by
  refine ext_get fun k'=>?_
  rw [get_insert,get_map]
  split_ifs with hk
  · rw [hk,h]
    rfl
  · simp

theorem modify_eq_map (t : Table κ α) (k : κ) (g : α → α) :
    t.modify k g=t.map fun k' v => if k'=k then g v else v := by
  refine ext_get fun k'=>?_
  rw [get_modify,get_map]
  split_ifs
  · rfl
  · simp

theorem mem_entries_insert {k : κ} {v : α} {e : κ × α} :
    e ∈ (t.insert k v).entries ↔ e=(k,v) ∨ e.1 ≠ k ∧ e ∈ t.entries := by
  obtain ⟨k',v'⟩:=e
  rw [mem_entries,mem_entries,get_insert]
  split_ifs with hk
  · simp [hk,eq_comm]
  · simp [hk]

theorem select_insert_of_not {k : κ} (v : α) (hk : p k=false) :
    (t.insert k v).select p=t.select p := by
  unfold select
  congr 1
  refine sorted_ext ((t.insert k v).sorted.filter _) (t.sorted.filter _) fun e=>?_
  rw [mem_filter,mem_filter,mem_entries_insert]
  constructor
  · rintro ⟨rfl | ⟨-,hmem⟩,hp⟩
    · rw [hk] at hp
      cases hp
    · exact ⟨hmem,hp⟩
  · rintro ⟨hmem,hp⟩
    have hne : e.1≠k:=fun heq=>by
      rw [heq,hk] at hp
      cases hp
    exact ⟨.inr ⟨hne,hmem⟩,hp⟩

theorem select_insert_last {k : κ} (v : α) (hk : p k=true)
    (hlast : ∀ k' v',p k'=true → t.get k'=some v' → k' < k) :
    (t.insert k v).select p=t.select p++[v] := by
  have hlt : ∀ e ∈ t.entries.filter fun e=>p e.1,e.1 < k:=fun e he=>by
    obtain ⟨hmem,hp⟩:=mem_filter.mp he
    exact hlast e.1 e.2 hp (mem_entries.mp hmem)
  have hentries : (t.insert k v).entries.filter (fun e=>p e.1) =
      (t.entries.filter fun e=>p e.1)++[(k,v)]:=by
    refine sorted_ext ((t.insert k v).sorted.filter _) ?_ fun e=>?_
    · refine pairwise_append.mpr ⟨t.sorted.filter _,by simp,fun a ha b hb=>?_⟩
      rw [mem_singleton.mp hb]
      exact hlt a ha
    · rw [mem_filter,mem_append,mem_singleton,mem_filter,mem_entries_insert]
      constructor
      · rintro ⟨rfl | ⟨-,hmem⟩,hp⟩
        · exact .inr rfl
        · exact .inl ⟨hmem,hp⟩
      · rintro (⟨hmem,hp⟩ | rfl)
        · exact ⟨.inr ⟨(hlt e (mem_filter.mpr ⟨hmem,hp⟩)).ne,hmem⟩,hp⟩
        · exact ⟨.inl rfl,hk⟩
  rw [select,hentries,map_append,select]
  rfl

/-! ## Filtering one key at a time

A loop that drops the entries `p` refuses one at a time, in key order, has at each point the table of
those `p` accepts and those it has not reached. -/

section Pending

variable {t : Table κ α} {p : κ → α → Bool} {k : κ} {v : α} {rest : List κ}

theorem filter_pending_all (hrest : ∀ k v,t.get k=some v → p k v=false → k ∈ rest) :
    (t.filter fun k v => p k v || decide (k ∈ rest))=t := by
  refine ext_get fun k=>?_
  rw [get_filter]
  cases hget : t.get k with
  | none=>rfl
  | some v =>
    refine Option.filter_eq_some_iff.mpr ⟨rfl,?_⟩
    cases hp : p k v with
    | true=>rfl
    | false=>simpa using hrest k v hget hp

theorem erase_pending (hget : t.get k=some v) (hp : p k v=false) (hk : k ∉ rest) :
    (t.filter fun k' v' => p k' v' || decide (k' ∈ k::rest)).erase k =
      t.filter fun k' v' => p k' v' || decide (k' ∈ rest) := by
  refine ext_get fun k'=>?_
  rw [get_erase]
  split_ifs with hk'
  · subst hk'
    simp [hget,hp,hk,Option.filter_some]
  · simp [hk']

theorem filter_pending_of_stays (hget : t.get k=some v) (hp : p k v=true) :
    (t.filter fun k' v' => p k' v' || decide (k' ∈ k::rest)) =
      t.filter fun k' v' => p k' v' || decide (k' ∈ rest) := by
  refine ext_get fun k'=>?_
  rw [get_filter,get_filter]
  by_cases hk' : k'=k
  · subst hk'
    simp [hget,hp,Option.filter_some]
  · simp [hk']

end Pending

end Table

end Library
