import WindowsThreadpoolSys.DurableIoring.Durability.Tables
import WindowsThreadpoolSys.Library.Fallible

/-! What holds a place is read as a number for each holder (`Window.level`): a hold adds one to its
holder's number and a release takes one away, and nothing else changes. A window is proper when no
place is kept that no one holds, so the places are the operations with a level above zero. -/
namespace WindowsThreadpoolSys.DurableIoring
open Library List Table Option

namespace Holds

def level (h : Holds) : Holder → ℕ
  | .operation => h.operation.toNat
  | .uncovered => h.uncovered.toNat
  | .suspect => h.suspected
  | .pin => h.pinned.toNat
  | .abandoned => h.abandoned.toNat

@[simp] theorem level_default (holder : Holder) : default.level holder=0 := by
  cases holder <;> rfl

theorem toNat_pos {b : Bool} : 0 < b.toNat ↔ b=true := by
  cases b <;> simp

theorem isHeld_iff {h : Holds} : h.isHeld=true ↔ ∃ holder,0 < h.level holder := by
  constructor
  · intro hheld
    simp only [isHeld,Bool.or_eq_true,decide_eq_true_eq] at hheld
    rcases hheld with (((h1 | h1) | h1) | h1) | h1
    · exact ⟨.operation,by simp [level,h1]⟩
    · exact ⟨.uncovered,by simp [level,h1]⟩
    · exact ⟨.suspect,by simpa [level] using h1⟩
    · exact ⟨.pin,by simp [level,h1]⟩
    · exact ⟨.abandoned,by simp [level,h1]⟩
  · rintro ⟨holder,hpos⟩
    cases holder <;> simp_all [level,isHeld,toNat_pos]

theorem eq_default {h : Holds} (hheld : h.isHeld=false) : h=default := by
  obtain ⟨operation,uncovered,suspected,pinned,abandoned⟩:=h
  simp only [isHeld,Bool.or_eq_false_iff,decide_eq_false_iff_not,not_lt,nonpos_iff_eq_zero]
    at hheld
  simp [default,hheld]

theorem take_level {h h' : Holds} {holder : Holder} (htake : h.take holder=.ok h')
    (other : Holder) : h'.level other=h.level other+if other=holder then 1 else 0 := by
  cases holder <;> simp only [take] at htake <;> (try split at htake) <;> cases htake <;>
    cases other <;> simp_all [level]

theorem letGo_level {h h' : Holds} {holder : Holder} (hgo : h.letGo holder=some h')
    (other : Holder) : h.level other=h'.level other+if other=holder then 1 else 0 := by
  cases holder <;> simp only [letGo] at hgo <;> split at hgo <;> cases hgo <;>
    cases other <;> simp_all [level]
  omega

theorem level_le_one (h : Holds) {holder : Holder} (hne : holder ≠ .suspect) :
    h.level holder≤1 := by
  cases holder <;> simp_all [level,Bool.toNat_le]

end Holds

namespace Window

def level (window : Window) (op : OpId) (holder : Holder) : ℕ := (window.holds op).level holder

def Proper (window : Window) : Prop := ∀ op h, window.get op = some h → h.isHeld = true

theorem proper_empty : Proper (Table.empty : Window) := fun _ _ h=>by cases h

variable {op : OpId}

theorem suspected_iff {window : Window} :
    window.suspected op=true ↔ 0 < window.level op .suspect := by
  unfold suspected level holds
  cases window.get op with
  | none=>simp
  | some h=>simp [Holds.level]

variable {holder : Holder}

theorem level_le_one (window : Window) (op : OpId) (hne : holder ≠ .suspect) :
    window.level op holder≤1 :=
  Holds.level_le_one _ hne

/-! ## Holding -/

variable {window window' : Window}

theorem hold_ok {limit : ℕ} (hhold : window.hold limit op holder=.ok window') :
    ((window.get op).isSome ∨ window.size < limit) ∧
      ∃ h,(window.holds op).take holder=.ok h ∧ window'=window.insert op h := by
  unfold hold at hhold
  cases hroom : window.insertWithin limit op (window.holds op) with
  | none =>
    rw [hroom] at hhold
    cases hhold
  | some t =>
    simp only [hroom] at hhold
    obtain ⟨h,htake,⟨⟩⟩:=bind_eq_ok.mp hhold
    exact ⟨(insertWithin_eq_some.mp hroom).1,h,htake,rfl⟩

theorem hold_level {limit : ℕ} (hhold : window.hold limit op holder=.ok window') (op' : OpId)
    (other : Holder) : window'.level op' other =
      window.level op' other+if op'=op ∧ other=holder then 1 else 0 := by
  obtain ⟨-,h,htake,rfl⟩:=hold_ok hhold
  unfold level
  by_cases hop : op'=op
  · subst hop
    have : holds (window.insert op' h) op'=h:=by simp [holds]
    rw [this,Holds.take_level htake]
    simp
  · have : holds (window.insert op h) op'=window.holds op':=by
      simp [holds,get_insert_of_ne _ _ hop]
    simp [this,hop]

theorem hold_proper {limit : ℕ} (hproper : window.Proper)
    (hhold : window.hold limit op holder=.ok window') : window'.Proper := by
  obtain ⟨-,h,htake,rfl⟩:=hold_ok hhold
  intro op' h' hget
  rw [get_insert] at hget
  split at hget
  · cases hget
    rw [Holds.isHeld_iff]
    exact ⟨holder,by rw [Holds.take_level htake,if_pos rfl]; omega⟩
  · exact hproper op' h' hget

theorem hold_size_le {limit : ℕ} (hsize : window.size ≤ limit)
    (hhold : window.hold limit op holder=.ok window') : window'.size ≤ limit := by
  obtain ⟨hroom,h, -,rfl⟩:=hold_ok hhold
  cases hget : window.get op with
  | none =>
    have hlt : window.size < limit:=by simpa [hget] using hroom
    rw [size_insert h hget]
    exact hlt
  | some g=>rwa [size_replace h hget]

/-! ## Releasing -/

theorem release_ok (hrelease : window.release op holder=.ok window') :
    ∃ h rest,window.get op=some h ∧ h.letGo holder=some rest ∧
      window'=if rest.isHeld then window.insert op rest else window.erase op := by
  unfold release at hrelease
  cases hget : window.get op with
  | none=>simp [hget] at hrelease
  | some h =>
    cases hgo : h.letGo holder with
    | none=>simp [hget,hgo] at hrelease
    | some rest =>
      simp only [hget,hgo] at hrelease
      cases hrelease
      exact ⟨h,rest,rfl,hgo,rfl⟩

theorem release_level (hrelease : window.release op holder=.ok window') (op' : OpId) (other : Holder) :
    window.level op' other = window'.level op' other+if op'=op ∧ other=holder then 1 else 0 := by
  obtain ⟨h,rest,hget,hgo,rfl⟩:=release_ok hrelease
  unfold level
  by_cases hop : op'=op
  · subst hop
    have hnew : holds (if rest.isHeld then window.insert op' rest else window.erase op') op' =
        rest:=by
      split_ifs with hheld
      · simp [holds]
      · have hrest : rest=Holds.default:=Holds.eq_default (by simpa using hheld)
        rw [holds,get_erase_self,getD_none,hrest]
    rw [hnew,holds,hget,getD_some,Holds.letGo_level hgo]
    simp
  · have hsame : holds (if rest.isHeld then window.insert op rest else window.erase op) op' =
        window.holds op':=by
      split_ifs
      · simp [holds,get_insert_of_ne _ _ hop]
      · simp [holds,get_erase,hop]
    simp [hsame,hop]

theorem release_proper (hproper : window.Proper) (hrelease : window.release op holder=.ok window') :
    window'.Proper := by
  obtain ⟨h,rest,hget,hgo,rfl⟩:=release_ok hrelease
  intro op' h' hget'
  split_ifs at hget' with hheld
  · rcases of_insert hget' with ⟨-,rfl⟩ | hget'
    · exact hheld
    · exact hproper op' h' hget'
  · rw [get_erase] at hget'
    split_ifs at hget' with hop
    exact hproper op' h' hget'

theorem release_size_le (hrelease : window.release op holder=.ok window') : window'.size ≤ window.size := by
  obtain ⟨h,rest,hget,hgo,rfl⟩:=release_ok hrelease
  split_ifs
  · rw [size_replace rest hget]
  · exact size_filter_le _ _

/-! ## Many holds and many releases -/

section Folds

variable {α : Type} {window window' : Window} {limit : ℕ} {holder : Holder} {l : List α} {g : α → OpId}

theorem foldHold_level
    (h : l.foldlM (fun (win : Window) a => win.hold limit (g a) holder) window=.ok window')
    (op : OpId) (other : Holder) : window'.level op other =
      window.level op other+if other=holder then (l.map g).count op else 0 := by
  induction l generalizing window with
  | nil =>
    cases h
    simp
  | cons a rest ih =>
    rw [foldlM_cons,bind_eq_ok] at h
    obtain ⟨mid,hmid,hrest⟩:=h
    rw [ih hrest,hold_level hmid,map_cons,count_cons]
    by_cases hother : other=holder
    · simp only [hother,and_true,if_true,beq_iff_eq,@eq_comm _ (g a) op]
      omega
    · simp [hother]

theorem foldHold_proper (hproper : window.Proper)
    (h : l.foldlM (fun (win : Window) a => win.hold limit (g a) holder) window=.ok window') :
    window'.Proper :=
  foldlM_invariant (fun (win : Window)=>win.Proper)
    (fun _ _ _ _ hwin hstep=>hold_proper hwin hstep) hproper h

theorem foldHold_size_le (hsize : window.size ≤ limit)
    (h : l.foldlM (fun (win : Window) a => win.hold limit (g a) holder) window=.ok window') :
    window'.size ≤ limit :=
  foldlM_invariant (fun (win : Window)=>win.size ≤ limit)
    (fun _ _ _ _ hwin hstep=>hold_size_le hwin hstep) hsize h

theorem foldRelease_level
    (h : l.foldlM (fun (win : Window) a => win.release (g a) holder) window=.ok window')
    (op : OpId) (other : Holder) : window.level op other =
      window'.level op other+if other=holder then (l.map g).count op else 0 := by
  induction l generalizing window with
  | nil =>
    cases h
    simp
  | cons a rest ih =>
    rw [foldlM_cons,bind_eq_ok] at h
    obtain ⟨mid,hmid,hrest⟩:=h
    rw [release_level hmid,ih hrest,map_cons,count_cons]
    by_cases hother : other=holder
    · simp only [hother,and_true,if_true,beq_iff_eq,@eq_comm _ (g a) op]
      omega
    · simp [hother]

theorem foldRelease_proper (hproper : window.Proper)
    (h : l.foldlM (fun (win : Window) a => win.release (g a) holder) window=.ok window') :
    window'.Proper :=
  foldlM_invariant (fun (win : Window)=>win.Proper)
    (fun _ _ _ _ hwin hstep=>release_proper hwin hstep) hproper h

theorem foldRelease_size_le
    (h : l.foldlM (fun (win : Window) a => win.release (g a) holder) window=.ok window') :
    window'.size ≤ window.size :=
  foldlM_invariant (fun (win : Window)=>win.size ≤ window.size)
    (fun _ _ _ _ hwin hstep=>(release_size_le hstep).trans hwin) le_rfl h

end Folds

end Window

end WindowsThreadpoolSys.DurableIoring
