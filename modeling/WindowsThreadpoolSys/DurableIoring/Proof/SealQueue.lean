import WindowsThreadpoolSys.DurableIoring.Durability.Queries

/-! The seals the mark has not passed, as one list of slots in the order they were made: the leading
empty seal, then each recorded seal and the empty seal trailing it. Making a seal appends a slot or
replaces the last one, passing one drops the first, and everything else changes slots in place.

`QueueOk` is what such a list keeps: the slots ascend, all above the mark, the last is the seal
point, and nothing behind a seal still waiting has started. An epoch at or below the seal point
belongs to the first slot at or above it (`covering`). -/
namespace WindowsThreadpoolSys.DurableIoring
open Library List

inductive Slot (E : Type) where
  | empty (e : Empty E)
  | recorded (s : Seal E)

namespace Slot

variable {E : Type} {s : Seal E}

def through : Slot E → E
  | empty e => e.through
  | recorded s => s.through

def made : Slot E → ℕ
  | empty e => e.made
  | recorded s => s.made

def finished : Slot E → Bool
  | empty e => e.finished
  | recorded s => s.stage.isDone

def answered : Slot E → Bool
  | empty e => e.answered
  | recorded s => s.answered

def Waits : Slot E → Prop
  | empty _ => False
  | recorded s => s.stage = .waiting

/-- A recorded seal still waiting, or an empty one not finished. -/
def Unstarted : Slot E → Prop
  | empty e => e.finished = false
  | recorded s => s.stage = .waiting

end Slot

def slots {E : Type} (leading : Option (Empty E)) (recorded : List (Seal E)) : List (Slot E) :=
  leading.toList.map .empty ++
    recorded.flatMap fun s => .recorded s :: s.trailing.toList.map .empty

section Slots

variable {E : Type} (leading : Option (Empty E)) (recorded : List (Seal E))

theorem slots_leading (e : Empty E) : slots (some e) recorded=.empty e::slots none recorded :=
  rfl

theorem slots_recorded (s : Seal E) :
    slots none (s::recorded)=.recorded s::slots s.trailing recorded := by
  simp [slots]

theorem slots_append (s : Seal E) : slots leading (recorded++[s]) =
      slots leading recorded ++ .recorded s::s.trailing.toList.map .empty := by
  simp [slots]

theorem slots_nil : slots leading ([] : List (Seal E))=leading.toList.map .empty := by
  simp [slots]

theorem recorded_mem_slots : Slot.recorded s ∈ slots leading recorded ↔ s ∈ recorded := by
  simp [slots]

theorem empty_mem_slots {e : Empty E} : Slot.empty e ∈ slots leading recorded ↔
    leading=some e ∨ ∃ s ∈ recorded,s.trailing=some e := by
  simp [slots,eq_comm]

end Slots

/-! ## What a queue keeps -/

section Queue

variable {E : Type} [LinearOrder E]

structure QueueOk (xs : List (Slot E)) (durable sealed : Option E) : Prop where
  ordered : xs.Pairwise fun a b => a.through < b.through ∧ a.made < b.made
  above : ∀ x ∈ xs, above durable x.through
  last : sealed = (xs.getLast?.map Slot.through).or durable
  started : xs.Pairwise fun a b => a.Waits → b.Unstarted

theorem above_iff {lower : Option E} {epoch : E} :
    above lower epoch=true ↔ ∀ l,lower=some l → l < epoch := by
  cases lower <;> simp [above]

theorem not_above_iff {lower : Option E} {epoch : E} :
    ¬above lower epoch=true ↔ ∃ l,lower=some l ∧ epoch ≤ l := by
  cases lower <;> simp [above]

@[simp] theorem above_some {l epoch : E} : above (some l) epoch=true ↔ l < epoch := by
  simp [above]

@[simp] theorem above_none (epoch : E) : above (none : Option E) epoch=true := rfl

theorem pairwise_mem_or {α : Type} {R : α → α → Prop} {l : List α} {a b : α} (h : l.Pairwise R)
    (ha : a ∈ l) (hb : b ∈ l) (hne : a ≠ b) : R a b ∨ R b a := by
  induction h with
  | nil=>cases ha
  | cons hhead _ ih =>
    rcases mem_cons.mp ha with rfl | ha'
    · exact .inl (hhead b ((mem_cons.mp hb).resolve_left (Ne.symm hne)))
    · rcases mem_cons.mp hb with rfl | hb'
      · exact .inr (hhead a ha')
      · exact ih ha' hb'

namespace QueueOk

variable {xs : List (Slot E)} {durable sealed : Option E} {x : Slot E}

theorem nil_iff : QueueOk ([] : List (Slot E)) durable sealed ↔ sealed=durable := by
  constructor
  · intro h
    simpa using h.last
  · rintro rfl
    exact ⟨.nil,by simp,by simp,.nil⟩

theorem tail (h : QueueOk (x::xs) durable sealed) : QueueOk xs (some x.through) sealed := by
  obtain ⟨hx,hxs⟩:=pairwise_cons.mp h.ordered
  refine ⟨hxs,fun y hy=>above_some.mpr (hx y hy).1,?_,(pairwise_cons.mp h.started).2⟩
  rw [h.last]
  cases hlast : xs.getLast? with
  | none=>simp [List.getLast?_eq_none_iff.mp hlast]
  | some y=>simp [List.getLast?_cons,hlast]

theorem le_sealed (h : QueueOk xs durable sealed) (hx : x ∈ xs) :
    ∃ s,sealed=some s ∧ x.through ≤ s := by
  induction xs generalizing durable x with
  | nil=>cases hx
  | cons y ys ih =>
    rcases mem_cons.mp hx with rfl | hx
    · cases hys : ys with
      | nil =>
        subst hys
        exact ⟨x.through,by simpa using h.last,le_rfl⟩
      | cons z zs =>
        subst hys
        obtain ⟨s,hs,hle⟩:=ih h.tail mem_cons_self
        exact ⟨s,hs,((pairwise_cons.mp h.ordered).1 z mem_cons_self).1.le.trans hle⟩
    · exact ih h.tail hx

theorem durable_le (h : QueueOk xs durable sealed) {d : E} (hd : durable=some d) :
    ∃ s,sealed=some s ∧ d ≤ s := by
  cases xs with
  | nil =>
    have hlast:=nil_iff.mp h
    exact ⟨d,by rw [hlast,hd],le_rfl⟩
  | cons x xs =>
    obtain ⟨s,hs,hle⟩:=h.le_sealed mem_cons_self
    have habove:=above_iff.mp (h.above x mem_cons_self) d hd
    exact ⟨s,hs,habove.le.trans hle⟩

theorem above_durable (h : QueueOk xs durable sealed) {e : E} (he : DurableIoring.above sealed e) :
    DurableIoring.above durable e := by
  rw [above_iff] at he ⊢
  intro d hd
  obtain ⟨s,hs,hle⟩:=h.durable_le hd
  exact hle.trans_lt (he s hs)

theorem push (h : QueueOk xs durable sealed) (hx : DurableIoring.above sealed x.through)
    (hmade : ∀ y ∈ xs,y.made < x.made) (hnew : x.Unstarted) :
    QueueOk (xs++[x]) durable (some x.through) := by
  refine ⟨?_,?_,by simp,?_⟩
  · refine pairwise_append.mpr ⟨h.ordered,by simp,fun y hy z hz=>?_⟩
    rw [mem_singleton.mp hz]
    obtain ⟨s,hs,hle⟩:=h.le_sealed hy
    exact ⟨hle.trans_lt (above_iff.mp hx s hs),hmade y hy⟩
  · intro y hy
    rcases mem_append.mp hy with hy | hy
    · exact h.above y hy
    · rw [mem_singleton.mp hy]
      exact h.above_durable hx
  · refine pairwise_append.mpr ⟨h.started,by simp,fun y _ z hz _=>?_⟩
    rwa [mem_singleton.mp hz]

theorem dropLast (h : QueueOk (xs++[x]) durable sealed) :
    QueueOk xs durable ((xs.getLast?.map Slot.through).or durable) ∧
      ∀ e,DurableIoring.above sealed e →
        DurableIoring.above ((xs.getLast?.map Slot.through).or durable) e := by
  have hsealed : sealed=some x.through:=by simpa using h.last
  obtain ⟨hxs, -,hlt⟩:=pairwise_append.mp h.ordered
  refine ⟨⟨hxs,fun y hy=>h.above y (mem_append_left _ hy),rfl,
    (pairwise_append.mp h.started).1⟩,fun e he=>?_⟩
  have hxe : x.through < e:=above_iff.mp he _ hsealed
  rw [above_iff]
  intro s hs
  cases hlast : xs.getLast? with
  | none =>
    rw [hlast] at hs
    exact (above_iff.mp (h.above x (by simp)) s (by simpa using hs)).trans hxe
  | some y =>
    rw [hlast] at hs
    have hy : y ∈ xs:=List.mem_of_getLast? hlast
    cases hs
    exact (hlt y hy x (by simp)).1.trans hxe

end QueueOk

omit [LinearOrder E] in
theorem recorded_sublist {leading : Option (Empty E)} {recorded : List (Seal E)} :
    (recorded.map Slot.recorded).Sublist (slots leading recorded) := by
  refine List.Sublist.trans ?_ (sublist_append_right _ _)
  induction recorded with
  | nil=>exact .slnil
  | cons s rest ih=>exact (ih.trans (sublist_append_right _ _)).cons_cons _

theorem QueueOk.trailing_lt {leading : Option (Empty E)} {recorded : List (Seal E)}
    {durable sealed : Option E} (h : QueueOk (slots leading recorded) durable sealed) {e : Empty E}
    (hs : s ∈ recorded) (he : s.trailing=some e) : s.through < e.through := by
  obtain ⟨before,after,rfl⟩:=append_of_mem hs
  have hsub : [Slot.recorded s,.empty e].Sublist (slots leading (before++s::after)):=by
    simp only [slots,flatMap_append,flatMap_cons,he,Option.toList_some,map_cons,
      map_nil,cons_append,nil_append]
    refine List.Sublist.trans ?_ (sublist_append_right _ _)
    refine List.Sublist.trans ?_ (sublist_append_right _ _)
    exact ((nil_sublist _).cons_cons _).cons_cons _
  exact ((pairwise_cons.mp (h.ordered.sublist hsub)).1 (.empty e) mem_cons_self).1

theorem QueueOk.recorded_ordered {leading : Option (Empty E)} {recorded : List (Seal E)}
    {durable sealed : Option E} (h : QueueOk (slots leading recorded) durable sealed) :
    recorded.Pairwise fun a b => a.through < b.through ∧ a.made < b.made :=
  pairwise_map.mp (h.ordered.sublist recorded_sublist)

/-! ## The slot an epoch belongs to -/

def covering (xs : List (Slot E)) (epoch : E) : Option (Slot E) :=
  xs.find? fun x => decide (epoch ≤ x.through)

variable {xs : List (Slot E)} {x y : Slot E} {durable sealed : Option E} {epoch : E}

theorem covering_mem (h : covering xs epoch=some y) : y ∈ xs := List.mem_of_find?_eq_some h

theorem covering_le (h : covering xs epoch=some y) : epoch ≤ y.through := by
  simpa using List.find?_some h

theorem covering_first (hq : QueueOk xs durable sealed) (h : covering xs epoch=some y)
    (hx : x ∈ xs) (hle : epoch ≤ x.through) : y.through ≤ x.through := by
  induction xs generalizing durable with
  | nil=>cases hx
  | cons z zs ih =>
    unfold covering at h
    rw [List.find?_cons] at h
    by_cases hz : epoch ≤ z.through
    · simp only [hz,decide_true,Option.some.injEq] at h
      subst h
      rcases mem_cons.mp hx with rfl | hx
      · exact le_rfl
      · exact ((pairwise_cons.mp hq.ordered).1 x hx).1.le
    · simp only [hz,decide_false] at h
      rcases mem_cons.mp hx with rfl | hx
      · exact absurd hle hz
      · exact ih hq.tail h hx

theorem covering_append (h : covering xs epoch=some y) (zs : List (Slot E)) :
    covering (xs++zs) epoch=some y := by
  unfold covering at h ⊢
  rw [List.find?_append,h]
  rfl

theorem covering_tail (hx : x.through < epoch) : covering (x::xs) epoch=covering xs epoch := by
  unfold covering
  rw [List.find?_cons_of_neg (by simpa using hx)]

theorem covering_dropLast (h : covering (xs++[x]) epoch=some y) (hne : y ≠ x) :
    covering xs epoch=some y := by
  unfold covering at h ⊢
  rw [List.find?_append] at h
  cases hfind : xs.find? fun x=>decide (epoch ≤ x.through) with
  | some z=>rwa [hfind] at h
  | none =>
    rw [hfind,Option.none_or] at h
    have hmem:=List.mem_of_find?_eq_some h
    exact absurd (mem_singleton.mp hmem) hne

theorem covering_push (hq : QueueOk xs durable sealed) (habove : above sealed epoch)
    (hle : epoch ≤ x.through) : covering (xs++[x]) epoch=some x := by
  unfold covering
  rw [List.find?_append,List.find?_eq_none.mpr,Option.none_or]
  · simp [hle]
  · intro y hy
    obtain ⟨s,hs,hys⟩:=hq.le_sealed hy
    simpa using hys.trans_lt (above_iff.mp habove s hs)

end Queue

/-! ## Slots changing in place -/

section Moves

variable {E : Type}

def EmptyMoves (e e' : Empty E) : Prop := e'.made = e.made ∧ e'.through = e.through

structure SealMoves (s s' : Seal E) : Prop where
  seq : s'.seq = s.seq
  made : s'.made = s.made
  through : s'.through = s.through

/-- A slot changed in place, a recorded seal as `R` allows. -/
inductive Slot.Moves (R : Seal E → Seal E → Prop) : Slot E → Slot E → Prop
  | empty {e e' : Empty E} (h : EmptyMoves e e') : Moves R (.empty e) (.empty e')
  | recorded {s s' : Seal E} (h : SealMoves s s') (hR : R s s') :
    Moves R (.recorded s) (.recorded s')

theorem EmptyMoves.refl (e : Empty E) : EmptyMoves e e := ⟨rfl,rfl⟩

theorem EmptyMoves.option_refl (e : Option (Empty E)) : Option.Rel EmptyMoves e e := by
  cases e with
  | none=>exact .none
  | some e=>exact .some (.refl e)

theorem EmptyMoves.option_map {f : Empty E → Empty E} (hf : ∀ e,EmptyMoves e (f e))
    (e : Option (Empty E)) : Option.Rel EmptyMoves e (e.map f) := by
  cases e with
  | none=>exact .none
  | some e=>exact .some (hf e)

theorem SealMoves.refl (s : Seal E) : SealMoves s s := ⟨rfl,rfl,rfl⟩

variable {R : Seal E → Seal E → Prop}

theorem Slot.Moves.through_eq {x y : Slot E} (h : Slot.Moves R x y) : y.through=x.through := by
  cases h with
  | empty h=>exact h.2
  | recorded h=>exact h.through

theorem Slot.Moves.made_eq {x y : Slot E} (h : Slot.Moves R x y) : y.made=x.made := by
  cases h with
  | empty h=>exact h.1
  | recorded h=>exact h.made

variable {P : Slot E → Slot E → Prop}

theorem slots_forall₂ {leading leading' : Option (Empty E)} {recorded recorded' : List (Seal E)}
    (hleading : Option.Rel (fun e e' => P (.empty e) (.empty e')) leading leading')
    (hrecorded : List.Forall₂ (fun s s' => P (.recorded s) (.recorded s') ∧
        Option.Rel (fun e e' => P (.empty e) (.empty e')) s.trailing s'.trailing)
      recorded recorded') : List.Forall₂ P (slots leading recorded) (slots leading' recorded') := by
  have hempties : ∀ {e e' : Option (Empty E)},
      Option.Rel (fun e e'=>P (.empty e) (.empty e')) e e' →
        List.Forall₂ P (e.toList.map .empty) (e'.toList.map .empty):=by
    intro e e' h
    cases h with
    | none=>exact .nil
    | some h=>exact .cons h .nil
  refine rel_append (hempties hleading) ?_
  induction hrecorded with
  | nil=>exact .nil
  | cons h _ ih=>exact rel_append (.cons h.1 (hempties h.2)) ih

theorem rel_imp {P Q : Empty E → Empty E → Prop} (h : ∀ e e',P e e' → Q e e')
    {e e' : Option (Empty E)} (hrel : Option.Rel P e e') : Option.Rel Q e e' := by
  cases hrel with
  | none=>exact .none
  | some hP=>exact .some (h _ _ hP)

theorem slots_moves {leading leading' : Option (Empty E)} {recorded recorded' : List (Seal E)}
    (hleading : Option.Rel EmptyMoves leading leading') (hrecorded : List.Forall₂
      (fun s s' => SealMoves s s' ∧ Option.Rel EmptyMoves s.trailing s'.trailing ∧ R s s')
      recorded recorded') :
    List.Forall₂ (Slot.Moves R) (slots leading recorded) (slots leading' recorded') :=
  slots_forall₂ (rel_imp (fun _ _=>.empty) hleading)
    (hrecorded.imp fun _ _ h=>⟨.recorded h.1 h.2.2,rel_imp (fun _ _=>.empty) h.2.1⟩)

theorem Slot.Moves.refl (hR : ∀ s,R s s) (x : Slot E) : Slot.Moves R x x := by
  cases x with
  | empty e=>exact .empty (.refl e)
  | recorded s=>exact .recorded (.refl s) (hR s)

theorem moves_refl (hR : ∀ s,R s s) (xs : List (Slot E)) : List.Forall₂ (Slot.Moves R) xs xs :=
  List.forall₂_same.mpr fun x _=>.refl hR x

variable {xs ys : List (Slot E)}

theorem covering_recorded {x : Option (Slot E)}
    (h : Option.Rel (Slot.Moves R) (some (.recorded s)) x) :
    ∃ s',x=some (.recorded s') ∧ SealMoves s s' ∧ R s s' := by
  cases h with
  | some h =>
    cases h with
    | recorded hmoves hR=>exact ⟨_,rfl,hmoves,hR⟩

theorem points_moves (h : List.Forall₂ (Slot.Moves R) xs ys) :
    ys.map (fun y => (y.through,y.made))=xs.map fun x => (x.through,x.made) := by
  induction h with
  | nil=>rfl
  | cons hxy _ ih=>rw [map_cons,map_cons,hxy.through_eq,hxy.made_eq,ih]

theorem exists_moved {y : Slot E} (h : List.Forall₂ P xs ys) (hy : y ∈ ys) : ∃ x ∈ xs,P x y := by
  induction h with
  | nil=>cases hy
  | @cons x z _ _ hxz _ ih =>
    rcases mem_cons.mp hy with rfl | hy
    · exact ⟨x,mem_cons_self,hxz⟩
    · obtain ⟨x',hx',hP⟩:=ih hy
      exact ⟨x',mem_cons_of_mem _ hx',hP⟩

theorem pairwise_moved {Q S : Slot E → Slot E → Prop} (hxs : xs.Pairwise Q)
    (hmoved : List.Forall₂ P xs ys)
    (h : ∀ x₁ ∈ xs,∀ x₂ ∈ xs,∀ y₁ y₂,Q x₁ x₂ → P x₁ y₁ → P x₂ y₂ → S y₁ y₂) : ys.Pairwise S := by
  induction hmoved with
  | nil=>exact .nil
  | @cons x y xs ys hxy hrest ih =>
    obtain ⟨hx,hxs⟩:=pairwise_cons.mp hxs
    refine pairwise_cons.mpr ⟨fun z hz=>?_,ih hxs fun x₁ h₁ x₂ h₂ =>
      h x₁ (mem_cons_of_mem _ h₁) x₂ (mem_cons_of_mem _ h₂)⟩
    obtain ⟨x',hx',hP⟩:=exists_moved hrest hz
    exact h x mem_cons_self x' (mem_cons_of_mem _ hx') y z (hx x' hx') hxy hP

theorem started_moves (hstarted : xs.Pairwise fun a b => a.Waits → b.Unstarted)
    (hkeep : List.Forall₂ (fun x y : Slot E => (y.Waits → x.Waits) ∧ (x.Unstarted → y.Unstarted))
      xs ys) : ys.Pairwise fun a b => a.Waits → b.Unstarted :=
  pairwise_moved hstarted hkeep fun _ _ _ _ _ _ hbefore h₁ h₂ hwaits=>h₂.2 (hbefore (h₁.1 hwaits))

variable [LinearOrder E] {durable sealed : Option E} {epoch : E}

theorem covering_moves (epoch : E) (h : List.Forall₂ (Slot.Moves R) xs ys) :
    Option.Rel (Slot.Moves R) (covering xs epoch) (covering ys epoch) := by
  unfold covering
  induction h with
  | nil=>exact .none
  | @cons x y xs ys hxy _ ih =>
    rw [List.find?_cons,List.find?_cons,hxy.through_eq]
    split
    · exact .some hxy
    · exact ih

theorem QueueOk.moves (h : QueueOk xs durable sealed) (hmoves : List.Forall₂ (Slot.Moves R) xs ys)
    (hstarted : ys.Pairwise fun a b => a.Waits → b.Unstarted) : QueueOk ys durable sealed := by
  have hpoints:=points_moves hmoves
  refine ⟨?_,fun y hy=>?_,?_,hstarted⟩
  · have hordered : (xs.map fun x=>(x.through,x.made)).Pairwise
        fun a b=>a.1 < b.1 ∧ a.2 < b.2:=pairwise_map.mpr h.ordered
    rw [← hpoints,pairwise_map] at hordered
    exact hordered
  · have hmem : (y.through,y.made) ∈ xs.map fun x=>(x.through,x.made):=by
      rw [← hpoints]
      exact mem_map_of_mem hy
    obtain ⟨x,hx,heq⟩:=mem_map.mp hmem
    rw [← (Prod.mk.inj heq).1]
    exact h.above x hx
  · have hlast:=congrArg (fun l=>l.getLast?.map Prod.fst) hpoints
    simp only [List.getLast?_map,Option.map_map] at hlast
    rw [h.last]
    exact congrArg (Option.or · durable) hlast.symm

theorem QueueOk.drop_empty {e₀ : Option (Empty E)}
    (h : QueueOk (xs++e₀.toList.map .empty) durable sealed) : ∃ sealed₀,QueueOk xs durable sealed₀ ∧
      ∀ e,DurableIoring.above sealed e → DurableIoring.above sealed₀ e := by
  cases e₀ with
  | none=>exact ⟨sealed,by simpa using h,fun _=>id⟩
  | some e=>exact ⟨_,h.dropLast⟩

theorem covering_drop_empty {e₀ : Option (Empty E)}
    (h : covering (xs++e₀.toList.map .empty) epoch=some (.recorded s)) :
    covering xs epoch=some (.recorded s) := by
  cases e₀ with
  | none=>simpa using h
  | some e=>exact covering_dropLast h (by simp)

end Moves

end WindowsThreadpoolSys.DurableIoring
