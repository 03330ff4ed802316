import WindowsThreadpoolSys.Library.Fallible

/-! Source: `win-job-launcher`, `process.rs`.

`exe_plan` quotes its arguments for the C runtime's reader, `batch_plan` for `cmd.exe`. The reader is
the runtime's, as documented: a quote inside quotes is settled by the unit after it, so the reader is
`closing` until that unit comes. Text is its UTF-16 units, any of them, as `encode_wide` gives it. -/
namespace WindowsThreadpoolSys.JobLauncher
open List Library

abbrev Units := List UInt16

abbrev space : UInt16 := 0x20
abbrev tab : UInt16 := 0x09
abbrev quote : UInt16 := 0x22
abbrev backslash : UInt16 := 0x5c
abbrev percent : UInt16 := 0x25
abbrev cr : UInt16 := 0x0d
abbrev lf : UInt16 := 0x0a

@[simp] theorem quote_ne_backslash : quote ≠ backslash := by decide

@[simp] theorem space_ne_backslash : space ≠ backslash := by decide

@[simp] theorem space_ne_quote : space ≠ quote := by decide

structure Plan where
  application : Units
  commandLine : Units
deriving DecidableEq

/-- The code's texts to encode are ASCII: one unit each. -/
def encodeUtf16 (text : String) : Units :=
  text.toList.map fun c => c.val.toUInt16

def unitsWithoutNul (text : Units) : Except String Units :=
  if 0 ∈ text then .error "a command line cannot contain a NUL" else .ok text

def wideNul (text : Units) : Except String Units := do
  let units ← unitsWithoutNul text
  return units ++ [0]

def pushProgram (out program : Units) : Except String Units := do
  let units ← unitsWithoutNul program
  if quote ∈ units then throw "a program path cannot contain a quote"
  else return out ++ quote :: units ++ [quote]

/-- The body of `push_arg`'s loop, over the output and the count of backslashes. -/
def pushUnit (state : Units × ℕ) (u : UInt16) : Units × ℕ :=
  if u = backslash then (state.1 ++ [u], state.2 + 1)
  else if u = quote then (state.1 ++ replicate (state.2 + 1) backslash ++ [u], 0)
  else (state.1 ++ [u], 0)

def pushArg (out arg : Units) : Except String Units := do
  let units ← unitsWithoutNul arg
  let quoted := units = [] ∨ ∃ u ∈ units, u = space ∨ u = tab
  let (out, backslashes) := units.foldl pushUnit (if quoted then out ++ [quote] else out, 0)
  return if quoted then out ++ replicate backslashes backslash ++ [quote] else out

/-- The number of backslashes at the end. -/
def trailing (units : Units) : ℕ :=
  (units.reverse.takeWhile (· = backslash)).length

def pushBatchPart (out part : Units) : Except String Units := do
  let units ← unitsWithoutNul part
  if ∃ u ∈ units, u = quote ∨ u = percent ∨ u = cr ∨ u = lf then
    throw ("cmd.exe would re-read a quote, percent sign or line break in a batch " ++
      "file's path or arguments as syntax, so it is refused")
  else return out ++ quote :: units ++ replicate (trailing units) backslash ++ [quote]

def exePlan (exe : Units) (args : List Units) : Except String Plan := do
  let out ← pushProgram [] exe
  let out ← args.foldlM (fun out arg => pushArg (out ++ [space]) arg) out
  return { application := ← wideNul exe, commandLine := out ++ [0] }

def batchPlan (cmd script : Units) (args : List Units) : Except String Plan := do
  let out ← pushProgram [] cmd
  let out ← pushBatchPart (out ++ encodeUtf16 " /e:ON /v:OFF /d /c \"") script
  let out ← args.foldlM (fun out arg => pushBatchPart (out ++ [space]) arg) out
  return { application := ← wideNul cmd, commandLine := out ++ [quote] ++ [0] }

/-! ## The reader -/

inductive Mode
  | outside
  | inside
  | closing
deriving DecidableEq

/-- A quote inside quotes that no second one follows has closed them. -/
def Mode.settled : Mode → Mode
  | .inside => .inside
  | _ => .outside

/-- The arguments read, the one being read with the backslashes not yet given their meaning. -/
structure Reader where
  args : List Units := []
  current : Option Units := none
  slashes : ℕ := 0
  mode : Mode := .outside
deriving DecidableEq

namespace Reader

def text (r : Reader) : Units := r.current.getD []

def read (r : Reader) (u : UInt16) : Reader :=
  if u = backslash then
    { r with current := some r.text, slashes := r.slashes + 1, mode := r.mode.settled }
  else if u = quote then
    let arg := r.text ++ replicate (r.slashes / 2) backslash
    if r.slashes % 2 = 1 then { r with current := some (arg ++ [quote]), slashes := 0 }
    else match r.mode with
      | .outside => { r with current := some arg, slashes := 0, mode := .inside }
      | .inside => { r with current := some arg, slashes := 0, mode := .closing }
      | .closing => { r with current := some (arg ++ [quote]), slashes := 0, mode := .inside }
  else if (u = space ∨ u = tab) ∧ r.mode ≠ .inside then
    { args := r.args ++ (r.current.map (· ++ replicate r.slashes backslash)).toList }
  else
    { r with current := some (r.text ++ replicate r.slashes backslash ++ [u]), slashes := 0,
             mode := r.mode.settled }

def finish (r : Reader) : List Units :=
  r.args ++ (r.current.map (· ++ replicate r.slashes backslash)).toList

end Reader

def readArgs (line : Units) : List Units :=
  (line.foldl Reader.read {}).finish

/-- A command line up to its NUL: the program in its quotes, then the arguments. -/
def readCommandLine (line : Units) : Option (Units × List Units) :=
  match line.takeWhile (· ≠ 0) with
  | [] => none
  | u :: rest =>
    if u = quote then
      some (rest.takeWhile (· ≠ quote), readArgs (rest.dropWhile (· ≠ quote)).tail)
    else none

/-- What stands inside quotes when every quote toggles, one run for each pair of quotes. -/
def quotedRuns : Option Units → Units → List Units
  | none, [] => []
  | some run, [] => [run]
  | none, u :: rest => if u = quote then quotedRuns (some []) rest else quotedRuns none rest
  | some run, u :: rest =>
    if u = quote then run :: quotedRuns none rest else quotedRuns (some (run ++ [u])) rest

/-! ## What is written -/

variable {units out out' : Units} {m : Mode} {args pieces : List Units}

theorem unitsWithoutNul_eq {text : Units} (h : unitsWithoutNul text=.ok units) :
    units=text ∧ 0 ∉ text := by
  unfold unitsWithoutNul at h
  split_ifs at h with hnul
  cases h
  exact ⟨rfl,hnul⟩

theorem pushProgram_eq {program : Units} (h : pushProgram out program=.ok out') :
    out'=out++quote :: program++[quote] ∧ 0 ∉ program ∧ quote ∉ program := by
  obtain ⟨units,hunits,hpush⟩:=bind_eq_ok.1 h
  obtain ⟨rfl,hnul⟩:=unitsWithoutNul_eq hunits
  split_ifs at hpush with hquote
  cases hpush
  exact ⟨rfl,hnul,hquote⟩

namespace Reader

theorem read_backslashes (args : List Units) (t : Units) (n k : ℕ) (hm : m.settled=m) :
    (replicate k backslash).foldl read ⟨args,some t,n,m⟩=⟨args,some t,n+k,m⟩ := by
  induction k generalizing n with
  | zero=>rfl
  | succ k ih =>
    have hread : read ⟨args,some t,n,m⟩ backslash=⟨args,some t,n+1,m⟩ := by
      simp [read,text,hm]
    rw [replicate_succ,foldl_cons,hread,ih,Nat.add_assoc,Nat.add_comm 1]

/-- What one unit appends: the reader then has it after what it had, and the writer's count. -/
theorem read_pushUnit (out t : Units) (n : ℕ) (u : UInt16) (hm : m.settled=m)
    (hu : u=space ∨ u=tab → m=.inside) :
    ∃ piece t' n',pushUnit (out,n) u=(out++piece,n') ∧
      (∀ args,piece.foldl read ⟨args,some t,n,m⟩=⟨args,some t',n',m⟩) ∧
      t'++replicate n' backslash=t++replicate n backslash++[u] ∧
      (∀ v ∈ piece,v=u ∨ v=backslash) ∧ piece ≠ [] := by
  by_cases hslash : u=backslash
  · subst hslash
    refine ⟨[backslash],t,n+1,by simp [pushUnit],by simp [read,text,hm],?_,by simp,by simp⟩
    rw [replicate_succ',append_assoc]
  by_cases hquote : u=quote
  · subst hquote
    refine ⟨replicate (n+1) backslash++[quote],t++replicate n backslash++[quote],0,
      by simp [pushUnit],fun args=>?_,by simp,?_,by simp⟩
    · have hodd : (n+(n+1)) % 2=1:=by omega
      have hhalf : (n+(n+1)) / 2=n:=by omega
      rw [foldl_append,read_backslashes args t n (n+1) hm]
      simp [read,text,hodd,hhalf]
    · intro v hv
      rcases mem_append.1 hv with hv | hv
      · exact .inr (eq_of_mem_replicate hv)
      · exact .inl (mem_singleton.1 hv)
  · have hsep : ¬((u=space ∨ u=tab) ∧ m ≠ .inside):=fun h=>h.2 (hu h.1)
    refine ⟨[u],t++replicate n backslash++[u],0,by simp [pushUnit,hslash,hquote],
      fun args=>?_,by simp,by simp,by simp⟩
    simp only [foldl_cons,foldl_nil,read,if_neg hslash,if_neg hquote,if_neg hsep,text,
      Option.getD_some,hm]

/-- The loop of `push_arg`, by induction on the units with the output and the count free. -/
theorem read_pushUnits (hm : m.settled=m) (units : Units)
    (hunits : ∀ u ∈ units,u=space ∨ u=tab → m=.inside) (out t : Units) (n : ℕ) :
    ∃ piece t' n',units.foldl pushUnit (out,n)=(out++piece,n') ∧
      (∀ args,piece.foldl read ⟨args,some t,n,m⟩=⟨args,some t',n',m⟩) ∧
      t'++replicate n' backslash=t++replicate n backslash++units ∧
      (∀ v ∈ piece,v ∈ units ∨ v=backslash) ∧ (units ≠ [] → piece ≠ []) := by
  induction units generalizing out t n with
  | nil=>exact ⟨[],t,n,by simp,fun _=>rfl,by simp,by simp,by simp⟩
  | cons u units ih =>
    obtain ⟨first,t₁,n₁,hpush,hread,htext,hfirst,hne⟩ :=
      read_pushUnit out t n u hm (hunits u mem_cons_self)
    obtain ⟨rest,t₂,n₂,hpush',hread',htext',hrest, -⟩ :=
      ih (fun v hv=>hunits v (mem_cons_of_mem u hv)) (out++first) t₁ n₁
    refine ⟨first++rest,t₂,n₂,?_,fun args=>?_,?_,?_,
      fun _ h=>hne (append_eq_nil_iff.1 h).1⟩
    · rw [foldl_cons,hpush,hpush',append_assoc]
    · rw [foldl_append,hread,hread']
    · rw [htext',htext]
      simp
    · intro v hv
      rcases mem_append.1 hv with hv | hv
      · rcases hfirst v hv with rfl | rfl
        · exact .inl mem_cons_self
        · exact .inr rfl
      · exact (hrest v hv).imp_left (mem_cons_of_mem u)

/-- The reader has read exactly `given`: a space or the end of the line makes it so. -/
structure Done (r : Reader) (given : List Units) : Prop where
  read_space : r.read space={ args:=given }
  at_end : r.finish=given

theorem Done.new : Done {} []:=⟨by simp [read],rfl⟩

theorem Done.of_text {t arg : Units} {n : ℕ} (hm : m ≠ .inside)
    (htext : t++replicate n backslash=arg) : Done ⟨args,some t,n,m⟩ (args++[arg]) :=
  ⟨by simp [read,hm,htext],by simp [finish,htext]⟩

/-- `piece` is read as the one argument `arg`, whatever was read before it. -/
structure Written (arg piece : Units) : Prop where
  nul : 0 ∉ piece
  done : ∀ given,Done (piece.foldl read { args:=given }) (given++[arg])

theorem nul_of_pieces {piece : Units} (hnul : 0 ∉ units)
    (hpiece : ∀ v ∈ piece,v ∈ units ∨ v=backslash) : 0 ∉ piece := by
  intro hmem
  rcases hpiece 0 hmem with h | h
  · exact hnul h
  · exact absurd h (by decide)

/-- The units in quotes, the backslashes before the closing quote doubled. -/
theorem written_quoted (hnul : 0 ∉ units) (out : Units) :
    ∃ piece n,units.foldl pushUnit (out,0)=(out++piece,n) ∧
      Written units (quote :: piece++replicate n backslash++[quote]) := by
  obtain ⟨piece,t,n,hpush,hread,htext,hpiece, -⟩ :=
    read_pushUnits (m:=.inside) rfl units (fun _ _ _=>rfl) out [] 0
  refine ⟨piece,n,hpush,?_,fun given=>?_⟩
  · have hmem:=nul_of_pieces hnul hpiece
    simp [hmem,mem_replicate,show (0 : UInt16) ≠ quote by decide,
      show (0 : UInt16) ≠ backslash by decide]
  · have heven : (n+n) % 2=0:=by omega
    have hhalf : (n+n) / 2=n:=by omega
    have hopen : read { args:=given } quote=⟨given,some [],0,.inside⟩ := by
      simp [read,text]
    rw [append_assoc,cons_append,foldl_cons,hopen,foldl_append,hread,foldl_append,
      read_backslashes given t n n rfl]
    simp only [foldl_cons,foldl_nil,read,if_neg quote_ne_backslash,if_true,heven,hhalf,text,
      Option.getD_some]
    exact Done.of_text (by decide) (by simpa using htext)

/-- A text with no space or tab needs no quotes. -/
theorem written_plain (hnul : 0 ∉ units) (hne : units ≠ [])
    (hplain : ∀ u ∈ units,¬(u=space ∨ u=tab)) (out : Units) :
    ∃ piece n,units.foldl pushUnit (out,0)=(out++piece,n) ∧ Written units piece := by
  obtain ⟨piece,t,n,hpush,hread,htext,hpiece,hpne⟩ :=
    read_pushUnits (m:=.outside) rfl units (fun u hu h=>absurd h (hplain u hu)) out [] 0
  refine ⟨piece,n,hpush,nul_of_pieces hnul hpiece,fun given=>?_⟩
  obtain ⟨v,rest,rfl⟩:=exists_cons_of_ne_nil (hpne hne)
  have hv : ¬(v=space ∨ v=tab) := by
    rcases hpiece v mem_cons_self with h | rfl
    · exact hplain v h
    · decide
  -- the first unit, no separator, starts an argument as if one were already open
  have hstart : read { args:=given } v=read ⟨given,some [],0,.outside⟩ v := by
    simp only [read,text,hv,false_and,if_false,Option.getD_none,Option.getD_some]
  rw [foldl_cons,hstart,← foldl_cons,hread]
  exact Done.of_text (by decide) (by simpa using htext)

theorem Done.written {r : Reader} {given : List Units} (hr : Done r given)
    (h : Forall₂ Written args pieces) :
    Done ((pieces.flatMap (space :: ·)).foldl read r) (given++args) := by
  induction h generalizing r given with
  | nil=>simpa using hr
  | @cons arg piece args pieces hw _ ih =>
    rw [flatMap_cons,cons_append,foldl_cons,hr.read_space,foldl_append,append_cons]
    exact ih (hw.done given)

theorem nul_notMem_pieces (h : Forall₂ Written args pieces) : 0 ∉ pieces.flatMap (space :: ·) := by
  induction h with
  | nil=>simp
  | cons hw _ ih =>
    rw [flatMap_cons,mem_append,mem_cons]
    rintro ((h | h) | h)
    · exact absurd h (by decide)
    · exact hw.nul h
    · exact ih h

end Reader

open Reader

theorem pushArg_written {arg : Units} (h : pushArg out arg=.ok out') :
    ∃ piece,out'=out++piece ∧ Written arg piece := by
  obtain ⟨units,hunits,hret⟩:=bind_eq_ok.1 h
  obtain ⟨rfl,hnul⟩:=unitsWithoutNul_eq hunits
  by_cases hquoted : units=[] ∨ ∃ u ∈ units,u=space ∨ u=tab
  · obtain ⟨piece,n,hpush,hw⟩:=written_quoted hnul (out++[quote])
    simp only [if_pos hquoted,hpush] at hret
    cases hret
    exact ⟨_,by simp,hw⟩
  · have hplain : ∀ u ∈ units,¬(u=space ∨ u=tab):=fun u hu h=>hquoted (.inr ⟨u,hu,h⟩)
    obtain ⟨piece,n,hpush,hw⟩:=written_plain hnul (fun h=>hquoted (.inl h)) hplain out
    simp only [if_neg hquoted,hpush] at hret
    cases hret
    exact ⟨piece,rfl,hw⟩

/-- Without quotes the loop of `push_arg` copies its units and counts the last backslashes. -/
theorem foldl_pushUnit_eq (out : Units) (hquote : quote ∉ units) :
    units.foldl pushUnit (out,0)=(out++units,trailing units) := by
  induction units using reverseRecOn with
  | nil=>simp [trailing]
  | append_singleton units u ih =>
    rw [mem_append,mem_singleton,not_or] at hquote
    rw [foldl_append,ih hquote.1]
    by_cases hslash : u=backslash
    · simp [pushUnit,hslash,trailing]
    · simp [pushUnit,hslash,Ne.symm hquote.2,trailing]

/-- A part of a batch command line: the text with its last backslashes doubled. -/
def doubled (part : Units) : Units:=part++replicate (trailing part) backslash

/-- The piece written for a part of a batch command line. -/
structure WrittenBatch (part piece : Units) : Prop extends Written part piece where
  layout : piece=quote :: doubled part++[quote]
  bare : quote ∉ part

theorem pushBatchPart_written {part : Units} (h : pushBatchPart out part=.ok out') :
    ∃ piece,out'=out++piece ∧ WrittenBatch part piece := by
  obtain ⟨units,hunits,hret⟩:=bind_eq_ok.1 h
  obtain ⟨rfl,hnul⟩:=unitsWithoutNul_eq hunits
  split_ifs at hret with hbad
  cases hret
  have hquote : quote ∉ units:=fun hmem=>hbad ⟨quote,hmem,.inl rfl⟩
  obtain ⟨piece,n,hpush,hw⟩:=written_quoted hnul []
  rw [foldl_pushUnit_eq [] hquote] at hpush
  cases hpush
  exact ⟨_,by simp,hw,by simp [doubled],hquote⟩

theorem exists_pieces (push : Units → Units → Except String Units) {P : Units → Units → Prop}
    (hpush : ∀ {out arg out'},push out arg=.ok out' → ∃ piece,out'=out++piece ∧ P arg piece)
    (h : args.foldlM (fun out arg=>push (out++[space]) arg) out=.ok out') :
    ∃ pieces,out'=out++pieces.flatMap (space :: ·) ∧ Forall₂ P args pieces := by
  induction args generalizing out with
  | nil =>
    cases h
    exact ⟨[],by simp,.nil⟩
  | cons arg args ih =>
    rw [foldlM_cons] at h
    obtain ⟨mid,hmid,h⟩:=bind_eq_ok.1 h
    obtain ⟨piece,rfl,hP⟩:=hpush hmid
    obtain ⟨pieces,rfl,hall⟩:=ih h
    exact ⟨piece :: pieces,by simp,.cons hP hall⟩

theorem takeWhile_until {l : Units} {u : UInt16} (h : u ∉ l) (rest : Units) :
    (l++u :: rest).takeWhile (· ≠ u)=l ∧ (l++u :: rest).dropWhile (· ≠ u)=u :: rest := by
  have hall : ∀ v ∈ l,decide (v ≠ u)=true:=fun v hv=>decide_eq_true fun he=>h (he ▸ hv)
  constructor
  · rw [takeWhile_append_of_pos hall]
    simp
  · rw [dropWhile_append_of_pos hall]
    simp

theorem quotedRuns_some (run : Units) {l : Units} (h : quote ∉ l) (rest : Units) :
    quotedRuns (some run) (l++quote :: rest)=(run++l) :: quotedRuns none rest := by
  induction l generalizing run with
  | nil=>simp [quotedRuns]
  | cons u l ih =>
    rw [mem_cons,not_or] at h
    rw [cons_append,quotedRuns,if_neg (Ne.symm h.1),ih _ h.2]
    simp

theorem WrittenBatch.runs {part piece : Units} (h : WrittenBatch part piece) (rest : Units) :
    quotedRuns none (piece++rest)=doubled part :: quotedRuns none rest := by
  have hmem : quote ∉ doubled part := by
    simp [doubled,h.bare,mem_replicate]
  rw [h.layout,cons_append,cons_append,quotedRuns,if_pos rfl,append_assoc,singleton_append,
    quotedRuns_some [] hmem,nil_append]

theorem quotedRuns_pieces (h : Forall₂ WrittenBatch args pieces) :
    quotedRuns none (pieces.flatMap (space :: ·))=args.map doubled := by
  induction h with
  | nil=>rfl
  | cons hw _ ih=>rw [flatMap_cons,cons_append,quotedRuns,if_neg space_ne_quote,hw.runs,ih,map_cons]

/-- What `exe_plan` builds reads back as the program and its arguments; what `batch_plan` builds, less
the two outer quotes, has each part inside quotes and reads back as the script and its arguments. -/
theorem command_line_reads_back (program script : Units) (args : List Units) :
    (∀ plan, exePlan program args = .ok plan →
      readCommandLine plan.commandLine = some (program, args)) ∧
    ∀ plan, batchPlan program script args = .ok plan → ∃ rest,
      plan.commandLine = quote :: program ++ quote :: encodeUtf16 " /e:ON /v:OFF /d /c " ++
        quote :: rest ++ [quote, 0] ∧
      quotedRuns none rest = (script :: args).map doubled ∧ readArgs rest = script :: args := by
  constructor
  · intro plan h
    obtain ⟨start,hstart,h⟩:=bind_eq_ok.1 h
    obtain ⟨out,hout,h⟩:=bind_eq_ok.1 h
    obtain ⟨application, -,h⟩:=bind_eq_ok.1 h
    cases h
    obtain ⟨rfl,hnul,hquote⟩:=pushProgram_eq hstart
    obtain ⟨pieces,rfl,hw⟩:=exists_pieces pushArg pushArg_written hout
    have hmem : 0 ∉ quote :: (program++quote :: pieces.flatMap (space :: ·)) := by
      simp only [mem_cons,mem_append,not_or]
      exact ⟨by decide,hnul,by decide,nul_notMem_pieces hw⟩
    have hline : readCommandLine
        (quote :: (program++quote :: pieces.flatMap (space :: ·))++0 :: []) =
          some (program,args) := by
      rw [readCommandLine,(takeWhile_until hmem []).1]
      simp only [if_true,(takeWhile_until hquote _).1,(takeWhile_until hquote _).2,tail_cons,
        readArgs,(Done.new.written hw).at_end,nil_append]
    simpa using hline
  · intro plan h
    obtain ⟨start,hstart,h⟩:=bind_eq_ok.1 h
    obtain ⟨mid,hmid,h⟩:=bind_eq_ok.1 h
    obtain ⟨out,hout,h⟩:=bind_eq_ok.1 h
    obtain ⟨application, -,h⟩:=bind_eq_ok.1 h
    cases h
    obtain ⟨rfl,hnul,hquote⟩:=pushProgram_eq hstart
    obtain ⟨first,rfl,hfirst⟩:=pushBatchPart_written hmid
    obtain ⟨pieces,rfl,hw⟩:=exists_pieces pushBatchPart pushBatchPart_written hout
    refine ⟨first++pieces.flatMap (space :: ·),?_,?_,?_⟩
    · have hswitches : encodeUtf16 " /e:ON /v:OFF /d /c \"" =
          encodeUtf16 " /e:ON /v:OFF /d /c " ++ [quote] := by decide
      simp [hswitches]
    · rw [hfirst.runs,quotedRuns_pieces hw,map_cons]
    · have hdone:=(hfirst.done []).written (hw.imp fun _ _ h=>h.toWritten)
      rw [readArgs,foldl_append]
      exact hdone.at_end

/-- An empty argument, one of a backslash before a quote, and one of a space before a backslash; then a
script and an argument that end in backslashes. -/
theorem command_line_reads_back_slashes :
    (∃ plan, exePlan [0x61, space] [[], [backslash, quote], [space, backslash]] = .ok plan ∧
      readCommandLine plan.commandLine =
        some ([0x61, space], [[], [backslash, quote], [space, backslash]])) ∧
    ∃ plan rest, batchPlan [0x61] [0x62, backslash] [[space, backslash, backslash]] = .ok plan ∧
      plan.commandLine = quote :: [0x61] ++ quote :: encodeUtf16 " /e:ON /v:OFF /d /c " ++
        quote :: rest ++ [quote, 0] ∧
      quotedRuns none rest = [[0x62, backslash, backslash],
        [space, backslash, backslash, backslash, backslash]] ∧
      readArgs rest = [[0x62, backslash], [space, backslash, backslash]] := by
  refine ⟨⟨_,rfl,(command_line_reads_back _ [] _).1 _ rfl⟩,?_⟩
  obtain ⟨rest,hline,hruns,hread⟩ :=
    (command_line_reads_back [0x61] [0x62,backslash] [[space,backslash,backslash]]).2 _ rfl
  exact ⟨_,rest,rfl,hline,hruns,hread⟩

end WindowsThreadpoolSys.JobLauncher
