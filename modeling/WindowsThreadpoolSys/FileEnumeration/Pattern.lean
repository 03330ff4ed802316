import Mathlib.Tactic

/-! Source: `windows-file-enumeration-sys`, `pattern.rs`.

A pattern is a list of tokens, and the matcher backtracks over them. What a pattern means is said
without the matcher: the name is cut into consecutive pieces, one for each token. A code point's
width depends on the unit that follows it, so a piece is always read with what follows it in the
name. -/
namespace WindowsThreadpoolSys.FileEnumeration
open List

/-! ## The matcher -/

abbrev Units := List UInt16

inductive CaseSensitivity
  | sensitive
  | insensitive
deriving DecidableEq

inductive CompareStringOrdinalError
  | tooLong
  | call
deriving DecidableEq

inductive PatternToken
  | literal (units : Units)
  | anyOne
  | anyRun
  | alternation (arms : List (List PatternToken))

abbrev NamePattern := List PatternToken

def isHighSurrogate (unit : UInt16) : Bool := 0xD800 ≤ unit && unit < 0xDC00

def isLowSurrogate (unit : UInt16) : Bool := 0xDC00 ≤ unit && unit < 0xE000

def codePointWidth : Units → Option ℕ
  | [] => none
  | first :: rest => some (if isHighSurrogate first && rest.head?.any isLowSurrogate then 2 else 1)

abbrev Compare := Units → Units → Except CompareStringOrdinalError Ordering

def equalFrom (result : Except CompareStringOrdinalError Ordering) (left right : Units) : Bool :=
  match result with
  | .ok ordering => ordering == .eq
  | .error .tooLong => left == right
  | .error .call => false

def ordinalEqualIgnoringCase (compare : Compare) (left right : Units) : Bool :=
  if left.length ≠ right.length then false else equalFrom (compare left right) left right

def unitsEqual (compare : Compare) (left right : Units) : CaseSensitivity → Bool
  | .sensitive => left == right
  | .insensitive => ordinalEqualIgnoringCase compare left right

def matchLiteralPrefix (compare : Compare) (units literal : Units) (case : CaseSensitivity) : Bool :=
  if units.length < literal.length then false
  else unitsEqual compare (units.take literal.length) literal case

theorem codePointWidth_pos {width : ℕ} (h : codePointWidth units=some width) :
    0 < width ∧ units ≠ [] := by
  cases units with
  | nil=>simp [codePointWidth] at h
  | cons first rest =>
    simp only [codePointWidth,Option.some.injEq] at h
    refine ⟨?_,cons_ne_nil _ _⟩
    split at h <;> omega

/-- The loop of `AnyRun`: the rest of the pattern is tried where the run stops, the shortest first. -/
def matchRun (matchRest : Units → Bool) (remaining : Units) : Bool :=
  if matchRest remaining then true
  else
    match _h : codePointWidth remaining with
    | some width => matchRun matchRest (remaining.drop width)
    | none => false
termination_by remaining.length
decreasing_by
  obtain ⟨hpos, hne⟩ := codePointWidth_pos _h
  have := List.length_pos_iff.mpr hne
  simp only [List.length_drop]
  omega

theorem sizeOf_append (arm rest : NamePattern) : sizeOf (arm++rest)+1=sizeOf arm+sizeOf rest := by
  induction arm with
  | nil=>simp; omega
  | cons token arm ih =>
    simp only [cons_append,List.cons.sizeOf_spec]
    omega

-- An arm is spliced before the tokens that follow, so the recursion is on the tokens' total size.
def matchWith (literalPrefix : Units → Units → Bool) : NamePattern → Units → Bool
  | [], units => units.isEmpty
  | .literal literal :: rest, units =>
    literalPrefix units literal && matchWith literalPrefix rest (units.drop literal.length)
  | .anyOne :: rest, units =>
    match codePointWidth units with
    | some width => matchWith literalPrefix rest (units.drop width)
    | none => false
  | .anyRun :: rest, units => matchRun (matchWith literalPrefix rest) units
  | .alternation arms :: rest, units =>
    arms.attach.any fun arm => matchWith literalPrefix (arm.1 ++ rest) units
termination_by tokens => sizeOf tokens
decreasing_by
  all_goals simp only [List.cons.sizeOf_spec, PatternToken.alternation.sizeOf_spec]
  all_goals try omega
  have := List.sizeOf_lt_of_mem arm.2
  have := sizeOf_append arm.1 rest
  omega

def matchTokens (compare : Compare) (case : CaseSensitivity) : NamePattern → Units → Bool :=
  matchWith fun units literal => matchLiteralPrefix compare units literal case

def NamePattern.matches (compare : Compare) (tokens : NamePattern) (name : Units)
    (case : CaseSensitivity) : Bool :=
  matchTokens compare case tokens name

/-! ## What a pattern means -/

/-- A piece that is one code point where `after` follows it in the name: a valid pair, or one unit
that does not begin one. -/
inductive CodePoint : Units → Units → Prop
  | pair {high low : UInt16} {after : Units} (hhigh : isHighSurrogate high = true)
      (hlow : isLowSurrogate low = true) : CodePoint [high, low] after
  | single {unit : UInt16} {after : Units}
      (h : ¬(isHighSurrogate unit = true ∧ ∃ low ∈ after.head?, isLowSurrogate low = true)) :
      CodePoint [unit] after

inductive CodePoints : Units → Units → Prop
  | nil {after : Units} : CodePoints [] after
  | cons {point piece after : Units} : CodePoint point (piece ++ after) → CodePoints piece after →
      CodePoints (point ++ piece) after

def Takes (same : Units → Units → Prop) : PatternToken → Units → Units → Prop
  | .literal units, piece, _ => piece.length = units.length ∧ same piece units
  | .anyOne, piece, after => CodePoint piece after
  | .anyRun, piece, after => CodePoints piece after
  | .alternation _, _, _ => False

/-- `Cut same seam tokens name after`: where `after` follows it, `name` is cut into one piece for
each token, and `seam` holds of each piece with what follows that piece. -/
inductive Cut (same seam : Units → Units → Prop) : NamePattern → Units → Units → Prop
  | nil {after : Units} : Cut same seam [] [] after
  | plain {token : PatternToken} {rest : NamePattern} {piece name after : Units}
      (htakes : Takes same token piece (name ++ after)) (hseam : seam piece (name ++ after))
      (hrest : Cut same seam rest name after) : Cut same seam (token :: rest) (piece ++ name) after
  | alternation {arms : List NamePattern} {arm rest : NamePattern} {piece name after : Units}
      (hmem : arm ∈ arms) (harm : Cut same seam arm piece (name ++ after))
      (hseam : seam piece (name ++ after)) (hrest : Cut same seam rest name after) :
      Cut same seam (.alternation arms :: rest) (piece ++ name) after

def Same (compare : Compare) (case : CaseSensitivity) (piece literal : Units) : Prop :=
  unitsEqual compare piece literal case = true

/-! ## The matcher finds a cut -/

variable {units after name piece : Units} {compare : Compare} {case : CaseSensitivity}
  {tokens : NamePattern}

theorem codePointWidth_append {point : Units} (h : CodePoint point after) :
    codePointWidth (point++after)=some point.length := by
  cases h with
  | pair hhigh hlow=>simp [codePointWidth,hhigh,hlow]
  | @single unit _ h =>
    simp only [singleton_append,codePointWidth,length_singleton,Option.some.injEq,
      ite_eq_right_iff,Bool.and_eq_true,Option.any_eq_true,and_imp]
    intro hhigh hlow
    exact absurd ⟨hhigh,hlow⟩ h

theorem codePoint_of_width {width : ℕ} (h : codePointWidth units=some width) :
    CodePoint (units.take width) (units.drop width) := by
  cases units with
  | nil=>simp [codePointWidth] at h
  | cons first rest =>
    simp only [codePointWidth,Option.some.injEq] at h
    split at h
    · rename_i hpair
      subst h
      simp only [Bool.and_eq_true,Option.any_eq_true] at hpair
      obtain ⟨hhigh,low,hlow,hislow⟩:=hpair
      cases rest with
      | nil=>simp at hlow
      | cons second rest =>
        obtain rfl:=Option.some.inj hlow
        exact .pair hhigh hislow
    · rename_i hpair
      subst h
      refine .single fun ⟨hhigh,hlow⟩=>hpair ?_
      simpa [hhigh,Option.any_eq_true] using hlow

theorem matchRun_iff {matchRest : Units → Bool} : matchRun matchRest units=true ↔
      ∃ piece rest,units=piece++rest ∧ CodePoints piece rest ∧ matchRest rest=true := by
  constructor
  · intro h
    fun_induction matchRun matchRest units with
    | case1 remaining hrest=>exact ⟨[],remaining,rfl,.nil,hrest⟩
    | case2 remaining hrest width hwidth ih =>
      obtain ⟨piece,rest,hdrop,hpoints,hmatch⟩:=ih h
      have hpoint:=codePoint_of_width hwidth
      rw [hdrop] at hpoint
      refine ⟨remaining.take width++piece,rest,?_,.cons hpoint hpoints,hmatch⟩
      rw [append_assoc,← hdrop,take_append_drop]
    | case3=>exact absurd h (by simp)
  · rintro ⟨piece,rest,rfl,hpoints,hmatch⟩
    induction hpoints with
    | nil =>
      rw [matchRun]
      simp [hmatch]
    | @cons point piece after hpoint _ ih =>
      rw [matchRun]
      split
      · rfl
      · have hwidth:=codePointWidth_append hpoint
        rw [← append_assoc] at hwidth
        split
        · rename_i width hsome
          rw [hwidth,Option.some.injEq] at hsome
          subst hsome
          simpa using ih hmatch
        · rename_i hnone
          rw [hwidth] at hnone
          cases hnone

theorem matchLiteralPrefix_iff {literal : Units} :
    matchLiteralPrefix compare units literal case=true ↔
      literal.length ≤ units.length ∧ Same compare case (units.take literal.length) literal := by
  unfold matchLiteralPrefix Same
  split
  · rename_i h
    simp only [Bool.false_eq_true,false_iff,not_and]
    omega
  · rename_i h
    simp only [iff_and_self]
    omega

section

variable {same seam : Units → Units → Prop} {literalPrefix : Units → Units → Bool}

theorem Cut.split {arm rest : NamePattern} (h : Cut same seam (arm++rest) name after) :
    ∃ piece tail,name=piece++tail ∧ Cut same seam arm piece (tail++after) ∧
      Cut same seam rest tail after := by
  induction arm generalizing name with
  | nil=>exact ⟨[],name,rfl,.nil,h⟩
  | cons token arm ih =>
    cases h with
    | plain htakes hseam hrest =>
      obtain ⟨piece,tail,rfl,harm,hcut⟩:=ih hrest
      rw [append_assoc] at htakes hseam
      exact ⟨_,tail,(append_assoc ..).symm,.plain htakes hseam harm,hcut⟩
    | alternation hmem hinner hseam hrest =>
      obtain ⟨piece,tail,rfl,harm,hcut⟩:=ih hrest
      rw [append_assoc] at hinner hseam
      exact ⟨_,tail,(append_assoc ..).symm,.alternation hmem hinner hseam harm,hcut⟩

/-- A property of boundaries that code points have and that pieces in a row hand on. -/
structure Seam (seam : Units → Units → Prop) : Prop where
  points : ∀ {piece after}, CodePoints piece after → seam piece after
  append : ∀ {piece name after}, seam piece (name ++ after) → seam name after → seam (piece ++ name) after

theorem Cut.ends (hseam : Seam seam) (h : Cut same seam tokens name after) : seam name after := by
  induction h with
  | nil=>exact hseam.points .nil
  | plain _ hpiece _ ih=>exact hseam.append hpiece ih
  | alternation _ _ hpiece _ _ ih=>exact hseam.append hpiece ih

theorem cut_of_matchWith (hseam : Seam seam)
    (hstarts : ∀ {units literal}, literalPrefix units literal=true → literal.length ≤ units.length
      ∧ same (units.take literal.length) literal ∧ seam (units.take literal.length) (units.drop
      literal.length))
    (h : matchWith literalPrefix tokens units=true) :
    Cut same seam tokens units [] := by
  fun_induction matchWith literalPrefix tokens units with
  | case1 units =>
    rw [List.isEmpty_iff] at h
    subst h
    exact .nil
  | case2 literal rest units ih =>
    rw [Bool.and_eq_true] at h
    obtain ⟨hle,hsame,hend⟩:=hstarts h.1
    have hlength : (units.take literal.length).length=literal.length:=by
      rw [length_take]
      omega
    rw [← append_nil (units.drop literal.length)] at hend
    rw [← take_append_drop literal.length units]
    exact .plain ⟨hlength,hsame⟩ hend (ih h.2)
  | case3 rest units width hwidth ih =>
    have hpoint:=codePoint_of_width hwidth
    rw [← append_nil (units.drop width)] at hpoint
    have hpoints : CodePoints (units.take width) (units.drop width++[]) :=
      append_nil (units.take width) ▸ .cons hpoint .nil
    rw [← take_append_drop width units]
    exact .plain hpoint (hseam.points hpoints) (ih h)
  | case4=>exact absurd h (by simp)
  | case5 rest units ih =>
    obtain ⟨piece,tail,rfl,hpoints,htail⟩:=matchRun_iff.mp h
    rw [← append_nil tail] at hpoints
    exact .plain hpoints (hseam.points hpoints) (ih tail htail)
  | case6 arms rest units ih =>
    obtain ⟨arm,_,harm⟩:=any_eq_true.mp h
    obtain ⟨piece,tail,rfl,hcut,hrest⟩:=(ih arm harm).split
    exact .alternation arm.2 hcut (hcut.ends hseam) hrest

/-- A cut followed by a match is a match. The arm of an alternation is matched with what follows it,
so the induction carries the tokens that follow. -/
theorem Cut.matchWith_append
    (hstarts : ∀ {piece literal after},piece.length=literal.length → same piece literal → seam
      piece after → literalPrefix (piece++after) literal=true)
    (h : Cut same seam tokens name after) {rest : NamePattern}
    (hrest : matchWith literalPrefix rest after=true) :
    matchWith literalPrefix (tokens++rest) (name++after)=true := by
  induction h generalizing rest with
  | nil=>exact hrest
  | @plain token _ _ _ _ htakes hseam _ ih =>
    rw [cons_append,append_assoc]
    cases token with
    | literal units =>
      obtain ⟨hlength,hsame⟩:=htakes
      rw [matchWith,Bool.and_eq_true,← hlength,drop_left]
      exact ⟨hstarts hlength hsame hseam,ih hrest⟩
    | anyOne =>
      rw [matchWith,codePointWidth_append htakes]
      simpa using ih hrest
    | anyRun =>
      rw [matchWith]
      exact matchRun_iff.mpr ⟨_,_,rfl,htakes,ih hrest⟩
    | alternation arms=>exact htakes.elim
  | @alternation arms arm _ _ _ _ hmem _ _ _ iharm ih =>
    rw [cons_append,matchWith,append_assoc,any_eq_true]
    exact ⟨⟨arm,hmem⟩,mem_attach _ _,iharm (ih hrest)⟩

theorem Cut.matchWith
    (hstarts : ∀ {piece literal after},piece.length=literal.length → same piece literal → seam
      piece after → literalPrefix (piece++after) literal=true)
    (h : Cut same seam tokens name []) :
    FileEnumeration.matchWith literalPrefix tokens name=true := by
  have hnil : FileEnumeration.matchWith literalPrefix [] []=true:=by
    rw [FileEnumeration.matchWith]
    rfl
  simpa using h.matchWith_append hstarts hnil

theorem matchLiteralPrefix_append {literal : Units} (after : Units)
    (hlength : piece.length=literal.length) (hsame : Same compare case piece literal) :
    matchLiteralPrefix compare (piece++after) literal case=true := by
  rw [matchLiteralPrefix_iff,← hlength,take_left,length_append]
  exact ⟨Nat.le_add_right _ _,hsame⟩

end

/-- A pattern matches a name exactly when the name can be cut into consecutive pieces, one for each
token. That `matches` is a function says that the matcher ends on every input. -/
theorem NamePattern.matches_iff_cut (compare : Compare) (case : CaseSensitivity)
    (tokens : NamePattern) (name : Units) :
    tokens.matches compare name case=true ↔
      Cut (Same compare case) (fun _ _ => True) tokens name [] :=
  ⟨cut_of_matchWith ⟨fun _=>trivial,fun _ _=>trivial⟩ fun h=>by
      simpa [and_comm] using matchLiteralPrefix_iff.mp h,
    Cut.matchWith fun hlength hsame _=>matchLiteralPrefix_append _ hlength hsame⟩

/-! ## Surrogate pairs -/

def endsHigh (units : Units) : Bool := units.getLast?.any isHighSurrogate

/-- The place between `piece` and `after` is inside a valid pair. -/
def splitsPair (piece after : Units) : Bool := endsHigh piece && after.head?.any isLowSurrogate

def Whole (piece after : Units) : Prop := splitsPair piece after = false

/-- The matcher, had it refused a literal that ends between the halves of a pair. -/
def matchWhole (compare : Compare) (case : CaseSensitivity) : NamePattern → Units → Bool :=
  matchWith fun units literal => matchLiteralPrefix compare units literal case &&
    !splitsPair (units.take literal.length) (units.drop literal.length)

theorem CodePoint.whole {point : Units} (h : CodePoint point after) : Whole point after := by
  cases h with
  | @pair high low _ _ hlow =>
    have hnot : isHighSurrogate low=false:=by
      simp only [isHighSurrogate,isLowSurrogate,Bool.and_eq_true,Bool.and_eq_false_iff,
        decide_eq_true_eq,decide_eq_false_iff_not,UInt16.not_lt] at hlow ⊢
      exact .inr hlow.1
    simp [Whole,splitsPair,endsHigh,hnot]
  | @single unit _ h =>
    refine Bool.eq_false_iff.mpr fun hsplits=>h ?_
    simpa [splitsPair,endsHigh,Option.any_eq_true] using hsplits

theorem Whole.append (hpiece : Whole piece (name++after)) (hname : Whole name after) :
    Whole (piece++name) after := by
  cases name with
  | nil=>simpa using hpiece
  | cons unit name =>
    rw [Whole,splitsPair,endsHigh,getLast?_append_of_ne_nil _ (cons_ne_nil _ _)]
    exact hname

theorem CodePoints.whole (h : CodePoints piece after) : Whole piece after := by
  induction h with
  | nil=>rfl
  | cons hpoint _ ih=>exact hpoint.whole.append ih

theorem cut_whole_iff :
    Cut (Same compare case) Whole tokens name [] ↔ matchWhole compare case tokens name=true := by
  constructor
  · refine Cut.matchWith fun {piece literal after} hlength hsame hwhole=>?_
    rw [Bool.and_eq_true,← hlength,take_left,drop_left]
    exact ⟨matchLiteralPrefix_append _ hlength hsame,Bool.not_eq_true' _ ▸ hwhole⟩
  · refine cut_of_matchWith ⟨CodePoints.whole,Whole.append⟩ fun {units literal} h=>?_
    rw [Bool.and_eq_true,matchLiteralPrefix_iff,Bool.not_eq_true'] at h
    exact ⟨h.1.1,h.1.2,h.2⟩

-- A literal that ends the pattern is refused nowhere, whatever its last unit is.
example (compare : Compare) (case : CaseSensitivity) (units name : Units) :
    matchWhole compare case [.literal units] name =
      NamePattern.matches compare [.literal units] name case := by
  simp only [matchWhole,NamePattern.matches,matchTokens,matchWith,splitsPair]
  cases name.drop units.length <;> simp

def exactly : Compare := fun left right => .ok (if left = right then .eq else .lt)

end WindowsThreadpoolSys.FileEnumeration
