import WindowsThreadpoolSys.DurableIoring.Durability.Run
import WindowsThreadpoolSys.DurableIoring.Proof.SealQueue
import WindowsThreadpoolSys.DurableIoring.Proof.Specs

/-! The invariant of the durability core, in families. Each family names the tables it is about and no
others, so that a transition that leaves those tables alone keeps it as it stands. `Inv` gathers
them. -/
namespace WindowsThreadpoolSys.DurableIoring
open Library

variable {E T I : Type} [LinearOrder E]

/-! ## Records and clocks -/

/-- Every record is under its own key, and an operation has one record. -/
structure KeysOk (writes : Table OpId (Write E T)) (held : Table OpId (HeldOp E T))
    (seals : Seals E) (kept : Kept E) : Prop where
  write_key : ∀ op w, writes.get op = some w → w.op = op
  held_key : ∀ op h, held.get op = some h → h.op = op
  held_write_key : ∀ op h a, held.get op = some h → h.write = some a → a.op = op
  seal_key : ∀ k s, seals.get k = some s → s.seq = k.seq
  kept_key : ∀ op g, kept.get op = some g → g.op = op
  write_not_held : ∀ op w, writes.get op = some w → held.get op = none
  kept_not_write : ∀ op g, kept.get op = some g → writes.get op = none
  kept_not_held : ∀ op g, kept.get op = some g → held.get op = none

/-- What the push, failure and lineage clocks have passed. -/
structure ClocksOk (writes : Table OpId (Write E T)) (held : Table OpId (HeldOp E T)) (kept : Kept E)
    (lineages : Table Key (LineageState E)) (nextPush nextFailure : ℕ) (nextLineage : Key) :
    Prop where
  write_clock : ∀ op w, writes.get op = some w → op < nextPush ∧ w.born ≤ nextFailure
  held_clock : ∀ op h a, held.get op = some h → h.write = some a → op < nextPush
  kept_clock : ∀ op g, kept.get op = some g →
    op < nextPush ∧ g.born ≤ nextFailure ∧ g.until_ ≤ nextFailure
  lineage_clock : ∀ l st, lineages.get l = some st → l < nextLineage

/-! ## Counts -/

def isInFlightAt (l : Key) (e : E) (w : Write E T) : Bool :=
  decide (w.lineage = l) && decide (w.epoch = e) && decide (w.stage = .inFlight)

theorem isInFlightAt_iff {l : Key} {e : E} {w : Write E T} :
    isInFlightAt l e w=true ↔ (l=w.lineage ∧ e=w.epoch) ∧ w.stage=.inFlight := by
  simp [isInFlightAt,@eq_comm _ l,@eq_comm _ e]

def isHeldAt (l : Key) (e : E) (h : HeldOp E T) : Bool :=
  h.write.any fun a => decide (a.lineage = l) && decide (a.epoch = e)

theorem isHeldAt_iff {l : Key} {e : E} {h : HeldOp E T} :
    isHeldAt l e h=true ↔ ∃ a,h.write=some a ∧ l=a.lineage ∧ e=a.epoch := by
  cases hw : h.write <;> simp [isHeldAt,hw,@eq_comm _ l,@eq_comm _ e]

/-- The per-epoch counts count the writes in flight and the held writes, and the gated writes are
the held writes still waiting for their gates. -/
structure CountsOk (writes : Table OpId (Write E T)) (held : Table OpId (HeldOp E T))
    (inFlightByEpoch heldByEpoch : Counts E) (gated : Table (GatedKey E) (Gate E)) : Prop where
  inFlight_proper : inFlightByEpoch.Proper
  held_proper : heldByEpoch.Proper
  inFlight_count : ∀ l e, inFlightByEpoch.countAt l e = writes.count fun _ w => isInFlightAt l e w
  held_count : ∀ l e, heldByEpoch.countAt l e = held.count fun _ h => isHeldAt l e h
  gated_iff : ∀ k g, gated.get k = some g ↔ ∃ h a, held.get k.op = some h ∧ h.ready = false ∧
    h.write = some a ∧ a.lineage = k.lineage ∧ a.epoch = k.epoch ∧ h.gate = g

/-- The span entries count the uncovered writes, and an entry of no seal has asked for nothing. -/
structure SpansOk (writes : Table OpId (Write E T)) (spans : Spans) : Prop where
  proper : spans.Proper
  count : ∀ key, spans.writesAt key = writes.count fun _ w => decide (w.spanKey = key)
  unsealed_entry : ∀ l file entry, spans.get ⟨l, file, .unsealed⟩ = some entry → entry.flushed = false
  answered_flushed : ∀ key entry, spans.get key = some entry → entry.answered = true → entry.flushed = true
  ok_answered : ∀ key entry, spans.get key = some entry → entry.ok = true → entry.answered = true

/-! ## Lineages and their records -/

/-- Every record's lineage is there, and has stopped the write if it has ended. -/
structure LivesOk (lineages : Table Key (LineageState E)) (writes : Table OpId (Write E T))
    (seals : Seals E) (sealDomains : SealDomains) (served : List DomainId) (nextFailure : ℕ) :
    Prop where
  default_live : ∃ st, lineages.get defaultLineage = some st ∧ st.ended = false
  write_lineage : ∀ op w, writes.get op = some w → ∃ st, lineages.get w.lineage = some st ∧
    (st.ended = false → w.until_ = none) ∧
    (st.ended = true → ∃ u, w.until_ = some u ∧ u ≤ nextFailure)
  seal_lineage : ∀ k s, seals.get k = some s → ∃ st, lineages.get k.lineage = some st ∧
    k.seq < st.nextSeal
  domain_seal : ∀ k part, sealDomains.get k = some part → k.domain ∈ served ∧
    ∃ s, seals.get ⟨k.lineage, k.seq⟩ = some s ∧ s.stage ≠ .waiting

/-- What an ended lineage leaves: its writes in flight, and the seals and writes of its flushes still
out. Nothing is held for it, waits for it, or is abandoned in it. -/
structure EndsOk (lineages : Table Key (LineageState E)) (writes : Table OpId (Write E T))
    (held : Table OpId (HeldOp E T)) (seals : Seals E) (spans : Spans)
    (abandoned : Table (EpochKey E) OpId) : Prop where
  ended_write : ∀ op w st, writes.get op = some w → lineages.get w.lineage = some st →
    st.ended = true → w.stage = .inFlight ∨ ∃ q entry, w.stage = .named q ∧
      spans.get ⟨w.lineage, w.file, .sealed q⟩ = some entry ∧ entry.flushed = true ∧
      entry.answered = false
  ended_seal : ∀ k s st, seals.get k = some s → lineages.get k.lineage = some st →
    st.ended = true → s.trailing = none ∧ ∃ n failed, s.stage = .flushing n failed ∧ 0 < n
  held_lineage : ∀ op h a, held.get op = some h → h.write = some a →
    ∃ st, lineages.get a.lineage = some st ∧ st.ended = false
  gate_lineage : ∀ op h, held.get op = some h → h.ready = false →
    ∃ st, lineages.get h.gate.lineage = some st ∧ st.ended = false ∧
      above st.durableThrough h.gate.epoch = true
  abandoned_lineage : ∀ k op, abandoned.get k = some op → ∃ st, lineages.get k.lineage = some st ∧
    st.ended = false ∧ above st.durableThrough k.epoch = true

/-! ## The mark and the seals -/

/-- An epoch not yet named: above the mark, and, at or below the seal point, left to a recorded seal
still waiting. -/
def OpenAt (xs : List (Slot E)) (durable sealed : Option E) (epoch : E) : Prop :=
  above durable epoch = true ∧
    (¬above sealed epoch = true → ∃ s, covering xs epoch = some (.recorded s) ∧ s.stage = .waiting)

/-- An epoch named to seal `q`: above the mark, and the seal, which has started, is the first at or
above it. -/
def NamedAt (xs : List (Slot E)) (durable : Option E) (epoch : E) (q : ℕ) : Prop :=
  above durable epoch = true ∧
    ∃ s, covering xs epoch = some (.recorded s) ∧ s.seq = q ∧ s.stage ≠ .waiting

def StageOk (xs : List (Slot E)) (durable sealed : Option E) (epoch : E) : Stage → Prop
  | .inFlight => OpenAt xs durable sealed epoch
  | .completed => OpenAt xs durable sealed epoch
  | .named q => NamedAt xs durable epoch q

structure LineageOk (l : Key) (st : LineageState E) (seals : Seals E)
    (writes : Table OpId (Write E T)) (held : Table OpId (HeldOp E T)) (sealsMade : ℕ) : Prop where
  queue : QueueOk (slots st.leading (sealsOf seals l)) st.durableThrough st.sealedThrough
  made_lt : ∀ x ∈ slots st.leading (sealsOf seals l), x.made < sealsMade
  write_at : ∀ op w, writes.get op = some w → w.lineage = l →
    StageOk (slots st.leading (sealsOf seals l)) st.durableThrough st.sealedThrough w.epoch w.stage
  held_at : ∀ op h a, held.get op = some h → h.write = some a → a.lineage = l →
    OpenAt (slots st.leading (sealsOf seals l)) st.durableThrough st.sealedThrough a.epoch

def MarksOk (lineages : Table Key (LineageState E)) (seals : Seals E)
    (writes : Table OpId (Write E T)) (held : Table OpId (HeldOp E T)) (sealsMade : ℕ) : Prop :=
  ∀ l st, lineages.get l = some st → st.ended = false → LineageOk l st seals writes held sealsMade

/-! ## The parts of a seal -/

def isOut (l : Key) (q : ℕ) (k : SpanKey) (entry : SpanFile) : Bool :=
  decide (k.lineage = l) && decide (k.span = .sealed q) && entry.flushed && !entry.answered

/-- How a seal's stage counts its parts, and which parts its writes depend on. -/
structure PartsOk (lineages : Table Key (LineageState E)) (seals : Seals E) (spans : Spans)
    (sealDomains : SealDomains) (writes : Table OpId (Write E T)) (lists : DomainLists)
    (served : List DomainId) : Prop where
  flushing : ∀ k s n failed, seals.get k = some s → s.stage = .flushing n failed →
    n = spans.count fun key entry => isOut k.lineage k.seq key entry
  done_file : ∀ k s ok, seals.get k = some s → s.stage = .done ok → ∀ file entry,
    spans.get ⟨k.lineage, file, .sealed k.seq⟩ = some entry → entry.flushed = true →
      entry.answered = true
  done_domain : ∀ k s ok, seals.get k = some s → s.stage = .done ok → ∀ domain part,
    sealDomains.get ⟨k.lineage, k.seq, domain⟩ = some part → part.answered = true
  named_seal : ∀ op w q, writes.get op = some w → w.stage = .named q →
    ∃ s, seals.get ⟨w.lineage, q⟩ = some s ∧ s.stage ≠ .waiting
  named_flush : ∀ op w q, writes.get op = some w → w.stage = .named q → w.routing.default = true →
    ∃ entry, spans.get ⟨w.lineage, w.file, .sealed q⟩ = some entry ∧ entry.flushed = true
  flushed_default : ∀ op w q entry, writes.get op = some w → w.stage = .named q →
    spans.get ⟨w.lineage, w.file, .sealed q⟩ = some entry → entry.flushed = true →
    w.routing.default = true
  named_asked : ∀ op w q st, writes.get op = some w → w.stage = .named q →
    lineages.get w.lineage = some st → st.ended = false → w.routing.provider = true →
    ∀ domain ∈ lists.get w.domains, domain ∈ served →
      ∃ part, sealDomains.get ⟨w.lineage, q, domain⟩ = some part
  asked_write : ∀ k part st, sealDomains.get k = some part → part.answered = false →
    lineages.get k.lineage = some st → st.ended = false →
    ∃ op w, writes.get op = some w ∧ w.lineage = k.lineage ∧ w.stage = .named k.seq ∧
      k.domain ∈ lists.get w.domains
  part_ok : ∀ k part, sealDomains.get k = some part → part.ok = true → part.answered = true
  failed_answered : ∀ k s, seals.get k = some s → s.stage.hasFailed = true → s.answered = true

/-- Every part of seal `q` that `w` depends on has answered success. -/
def CoveredBy (spans : Spans) (sealDomains : SealDomains) (lists : DomainLists)
    (served : List DomainId) (w : Write E T) (q : ℕ) : Prop :=
  (w.routing.default = true → ∃ entry, spans.get ⟨w.lineage, w.file, .sealed q⟩ = some entry ∧
    entry.ok = true) ∧
  ∀ domain ∈ lists.get w.domains, domain ∈ served →
    ∃ part, sealDomains.get ⟨w.lineage, q, domain⟩ = some part ∧ part.ok = true

def CoverOk (lineages : Table Key (LineageState E)) (spans : Spans) (sealDomains : SealDomains)
    (writes : Table OpId (Write E T)) (lists : DomainLists) (served : List DomainId) : Prop :=
  ∀ op w q st, writes.get op = some w → w.stage = .named q → lineages.get w.lineage = some st →
    st.ended = false → ¬CoveredBy spans sealDomains lists served w q

/-- A write of a live lineage, and a held write, is routed as its file is, and the writes of a
lineage to one file name one domain list. -/
structure FilesOk (lineages : Table Key (LineageState E)) (writes : Table OpId (Write E T))
    (held : Table OpId (HeldOp E T)) (spans : Spans) (lists : DomainLists)
    (served : List DomainId) : Prop where
  served_sorted : served.Pairwise (· < ·)
  write_routed : ∀ op w st, writes.get op = some w → lineages.get w.lineage = some st →
    st.ended = false → w.routing = routing (lists.get w.domains) served
  held_routed : ∀ op h a, held.get op = some h → h.write = some a →
    a.routing = routing (lists.get a.domains) served
  same_write : ∀ op w op' w', writes.get op = some w → writes.get op' = some w' →
    w.lineage = w'.lineage → w.file = w'.file → w.domains = w'.domains
  same_held : ∀ op w op' h a, writes.get op = some w → held.get op' = some h → h.write = some a →
    w.lineage = a.lineage → w.file = a.file → w.domains = a.domains
  held_same : ∀ op h a op' h' a', held.get op = some h → h.write = some a → held.get op' = some h' →
    h'.write = some a' → a.lineage = a'.lineage → a.file = a'.file → a.domains = a'.domains
  entry_domains : ∀ op w e, writes.get op = some w → spans.get w.spanKey = some e → e.domains = w.domains

/-! ## Failures, places and tokens -/

/-- A failure's rule names what observation listed, over the records a live lineage or a failure
still reads. -/
structure SuspectsOk (failures : List (Failure I)) (writes : Table OpId (Write E T)) (kept : Kept E)
    (lists : DomainLists) (lineages : Table Key (LineageState E)) (nextFailure : ℕ)
    (instance_ : InstanceId) : Prop where
  order : failures.Pairwise fun f g => f.id.seq < g.id.seq
  clock : ∀ f ∈ failures, f.id.seq < nextFailure ∧ f.id.instance_ = instance_
  listed_sorted : ∀ f ∈ failures, f.listed.Pairwise (· < ·)
  write_named : ∀ f ∈ failures, ∀ op w st, writes.get op = some w → lineages.get w.lineage = some st →
    (st.ended = false ∨ ∃ g ∈ failures, op ∈ g.listed) →
      (w.namedBy lists f = true ↔ op ∈ f.listed)
  kept_named : ∀ f ∈ failures, ∀ op g, kept.get op = some g → (g.namedBy lists f = true ↔ op ∈ f.listed)
  listed_record : ∀ f ∈ failures, ∀ op ∈ f.listed, (∃ w, writes.get op = some w) ∨ ∃ g, kept.get op = some g
  kept_listed : ∀ op g, kept.get op = some g → ∃ f ∈ failures, op ∈ f.listed

structure WindowOk (window : Window) (writes : Table OpId (Write E T))
    (held : Table OpId (HeldOp E T)) (kept : Kept E) (failures : List (Failure I)) (seals : Seals E)
    (abandoned : Table (EpochKey E) OpId) (operations : ℕ) : Prop where
  proper : window.Proper
  size_le : window.size ≤ operations
  held_level : ∀ op h, held.get op = some h → window.level op .operation = 1
  uncovered_level : ∀ op, window.level op .uncovered = if (writes.get op).isSome then 1 else 0
  suspect_level : ∀ op, window.level op .suspect = failures.countP fun f => decide (op ∈ f.listed)
  pin_level : ∀ op, window.level op .pin = seals.count fun _ s => decide (s.pin = some op)
  abandoned_level : ∀ op, window.level op .abandoned = abandoned.count fun _ v => decide (v = op)
  seal_pin : ∀ k s, seals.get k = some s → ∃ op, s.pin = some op ∧
    (∀ w, writes.get op = some w → w.lineage = k.lineage ∧ w.epoch ≤ s.through) ∧
    ∀ h, held.get op = some h → ∃ a, h.write = some a ∧ a.lineage = k.lineage ∧ a.epoch ≤ s.through
  abandoned_pin : ∀ k op, abandoned.get k = some op →
    held.get op = none ∧
    (∀ w, writes.get op = some w → w.lineage = k.lineage ∧ w.epoch = k.epoch) ∧
    ∀ g, kept.get op = some g → g.lineage = k.lineage ∧ g.epoch = k.epoch

structure TokensOk (failures : List (Failure I)) (tokens : List TokenSlot) (freeTokens : List ℕ) :
    Prop where
  slot : ∀ f ∈ failures, f.token < tokens.length ∧ f.token ∉ freeTokens
  free : freeTokens.Nodup ∧ ∀ slot ∈ freeTokens, slot < tokens.length
  distinct : failures.Pairwise fun f g => f.token ≠ g.token
  live_open : ∀ slot n, tokens[slot]? = some { failure := n, live := true } →
    ∃ f ∈ failures, f.id.seq = n ∧ f.token = slot ∧ f.standing = .open

/-! ## The invariant -/

/-- What the core keeps, apart from its places, what its ended lineages leave, and that the covered
writes are gone: the transitions that restore those only at their end read this meanwhile. -/
structure TablesOk (d : Durability E T I) : Prop where
  keys : KeysOk d.writes d.held d.seals d.kept
  clocks : ClocksOk d.writes d.held d.kept d.lineages d.nextPush d.nextFailure d.nextLineage
  counts : CountsOk d.writes d.held d.inFlightByEpoch d.heldByEpoch d.gated
  spans : SpansOk d.writes d.spans
  lives : LivesOk d.lineages d.writes d.seals d.sealDomains d.served d.nextFailure
  marks : MarksOk d.lineages d.seals d.writes d.held d.sealsMade
  parts : PartsOk d.lineages d.seals d.spans d.sealDomains d.writes d.lists d.served
  files : FilesOk d.lineages d.writes d.held d.spans d.lists d.served
  suspects : SuspectsOk d.failures d.writes d.kept d.lists d.lineages d.nextFailure d.instance_
  tokens : TokensOk d.failures d.tokens d.freeTokens

structure Inv (d : Durability E T I) : Prop extends TablesOk d where
  cover : CoverOk d.lineages d.spans d.sealDomains d.writes d.lists d.served
  ends : EndsOk d.lineages d.writes d.held d.seals d.spans d.abandoned
  window : WindowOk d.window d.writes d.held d.kept d.failures d.seals d.abandoned
    d.capacity.operations

end WindowsThreadpoolSys.DurableIoring
