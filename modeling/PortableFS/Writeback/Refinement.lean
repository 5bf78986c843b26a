import PortableFS.Writeback.Flights
import PortableFS.Writeback.View

/-!
# Read your writes

The buffer over the remote is a file that every accepted operation changes at once. The remote has
executed what was reported applied and a prefix of the open wave; the overlay shows all records that
are retained, those among them that the remote has already executed included. Executing them once
more over the remote's bytes changes nothing that the later ones do not set, so a read returns what
the file would return.
-/

namespace PortableFS.Writeback

open PortableFS.Base ByteFile Trace List Function

/-- What a piece changes in the bytes of its file. -/
def Piece.edits : Piece → List (Edit UInt8)
  | .byte _ _ pos value => [.write pos [value]]
  | .attr _ _ attrs => if attrs.hasSize then [.resize attrs.size.toNat] else []

theorem Piece.edits_bytes (g : Nat) (o : WriteOptions) (off : Nat) (vs : List UInt8) :
    (bytes g o off vs).flatMap edits = bytesAt off vs := by
  induction vs generalizing off with
  | nil => rfl
  | cons v vs ih =>
    rw [bytes, flatMap_cons, ih]
    rfl

theorem Record.replay_pieces (file : List UInt8) (r : Record) :
    replay file (r.pieces.flatMap Piece.edits) = replay file r.edits := by
  unfold pieces edits
  split
  · rw [Piece.edits_bytes, replay_bytesAt]
    rfl
  · rw [flatMap_singleton]
    rfl

theorem Entry.replay_pieces (file : List UInt8) (e : Entry) :
    replay file (e.pieces.flatMap Piece.edits) = replay file e.edits := by
  unfold pieces edits
  split
  · rw [Piece.edits_bytes, replay_bytesAt]
    rfl
  · rw [flatMap_singleton]
    rfl

private theorem replay_flatMap {ι : Type} {pieces : ι → List Piece} {edits : ι → List (Edit UInt8)}
    (h : ∀ file i, replay file ((pieces i).flatMap Piece.edits) = replay file (edits i))
    (file : List UInt8) (is : List ι) :
    replay file ((is.flatMap pieces).flatMap Piece.edits) = replay file (is.flatMap edits) := by
  induction is generalizing file with
  | nil => rfl
  | cons i is ih =>
    rw [flatMap_cons, flatMap_append, replay_append, h, ih, flatMap_cons, replay_append]

/-- A file that went through a part of the operations, at least the first of them, ends like any other
once the rest of them is applied. -/
private theorem replay_rest (file : List UInt8) {left rest done : List Piece} (hl : left <+: done)
    (hd : done <+: left ++ rest) :
    replay (replay file (done.flatMap Piece.edits)) (rest.flatMap Piece.edits) =
      replay file ((left ++ rest).flatMap Piece.edits) := by
  obtain ⟨more, rfl⟩ := hl
  have hmore : more <+: rest := (prefix_append_right_inj left).mp hd
  have hedits : more.flatMap Piece.edits <+: rest.flatMap Piece.edits := by
    obtain ⟨tail, rfl⟩ := hmore
    exact ⟨tail.flatMap Piece.edits, flatMap_append.symm⟩
  rw [flatMap_append, flatMap_append, replay_append, replay_append, replay_of_prefix _ hedits]

namespace Trace

/-- Idle events report nothing and form no wave. -/
theorem reported_of_idle {new : List Event} (h : ∀ e ∈ new, e.Idle) :
    reported new = [] ∧ tokens new = [] := by
  unfold reported tokens
  rw [flatMap_eq_nil_iff, flatMap_eq_nil_iff]
  constructor <;>
  · intro e he
    have hi := h e he
    cases e with
    | reported es seq => cases hi
    | formed cut es => cases hi
    | _ => rfl

/-- The tokens of the open wave are tokens of the history. -/
theorem openWave_tokens {tr : List Event} {es : List Entry} (h : openWave tr = some es) :
    (es.map Entry.token).Sublist (tokens tr) := by
  induction tr using List.reverseRecOn with
  | nil => cases h
  | append_singleton tr e ih =>
    rw [openWave_append] at h
    rw [tokens_append]
    cases e with
    | formed cut es' =>
      cases h
      exact (append_nil (es.map Entry.token)).symm ▸ sublist_append_right _ _
    | reported es' seq => cases h
    | dropped report => cases h
    | accepted | offered | left => exact (ih h).trans (sublist_append_left _ _)

/-- The wave that is open, or nothing. -/
def wave (tr : List Event) : List Entry := (openWave tr).getD []

end Trace

/-- The remote has executed what was reported and the first `k` operations of the open wave. -/
structure Remote.Executed (content : List UInt8) (tr : List Event) (r : Remote) (k : Nat) : Prop where
  content : r.content =
    replay content ((Trace.reported tr ++ (Trace.wave tr).take k).flatMap Entry.edits)
  before : ∀ e ∈ (Trace.wave tr).take k, e.token ∈ r.executed
  after : ∀ e ∈ (Trace.wave tr).drop k, e.token ∉ r.executed
  inbox : r.inbox = Trace.wave tr ∨ ∀ e ∈ r.inbox, e.token ∈ r.executed
  known : ∀ t ∈ r.executed, t ∈ Trace.tokens tr

namespace Remote.Executed

variable {content : List UInt8} {tr : List Event} {r : Remote} {k : Nat}

/-- Events that neither report nor open a wave. -/
theorem congr {tr' : List Event} (h : r.Executed content tr k) (hr : reported tr' = reported tr)
    (hw : openWave tr' = openWave tr) (ht : tokens tr' = tokens tr) : r.Executed content tr' k := by
  have hwave : wave tr' = wave tr := congrArg (Option.getD · []) hw
  exact ⟨by rw [hr, hwave, h.content], hwave ▸ h.before, hwave ▸ h.after, hwave ▸ h.inbox,
    ht ▸ h.known⟩

variable {new : List Event}

theorem idle (h : r.Executed content tr k) (hn : ∀ e ∈ new, e.Idle) :
    r.Executed content (tr ++ new) k := by
  obtain ⟨hr, ht⟩ := reported_of_idle hn
  refine h.congr ?_ (openWave_of_idle hn tr) ?_
  · rw [reported_append, hr, append_nil]
  · rw [tokens_append, ht, append_nil]

private theorem next (h : r.Executed content tr k) {e : Entry}
    (hfind : (wave tr).find? (fun e => decide (e.token ∉ r.executed)) = some e) :
    (wave tr).drop k = e :: (wave tr).drop (k + 1) ∧
      (wave tr).take (k + 1) = (wave tr).take k ++ [e] := by
  have hnone : ((wave tr).take k).find? (fun e => decide (e.token ∉ r.executed)) = none := by
    rw [List.find?_eq_none]
    intro a ha
    simp [h.before a ha]
  rw [← take_append_drop k (wave tr), List.find?_append, hnone, Option.none_or] at hfind
  cases hrest : (wave tr).drop k with
  | nil =>
    rw [hrest] at hfind
    cases hfind
  | cons a rest =>
    have ha : a.token ∉ r.executed := h.after a (hrest ▸ mem_cons_self)
    rw [hrest, List.find?_cons_of_pos (by simpa using ha)] at hfind
    cases hfind
    have hget : (wave tr)[k]? = some e := by
      rw [← List.head?_drop, hrest]
      rfl
    refine ⟨?_, ?_⟩
    · rw [← drop_drop, hrest]
      rfl
    · rw [take_add_one, hget]
      rfl

variable {payload : Nat}

/-- The remote executes one more operation of the open wave, or has none to execute. -/
theorem execute (h : r.Executed content tr k) (hd : Disciplined payload tr) :
    ∃ k', r.execute.Executed content tr k' := by
  unfold Remote.execute
  split
  · exact ⟨k, h⟩
  next e hfind =>
  have hnew : e.token ∉ r.executed := by simpa using List.find?_some hfind
  rcases h.inbox with hin | hin
  · -- the first operation that was not executed is the next one of the wave
    obtain ⟨hfirst, htake⟩ := h.next (hin ▸ hfind)
    obtain ⟨es, hopen⟩ : ∃ es, openWave tr = some es := by
      cases hw : openWave tr with
      | none =>
        unfold wave at hfirst
        rw [hw] at hfirst
        simp at hfirst
      | some es => exact ⟨es, rfl⟩
    have hwave : wave tr = es := by
      unfold wave
      rw [hopen]
      rfl
    have hsub := openWave_tokens hopen
    have hmem : e ∈ wave tr := mem_of_mem_drop (hfirst ▸ mem_cons_self)
    refine ⟨k + 1, ?_, ?_, ?_, .inl hin, ?_⟩
    · rw [htake, ← append_assoc, flatMap_append, replay_append, ← h.content, flatMap_singleton]
    · rw [htake]
      intro a ha
      rcases mem_append.mp ha with ha | ha
      · exact mem_append_left _ (h.before a ha)
      · rw [mem_singleton.mp ha]
        exact mem_append_right _ mem_cons_self
    · intro a ha hexec
      have hdrop : a ∈ (wave tr).drop k := hfirst ▸ mem_cons_of_mem e ha
      rcases mem_append.mp hexec with hexec | hexec
      · exact h.after a hdrop hexec
      have hlt : ((e :: (wave tr).drop (k + 1)).map Entry.token).Pairwise (· < ·) := by
        rw [← hfirst, hwave]
        exact (hd.tokens_lt.sublist hsub).sublist ((drop_sublist _ _).map _)
      have hbefore := (pairwise_cons.mp hlt).1 a.token (mem_map_of_mem ha)
      rw [mem_singleton.mp hexec] at hbefore
      exact lt_irrefl _ hbefore
    · intro t ht
      rcases mem_append.mp ht with ht | ht
      · exact h.known t ht
      · rw [mem_singleton.mp ht]
        exact hsub.mem (mem_map_of_mem (hwave ▸ hmem))
  · exact absurd (hin e (List.mem_of_find?_eq_some hfind)) hnew

variable {es : List Entry}

/-- A wave is put before the remote: the open one again, or a new one. -/
theorem offer (h : r.Executed content tr k) {cut : Cut}
    (hd : Disciplined payload (tr ++ new ++ [.offered es]))
    (hn : new = [] ∧ openWave tr = some es ∨ new = [.formed cut es] ∧ openWave tr = none) :
    ∃ k', Remote.Executed content (tr ++ new ++ [.offered es]) { r with inbox := es } k' := by
  rcases hn with ⟨rfl, hw⟩ | ⟨rfl, hw⟩
  · have hwave : wave tr = es := by
      unfold wave
      rw [hw]
      rfl
    have hsame : Remote.Executed content tr { r with inbox := es } k :=
      ⟨h.content, h.before, h.after, .inl hwave.symm, h.known⟩
    rw [append_nil]
    refine ⟨k, hsame.congr ?_ ?_ ?_⟩
    · rw [reported_append]
      exact append_nil _
    · rw [openWave_append]
      rfl
    · rw [tokens_append]
      exact append_nil _
  · obtain ⟨-, -, -, -, -, hfresh⟩ := hd.of_append.1.of_append.2
    have hold : wave tr = [] := by
      unfold wave
      rw [hw]
      rfl
    have hcontent := h.content
    rw [hold, take_nil, append_nil] at hcontent
    have hwave : wave (tr ++ [.formed cut es] ++ [.offered es]) = es := by
      unfold wave
      rw [openWave_append, openWave_append]
      rfl
    have hreported : reported (tr ++ [.formed cut es] ++ [.offered es]) = reported tr := by
      rw [reported_append, reported_append]
      simp [reported]
    refine ⟨0, ?_, ?_, ?_, .inl hwave.symm, fun t ht => ?_⟩
    · rw [hreported, take_zero, append_nil]
      exact hcontent
    · rw [take_zero]
      exact forall_mem_nil _
    · rw [hwave, drop_zero]
      exact fun e he hexec => lt_irrefl _ (hfresh _ (h.known _ hexec) e he)
    · rw [tokens_append, tokens_append]
      exact mem_append_left _ (mem_append_left _ (h.known t ht))

/-- The open wave is reported after the remote is through with it. -/
theorem report (h : r.Executed content tr k) (hw : openWave tr = some es)
    (ht : r.through es = true) (seq : Nat) : r.Executed content (tr ++ [.reported es seq]) 0 := by
  have hwave : wave tr = es := by
    unfold wave
    rw [hw]
    rfl
  have hdone : ∀ e ∈ es, e.token ∈ r.executed :=
    fun e he => of_decide_eq_true (all_eq_true.mp ht e he)
  have hall : (wave tr).take k = es := by
    have hnil : (wave tr).drop k = [] := by
      rw [eq_nil_iff_forall_not_mem]
      intro e he
      exact h.after e he (hdone e (hwave ▸ mem_of_mem_drop he))
    have hsplit := take_append_drop k (wave tr)
    rw [hnil, append_nil] at hsplit
    rw [hsplit, hwave]
  have hclosed : wave (tr ++ [.reported es seq]) = [] := by
    unfold wave
    rw [openWave_append]
    rfl
  have hreported : reported (tr ++ [.reported es seq]) = reported tr ++ es := by
    rw [reported_append]
    simp [reported]
  refine ⟨?_, ?_, ?_, .inr fun e he => ?_, fun t ht => ?_⟩
  · rw [hreported, hclosed, take_nil, append_nil, h.content, hall]
  · rw [take_zero]
    exact forall_mem_nil _
  · rw [hclosed, drop_nil]
    exact forall_mem_nil _
  · rcases h.inbox with hin | hin
    · exact hdone e (hwave ▸ hin ▸ he)
    · exact hin e he
  · rw [tokens_append]
    exact mem_append_left _ (h.known t ht)

end Remote.Executed

variable {r : Remote} {id : Identity}

/-- The overlay over the remote's bytes shows all accepted operations. -/
theorem Local.replay_edits {payload : Nat} {m : Mount} {l : Ledger}
    (h : Local payload m id l) (hlaid : ∀ r ∈ l.queue, r.inOverlay = true)
    (hnodrop : ∀ report, Event.dropped report ∉ m.trace id) {content : List UInt8} {k : Nat}
    (hr : r.Executed content (m.trace id) k) :
    replay r.content l.edits = replay content ((accepted (m.trace id)).flatMap Record.edits) := by
  have hepoch := epoch_eq_self hnodrop
  have hrecords := h.stream.records
  have hstream := h.stream.stream
  have hreported := h.stream.reported_eq
  rw [hepoch] at hrecords hstream hreported
  have hshown : l.shown = l.queue.map Retained.record := by
    unfold Ledger.shown
    rw [filter_eq_self.mpr hlaid]
  -- what the remote executed: a prefix of what was accepted
  have hwave : ((wave (m.trace id)).flatMap Entry.pieces) <+: Wave.ahead l.todo l.flushOffset := by
    unfold wave
    rw [h.stream.wave]
    cases hp : l.pending with
    | none => exact nil_prefix
    | some p =>
      obtain ⟨-, taken, rest, hc⟩ := h.stream.carries p hp
      exact ⟨_, hc.pieces⟩
  have hdone : (reported (m.trace id) ++ (wave (m.trace id)).take k).flatMap Entry.pieces <+:
      (left (m.trace id)).flatMap Record.pieces ++ l.shown.flatMap Record.pieces := by
    rw [← flatMap_append, hshown, ← hrecords, ← hstream, flatMap_append]
    refine (prefix_append_right_inj _).mpr (List.IsPrefix.trans ?_ hwave)
    obtain ⟨tail, htail⟩ := take_prefix k (wave (m.trace id))
    exact ⟨tail.flatMap Entry.pieces, by rw [← flatMap_append, htail]⟩
  -- all records that left were reported
  have hleft : (left (m.trace id)).flatMap Record.pieces <+:
      (reported (m.trace id) ++ (wave (m.trace id)).take k).flatMap Entry.pieces := by
    rw [flatMap_append, hreported, flatMap_append, append_assoc, append_assoc]
    exact prefix_append _ _
  have hrest := replay_rest content hleft hdone
  rw [← flatMap_append, hshown, ← hrecords, replay_flatMap Record.replay_pieces,
    replay_flatMap Record.replay_pieces, replay_flatMap Entry.replay_pieces, ← hr.content,
    ← hshown] at hrest
  exact hrest

variable {b : Buffer}

/-- A read of the buffer over bytes that do not change meanwhile. -/
theorem Buffer.Inv.read_eq (h : b.Inv) (id : Identity) (content : List UInt8) {off length : Int}
    (hoff : 0 ≤ off) (hlength : 0 ≤ length) (hmax : length ≤ maxInt64 - off) :
    b.read false id off length (fetchFrom content) =
      .ok (((replay content (b.ledger id).edits).drop off.toNat).take length.toNat) := by
  have hl := h.books id
  have hs := h.sized id
  unfold Buffer.read
  rw [if_neg (by omega), if_neg Bool.false_ne_true]
  split
  · next h0 =>
    rw [h0]
    rfl
  dsimp only
  split
  · next hexact =>
    have hlen := hs.length_eq hl.overlay hl.queue content
    rw [show (b.ledger id).exact = true from hexact.1, if_pos rfl] at hlen
    rw [drop_of_length_le (hlen ▸ hexact.2), take_nil]
  · exact File.readOver_eq hs hl.overlay hl.queue id content (by omega)

theorem Buffer.Inv.size_eq (h : b.Inv) (id : Identity) (content : List UInt8) :
    b.size id content.length = (replay content (b.ledger id).edits).length := by
  have hl := h.books id
  rw [(h.sized id).length_eq hl.overlay hl.queue content]
  unfold Buffer.size Buffer.ledger Buffer.fileOf
  cases b.files.lookup id with
  | none => exact (Nat.max_zero _).symm
  | some f => rfl

/-- The call neither drops records nor takes them out of the overlay. -/
def Op.Retains : Op → Prop
  | .drop _ _ _ => False
  | .dropAll _ _ => False
  | .forget _ => False
  | .detachOverlay _ => False
  | _ => True

namespace System

/-- The remote and the overlay together have every accepted operation. -/
structure Mirrors (content : Identity → List UInt8) (s : System) : Prop where
  flights : s.Flights
  laid : s.buffer.Laid
  lossless : ∀ id, ∀ e ∈ s.buffer.mount.trace id, e.Lossless
  remote : ∀ id, ∃ k, (s.remote id).Executed (content id) (s.buffer.mount.trace id) k

variable {content : Identity → List UInt8} {b' : Buffer}

private theorem lossless_quiet (h : ∀ id, ∀ e ∈ b.mount.trace id, e.Lossless)
    (hq : b.Quiet Event.Lossless b') : ∀ id, ∀ e ∈ b'.mount.trace id, e.Lossless := by
  intro id e he
  obtain ⟨new, heq, hnew⟩ := hq.mount.trace id
  rw [heq] at he
  exact (mem_append.mp he).elim (h id e) (hnew e)

private theorem executed_idle {c : List UInt8} (h : ∃ k, r.Executed c (b.mount.trace id) k)
    (hq : b.Quiet Event.Idle b') : ∃ k, r.Executed c (b'.mount.trace id) k := by
  obtain ⟨k, hk⟩ := h
  obtain ⟨new, heq, hnew⟩ := hq.mount.trace id
  rw [heq]
  exact ⟨k, hk.idle hnew⟩

variable {s : System} {s' : System}

private theorem Mirrors.move (h : s.Mirrors content) (hi : s.Inv) {call : Nat}
    {fl : Flight} (hl : s.flights.lookup call = some fl) {phase : Option Phase}
    (hm : FlightMove s.buffer (s.remote fl.id) fl s'.buffer phase r)
    (hr : s'.remote = update s.remote fl.id r) (id : Identity) :
    ∃ k, (s'.remote id).Executed (content id) (s'.buffer.mount.trace id) k := by
  have hb := hi.buffer
  have hinv := (hm.flies hb).inv
  -- it is enough to look at the remote of the file
  have hsame : r = s.remote fl.id → s'.remote = s.remote := by
    rintro rfl
    rw [hr, update_eq_self]
  have hother : id ≠ fl.id → s'.buffer.mount.trace id = s.buffer.mount.trace id →
      ∃ k, (s'.remote id).Executed (content id) (s'.buffer.mount.trace id) k := by
    intro hne htrace
    rw [hr, update_of_ne hne, htrace]
    exact h.remote id
  generalize hbuf : s'.buffer = b' at hm hinv hother ⊢
  cases hm with
  | awake cancelled hp =>
    rw [hsame rfl, (s.buffer.flushAwake_spec cancelled fl.id).1]
    exact h.remote id
  | @offer cancelled applied applied' floor entries hp hn =>
    rcases Buffer.flushNext_spec hb cancelled fl.id fl.cut applied with ⟨_, _, heq⟩ |
      ⟨_, _, es, new, hphase, -, hne, hown, hwave⟩
    · rw [heq] at hn
      cases hn
    rw [hphase] at hn
    cases hn
    by_cases hid : id = fl.id
    · subst hid
      have hd := (hinv.books fl.id).stream.disciplined
      obtain ⟨k, hk⟩ := h.remote fl.id
      rw [hr, update_self]
      rw [hown] at hd ⊢
      exact hk.offer hd hwave
    · exact hother hid (hne id hid)
  | @give cancelled applied applied' error hp hn =>
    rcases Buffer.flushNext_spec hb cancelled fl.id fl.cut applied with ⟨_, _, heq⟩ |
      ⟨_, _, _, _, hphase, -⟩
    · rw [hsame rfl, heq]
      exact h.remote id
    · rw [hphase] at hn
      cases hn
  | @back result applied floor entries hp ht =>
    rw [hsame rfl]
    rcases Buffer.flushReturn_spec hb fl.id fl.cut applied floor entries result with ⟨_, _, heq⟩ |
      ⟨applied', es, seq, b₁, hok, hopen, -, hkeeps, -, hown, hne⟩
    · rw [heq]
      exact h.remote id
    refine executed_idle ?_ hkeeps.quiet
    by_cases hid : id = fl.id
    · subst hid
      obtain ⟨k, hk⟩ := h.remote fl.id
      -- what the transport was called with is the wave that is open
      have hes : entries = es := by
        rcases h.flights.sending call fl applied floor entries hl hp with hw | hw
        · rw [hw] at hopen
          cases hopen
        · rw [hw] at hopen
          exact Option.some.inj hopen
      rw [hown]
      exact ⟨0, hk.report hopen (hes ▸ ht hok) seq⟩
    · rw [hne id hid]
      exact h.remote id
  | finish hp =>
    rw [hsame rfl, (s.buffer.flushFinish_spec fl.id).1]
    exact h.remote id
  | leave hp hn =>
    rw [hsame rfl]
    exact executed_idle (h.remote id) (hb.flushLeave_keeps fl.id).quiet
  | last hp =>
    rw [hsame rfl]
    exact executed_idle (h.remote id) (hb.jobEnd_keeps fl.id).quiet

theorem Outcome.mirrors {op : Op} (ho : Outcome s op s') (hi : s.Inv)
    (ha : op.Retains) (h : s.Mirrors content) : s'.Mirrors content := by
  have hflights := ho.flights hi h.flights
  have hb := hi.buffer
  cases ho with
  | keeps hk hf hr he =>
    refine ⟨hflights, hk.laid h.laid, lossless_quiet h.lossless hk.flies.quiet, fun id => ?_⟩
    rw [hr]
    exact executed_idle (h.remote id) hk.quiet
  | detach | drop | dropAll | forget => exact absurd ha fun hc => hc
  | beginBarrier | endBarrier => exact ⟨hflights, h.laid, h.lossless, h.remote⟩
  | enter call fl hfree hb' hp hf hr he =>
    have hk := hb.flushEnter_flies fl.id
    have hmount := (s.buffer.flushEnter_spec fl.id).1
    rw [← hb'] at hk hmount
    refine ⟨hflights, hk.laid h.laid, lossless_quiet h.lossless hk.quiet, fun id => ?_⟩
    rw [hr, hmount]
    exact h.remote id
  | flight call fl hl hm hf hr he =>
    have hk := hm.flies hb
    exact ⟨hflights, hk.laid h.laid, lossless_quiet h.lossless hk.quiet, h.move hi hl hm hr⟩
  | execute id =>
    refine ⟨hflights, h.laid, h.lossless, fun id' => ?_⟩
    obtain ⟨k, hk⟩ := h.remote id'
    by_cases hid : id' = id
    · subst hid
      dsimp only
      rw [update_self]
      exact hk.execute (hb.books id').stream.disciplined
    · dsimp only
      rw [update_of_ne hid]
      exact ⟨k, hk⟩

theorem mirrors_init {width payload : Int} {opts : Options}
    (h : Buffer.new width payload opts = .ok b) : (init b content).Mirrors content := by
  have hempty : b.files = ∅ ∧ b.mount.trace = fun _ => [] := by
    unfold Buffer.new at h
    split at h
    · cases h
    · split at h
      · cases h
      · cases h
        exact ⟨rfl, rfl⟩
  refine ⟨flights_init b content, fun id r hr => ?_, fun id e he => ?_, fun id => ⟨0, ?_⟩⟩
  · unfold Buffer.ledger Buffer.fileOf at hr
    rw [show (init b content).buffer.files = ∅ from hempty.1] at hr
    cases hr
  · rw [show (init b content).buffer.mount.trace = fun _ => [] from hempty.2] at he
    cases he
  · rw [show (init b content).buffer.mount.trace = fun _ => [] from hempty.2]
    exact ⟨rfl, forall_mem_nil _, forall_mem_nil _, .inl rfl, forall_mem_nil _⟩

/-- The remote and the overlay have every accepted operation in every state that is reached without
drops. -/
theorem Reachable.mirrors (h : Reachable Op.Retains content s) : s.Mirrors content := by
  obtain ⟨width, payload, opts, b, hnew, hr⟩ := h
  exact (hr.invariant (inv_init hnew content) (mirrors_init hnew)
    fun _ _ _ hi ha ho hm => ho.mirrors hi ha hm).2

/-- Read your writes: while nothing is dropped, forgotten or detached, a read over the remote's bytes
returns what the file would return after all accepted operations in the order of their acceptance,
and so does `Size` over the remote's size. -/
theorem read_your_writes {s : System} (h : Reachable Op.Retains content s) (id : Identity) :
    let file := replay (content id) ((Trace.accepted (s.buffer.mount.trace id)).flatMap Record.edits)
    s.buffer.size id (s.remote id).content.length = file.length ∧
      ∀ off length : Int, 0 ≤ off → 0 ≤ length → length ≤ maxInt64 - off →
        s.buffer.read false id off length (fetchFrom (s.remote id).content) =
          .ok ((file.drop off.toNat).take length.toNat) := by
  have hb := h.inv.buffer
  have hm := h.mirrors
  obtain ⟨k, hk⟩ := hm.remote id
  have hnodrop : ∀ report, Event.dropped report ∉ s.buffer.mount.trace id :=
    fun report hmem => hm.lossless id _ hmem
  have hfile := (hb.books id).replay_edits (hm.laid id) hnodrop hk
  refine ⟨?_, fun off length hoff hlength hmax => ?_⟩
  · rw [← hfile]
    exact hb.size_eq id _
  · rw [← hfile]
    exact hb.read_eq id _ hoff hlength hmax

/-- A write that is durable and gone, a truncation that the remote has executed but not reported, and
a write behind the end that was not sent. -/
private def behindTheEnd : List Op :=
  [.write caller 7 0 0 [1, 2, 3, 4] .none, .flush 0 7 ⟨9, 0⟩, .flushNext 0 false, .execute 7,
    .flushReturn 0 (.ok [5]), .visible 5, .durable 5, .truncate caller 7 0 2,
    .write caller 7 0 3 [9] .none, .flushNext 0 false, .execute 7]

theorem read_your_writes_behindTheEnd :
    let s := smallAfter behindTheEnd
    (s.remote 7).content = [1, 2] ∧ s.buffer.size 7 (s.remote 7).content.length = 4 ∧
      s.buffer.read false 7 0 10 (fetchFrom (s.remote 7).content) = .ok [1, 2, 0, 9] := by
  have hreach : Reachable Op.Retains (fun _ => []) (smallAfter behindTheEnd) :=
    reachable_smallAfter (by decide) (by simp [behindTheEnd, Op.Retains])
  obtain ⟨hsize, hread⟩ := read_your_writes hreach 7
  have hfile : replay [] ((accepted ((smallAfter behindTheEnd).buffer.mount.trace 7)).flatMap
      Record.edits) = [1, 2, 0, 9] := by decide
  rw [hfile] at hsize hread
  exact ⟨by decide, hsize, hread 0 10 (by decide) (by decide) (by decide)⟩

end System
end PortableFS.Writeback
