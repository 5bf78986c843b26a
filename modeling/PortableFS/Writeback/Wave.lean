import PortableFS.Writeback.Buffer

/-!
# Waves

Module `writeback`, `vcs/internal/writeback/wave.go`. A wave takes the next accepted operations of
a file and splits or joins their bytes into at most a few transport writes. Its meaning is the
sequence of pieces it carries, and that is the next part of the pieces of the accepted records.
-/

namespace PortableFS.Writeback

open List

/-- The queue before the record that `accepted` names. -/
def Ledger.settled (f : Ledger) : List Retained :=
  match f.accepted with
  | none => f.queue
  | some seq => f.queue.takeWhile fun r => decide (r.record.seq ≠ seq)

/-- The queue from the record that `accepted` names on. -/
def Ledger.unsettled (f : Ledger) : List Retained :=
  match f.accepted with
  | none => []
  | some seq => f.queue.dropWhile fun r => decide (r.record.seq ≠ seq)

/-- The records that are not applied, oldest first. -/
def Ledger.todo (f : Ledger) : List Record := f.unsettled.map Retained.record

/-- Add a span to a transport write; `wave.go:40–49`. -/
def Entry.addSpan (e : Entry) (spans : Nat) (piece : List UInt8) : Entry :=
  let spread :=
    if spans = 0 then (some piece, e.segments)
    else if e.segments.isEmpty then (none, [e.data.getD [], piece])
    else (e.data, e.segments ++ [piece])
  { e with data := spread.1, segments := spread.2 }

/-- Where the formation of a wave stands: the records that follow, the offset in the first of them,
the write that is being filled and the last record taken completely. -/
structure Fill where
  rest : List Record
  off : Nat
  entry : Entry
  used : Nat
  spans : Nat
  completedLast : Option Nat

namespace Wave

/-- The closure `eligible` of `wave.go:28–30` at a record. -/
def eligible (cut : Cut) (generation : Nat) (options : WriteOptions) (r : Record) : Bool :=
  decide (r.seq ≤ cut.sequence) && decide (r.kind = .write) && decide (r.generation = generation) &&
    decide (r.writeOptions = options)

/-- Take one span from the first record; `wave.go:37–57`. -/
def span (payload : Nat) (s : Fill) (r : Record) (rest : List Record) : Fill :=
  let stop := min r.data.length (s.off + payload - s.used)
  let piece := (r.data.take stop).drop s.off
  let entry := { s.entry.addSpan s.spans piece with last := r.seq }
  if stop = r.data.length then
    { rest, off := 0, entry := { entry with appliedThrough := r.seq }, used := s.used + piece.length
      spans := s.spans + 1, completedLast := some r.seq }
  else { s with off := stop, entry, used := s.used + piece.length, spans := s.spans + 1 }

/-- Fill one transport write; `wave.go:36–58`. The rounds are the spans that are left. -/
def fill (payload : Nat) (ok : Record → Bool) : Nat → Fill → Fill
  | 0, s => s
  | n + 1, s =>
    match s.rest with
    | [] => s
    | r :: rest =>
      if ok r && decide (s.used < payload) && decide (r.off + s.off = s.entry.offset + s.used) then
        fill payload ok n (span payload s r rest)
      else s

/-- The write that `wave.go:34` starts with. -/
def start (token : Nat) (r : Record) (off : Nat) : Entry :=
  { token, first := r.seq, last := 0, generation := r.generation, appliedThrough := 0, kind := .write
    offset := r.off + off, data := none, segments := [], attributes := .none
    writeOptions := r.writeOptions }

/-- The writes of a wave with what they leave; `wave.go:32–60`. The rounds are the writes that the
width still admits. -/
def entries (payload : Nat) (ok : Record → Bool) :
    Nat → Nat → List Record → Nat → Option Nat → List Entry × List Record × Nat × Option Nat
  | 0, _, rest, off, completedLast => ([], rest, off, completedLast)
  | n + 1, token, rest, off, completedLast =>
    match rest with
    | [] => ([], rest, off, completedLast)
    | r :: _ =>
      if ok r then
        let s := fill payload ok 64 ⟨rest, off, start (token + 1) r off, 0, 0, completedLast⟩
        let more := entries payload ok n (token + 1) s.rest s.off s.completedLast
        (s.entry :: more.1, more.2)
      else ([], rest, off, completedLast)

/-- The entry of a record that is not a write; `wave.go:18`. -/
def alone (token : Nat) (r : Record) : Entry :=
  { token, first := r.seq, last := r.seq, generation := r.generation, appliedThrough := r.seq
    kind := r.kind, offset := 0, data := none, segments := [], attributes := r.attrs
    writeOptions := .none }

/-- The next wave for a cut, with the token counter after it; `wave.go:8–64`. -/
def form (width payload token : Nat) (f : Ledger) (cut : Cut) : Option (Batch × Nat) :=
  match f.todo with
  | [] => none
  | r :: rest =>
    if r.seq ≤ cut.sequence then
      if r.kind = .write then
        let ok := eligible cut r.generation r.writeOptions
        let wave := entries payload ok width token (r :: rest) f.flushOffset none
        some ({ completedLast := wave.2.2.2, endOffset := wave.2.2.1, entries := wave.1
                first := r.seq, applied := 0 }, token + wave.1.length)
      else
        some ({ completedLast := some r.seq, endOffset := 0, entries := [alone (token + 1) r]
                first := r.seq, applied := 0 }, token + 1)
    else none

end Wave

/-- The smallest parts of the operations of a file: one byte of a write at its position, or one
change of attributes. -/
inductive Piece
  | byte (generation : Nat) (options : WriteOptions) (pos : Nat) (value : UInt8)
  | attr (generation : Nat) (kind : Kind) (attrs : Attributes)
deriving DecidableEq, Repr

/-- The pieces of consecutive bytes. -/
def Piece.bytes (generation : Nat) (options : WriteOptions) : Nat → List UInt8 → List Piece
  | _, [] => []
  | off, v :: vs => .byte generation options off v :: bytes generation options (off + 1) vs

/-- What a record asks for. -/
def Record.pieces (r : Record) : List Piece :=
  if r.kind = .write then Piece.bytes r.generation r.writeOptions r.off r.data
  else [.attr r.generation r.kind r.attrs]

/-- What a transport operation does. -/
def Entry.pieces (e : Entry) : List Piece :=
  if e.kind = .write then Piece.bytes e.generation e.writeOptions e.offset e.payload
  else [.attr e.generation e.kind e.attributes]

variable (g : Nat) (o : WriteOptions)

theorem Piece.bytes_append (off : Nat) (vs ws : List UInt8) :
    bytes g o off (vs ++ ws) = bytes g o off vs ++ bytes g o (off + vs.length) ws := by
  induction vs generalizing off with
  | nil => rfl
  | cons v vs ih =>
    simp only [cons_append, bytes, ih, length_cons]
    congr 3
    omega

theorem Piece.length_bytes (off : Nat) (vs : List UInt8) :
    (bytes g o off vs).length = vs.length := by
  induction vs generalizing off with
  | nil => rfl
  | cons v vs ih => simp only [bytes, length_cons, ih]

theorem Piece.drop_bytes (off n : Nat) (vs : List UInt8) (hn : n ≤ vs.length) :
    (bytes g o off vs).drop n = bytes g o (off + n) (vs.drop n) := by
  have h := bytes_append g o off (vs.take n) (vs.drop n)
  rw [take_append_drop, length_take, Nat.min_eq_left hn] at h
  rw [h, drop_append_of_le_length (by rw [length_bytes, length_take]; omega),
    drop_of_length_le (by rw [length_bytes, length_take]; omega), nil_append]

/-- The offset lies inside the first record, which is then a write. -/
def Wave.OffsetOk (rest : List Record) (off : Nat) : Prop :=
  off = 0 ∨ ∃ r tail, rest = r :: tail ∧ r.kind = .write ∧ off < r.data.length

/-- The pieces from an offset in the first record on. -/
def Wave.ahead (rest : List Record) (off : Nat) : List Piece := (rest.flatMap Record.pieces).drop off

namespace Wave

/-- The offset lies inside the first record, which may then join the wave. -/
def Aligned (ok : Record → Bool) (rest : List Record) (off : Nat) : Prop :=
  off = 0 ∨ ∃ r tail, rest = r :: tail ∧ ok r = true ∧ off < r.data.length

/-- The records that were taken completely, and the name of the last of them. -/
def Took (ok : Record → Bool) (rest rest' : List Record) (done done' : Option Nat) : Prop :=
  ∃ taken, rest = taken ++ rest' ∧ (∀ r ∈ taken, ok r = true) ∧
    done' = (taken.getLast?.map Record.seq).or done

variable {ok : Record → Bool} {rest : List Record} {done : Option Nat}

theorem Took.refl : Took ok rest rest done done :=
  ⟨[], rfl, by simp, by simp⟩

theorem Took.trans {rest' rest'' : List Record} {done' done'' : Option Nat}
    (h : Took ok rest rest' done done') (h' : Took ok rest' rest'' done' done'') :
    Took ok rest rest'' done done'' := by
  obtain ⟨ts, rfl, hts, rfl⟩ := h
  obtain ⟨us, rfl, hus, rfl⟩ := h'
  refine ⟨ts ++ us, by rw [append_assoc], ?_, ?_⟩
  · intro r hr
    exact (mem_append.mp hr).elim (hts r) (hus r)
  · rw [List.getLast?_append, ← Option.or_assoc]
    cases us.getLast? <;> rfl

/-- What filling a write keeps: nothing is lost between the write and the records that follow. -/
structure Filling (ok : Record → Bool) (payload : Nat) (s₀ s : Fill) : Prop where
  took : Took ok s₀.rest s.rest s₀.completedLast s.completedLast
  aligned : Aligned ok s.rest s.off
  kind : s.entry.kind = .write
  token : s.entry.token = s₀.entry.token
  first : s.entry.first = s₀.entry.first
  generation : s.entry.generation = s₀.entry.generation
  options : s.entry.writeOptions = s₀.entry.writeOptions
  offset : s.entry.offset = s₀.entry.offset
  pieces : s.entry.pieces ++ ahead s.rest s.off = s₀.entry.pieces ++ ahead s₀.rest s₀.off
  used : s.entry.payload.length = s.used
  bounded : s.used ≤ payload
  fresh : s.spans = 0 → s.entry.segments = [] ∧ s.entry.payload = []

variable {e : Entry} {spans : Nat}

private theorem payload_addSpan
    (h : spans = 0 → e.segments = [] ∧ e.payload = []) (piece : List UInt8) :
    (e.addSpan spans piece).payload = e.payload ++ piece := by
  unfold Entry.addSpan Entry.payload
  by_cases h0 : spans = 0
  · obtain ⟨hs, hp⟩ := h h0
    rw [Entry.payload, hs] at hp
    simp only [h0, hs, if_true] at hp ⊢
    simpa using hp
  · by_cases hs : e.segments = []
    · simp [h0, hs]
    · simp [h0, hs]

private theorem pieces_addSpan (hk : e.kind = .write)
    (h : spans = 0 → e.segments = [] ∧ e.payload = []) (piece : List UInt8) :
    (e.addSpan spans piece).pieces =
      e.pieces ++ Piece.bytes e.generation e.writeOptions (e.offset + e.payload.length) piece := by
  have hp := payload_addSpan h piece
  have hl : (e.addSpan spans piece).pieces =
      Piece.bytes e.generation e.writeOptions e.offset (e.addSpan spans piece).payload := if_pos hk
  have hr : e.pieces = Piece.bytes e.generation e.writeOptions e.offset e.payload := if_pos hk
  rw [hl, hr, hp, Piece.bytes_append]

variable {off : Nat} {r : Record}

theorem ahead_cons_write (hk : r.kind = .write) (rest : List Record) (hoff : off ≤ r.data.length) :
    ahead (r :: rest) off =
      Piece.bytes r.generation r.writeOptions (r.off + off) (r.data.drop off) ++ ahead rest 0 := by
  have hp : r.pieces = Piece.bytes r.generation r.writeOptions r.off r.data := if_pos hk
  unfold ahead
  rw [flatMap_cons, hp, drop_append_of_le_length (by rwa [Piece.length_bytes]),
    Piece.drop_bytes _ _ _ _ _ hoff, drop_zero]

/-- Every record that may join the wave is a write of one generation with one set of options. -/
def Uniform (ok : Record → Bool) (generation : Nat) (options : WriteOptions) : Prop :=
  ∀ r, ok r = true → r.kind = .write ∧ r.generation = generation ∧ r.writeOptions = options

theorem uniform_eligible (cut : Cut) (generation : Nat) (options : WriteOptions) :
    Uniform (eligible cut generation options) generation options := by
  intro r hr
  simp only [eligible, Bool.and_eq_true, decide_eq_true_eq] at hr
  exact ⟨hr.1.1.2, hr.1.2, hr.2⟩

private theorem bytes_split (base : Nat) (data : List UInt8)
    {stop : Nat} (h1 : off ≤ stop) (h2 : stop ≤ data.length) :
    Piece.bytes g o (base + off) (data.drop off) =
      Piece.bytes g o (base + off) ((data.take stop).drop off) ++
        Piece.bytes g o (base + stop) (data.drop stop) := by
  have hsplit : data.drop off = (data.take stop).drop off ++ data.drop stop := by
    rw [drop_take]
    have h := (take_append_drop (stop - off) (data.drop off)).symm
    rwa [drop_drop, Nat.add_sub_cancel' h1] at h
  have hlen : base + off + ((data.take stop).drop off).length = base + stop := by
    rw [length_drop, length_take]
    omega
  rw [hsplit, Piece.bytes_append, hlen]

variable {payload : Nat} {s : Fill} {s₀ : Fill}

/-- One span keeps the books. -/
theorem Filling.step (h : Filling ok payload s₀ s)
    (hu : Uniform ok s₀.entry.generation s₀.entry.writeOptions) (hrest : s.rest = r :: rest)
    (hr : ok r = true) (hused : s.used < payload) (hadj : r.off + s.off = s.entry.offset + s.used) :
    Filling ok payload s₀ (span payload s r rest) := by
  obtain ⟨hk, hg, ho⟩ := hu r hr
  have hoff : s.off ≤ r.data.length := by
    rcases h.aligned with h0 | ⟨r', tail, heq, -, hlt⟩
    · omega
    · rw [hrest, List.cons.injEq] at heq
      rw [heq.1]
      omega
  generalize hstop : min r.data.length (s.off + payload - s.used) = stop
  have h1 : s.off ≤ stop := by omega
  have h2 : stop ≤ r.data.length := by omega
  have hlen : ((r.data.take stop).drop s.off).length = stop - s.off := by
    rw [length_drop, length_take]
    omega
  have hpay := payload_addSpan h.fresh ((r.data.take stop).drop s.off)
  have hpieces : (s.entry.addSpan s.spans ((r.data.take stop).drop s.off)).pieces ++
      (Piece.bytes r.generation r.writeOptions (r.off + stop) (r.data.drop stop) ++ ahead rest 0) =
      s₀.entry.pieces ++ ahead s₀.rest s₀.off := by
    rw [← h.pieces, pieces_addSpan h.kind h.fresh, hrest, ahead_cons_write hk rest hoff,
      bytes_split r.generation r.writeOptions r.off r.data h1 h2, h.used, ← hadj, h.generation,
      h.options, hg, ho]
    simp only [append_assoc]
  have hused' : (s.entry.payload ++ (r.data.take stop).drop s.off).length =
      s.used + ((r.data.take stop).drop s.off).length := by
    rw [length_append, h.used]
  have hbound : s.used + ((r.data.take stop).drop s.off).length ≤ payload := by omega
  unfold span
  simp only [hstop]
  split
  · next hend =>
    rw [drop_of_length_le (Nat.le_of_eq hend.symm)] at hpieces
    exact { h with
        took := h.took.trans ⟨[r], hrest, by simpa using hr, rfl⟩
        aligned := .inl rfl
        pieces := hpieces
        used := (congrArg List.length hpay).trans hused'
        bounded := hbound
        fresh := fun h0 => absurd h0 (Nat.succ_ne_zero _) }
  · next hend =>
    have hahead : ahead s.rest stop =
        Piece.bytes r.generation r.writeOptions (r.off + stop) (r.data.drop stop) ++ ahead rest 0 := by
      rw [hrest, ahead_cons_write hk rest h2]
    rw [← hahead] at hpieces
    exact { h with
        aligned := .inr ⟨r, rest, hrest, hr, Nat.lt_of_le_of_ne h2 hend⟩
        pieces := hpieces
        used := (congrArg List.length hpay).trans hused'
        bounded := hbound
        fresh := fun h0 => absurd h0 (Nat.succ_ne_zero _) }

/-- The whole loop keeps the books. -/
theorem Filling.fill (hu : Uniform ok s₀.entry.generation s₀.entry.writeOptions)
    (n : Nat) (h : Filling ok payload s₀ s) : Filling ok payload s₀ (fill payload ok n s) := by
  induction n generalizing s with
  | zero => exact h
  | succ n ih =>
    unfold Wave.fill
    split
    · exact h
    next r rest hrest =>
    split
    · next hc =>
      simp only [Bool.and_eq_true, decide_eq_true_eq] at hc
      exact ih (h.step hu hrest hc.1.1 hc.1.2 hc.2)
    · exact h

/-- The write ends with a record that may join the wave. -/
def EndsIn (ok : Record → Bool) (e : Entry) : Prop := ∃ r, ok r = true ∧ e.last = r.seq

private theorem endsIn_span (payload : Nat) (s : Fill) (hr : ok r = true)
    (rest : List Record) : EndsIn ok (span payload s r rest).entry := by
  unfold span
  dsimp only
  split <;> exact ⟨r, hr, rfl⟩

private theorem endsIn_fill (payload n : Nat) (h : EndsIn ok s.entry) :
    EndsIn ok (fill payload ok n s).entry := by
  induction n generalizing s with
  | zero => exact h
  | succ n ih =>
    unfold Wave.fill
    split
    · exact h
    split
    · next hc =>
      simp only [Bool.and_eq_true] at hc
      exact ih (endsIn_span payload s hc.1.1 _)
    · exact h

/-- A write of a wave: one generation, one set of options, no more bytes than negotiated, and
names of records that may join. -/
structure WriteOk (ok : Record → Bool) (generation : Nat) (options : WriteOptions) (payload : Nat)
    (e : Entry) : Prop where
  kind : e.kind = .write
  generation : e.generation = generation
  options : e.writeOptions = options
  bounded : e.payload.length ≤ payload
  first : ∃ r, ok r = true ∧ e.first = r.seq
  last : EndsIn ok e

/-- What forming the writes of a wave keeps. -/
structure Formed (ok : Record → Bool) (generation : Nat) (options : WriteOptions) (payload token : Nat)
    (rest : List Record) (off : Nat) (done : Option Nat)
    (out : List Entry × List Record × Nat × Option Nat) : Prop where
  took : Took ok rest out.2.1 done out.2.2.2
  aligned : Aligned ok out.2.1 out.2.2.1
  pieces : out.1.flatMap Entry.pieces ++ ahead out.2.1 out.2.2.1 = ahead rest off
  tokens : out.1.map Entry.token = List.range' (token + 1) out.1.length
  writes : ∀ e ∈ out.1, WriteOk ok generation options payload e

theorem Formed.refl {g : Nat} {o : WriteOptions} {token : Nat}
    (h : Aligned ok rest off) : Formed ok g o payload token rest off done ([], rest, off, done) :=
  ⟨.refl, h, rfl, rfl, by simp⟩

theorem formed_entries {g : Nat} {o : WriteOptions} (hu : Uniform ok g o) (hp : 0 < payload)
    (n token : Nat) (done : Option Nat) (h : Aligned ok rest off) :
    Formed ok g o payload token rest off done (entries payload ok n token rest off done) := by
  induction n generalizing token rest off done with
  | zero => exact .refl h
  | succ n ih =>
    unfold Wave.entries
    split
    · exact .refl h
    next r rest =>
    split
    · next hr =>
      obtain ⟨hk, rfl, rfl⟩ := hu r hr
      generalize hs₀ : (⟨r :: rest, off, start (token + 1) r off, 0, 0, done⟩ : Fill) = s₀
      have h₀ : Filling ok payload s₀ s₀ := by
        subst hs₀
        exact ⟨.refl, h, rfl, rfl, rfl, rfl, rfl, rfl, rfl, rfl, Nat.zero_le _, fun _ => ⟨rfl, rfl⟩⟩
      have hu₀ : Uniform ok s₀.entry.generation s₀.entry.writeOptions := by
        subst hs₀
        exact hu
      have hf := h₀.fill hu₀ 64
      have hlast : EndsIn ok (fill payload ok 64 s₀).entry := by
        subst hs₀
        unfold Wave.fill
        dsimp only
        rw [if_pos (by simp [hr, hp, start])]
        exact endsIn_fill payload 63 (endsIn_span payload _ hr rest)
      have hmore := ih (token + 1) (fill payload ok 64 s₀).completedLast hf.aligned
      have hempty : s₀.entry.pieces = [] := by subst hs₀; rfl
      refine ⟨?_, hmore.aligned, ?_, ?_, ?_⟩
      · have htook := hf.took.trans hmore.took
        subst hs₀
        exact htook
      · have hpieces := hf.pieces
        rw [hempty, nil_append] at hpieces
        dsimp only
        rw [flatMap_cons, append_assoc, hmore.pieces, hpieces]
        subst hs₀
        rfl
      · dsimp only
        rw [map_cons, hmore.tokens, length_cons, List.range'_succ, hf.token]
        subst hs₀
        rfl
      intro e he
      rcases mem_cons.mp he with rfl | he
      · subst hs₀
        exact ⟨hf.kind, hf.generation, hf.options, hf.used ▸ hf.bounded, ⟨r, hr, hf.first⟩, hlast⟩
      · exact hmore.writes e he
    · exact .refl h

end Wave

/-- A retained wave: it carries what comes next of the records that are not applied, and it knows
how many of them it completes and where it stops in the one that follows. -/
structure Batch.Carries (p : Batch) (todo : List Record) (off : Nat) (taken rest : List Record) :
    Prop where
  split : todo = taken ++ rest
  last : p.completedLast = taken.getLast?.map Record.seq
  first : todo.head?.map Record.seq = some p.first
  stop : Wave.OffsetOk rest p.endOffset
  pieces : p.entries.flatMap Entry.pieces ++ Wave.ahead rest p.endOffset = Wave.ahead todo off
  nonempty : p.entries ≠ []

/-- The shape of a new wave: a change of attributes alone, or writes of one generation with one
set of options; no record past the cut. -/
inductive WaveShape (payload : Nat) (cut : Cut) : List Entry → Prop
  | alone (e : Entry) (hk : e.kind ≠ .write) (hf : e.first = e.last) (hl : e.last ≤ cut.sequence) :
      WaveShape payload cut [e]
  | writes (es : List Entry) (generation : Nat) (options : WriteOptions)
      (h : ∀ e ∈ es, e.kind = .write ∧ e.generation = generation ∧ e.writeOptions = options ∧
        e.payload.length ≤ payload ∧ e.first ≤ cut.sequence ∧ e.last ≤ cut.sequence) :
      WaveShape payload cut es

namespace Wave

variable {off : Nat} {P : List Piece}

private theorem eq_drop_of_append_eq {U V : List Piece}
    (h : P ++ V = (U ++ V).drop off) : P = U.drop off := by
  have hlen := congrArg List.length h
  rw [length_append, length_drop, length_append] at hlen
  by_cases hoff : off ≤ U.length
  · rw [drop_append_of_le_length hoff] at h
    exact append_cancel_right h
  · rw [drop_of_length_le (by omega)]
    exact length_eq_zero_iff.mp (by omega)

variable {ok : Record → Bool} {rest : List Record}

/-- What a wave carries comes from records that may join it. -/
theorem prefix_ahead_filter {keep : Record → Bool} {g : Nat} {o : WriteOptions}
    (hu : Uniform ok g o) (hkeep : ∀ r, ok r = true → keep r = true) {taken : List Record}
    (htaken : ∀ r ∈ taken, ok r = true) {stop : Nat} (hal : Aligned ok rest stop)
 (hP : P ++ ahead rest stop = ahead (taken ++ rest) off) :
    P <+: ahead ((taken ++ rest).filter keep) off := by
  have hU : P = (taken.flatMap Record.pieces ++ (rest.flatMap Record.pieces).take stop).drop off := by
    apply eq_drop_of_append_eq (V := (rest.flatMap Record.pieces).drop stop)
    rw [append_assoc, take_append_drop, ← flatMap_append]
    exact hP
  have hstop : (rest.flatMap Record.pieces).take stop <+:
      (rest.filter keep).flatMap Record.pieces := by
    rcases hal with rfl | ⟨r, tail, rfl, hr, hlt⟩
    · rw [take_zero]
      exact nil_prefix
    have hp : r.pieces.length = r.data.length := by
      rw [Record.pieces, if_pos (hu r hr).1, Piece.length_bytes]
    rw [filter_cons_of_pos (hkeep r hr), flatMap_cons, flatMap_cons,
      take_append_of_le_length (by omega)]
    exact (List.take_prefix _ _).trans (prefix_append _ _)
  have hfilter : (taken ++ rest).filter keep = taken ++ rest.filter keep := by
    rw [filter_append, filter_eq_self.mpr fun r hr => hkeep r (htaken r hr)]
  rw [hU, hfilter]
  unfold ahead
  rw [flatMap_append]
  obtain ⟨more, hmore⟩ := (prefix_append_right_inj (taken.flatMap Record.pieces)).mpr hstop
  exact ⟨_, (hmore ▸ drop_append).symm⟩

theorem Aligned.offsetOk {g : Nat} {o : WriteOptions} (hu : Uniform ok g o)
 (h : Aligned ok rest off) : OffsetOk rest off := by
  rcases h with h | ⟨r, tail, h, hr, hlt⟩
  · exact .inl h
  · exact .inr ⟨r, tail, h, (hu r hr).1, hlt⟩

/-- What a new wave is. -/
structure New (payload token : Nat) (f : Ledger) (cut : Cut) (p : Batch) (token' : Nat) : Prop where
  carries : ∃ taken rest, p.Carries f.todo f.flushOffset taken rest
  shape : WaveShape payload cut p.entries
  tokens : p.entries.map Entry.token = List.range' (token + 1) p.entries.length
  token : token' = token + p.entries.length
  within : p.entries.flatMap Entry.pieces <+:
    ahead (f.todo.filter fun r => decide (r.seq ≤ cut.sequence)) f.flushOffset
  applied : p.applied = 0
  reached : p.first ≤ cut.sequence

theorem form_spec {width payload token : Nat} (hw : 0 < width) (hp : 0 < payload) {f : Ledger}
    {cut : Cut} (hoff : OffsetOk f.todo f.flushOffset) {p : Batch} {token' : Nat}
    (h : form width payload token f cut = some (p, token')) : New payload token f cut p token' := by
  unfold form at h
  split at h
  · cases h
  next r rest htodo =>
  split at h
  · next hcut =>
    split at h
    · next hk =>
      have hu := uniform_eligible cut r.generation r.writeOptions
      have hr : eligible cut r.generation r.writeOptions r = true := by simp [eligible, hcut, hk]
      have hal : Aligned (eligible cut r.generation r.writeOptions) (r :: rest) f.flushOffset := by
        rcases hoff with h0 | ⟨r', tail, heq, -, hlt⟩
        · exact .inl h0
        · rw [htodo, List.cons.injEq] at heq
          exact .inr ⟨r, rest, rfl, hr, heq.1 ▸ hlt⟩
      have hf := formed_entries hu hp width token none hal
      have hne : (entries payload (eligible cut r.generation r.writeOptions) width token
          (r :: rest) f.flushOffset none).1 ≠ [] := by
        obtain ⟨n, rfl⟩ : ∃ n, width = n + 1 := ⟨width - 1, by omega⟩
        unfold entries
        simp only [hr, if_true]
        exact cons_ne_nil _ _
      dsimp only at h
      generalize entries payload (eligible cut r.generation r.writeOptions) width token
        (r :: rest) f.flushOffset none = out at hf hne h
      obtain ⟨rfl, rfl⟩ := Prod.mk.inj (Option.some.inj h)
      obtain ⟨taken, hsplit, htaken, hlast⟩ := hf.took
      have hle : ∀ a, eligible cut r.generation r.writeOptions a = true → a.seq ≤ cut.sequence := by
        intro a ha
        simp only [eligible, Bool.and_eq_true, decide_eq_true_eq] at ha
        exact ha.1.1.1
      refine ⟨⟨taken, out.2.1, ?_⟩, ?_, hf.tokens, rfl, ?_, rfl, hcut⟩
      · refine ⟨htodo.trans hsplit, ?_, by rw [htodo]; rfl, hf.aligned.offsetOk hu, ?_, hne⟩
        · rw [hlast, Option.or_none]
        · rw [htodo]
          exact hf.pieces
      · refine .writes _ r.generation r.writeOptions fun e he => ?_
        have hw := hf.writes e he
        obtain ⟨a, ha, hfirst⟩ := hw.first
        obtain ⟨c, hc, hlast⟩ := hw.last
        exact ⟨hw.kind, hw.generation, hw.options, hw.bounded, hfirst ▸ hle a ha, hlast ▸ hle c hc⟩
      · rw [htodo, hsplit]
        refine prefix_ahead_filter hu (fun a ha => decide_eq_true (hle a ha)) htaken hf.aligned ?_
        rw [← hsplit]
        exact hf.pieces
    · next hk =>
      obtain ⟨rfl, rfl⟩ := Prod.mk.inj (Option.some.inj h)
      have hoff0 : f.flushOffset = 0 := by
        rcases hoff with h0 | ⟨r', tail, heq, hk', -⟩
        · exact h0
        · rw [htodo, List.cons.injEq] at heq
          exact absurd (heq.1 ▸ hk') hk
      have hpieces : (alone (token + 1) r).pieces = r.pieces := by
        simp only [Entry.pieces, Record.pieces, alone, hk, if_false]
      refine ⟨⟨[r], rest, htodo, rfl, by rw [htodo]; rfl, .inl rfl, ?_, by simp⟩,
        .alone _ hk rfl hcut, rfl, rfl, ?_, rfl, hcut⟩
      · rw [htodo, hoff0]
        simp only [ahead, flatMap_cons, flatMap_nil, append_nil, drop_zero, hpieces]
      · rw [htodo, hoff0, filter_cons_of_pos (by simp [hcut])]
        simp only [ahead, flatMap_cons, flatMap_nil, append_nil, drop_zero, hpieces]
        exact prefix_append _ _
  · cases h

end Wave
end PortableFS.Writeback
