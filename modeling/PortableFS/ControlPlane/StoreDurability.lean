import PortableFS.ControlPlane.Store

/-!
# What the manager's state file keeps through failures and crashes

`vcs/internal/controlplane/store.go:152` (`load`), `:287` (`transact`) and `:368` (`compactLocked`).
A file is read as a chain of records up to a torn one. As long as no transaction appends behind
bytes that a failed one left, or to a file whose rename is not synced, every crash leaves a file that
opens with the last acknowledged state or a later one that was written.
-/

namespace PortableFS.ControlPlane

open Base Store List

variable {β : Type} {f : StoreFormat β} {sequence : ℕ} {lastHash : Digest} {state : StoredState β}
  {envelope : StoreEnvelope β}

private theorem length_pos (envelope : StoreEnvelope β) : 0 < (f.marshal envelope).length :=
  length_pos_iff.mpr (f.marshal_ne_nil envelope)

private theorem length_record (envelope : StoreEnvelope β) :
    (record f envelope).length = 4 + (f.marshal envelope).length + 32 := by
  simp only [record, length_append, length_bigEndian, Vector.length_toList]

private theorem maxStoreRecord_lt : maxStoreRecord < 256 ^ 4 := by decide

variable {n : ℕ}

private theorem take_four_record (hbound : (f.marshal envelope).length ≤ maxStoreRecord)
    (hn : 4 ≤ n) (rest : List UInt8) :
    ofBigEndian (((record f envelope ++ rest).take n).take 4) = (f.marshal envelope).length := by
  have htake : ((record f envelope ++ rest).take n).take 4 =
      bigEndian 4 (f.marshal envelope).length := by
    rw [take_take, Nat.min_eq_left hn, record, append_assoc, append_assoc,
      List.take_left' (length_bigEndian _ _)]
  rw [htake]
  exact ofBigEndian_bigEndian (hbound.trans_lt maxStoreRecord_lt)

/-- A record is read if it continues the chain, and then what follows it. -/
theorem readStoreChain_record_append (hvalid : f.validate envelope.state = true)
    (hbound : (f.marshal envelope).length ≤ maxStoreRecord) (rest : List UInt8) :
    readStoreChain f sequence lastHash state (record f envelope ++ rest) =
      if envelope.sequence ≠ sequence + 1 ∨ envelope.previousHash ≠ lastHash then
        .error .discontinuous
      else readStoreChain f envelope.sequence (f.sha256 (f.marshal envelope)) envelope.state rest := by
  have hpos := length_pos (f := f) envelope
  have hlen := length_record (f := f) envelope
  have hlength : ofBigEndian ((record f envelope ++ rest).take 4) = (f.marshal envelope).length := by
    have h := take_four_record hbound (n := (record f envelope ++ rest).length)
      (by rw [length_append]; omega) rest
    rwa [take_length] at h
  have hdrop : (record f envelope ++ rest).drop 4 =
      f.marshal envelope ++ ((f.sha256 (f.marshal envelope)).toList ++ rest) := by
    rw [record, append_assoc, append_assoc, List.drop_left' (length_bigEndian _ _)]
  have hpayload : ((record f envelope ++ rest).drop 4).take (f.marshal envelope).length =
      f.marshal envelope := by
    rw [hdrop, take_left]
  have hsum : ((record f envelope ++ rest).drop (4 + (f.marshal envelope).length)).take 32 =
      (f.sha256 (f.marshal envelope)).toList := by
    rw [← drop_drop, hdrop, drop_left, List.take_left' (by simp)]
  have hrest : (record f envelope ++ rest).drop (4 + (f.marshal envelope).length + 32) = rest :=
    List.drop_left' hlen
  rw [readStoreChain, if_neg (by rw [length_append]; omega)]
  simp only [hlength, hpayload, hsum, hrest, f.unmarshal_marshal envelope hvalid]
  rw [if_neg (by omega), if_neg (by rw [length_append]; omega), if_neg (by simp)]
  have hok : ¬f.validate envelope.state = false := by simp [hvalid]
  simp only [if_neg hok]

theorem readStoreChain_record (hsequence : envelope.sequence = sequence + 1)
    (hprevious : envelope.previousHash = lastHash) (hvalid : f.validate envelope.state = true)
    (hbound : (f.marshal envelope).length ≤ maxStoreRecord) (rest : List UInt8) :
    readStoreChain f sequence lastHash state (record f envelope ++ rest) =
      readStoreChain f envelope.sequence (f.sha256 (f.marshal envelope)) envelope.state rest := by
  rw [readStoreChain_record_append hvalid hbound, if_neg (by simp [hsequence, hprevious])]

/-- What is missing bytes of a record is a torn tail. -/
theorem readStoreChain_torn (hbound : (f.marshal envelope).length ≤ maxStoreRecord)
    (hn : n < (record f envelope).length) :
    readStoreChain f sequence lastHash state ((record f envelope).take n) =
      .ok ⟨sequence, lastHash, state, (record f envelope).take n⟩ := by
  have hpos := length_pos (f := f) envelope
  have hlen := length_record (f := f) envelope
  have htake : ((record f envelope).take n).length = n := length_take_of_le hn.le
  rw [readStoreChain]
  split
  · rfl
  next hfour =>
  rw [htake] at hfour
  have hlength : ofBigEndian (((record f envelope).take n).take 4) =
      (f.marshal envelope).length := by
    have h := take_four_record hbound (n := n) (by omega) []
    rwa [append_nil] at h
  simp only [hlength]
  rw [if_neg (by omega), if_pos (by rw [htake]; omega)]

variable {body : List UInt8}

/-- Reading goes on behind whole records. -/
theorem readStoreChain_append {chain : StoreChain β} (rest : List UInt8)
    (h : readStoreChain f sequence lastHash state body = .ok chain) (hwhole : chain.tail = []) :
    readStoreChain f sequence lastHash state (body ++ rest) =
      readStoreChain f chain.sequence chain.lastHash chain.state rest := by
  fun_induction readStoreChain f sequence lastHash state body with
  | case1 sequence lastHash state body hshort =>
    cases h
    obtain rfl : body = [] := hwhole
    rfl
  | case2 => cases h
  | case3 sequence lastHash state body hfour length hlength hshort =>
    cases h
    obtain rfl : body = [] := hwhole
    exact absurd (Nat.zero_lt_succ 3) hfour
  | case4 => cases h
  | case5 => cases h
  | case6 => cases h
  | case7 => cases h
  | case8 sequence lastHash state body hfour length hlength hlong payload hsum envelope hdecode
      hchain hvalid ih =>
    have hfour' : ¬(body ++ rest).length < 4 := by
      rw [length_append]
      omega
    have hlong' : ¬(body ++ rest).length < 4 + length + 32 := by
      rw [length_append]
      omega
    have htake : (body ++ rest).take 4 = body.take 4 := by
      rw [take_append_of_le_length (by omega)]
    have hpayload : ((body ++ rest).drop 4).take length = payload := by
      rw [drop_append_of_le_length (by omega),
        take_append_of_le_length (by rw [length_drop]; omega)]
    have hsum' : ((body ++ rest).drop (4 + length)).take 32 = (body.drop (4 + length)).take 32 := by
      rw [drop_append_of_le_length (by omega),
        take_append_of_le_length (by rw [length_drop]; omega)]
    have hrest : (body ++ rest).drop (4 + length + 32) = body.drop (4 + length + 32) ++ rest :=
      drop_append_of_le_length (by omega)
    rw [readStoreChain, if_neg hfour']
    simp only [htake]
    rw [if_neg hlength, if_neg hlong', hpayload, hsum', if_neg hsum]
    simp only [hdecode]
    rw [if_neg hchain, if_neg hvalid, hrest]
    exact ih h

/-- The bytes are whole records that lead to a state. -/
def Holds (f : StoreFormat β) (body : List UInt8) (sequence : ℕ) (lastHash : Digest)
    (state : StoredState β) : Prop :=
  readStoreChain f 0 noHash f.newState body = .ok ⟨sequence, lastHash, state, []⟩

section

variable (h : Holds f body sequence lastHash state)
include h

theorem Holds.record (envelope : StoreEnvelope β) (hsequence : envelope.sequence = sequence + 1)
    (hprevious : envelope.previousHash = lastHash) (hvalid : f.validate envelope.state = true)
    (hbound : (f.marshal envelope).length ≤ maxStoreRecord) :
    Holds f (body ++ record f envelope) envelope.sequence (f.sha256 (f.marshal envelope))
      envelope.state := by
  unfold Holds
  rw [readStoreChain_append _ h rfl]
  have hread : readStoreChain f sequence lastHash state (Store.record f envelope ++ []) = _ :=
    readStoreChain_record hsequence hprevious hvalid hbound []
  rw [append_nil] at hread
  rw [hread, readStoreChain]
  rfl

/-- A file of the magic and whole records opens. -/
theorem Holds.openStore : ControlPlane.openStore f (storeMagic ++ body) =
      .ok ⟨⟨storeMagic ++ body, (storeMagic ++ body).length⟩, [], state, sequence, lastHash⟩ := by
  unfold ControlPlane.openStore
  rw [if_neg (by simp [storeMagic]), if_neg (by simp), drop_left, h]
  simp [bind, Except.bind, pure, Except.pure]

/-- So does one with a torn record behind them, and the torn record is cut off. -/
theorem Holds.openStore_torn (hbound : (f.marshal envelope).length ≤ maxStoreRecord)
    (hn : n < (Store.record f envelope).length) :
    ControlPlane.openStore f (storeMagic ++ body ++ (Store.record f envelope).take n) =
      .ok ⟨⟨storeMagic ++ body, (storeMagic ++ body).length⟩, [], state, sequence, lastHash⟩ := by
  unfold ControlPlane.openStore
  rw [append_assoc, if_neg (by simp [storeMagic]), if_neg (by simp), drop_left,
    readStoreChain_append _ h rfl, readStoreChain_torn hbound hn]
  have hkept : (storeMagic ++ (body ++ (Store.record f envelope).take n)).take
      ((storeMagic ++ (body ++ (Store.record f envelope).take n)).length -
        ((Store.record f envelope).take n).length) = storeMagic ++ body := by
    rw [← append_assoc, length_append, Nat.add_sub_cancel, take_left]
  simp only [bind, Except.bind, pure, Except.pure, hkept]

end

/-- What the file of a store holds: whole records that lead to the state in memory, all synced, and
behind them what a failed append left of the next record. -/
structure Store.Sound (f : StoreFormat β) (s : Store β) (later : List (StoredState β)) : Prop where
  file : ∃ body left, s.file.bytes = storeMagic ++ body ++ left ∧
    s.file.synced = (storeMagic ++ body).length ∧ Holds f body s.sequence s.lastHash s.state ∧
    (left = [] ∨ ∃ next n, left = (record f (s.envelope next)).take n ∧
      f.validate next = true ∧ (f.marshal (s.envelope next)).length ≤ maxStoreRecord ∧
      ((record f (s.envelope next)).length ≤ n → next ∈ later))
  older : ∀ old ∈ s.older, ∃ body sequence lastHash, old.bytes = storeMagic ++ body ∧
    old.synced = (storeMagic ++ body).length ∧ Holds f body sequence lastHash s.state

theorem holds_nil (f : StoreFormat β) : Holds f [] 0 noHash f.newState := by
  unfold Holds
  rw [readStoreChain]
  rfl

variable {s : Store β} {later : List (StoredState β)}

/-- Whatever a crash leaves opens with the state in memory or the one that was being written. -/
theorem Store.Sound.reopens (h : s.Sound f later) {bytes : List UInt8} (hcrash : s.Crash bytes) :
    ∃ s' : Store β, openStore f bytes = .ok s' ∧ s'.Sound f [] ∧
      (s'.state = s.state ∨ s'.state ∈ later) := by
  have hwhole : ∀ {body sequence lastHash} {state : StoredState β},
      Holds f body sequence lastHash state →
      Store.Sound f ⟨⟨storeMagic ++ body, (storeMagic ++ body).length⟩, [], state, sequence,
        lastHash⟩ [] := by
    intro body sequence lastHash state hbody
    refine ⟨⟨body, [], by simp, rfl, hbody, .inl rfl⟩, ?_⟩
    intro old hold
    cases hold
  obtain ⟨file, hfile, kept, hkept, rfl⟩ := hcrash
  rcases mem_cons.mp hfile with rfl | hold
  · obtain ⟨body, left, hbytes, hsynced, hbody, hleft⟩ := h.file
    rw [hsynced] at hkept
    have htake : s.file.bytes.take kept =
        storeMagic ++ body ++ left.take (kept - (storeMagic ++ body).length) := by
      rw [hbytes, take_append, take_of_length_le hkept]
    rw [htake]
    generalize kept - (storeMagic ++ body).length = m
    rcases hleft with rfl | ⟨next, n, rfl, hvalid, hbound, hlater⟩
    · rw [take_nil, append_nil]
      exact ⟨_, hbody.openStore, hwhole hbody, .inl rfl⟩
    rw [take_take]
    by_cases hm : min m n < (record f (s.envelope next)).length
    · exact ⟨_, hbody.openStore_torn hbound hm, hwhole hbody, .inl rfl⟩
    · have hn : (record f (s.envelope next)).length ≤ n := by omega
      have hnext := hbody.record (s.envelope next) rfl rfl hvalid hbound
      rw [take_of_length_le (by omega), append_assoc]
      exact ⟨_, hnext.openStore, hwhole hnext, .inr (hlater hn)⟩
  · obtain ⟨body, sequence, lastHash, hbytes, hsynced, hbody⟩ := h.older file hold
    rw [hbytes, take_of_length_le (by rw [← hsynced]; exact hkept)]
    exact ⟨_, hbody.openStore, hwhole hbody, .inl rfl⟩

theorem Store.Sound.mono {later' : List (StoredState β)} (h : s.Sound f later)
    (hsub : later ⊆ later') : s.Sound f later' := by
  refine { h with file := ?_ }
  obtain ⟨body, left, hbytes, hsynced, hbody, hleft⟩ := h.file
  refine ⟨body, left, hbytes, hsynced, hbody, hleft.imp_right ?_⟩
  rintro ⟨next, n, hn, hvalid, hbound, hlater⟩
  exact ⟨next, n, hn, hvalid, hbound, fun hle => hsub (hlater hle)⟩

variable {t : Transaction β} {next : StoredState β}

/-- What is appended is valid and within the bound. -/
theorem Store.prepare_eq_append {response : List UInt8}
    (h : s.prepare f t = .append response next) :
    f.validate next = true ∧ (f.marshal (s.envelope next)).length ≤ maxStoreRecord := by
  unfold Store.prepare at h
  split at h
  · next prepared hreplay =>
    unfold Store.replay at hreplay
    subst h
    repeat' split at hreplay
    all_goals cases hreplay
  dsimp only at h
  split at h
  · cases h
  split at h
  · cases h
  split at h
  · cases h
  next hvalid =>
  split at h
  · cases h
  · next hbound =>
    obtain ⟨rfl, rfl⟩ := Prepared.append.inj h
    exact ⟨by simpa using hvalid, by omega⟩

/-- A compaction, whether it succeeds or fails, leaves a sound store with the same state. -/
theorem Store.Sound.compactLocked (h : s.Sound f []) (holder : s.older = [])
    (hwhole : s.file.bytes.length = s.file.synced) (hvalid : f.validate s.state = true)
    (fault : CompactFault) :
    (s.compactLocked f fault).1.Sound f [] ∧ (s.compactLocked f fault).1.state = s.state := by
  unfold Store.compactLocked
  dsimp only
  split
  · exact ⟨h, rfl⟩
  next hbound =>
  have hsnapshot := (holds_nil f).record ⟨1, noHash, s.state⟩ rfl rfl hvalid (by omega)
  rw [nil_append] at hsnapshot
  have hfile : ∃ body left, storeMagic ++ record f ⟨1, noHash, s.state⟩ =
        storeMagic ++ body ++ left ∧
      (storeMagic ++ record f ⟨1, noHash, s.state⟩).length = (storeMagic ++ body).length ∧
      Holds f body 1 (f.sha256 (f.marshal ⟨1, noHash, s.state⟩)) s.state ∧ left = [] :=
    ⟨_, [], by simp, rfl, hsnapshot, rfl⟩
  obtain ⟨body, left, hbytes, hsynced, hbody, rfl⟩ := hfile
  split
  · exact ⟨h, rfl⟩
  · refine ⟨⟨⟨body, [], hbytes, hsynced, hbody, .inl rfl⟩, ?_⟩, rfl⟩
    -- the file that was renamed over holds the same state, all of it synced
    intro old hold
    rw [holder] at hold
    obtain rfl := mem_singleton.mp hold
    obtain ⟨body', left', hbytes', hsynced', hbody', -⟩ := h.file
    have hnil : left' = [] := by
      rw [hbytes', hsynced', length_append] at hwhole
      exact eq_nil_of_length_eq_zero (by omega)
    rw [hnil, append_nil] at hbytes'
    exact ⟨body', _, _, hbytes', hsynced', hbody'⟩
  · refine ⟨⟨⟨body, [], hbytes, hsynced, hbody, .inl rfl⟩, ?_⟩, rfl⟩
    intro old hold
    cases hold

/-- Appending to a store with nothing left behind. -/
theorem Store.Sound.append (h : s.Sound f later) (hwhole : s.file.bytes.length = s.file.synced)
    (holder : s.older = []) (hvalid : f.validate next = true)
    (hbound : (f.marshal (s.envelope next)).length ≤ maxStoreRecord) (response : List UInt8)
    (fault : AppendFault) (compactFault : CompactFault) {s' : Store β}
    {result : Except StoreError (List UInt8 × Bool)}
    (happend : s.append f response next fault compactFault = (s', result)) :
    (fault = .none ∧ s'.Sound f [] ∧ s'.state = next) ∨
      (∃ e, result = .error e) ∧ s'.state = s.state ∧
        s'.Sound f (if StoreHistory.written f s next fault then later ++ [next] else later) := by
  obtain ⟨body, left, hbytes, hsynced, hbody, -⟩ := h.file
  have hnil : left = [] := by
    rw [hbytes, hsynced, length_append] at hwhole
    exact eq_nil_of_length_eq_zero (by omega)
  rw [hnil, append_nil] at hbytes
  have hnone : ∀ old, old ∉ s.older := by simp [holder]
  unfold Store.append at happend
  dsimp only at happend
  split at happend
  · next count =>
    obtain ⟨rfl, rfl⟩ := Prod.mk.inj happend
    refine .inr ⟨⟨_, rfl⟩, rfl, ⟨?_, ?_⟩⟩
    · refine ⟨body, _, congrArg (· ++ _) hbytes, hsynced, hbody,
        .inr ⟨next, count, rfl, hvalid, hbound, ?_⟩⟩
      intro hle
      have hall : (record f (s.envelope next)).length ≤ count := hle
      rw [StoreHistory.written, if_pos (decide_eq_true hall)]
      exact mem_append_right later (mem_singleton_self next)
    · exact fun old hold => absurd hold (hnone old)
  · obtain ⟨rfl, rfl⟩ := Prod.mk.inj happend
    refine .inr ⟨⟨_, rfl⟩, rfl, ⟨?_, ?_⟩⟩
    · refine ⟨body, _, congrArg (· ++ _) hbytes, hsynced, hbody, .inr ⟨next,
        (record f (s.envelope next)).length, take_length.symm, hvalid, hbound, ?_⟩⟩
      intro _
      rw [StoreHistory.written, if_pos rfl]
      exact mem_append_right later (mem_singleton_self next)
    · exact fun old hold => absurd hold (hnone old)
  left
  have hnext := hbody.record (s.envelope next) rfl rfl hvalid hbound
  have hsound : Store.Sound f ({ s with
      file := ⟨s.file.bytes ++ record f (s.envelope next),
        (s.file.bytes ++ record f (s.envelope next)).length⟩
      state := next, sequence := s.sequence + 1
      lastHash := f.sha256 (f.marshal (s.envelope next)) } : Store β) [] := by
    refine ⟨⟨_, [], ?_, ?_, hnext, .inl rfl⟩, ?_⟩
    · rw [hbytes, append_assoc, append_nil]
    · rw [hbytes, append_assoc]
    · exact fun old hold => absurd hold (hnone old)
  split at happend
  · obtain ⟨rfl, rfl⟩ := Prod.mk.inj happend
    exact ⟨rfl, hsound, rfl⟩
  obtain ⟨hcompact, hstate⟩ := hsound.compactLocked holder rfl hvalid compactFault
  split at happend <;> next compacted heq =>
    obtain ⟨rfl, rfl⟩ := Prod.mk.inj happend
    rw [heq] at hcompact hstate
    exact ⟨rfl, hcompact, hstate⟩

namespace StoreHistory

/-- The store is sound and its callers know of the state it holds. -/
structure Sound (f : StoreFormat β) (l : StoreHistory β) : Prop where
  store : l.store.Sound f l.later
  state : l.store.state ∈ l.acknowledged :: l.later

variable {l : StoreHistory β}

/-- What a transaction does to a history. -/
theorem Sound.transact (h : l.Sound f) (ht : Aligned f l t) (fault : AppendFault)
    (compactFault : CompactFault) : (l.transact f t fault compactFault).Sound f := by
  unfold StoreHistory.transact Store.transact
  cases hprepare : l.store.prepare f t with
  | refused e => exact h
  | reply response replayed => exact h
  | append response next =>
    obtain ⟨hwhole, holder⟩ := ht response next hprepare
    obtain ⟨hvalid, hbound⟩ := Store.prepare_eq_append hprepare
    dsimp only
    cases happend : l.store.append f response next fault compactFault with
    | mk s' result =>
      rcases h.store.append hwhole holder hvalid hbound response fault compactFault happend with
        ⟨rfl, hsound, hstate⟩ | ⟨⟨e, rfl⟩, hstate, hsound⟩
      · cases result with
        | ok value => exact ⟨hsound, by rw [hstate]; exact mem_cons_self⟩
        | error e =>
          refine ⟨?_, ?_⟩
          · exact hsound.mono (nil_subset _)
          · change s'.state ∈ l.acknowledged :: (l.later ++ [next])
            rw [hstate]
            simp
      · refine ⟨hsound, ?_⟩
        change s'.state ∈ l.acknowledged ::
          (if written f l.store next fault then l.later ++ [next] else l.later)
        rw [hstate]
        rcases mem_cons.mp h.state with heq | hmem
        · exact mem_cons.mpr (.inl heq)
        · apply mem_cons_of_mem
          split
          · exact mem_append_left [next] hmem
          · exact hmem

/-- Every history whose transactions are aligned is sound. -/
theorem Reachable.sound (h : Reachable f (Aligned f) l) : l.Sound f := by
  induction h with
  | opened hopen =>
    cases hopen
    refine ⟨⟨⟨[], [], rfl, rfl, holds_nil f, .inl rfl⟩, ?_⟩, mem_cons_self⟩
    intro old hold
    cases hold
  | transact _ t ht fault compactFault ih => exact ih.transact ht fault compactFault
  | reopened _ hcrash hopen ih =>
    obtain ⟨s', hs', hsound, -⟩ := ih.store.reopens hcrash
    rw [hopen] at hs'
    cases hs'
    exact ⟨hsound, mem_cons_self⟩

/-- A crash at any time leaves a file that opens, with the state of the last transaction that
recorded one and succeeded or of a later one that was written in full and reported as failed. -/
theorem Reachable.reopens_acknowledged {l : StoreHistory β} (h : Reachable f (Aligned f) l)
    {bytes : List UInt8} (hcrash : l.store.Crash bytes) :
    ∃ s, openStore f bytes = .ok s ∧ (s.state = l.acknowledged ∨ s.state ∈ l.later) := by
  obtain ⟨s, hopen, -, hstate⟩ := h.sound.store.reopens hcrash
  refine ⟨s, hopen, ?_⟩
  rcases hstate with hstate | hlater
  · rw [hstate]
    exact mem_cons.mp h.sound.state
  · exact .inr hlater

/-- A format of states with one flag and no receipts: the flag, the checksum of the record before,
and as many zeros as the number of the record. -/
def flagFormat : StoreFormat Bool where
  marshal envelope := (if envelope.state.body then 1 else 0) ::
    (envelope.previousHash.toList ++ List.replicate envelope.sequence 0)
  unmarshal bytes :=
    if h : 33 ≤ bytes.length then
      some ⟨bytes.length - 33, ⟨((bytes.drop 1).take 32).toArray, by simp; omega⟩,
        ⟨∅, bytes.getD 0 0 = 1⟩⟩
    else none
  validate state := state.receipts.entries.isEmpty
  sha256 _ := noHash
  newState := ⟨∅, false⟩
  marshal_ne_nil _ := List.cons_ne_nil _ _
  unmarshal_marshal envelope hvalid := by
    obtain ⟨sequence, previousHash, receipts, body⟩ := envelope
    have hreceipts : receipts = ∅ := AList.ext (by simpa using hvalid)
    subst hreceipts
    rw [dif_pos (by simp)]
    have hhash : previousHash.toList.toArray = previousHash.toArray := Array.toArray_toList
    cases body with
    | false => simp [hhash]
    | true => simp [hhash]

/-- A transaction that flips the flag. -/
def flip : Transaction Bool where
  requestID := ""
  operation := "flip"
  requestHash := ""
  now := 1
  recordReceipt := false
  apply state := some ([], true, { state with body := !state.body })

/-- A new store of flags. -/
def newFlag : Store Bool := ⟨⟨storeMagic, storeMagic.length⟩, [], ⟨∅, false⟩, 0, noHash⟩

/-- Two flips of a new store: the sync of the first fails, the second succeeds. -/
def retried : StoreHistory Bool :=
  ((opened newFlag).transact flagFormat flip .sync .none).transact flagFormat flip .none .none

/-- The file of the retried flip: two records with the number 1. -/
theorem retried_bytes : retried.store.file.bytes = storeMagic ++
    (record flagFormat (newFlag.envelope ⟨∅, true⟩) ++
      record flagFormat (newFlag.envelope ⟨∅, true⟩)) := by
  rfl

/-- A transaction fails in the sync of a record that is written in full. The next one succeeds, with
the same number, and the file is refused from then on. -/
theorem retried_refused : Reachable flagFormat (fun _ _ => True) retried ∧
    retried.acknowledged = ⟨∅, true⟩ ∧
    retried.store.Crash retried.store.file.bytes ∧
    openStore flagFormat retried.store.file.bytes = .error .discontinuous := by
  have hopen : openStore flagFormat [] = .ok newFlag := rfl
  have hread : readStoreChain flagFormat 0 noHash ⟨∅, false⟩
      (record flagFormat (newFlag.envelope ⟨∅, true⟩) ++
        record flagFormat (newFlag.envelope ⟨∅, true⟩)) = .error .discontinuous := by
    have hbound : (flagFormat.marshal (newFlag.envelope ⟨∅, true⟩)).length ≤ maxStoreRecord := by
      decide
    have hsecond : readStoreChain flagFormat 1 noHash ⟨∅, true⟩
        (record flagFormat (newFlag.envelope ⟨∅, true⟩) ++ []) = .error .discontinuous := by
      rw [readStoreChain_record_append rfl hbound, if_pos (.inl (by decide))]
    rw [append_nil] at hsecond
    exact (readStoreChain_record rfl rfl rfl hbound _).trans hsecond
  refine ⟨?_, rfl, ?_, ?_⟩
  · exact ((Reachable.opened hopen).transact flip trivial .sync .none).transact flip trivial .none
      .none
  · exact ⟨_, mem_cons_self, retried.store.file.bytes.length, le_rfl, take_length.symm⟩
  · rw [retried_bytes]
    unfold openStore
    rw [if_neg (by simp [storeMagic]), if_neg (by simp), drop_left]
    exact congrArg (· >>= _) hread

/-- A transaction whose sync fails, and a crash that keeps its record. -/
theorem reopens_acknowledged_flip :
    ∃ s, openStore flagFormat ((opened newFlag).transact flagFormat flip .sync .none).store.file.bytes =
      .ok s ∧ (s.state = ⟨∅, false⟩ ∨ s.state ∈ [⟨∅, true⟩]) := by
  have hreach : Reachable flagFormat (Aligned flagFormat)
      ((opened newFlag).transact flagFormat flip .sync .none) :=
    (Reachable.opened rfl).transact flip (fun _ _ _ => ⟨rfl, rfl⟩) .sync .none
  exact hreach.reopens_acknowledged
    ⟨_, mem_cons_self, (((opened newFlag).transact flagFormat flip .sync
      .none).store.file.bytes).length, by decide, take_length.symm⟩

end StoreHistory

end PortableFS.ControlPlane
