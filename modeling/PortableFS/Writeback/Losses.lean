import PortableFS.Writeback.Runs

/-!
# Losses and the waits that see them

Every drop takes the next loss ticket and leaves it at its file, at the mount and at the barriers whose
prefix it cut. Between two states of a run the new events of a file tell which tickets were taken; a
wait compares its cut with them. A wait that succeeds has seen the records of its cut leave because
they were durable.
-/

namespace PortableFS.Writeback

open PortableFS.Base Trace Buffer List

namespace Trace

/-- The loss tickets of the drops in a history. -/
def tickets (tr : List Event) : List Nat :=
  tr.filterMap fun | .dropped report => some report.lossSequence | _ => none

theorem tickets_append (tr tr' : List Event) : tickets (tr ++ tr') = tickets tr ++ tickets tr' :=
  filterMap_append

/-- The record was dropped. -/
def Lost (tr : List Event) (r : Record) : Prop :=
  ∃ R t, R.record = r ∧ Event.left R (.dropped t) ∈ tr

/-- The record left because it was durable: the transport reported it applied, and the watermarks
passed its applied sequence or an `FSYNC` of its file covered it. -/
def Covered (tr : List Event) (r : Record) : Prop :=
  ∃ R cause es, R.record = r ∧ Event.left R cause ∈ tr ∧ Event.reported es R.applied ∈ tr ∧
    match cause with
    | .watermark visible durable => R.applied ≤ visible ∧ R.applied ≤ durable
    | .fsync cut => R.state ≠ .accepted ∧ r.seq ≤ cut.sequence
    | .dropped _ => False

variable {tr : List Event} {r : Record}

theorem Lost.append_iff {tr' : List Event} : Lost (tr ++ tr') r ↔ Lost tr r ∨ Lost tr' r := by
  constructor
  · rintro ⟨R, t, hr, hmem⟩
    exact (mem_append.mp hmem).imp (fun h => ⟨R, t, hr, h⟩) fun h => ⟨R, t, hr, h⟩
  · rintro (⟨R, t, hr, hmem⟩ | ⟨R, t, hr, hmem⟩)
    · exact ⟨R, t, hr, mem_append_left _ hmem⟩
    · exact ⟨R, t, hr, mem_append_right _ hmem⟩

/-- A record that left was dropped or durable. -/
theorem Disciplined.lost_or_covered {payload : Nat} (h : Disciplined payload tr)
    (hr : r ∈ left tr) : Lost tr r ∨ Covered tr r := by
  obtain ⟨e, he, heq⟩ := mem_filterMap.mp hr
  cases e with
  | left R cause =>
    have hrec : R.record = r := Option.some.inj heq
    obtain ⟨before, after, htr⟩ := append_of_mem he
    obtain ⟨hadm, hst⟩ : Admits R cause ∧ Stamped before R := h before _ after htr
    have hstamp : R.state ≠ .accepted → ∃ es, Event.reported es R.applied ∈ tr := by
      intro hs
      obtain ⟨es, hes⟩ := hst hs
      exact ⟨es, htr ▸ mem_append_left _ hes⟩
    cases cause with
    | watermark visible durable =>
      obtain ⟨hd, hle⟩ := hadm
      obtain ⟨es, hes⟩ := hstamp (by rw [hd]; exact State.noConfusion)
      exact .inr ⟨R, _, es, hrec, he, hes, hle⟩
    | fsync cut =>
      obtain ⟨hs, hle⟩ := hadm
      obtain ⟨es, hes⟩ := hstamp hs
      exact .inr ⟨R, _, es, hrec, he, hes, hs, hrec ▸ hle⟩
    | dropped t => exact .inl ⟨R, t, hrec, he⟩
  | _ => cases heq

end Trace

namespace Mount

/-- The events of a file between two states. -/
def news (m m' : Mount) (id : Identity) : List Event := (m'.trace id).drop (m.trace id).length

theorem news_of_append {m m' : Mount} {id : Identity} {new : List Event}
    (h : m'.trace id = m.trace id ++ new) : m.news m' id = new := by
  unfold news
  rw [h, drop_left]

end Mount

namespace Buffer

/-- What a drop did to a barrier that is still registered shows there. -/
structure BarrierSince (b b' : Buffer) (st st' : BarrierState) : Prop where
  cut : st'.cut = st.cut
  lost : st.lost = true → st'.lost = true
  registered : st'.registered = true → st.registered = true
  told : st'.registered = true → ∀ id r, Trace.Lost (b.mount.news b'.mount id) r →
    r.seq ≤ st.cut.sequence → st'.lost = true

/-- What a later state of the buffer tells about the losses since an earlier one. The loss counters of
`kept` files were not cleared meanwhile. -/
structure Since (kept : Identity → Prop) (b b' : Buffer) : Prop where
  grows : ∀ id, b'.mount.trace id = b.mount.trace id ++ b.mount.news b'.mount id
  loss : b.mount.loss ≤ b'.mount.loss
  fresh : ∀ id, ∀ t ∈ Trace.tickets (b.mount.news b'.mount id), b.mount.loss < t ∧ t ≤ b'.mount.loss
  counted : ∀ id R t, Event.left R (.dropped t) ∈ b.mount.news b'.mount id →
    t ∈ Trace.tickets (b.mount.news b'.mount id)
  observed : ∀ id, kept id → (b'.fileOf id).lastLoss =
    (Trace.tickets (b.mount.news b'.mount id)).getLastD (b.fileOf id).lastLoss
  barriers : ∀ (k : Nat) st, b.barriers[k]? = some st → ∃ st', b'.barriers[k]? = some st' ∧
    BarrierSince b b' st st'

namespace Since

variable {kept : Identity → Prop} {b' : Buffer} {b : Buffer}

/-- No event is a loss, and the barriers keep what they know. -/
theorem of_lossless (hm : b.mount.Extends Event.Lossless b'.mount)
    (hl : ∀ id, kept id → (b'.fileOf id).lastLoss = (b.fileOf id).lastLoss)
    (hb : ∀ (k : Nat) st, b.barriers[k]? = some st → ∃ st', b'.barriers[k]? = some st' ∧ st'.cut = st.cut ∧
      st'.lost = st.lost ∧ (st'.registered = true → st.registered = true)) : Since kept b b' := by
  have hnews : ∀ id, b'.mount.trace id = b.mount.trace id ++ b.mount.news b'.mount id ∧
      ∀ e ∈ b.mount.news b'.mount id, e.Lossless := by
    intro id
    obtain ⟨new, heq, hp⟩ := hm.trace id
    rw [Mount.news_of_append heq]
    exact ⟨heq, hp⟩
  have htickets : ∀ id, tickets (b.mount.news b'.mount id) = [] := by
    intro id
    refine filterMap_eq_nil_iff.mpr fun e he => ?_
    cases e with
    | dropped report => exact ((hnews id).2 _ he).elim
    | _ => rfl
  have hlost : ∀ id R t, Event.left R (.dropped t) ∉ b.mount.news b'.mount id :=
    fun id R t he => (hnews id).2 _ he
  refine ⟨fun id => (hnews id).1, Nat.le_of_eq hm.loss.symm, fun id t ht => ?_,
    fun id R t he => absurd he (hlost id R t), fun id hk => ?_, fun k st hst => ?_⟩
  · rw [htickets id] at ht
    cases ht
  · rw [htickets id, hl id hk]
    rfl
  · obtain ⟨st', hst', hcut, hl', hreg⟩ := hb k st hst
    refine ⟨st', hst', hcut, fun h => hl'.trans h, hreg, fun _ id r hr _ => ?_⟩
    obtain ⟨R, t, -, he⟩ := hr
    exact absurd he (hlost id R t)

theorem of_quiet (h : Quiet Event.Lossless b b') : Since kept b b' :=
  of_lossless h.mount (fun id _ => h.lastLoss id) fun _ st hst =>
    ⟨st, h.barriers ▸ hst, rfl, rfl, fun hr => hr⟩

theorem refl (b : Buffer) : Since kept b b := of_quiet (.refl b)

variable {b'' : Buffer}

theorem news_trans (h : Since kept b b') (h' : Since kept b' b'') (id : Identity) :
    b.mount.news b''.mount id = b.mount.news b'.mount id ++ b'.mount.news b''.mount id :=
  Mount.news_of_append (by rw [h'.grows, h.grows, append_assoc])

theorem trans (h : Since kept b b') (h' : Since kept b' b'') : Since kept b b'' where
  grows id := by rw [news_trans h h', h'.grows, h.grows, append_assoc]
  loss := Nat.le_trans h.loss h'.loss
  fresh id t ht := by
    rw [news_trans h h', tickets_append, mem_append] at ht
    have hloss := h.loss
    have hloss' := h'.loss
    rcases ht with ht | ht
    · have := h.fresh id t ht
      omega
    · have := h'.fresh id t ht
      omega
  counted id R t he := by
    rw [news_trans h h'] at he ⊢
    rw [tickets_append, mem_append]
    exact (mem_append.mp he).imp (h.counted id R t) (h'.counted id R t)
  observed id hk := by
    rw [h'.observed id hk, h.observed id hk, news_trans h h', tickets_append]
    simp only [List.getLastD_eq_getLast?, List.getLast?_append]
    cases (tickets (b'.mount.news b''.mount id)).getLast? <;> rfl
  barriers k st hst := by
    obtain ⟨st', hst', hs⟩ := h.barriers k st hst
    obtain ⟨st'', hst'', hs'⟩ := h'.barriers k st' hst'
    refine ⟨st'', hst'', hs'.cut.trans hs.cut, fun hl => hs'.lost (hs.lost hl),
      fun hr => hs.registered (hs'.registered hr), fun hr id r hlost hle => ?_⟩
    rw [news_trans h h', Lost.append_iff] at hlost
    rcases hlost with hlost | hlost
    · exact hs'.lost (hs.told (hs'.registered hr) id r hlost hle)
    · exact hs'.told hr id r hlost (hs.cut ▸ hle)

end Since

variable {b : Buffer}

/-- The records of a file are dropped under the next ticket. -/
theorem dropLocked_trace (h : b.Inv) (id : Identity) (reason : String) (errno : Nat) :
    ∃ report, report.lossSequence = b.mount.loss + 1 ∧
      (b.dropLocked id reason errno).1.mount.trace id = b.mount.trace id ++
        ((b.ledger id).queue.map (Event.left · (.dropped (b.mount.loss + 1))) ++ [.dropped report]) ∧
      (∀ id', id' ≠ id → (b.dropLocked id reason errno).1.mount.trace id' = b.mount.trace id') ∧
      (b.dropLocked id reason errno).1.mount.loss = b.mount.loss + 1 := by
  obtain ⟨m', heq, hshed, -⟩ := dropRecords_spec (m := b.mount) (h.books id).overlay.paints.ok
    ⟨errno, id, reason, ((b.fileOf id).queue.map fun r => r.record.data.length).sum,
      (b.fileOf id).queue.length, b.mount.loss + 1⟩
  refine ⟨⟨errno, id, reason, ((b.fileOf id).queue.map fun r => r.record.data.length).sum,
    (b.fileOf id).queue.length, b.mount.loss + 1⟩, rfl, ?_, fun id' hne => ?_, ?_⟩
  · change (dropRecords b.mount (b.ledger id) _).1.trace id = _
    rw [heq, Mount.note_trace, hshed.trace, append_assoc]
  · change (dropRecords b.mount (b.ledger id) _).1.trace id' = _
    rw [heq, Mount.note_trace_ne _ hne, hshed.trace_ne id' hne]
  · change (dropRecords b.mount (b.ledger id) _).1.loss = _
    rw [heq]
    exact hshed.loss

/-- A registered barrier learns of a drop that cuts its prefix. -/
theorem drop_told (h : b.Inv) (id : Identity) (errno : Nat) {st : BarrierState}
    (hreg : st.registered = true) {R : Retained} (hR : R ∈ (b.ledger id).queue)
    (hle : R.record.seq ≤ st.cut.sequence) : (st.drop (b.fileOf id) errno).lost = true := by
  have hhead : (b.fileOf id).queue.head?.any (fun r => decide (r.record.seq ≤ st.cut.sequence)) = true := by
    have hsorted := (h.books id).queue.sorted
    change R ∈ (b.fileOf id).queue at hR
    change (b.fileOf id).queue.Pairwise _ at hsorted
    cases hq : (b.fileOf id).queue with
    | nil =>
      rw [hq] at hR
      cases hR
    | cons a rest =>
      rw [hq] at hR hsorted
      have hfirst : a.record.seq ≤ R.record.seq := by
        rcases mem_cons.mp hR with rfl | hR
        · exact le_rfl
        · exact Nat.le_of_lt ((pairwise_cons.mp hsorted).1 R hR)
      exact decide_eq_true (hfirst.trans hle)
  unfold BarrierState.drop
  rw [hreg, hhead]
  simp only [Bool.and_self, if_true]
  split
  · rfl
  · split <;> rfl

theorem drop_frame (st : BarrierState) (f : File) (errno : Nat) :
    (st.drop f errno).cut = st.cut ∧ (st.lost = true → (st.drop f errno).lost = true) ∧
      (st.drop f errno).registered = st.registered := by
  unfold BarrierState.drop
  split
  · split
    · exact ⟨rfl, fun _ => rfl, rfl⟩
    · split <;> exact ⟨rfl, fun _ => rfl, rfl⟩
  · exact ⟨rfl, id, rfl⟩

theorem lastLoss_dropLocked (b : Buffer) (id id' : Identity) (reason : String) (errno : Nat) :
    ((b.dropLocked id reason errno).1.fileOf id').lastLoss =
      if id' = id then b.mount.loss + 1 else (b.fileOf id').lastLoss := by
  unfold dropLocked
  rw [fileOf_put]
  split <;> rfl

variable {kept : Identity → Prop}

theorem since_dropLocked (h : b.Inv) (id : Identity)
    (reason : String) (errno : Nat) : Since kept b (b.dropLocked id reason errno).1 := by
  obtain ⟨report, hreport, htrace, htrace_ne, hloss⟩ := dropLocked_trace h id reason errno
  have hnews := Mount.news_of_append htrace
  have hnews_ne : ∀ id', id' ≠ id → b.mount.news (b.dropLocked id reason errno).1.mount id' = [] :=
    fun id' hne => Mount.news_of_append (by rw [htrace_ne id' hne, append_nil])
  have htickets : tickets (b.mount.news (b.dropLocked id reason errno).1.mount id) =
      [b.mount.loss + 1] := by
    have hleft : tickets ((b.ledger id).queue.map
        (Event.left · (.dropped (b.mount.loss + 1)))) = [] := by
      refine filterMap_eq_nil_iff.mpr fun e he => ?_
      obtain ⟨R, -, rfl⟩ := mem_map.mp he
      rfl
    rw [hnews, tickets_append, hleft, ← hreport]
    rfl
  have hcases : ∀ id' R t, Event.left R (.dropped t) ∈
      b.mount.news (b.dropLocked id reason errno).1.mount id' →
      id' = id ∧ R ∈ (b.ledger id).queue ∧ t = b.mount.loss + 1 := by
    intro id' R t he
    by_cases hid : id' = id
    · subst hid
      rw [hnews, mem_append, mem_singleton] at he
      rcases he with he | he
      · obtain ⟨R', hR', heq⟩ := mem_map.mp he
        cases heq
        exact ⟨rfl, hR', rfl⟩
      · cases he
    · rw [hnews_ne id' hid] at he
      cases he
  refine ⟨fun id' => ?_, by rw [hloss]; omega, fun id' t ht => ?_, fun id' R t he => ?_, fun id' _ => ?_,
    fun k st hst => ?_⟩
  · by_cases hid : id' = id
    · subst hid
      rw [hnews]
      exact htrace
    · rw [hnews_ne id' hid, htrace_ne id' hid, append_nil]
  · by_cases hid : id' = id
    · subst hid
      rw [htickets, mem_singleton] at ht
      rw [hloss, ht]
      omega
    · rw [hnews_ne id' hid] at ht
      cases ht
  · obtain ⟨rfl, -, rfl⟩ := hcases id' R t he
    rw [htickets]
    exact mem_singleton_self _
  · rw [lastLoss_dropLocked]
    split
    · next hid =>
      subst hid
      rw [htickets]
      rfl
    · next hid =>
      rw [hnews_ne id' hid]
      rfl
  · obtain ⟨hcut, hl, hreg⟩ := drop_frame st (b.fileOf id) errno
    refine ⟨st.drop (b.fileOf id) errno, ?_, hcut, hl, fun hr => hreg ▸ hr, fun hr id' r hlost hle => ?_⟩
    · change (b.barriers.map (BarrierState.drop · (b.fileOf id) errno))[k]? = _
      rw [List.getElem?_map, hst]
      rfl
    · obtain ⟨R, t, rfl, he⟩ := hlost
      obtain ⟨-, hR, -⟩ := hcases id' R t he
      exact drop_told h id errno (hreg ▸ hr) hR hle

theorem since_dropEach (reason : String) (ids : List Identity)
    (h : b.Inv) : Since kept b (dropEach reason ids b).1 := by
  induction ids generalizing b with
  | nil => exact .refl b
  | cons id ids ih =>
    unfold dropEach
    split
    · exact ih h
    · exact (since_dropLocked h id reason 0).trans (ih (h.dropLocked id reason 0))

theorem since_forget (b : Buffer) {id : Identity} (hk : ¬ kept id) :
    Since kept b (b.forget id).1 := by
  unfold forget
  split
  · exact .refl b
  split
  · refine .of_lossless (.refl _) (fun id' hid' => ?_) fun k st hst => ⟨st, hst, rfl, rfl, fun hr => hr⟩
    have hne : id' ≠ id := by
      rintro rfl
      exact hk hid'
    unfold fileOf
    rw [Assoc.lookup_erase_eq, if_neg hne]
  · exact .refl b

theorem lastLoss_forget (b : Buffer) (id id' : Identity) :
    (b.forget id).1.mount.loss = b.mount.loss ∧
      ((b.forget id).1.fileOf id').lastLoss ≤ (b.fileOf id').lastLoss := by
  unfold forget
  split
  · exact ⟨rfl, le_rfl⟩
  split
  · refine ⟨rfl, ?_⟩
    unfold fileOf
    rw [Assoc.lookup_erase_eq]
    split
    · exact Nat.zero_le _
    · exact Nat.le_refl _
  · exact ⟨rfl, Nat.le_refl _⟩

theorem since_beginBarrier (b : Buffer) (observed : Nat) :
    Since kept b (b.beginBarrier observed).1 := by
  refine .of_lossless (.refl _) (fun _ _ => rfl) fun k st hst => ⟨st, ?_, rfl, rfl, fun hr => hr⟩
  change (b.barriers ++ [_])[k]? = some st
  rw [List.getElem?_append_left (List.getElem?_eq_some_iff.mp hst).1]
  exact hst

theorem since_endBarrier (b : Buffer) (barrier : Nat) : Since kept b (b.endBarrier barrier) := by
  refine .of_lossless (.refl _) (fun _ _ => rfl) fun k st hst => ?_
  change ∃ st', (b.barriers.modify barrier _)[k]? = some st' ∧ _
  rw [List.getElem?_modify, hst]
  by_cases hk : barrier = k
  · exact ⟨{ st with registered := false }, by simp [hk], rfl, rfl, fun hr => Bool.noConfusion hr⟩
  · exact ⟨st, by simp [hk], rfl, rfl, fun hr => hr⟩

end Buffer

namespace Buffer

variable {id : Identity} {b : Buffer} {sequence : Nat}

/-- Nothing at or below the sequence is retained. -/
theorem Inv.lt_of_not_retains (h : b.Inv)
    (hn : (b.fileOf id).retains sequence = false) : ∀ R ∈ (b.ledger id).queue, sequence < R.record.seq := by
  intro R hR
  have hsorted := (h.books id).queue.sorted
  unfold File.retains at hn
  change R ∈ (b.fileOf id).queue at hR
  change (b.fileOf id).queue.Pairwise _ at hsorted
  cases hq : (b.fileOf id).queue with
  | nil =>
    rw [hq] at hR
    cases hR
  | cons a rest =>
    rw [hq] at hR hsorted hn
    have ha : sequence < a.record.seq := Nat.lt_of_not_le (of_decide_eq_false hn)
    rcases mem_cons.mp hR with rfl | hR
    · exact ha
    · exact ha.trans ((pairwise_cons.mp hsorted).1 R hR)

variable {r : Record}

/-- An accepted record of the past that is not retained was dropped, or it was durable. -/
theorem Inv.lost_or_covered (h : b.Inv)
    (hn : (b.fileOf id).retains sequence = false) (hr : r ∈ accepted (b.mount.trace id))
    (hle : r.seq ≤ sequence) : Lost (b.mount.trace id) r ∨ Covered (b.mount.trace id) r := by
  have hs := (h.books id).stream
  apply hs.disciplined.lost_or_covered
  rcases hs.disciplined.mem_accepted hr with hin | hin
  · rw [hs.records, mem_append] at hin
    rcases hin with hin | hin
    · exact ((epoch_suffix _).sublist.filterMap _).mem hin
    · obtain ⟨R, hR, rfl⟩ := mem_map.mp hin
      have hlt := h.lt_of_not_retains hn R hR
      omega
  · exact hin

variable {cut : Cut}

/-- A wait for one file ends well only without a new loss and without a retained record. -/
theorem waitDurable_done (h : b.waitDurable (some id) cut = .done none) :
    (b.fileOf id).lostSince cut = false ∧ (b.fileOf id).retains cut.sequence = false := by
  unfold waitDurable at h
  dsimp only at h
  split at h
  · next hf =>
    unfold fileOf
    rw [hf]
    exact ⟨decide_eq_false (Nat.not_lt_zero _), rfl⟩
  next f hf =>
  rw [fileOf_of_lookup hf]
  split at h
  · cases h
  next hl =>
  unfold waitOn at h
  split at h
  · next hr => exact ⟨Bool.eq_false_iff.mpr hl, by simpa using hr⟩
  · split at h <;> cases h

theorem waitDurable_lost (h : (b.fileOf id).lostSince cut = true) :
    b.waitDurable (some id) cut = .done (some ((b.fileOf id).lossError cut)) := by
  unfold waitDurable
  dsimp only
  cases hf : b.files.lookup id with
  | none =>
    unfold fileOf at h
    rw [hf] at h
    exact absurd (of_decide_eq_true h) (Nat.not_lt_zero _)
  | some f =>
    rw [fileOf_of_lookup hf] at h ⊢
    exact if_pos h

theorem Inv.retains_of_anyRetains (h : b.Inv)
    (hn : b.anyRetains sequence = false) (id : Identity) : (b.fileOf id).retains sequence = false := by
  by_contra hr
  have hr : (b.fileOf id).retains sequence = true := by simpa using hr
  have hne : (b.ledger id).queue ≠ [] := by
    intro hnil
    unfold File.retains at hr
    change (b.fileOf id).queue = [] at hnil
    rw [hnil] at hr
    cases hr
  have hany : b.anyRetains sequence = true := any_eq_true.mpr ⟨id, h.active id hne, hr⟩
  rw [hn] at hany
  cases hany

theorem waitDurable_all_done (h : b.waitDurable none cut = .done none) :
    b.mount.loss ≤ cut.lossSequence ∧ b.anyRetains cut.sequence = false := by
  unfold waitDurable at h
  dsimp only at h
  split at h
  · cases h
  next hl =>
  unfold waitOn at h
  split at h
  · next hr => exact ⟨Nat.le_of_not_lt hl, by simpa using hr⟩
  · split at h <;> cases h

variable {st : BarrierState} {k : Nat}

theorem waitBarrier_done (hst : b.barriers[k]? = some st)
    (h : b.waitBarrier k = .done (false, none)) :
    st.lost = false ∧ b.anyRetains st.cut.sequence = false := by
  unfold waitBarrier at h
  rw [hst] at h
  dsimp only at h
  split at h
  · cases h
  · next hl =>
    split at h
    · next hr => exact ⟨Bool.eq_false_iff.mpr hl, by simpa using hr⟩
    · split at h <;> cases h

theorem waitBarrier_lost (hst : b.barriers[k]? = some st)
    (h : st.lost = true) : ∃ e, b.waitBarrier k = .done (true, e) := by
  unfold waitBarrier
  rw [hst]
  dsimp only
  rw [if_pos h]
  exact ⟨_, rfl⟩

theorem identityLoss_eq (b : Buffer) (id : Identity) : b.identityLoss id = (b.fileOf id).lastLoss := by
  unfold identityLoss fileOf
  split
  · next hf => rw [hf]; rfl
  · next f hf => rw [hf]; rfl

namespace Since

variable {kept : Identity → Prop} {b b' : Buffer}

section

variable (h : Since kept b b')
include h

/-- The counter of a file moves exactly if a drop took a ticket. -/
theorem lastLoss_cases (hk : kept id) :
    tickets (b.mount.news b'.mount id) = [] ∧ (b'.fileOf id).lastLoss = (b.fileOf id).lastLoss ∨
    tickets (b.mount.news b'.mount id) ≠ [] ∧ b.mount.loss < (b'.fileOf id).lastLoss := by
  rw [h.observed id hk, List.getLastD_eq_getLast?]
  cases hlast : (tickets (b.mount.news b'.mount id)).getLast? with
  | none => exact .inl ⟨List.getLast?_eq_none_iff.mp hlast, rfl⟩
  | some t =>
    have hmem := List.mem_of_getLast? hlast
    exact .inr ⟨ne_nil_of_mem hmem, (h.fresh id t hmem).1⟩

/-- A drop shows in the counter of its file. -/
theorem lt_of_lost (hk : kept id)
    (hl : Lost (b.mount.news b'.mount id) r) : b.mount.loss < (b'.fileOf id).lastLoss := by
  obtain ⟨R, t, -, he⟩ := hl
  have hmem := h.counted id R t he
  rcases h.lastLoss_cases hk with ⟨hnil, -⟩ | ⟨-, hlt⟩
  · rw [hnil] at hmem
    cases hmem
  · exact hlt

/-- A drop of any file shows at the mount. -/
theorem lt_loss_of_lost
    (hl : Lost (b.mount.news b'.mount id) r) : b.mount.loss < b'.mount.loss := by
  obtain ⟨R, t, -, he⟩ := hl
  obtain ⟨h1, h2⟩ := h.fresh id t (h.counted id R t he)
  omega

/-- Losses of the later state that are not news are losses of the earlier one. -/
theorem lost_before (hl : Lost (b'.mount.trace id) r)
    (hn : ¬ Lost (b.mount.news b'.mount id) r) : Lost (b.mount.trace id) r := by
  rw [h.grows, Lost.append_iff] at hl
  exact hl.resolve_right hn

end

end Since
end Buffer

namespace System

variable {s : System} {s' : System} {op : Op}

/-- A step tells everything about losses, unless it forgets a file. -/
theorem Outcome.since_or_forget (ho : Outcome s op s') (h : s.Inv) :
    s.buffer.Since (fun _ => True) s'.buffer ∨
      ∃ id, op = .forget id ∧ s' = s.withBuffer (s.buffer.forget id).1 := by
  have hb := h.buffer
  cases ho with
  | keeps hb' hf hr he => exact .inl (.of_quiet hb'.flies.quiet)
  | detach hb' hf hr he => exact .inl (.of_quiet (hb'.quiet.mono fun _ => Event.Idle.lossless))
  | drop id reason errno => exact .inl (since_dropLocked hb id reason errno)
  | dropAll order reason => exact .inl (since_dropEach reason _ hb)
  | forget id => exact .inr ⟨id, rfl, rfl⟩
  | beginBarrier observed => exact .inl (since_beginBarrier s.buffer observed)
  | endBarrier barrier => exact .inl (since_endBarrier s.buffer barrier)
  | enter call fl hfree hb' hp hf hr he =>
    rw [hb']
    exact .inl (.of_quiet (hb.flushEnter_flies fl.id).quiet)
  | flight call fl hl hm hf hr he => exact .inl (.of_quiet (hm.flies hb).quiet)
  | execute id => exact .inl (.refl s.buffer)

theorem Outcome.since (ho : Outcome s op s') (h : s.Inv) {kept : Identity → Prop}
    (hk : ∀ id, op = .forget id → ¬ kept id) : s.buffer.Since kept s'.buffer := by
  rcases ho.since_or_forget h with hs | ⟨id, hop, rfl⟩
  · exact { hs with observed := fun id _ => hs.observed id trivial }
  · exact since_forget s.buffer (hk id hop)

variable {allowed : Op → Prop}

/-- What a run tells about losses, for files that it does not forget. -/
theorem Runs.since (hr : Runs allowed s s') (h : s.Inv) :
    s.buffer.Since (fun id => ∀ op, allowed op → op ≠ .forget id) s'.buffer := by
  refine (hr.invariant (P := fun t => s.buffer.Since (fun id => ∀ op, allowed op → op ≠ .forget id)
    t.buffer) h (.refl s.buffer) fun t op t' ht ha ho hsince => ?_).2
  exact hsince.trans (ho.since ht fun id heq hkept => hkept op ha heq)

/-- A file has seen no ticket that was not taken. -/
theorem Reachable.lastLoss_le {content : Identity → List UInt8} (h : Reachable allowed content s)
    (id : Identity) : (s.buffer.fileOf id).lastLoss ≤ s.buffer.mount.loss := by
  obtain ⟨width, payload, opts, b, hnew, hr⟩ := h
  have hinit := inv_init hnew content
  have hzero : ∀ id, ((init b content).buffer.fileOf id).lastLoss = 0 := by
    unfold new at hnew
    split at hnew
    · cases hnew
    · split at hnew
      · cases hnew
      · cases hnew
        exact fun _ => rfl
  refine (hr.invariant (P := fun t => ∀ id, (t.buffer.fileOf id).lastLoss ≤ t.buffer.mount.loss) hinit
    (fun id => by rw [hzero]; exact Nat.zero_le _) fun t op t' ht _ ho hle id => ?_).2 id
  rcases ho.since_or_forget ht with hs | ⟨id', -, rfl⟩
  · have hid := hle id
    have hloss := hs.loss
    rw [hs.observed id trivial, List.getLastD_eq_getLast?]
    cases hlast : (tickets (t.buffer.mount.news t'.buffer.mount id)).getLast? with
    | none => exact Nat.le_trans hid hloss
    | some ticket => exact (hs.fresh id ticket (List.mem_of_getLast? hlast)).2
  · obtain ⟨hloss, hlast⟩ := lastLoss_forget t.buffer id' id
    exact Nat.le_trans hlast (Nat.le_trans (hle id) (Nat.le_of_eq hloss.symm))

/-- No silent loss. A wait on a cut that was taken in an earlier state of the run succeeds only if
every record of the cut was durable when it left, or had been dropped before the cut was taken. A drop
after that makes the wait fail, for the file, for the mount and for a barrier that is registered. The
counter of a file moves exactly if a drop took a ticket. -/
theorem no_silent_loss {content : Identity → List UInt8} {allowed : Op → Prop} {s s' : System}
    (h : Reachable (fun _ => True) content s) (hr : Runs allowed s s') :
    (∀ id, (∀ op, allowed op → op ≠ .forget id) →
      (s'.buffer.waitDurable (some id) s.buffer.snapshot = .done none →
        ∀ r ∈ Trace.accepted (s'.buffer.mount.trace id), r.seq ≤ s.buffer.snapshot.sequence →
          Trace.Lost (s.buffer.mount.trace id) r ∨ Trace.Covered (s'.buffer.mount.trace id) r) ∧
      (∀ r, Trace.Lost (s.buffer.mount.news s'.buffer.mount id) r →
        (∃ e, s'.buffer.waitDurable (some id) s.buffer.snapshot = .done (some e)) ∧
          s.buffer.identityLoss id < s'.buffer.identityLoss id) ∧
      s.buffer.identityLoss id ≤ s'.buffer.identityLoss id ∧
      (s.buffer.identityLoss id < s'.buffer.identityLoss id →
        ∃ report, Event.dropped report ∈ s.buffer.mount.news s'.buffer.mount id)) ∧
    ((s'.buffer.waitDurable none s.buffer.snapshot = .done none →
        ∀ id, ∀ r ∈ Trace.accepted (s'.buffer.mount.trace id), r.seq ≤ s.buffer.snapshot.sequence →
          Trace.Lost (s.buffer.mount.trace id) r ∨ Trace.Covered (s'.buffer.mount.trace id) r) ∧
      ∀ id r, Trace.Lost (s.buffer.mount.news s'.buffer.mount id) r →
        ∃ e, s'.buffer.waitDurable none s.buffer.snapshot = .done (some e)) ∧
    ∀ (k : Nat) st st', s.buffer.barriers[k]? = some st → st.cut = s.buffer.snapshot →
      s'.buffer.barriers[k]? = some st' → st'.registered = true →
      (s'.buffer.waitBarrier k = .done (false, none) →
        ∀ id, ∀ r ∈ Trace.accepted (s'.buffer.mount.trace id), r.seq ≤ s.buffer.snapshot.sequence →
          Trace.Lost (s.buffer.mount.trace id) r ∨ Trace.Covered (s'.buffer.mount.trace id) r) ∧
      (∀ id r, Trace.Lost (s.buffer.mount.news s'.buffer.mount id) r →
        r.seq ≤ s.buffer.snapshot.sequence → ∃ e, s'.buffer.waitBarrier k = .done (true, e)) ∧
      (st.lost = true → ∃ e, s'.buffer.waitBarrier k = .done (true, e)) := by
  have hsince := hr.since h.inv
  have hinv := (h.inv.runs hr).buffer
  refine ⟨fun id hk => ⟨fun hw r hmem hle => ?_, fun r hl => ?_, ?_, fun hlt => ?_⟩,
    ⟨fun hw id r hmem hle => ?_, fun id r hl => ?_⟩, fun k st st' hst hcut hst' hreg => ?_⟩
  · obtain ⟨hlost, hret⟩ := waitDurable_done hw
    refine (hinv.lost_or_covered hret hmem hle).imp_left fun hl => hsince.lost_before hl fun hn => ?_
    exact of_decide_eq_false hlost (hsince.lt_of_lost hk hn)
  · have hlt := hsince.lt_of_lost hk hl
    refine ⟨⟨_, waitDurable_lost (decide_eq_true hlt)⟩, ?_⟩
    rw [identityLoss_eq, identityLoss_eq]
    exact Nat.lt_of_le_of_lt (h.lastLoss_le id) hlt
  · rw [identityLoss_eq, identityLoss_eq]
    have hle := h.lastLoss_le id
    rcases hsince.lastLoss_cases hk with ⟨-, heq⟩ | ⟨-, hlt⟩ <;> omega
  · rw [identityLoss_eq, identityLoss_eq] at hlt
    rcases hsince.lastLoss_cases hk with ⟨-, heq⟩ | ⟨hne, -⟩
    · omega
    obtain ⟨t, ht⟩ := exists_mem_of_ne_nil _ hne
    obtain ⟨e, he, heq⟩ := mem_filterMap.mp ht
    cases e with
    | dropped report => exact ⟨report, he⟩
    | _ => cases heq
  · obtain ⟨hloss, hany⟩ := waitDurable_all_done hw
    refine (hinv.lost_or_covered (hinv.retains_of_anyRetains hany id) hmem hle).imp_left fun hl =>
      hsince.lost_before hl fun hn => ?_
    exact not_lt.mpr hloss (hsince.lt_loss_of_lost hn)
  · have hlt : s.buffer.snapshot.lossSequence < s'.buffer.mount.loss := hsince.lt_loss_of_lost hl
    unfold waitDurable
    dsimp only
    rw [if_pos hlt]
    exact ⟨_, rfl⟩
  obtain ⟨st₂, hst₂, hs⟩ := hsince.barriers k st hst
  cases hst'.symm.trans hst₂
  refine ⟨fun hw id r hmem hle => ?_, fun id r hl hle => ?_, fun hl => ?_⟩
  · obtain ⟨hlost, hany⟩ := waitBarrier_done hst' hw
    rw [hs.cut, hcut] at hany
    refine (hinv.lost_or_covered (hinv.retains_of_anyRetains hany id) hmem hle).imp_left fun hl =>
      hsince.lost_before hl fun hn => ?_
    have htold := hs.told hreg id r hn (hcut ▸ hle)
    exact Bool.false_ne_true (hlost.symm.trans htold)
  · exact waitBarrier_lost hst' (hs.told hreg id r hl (hcut ▸ hle))
  · exact waitBarrier_lost hst' (hs.lost hl)

/-- A write and a barrier after it. -/
private def written : List Op := [.write caller 7 0 0 [1, 2] .none, .beginBarrier 0]

/-- The write is flushed and becomes durable. -/
private def settled : List Op :=
  [.flush 0 7 ⟨1, 0⟩, .flushNext 0 false, .execute 7, .flushReturn 0 (.ok [5]), .visible 5, .durable 5]

/-- The write was durable when it left, and the waits for its cut succeed. -/
theorem no_silent_loss_settled :
    let s := smallAfter written
    let s' := (s.run settled).getD s
    s'.buffer.waitDurable (some 7) s.buffer.snapshot = .done none ∧
      s'.buffer.waitBarrier 0 = .done (false, none) ∧
      ∀ r ∈ Trace.accepted (s'.buffer.mount.trace 7), r.seq ≤ s.buffer.snapshot.sequence →
        Trace.Lost (s.buffer.mount.trace 7) r ∨ Trace.Covered (s'.buffer.mount.trace 7) r := by
  have hreach : Reachable (fun _ => True) (fun _ => []) (smallAfter written) :=
    reachable_smallAfter (by decide) fun _ _ => trivial
  have hruns : Runs (· ≠ .forget 7) (smallAfter written)
      (((smallAfter written).run settled).getD (smallAfter written)) :=
    runs_getD settled (by decide) (by simp [settled])
  have hwait : (((smallAfter written).run settled).getD (smallAfter written)).buffer.waitDurable
      (some 7) (smallAfter written).buffer.snapshot = .done none := by decide
  have hfile := (no_silent_loss hreach hruns).1 7 fun op hop => hop
  exact ⟨hwait, by decide, hfile.1 hwait⟩

/-- The write is dropped before the cut is taken. -/
private def droppedEarly : List Op := [.write caller 7 0 0 [1, 2] .none, .drop 7 "retired" 0]

/-- A drop before the cut is no loss to the wait: the record of sequence one never became durable. -/
theorem wait_succeeds_droppedEarly :
    Reachable (fun _ => True) (fun _ => []) (smallAfter droppedEarly) ∧
    (smallAfter droppedEarly).buffer.waitDurable (some 7) (smallAfter droppedEarly).buffer.snapshot =
      .done none ∧
    ∃ r ∈ Trace.accepted ((smallAfter droppedEarly).buffer.mount.trace 7),
      r.seq ≤ (smallAfter droppedEarly).buffer.snapshot.sequence ∧
      ¬ Trace.Covered ((smallAfter droppedEarly).buffer.mount.trace 7) r := by
  refine ⟨reachable_smallAfter (by decide) fun _ _ => trivial, by decide, ?_⟩
  obtain ⟨r, hr⟩ : ∃ r, accepted ((smallAfter droppedEarly).buffer.mount.trace 7) = [r] ∧ r.seq ≤ 1 :=
    ⟨_, rfl, by decide⟩
  refine ⟨r, by rw [hr.1]; exact mem_singleton_self r, hr.2, ?_⟩
  rintro ⟨R, cause, es, -, -, hrep, -⟩
  have hnone : ((smallAfter droppedEarly).buffer.mount.trace 7).any Event.isReported = false := by
    decide
  exact any_eq_false.mp hnone _ hrep rfl

end System
end PortableFS.Writeback
